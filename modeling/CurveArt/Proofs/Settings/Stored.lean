import CurveArt.Proofs.Color.Text
import CurveArt.Proofs.Json.Values
import CurveArt.Settings.Stored

/-!
# Settings in and out of store

Stored settings are read back as they are, up to their colours, which are stored as bytes. This
takes that every double is finite and that its text reads as the double again: the reader is quick
and finds only a double near to some texts.

Each member is taken for the field that it was written for, so reading all of them copies the
settings field by field, whatever the settings were before. Both layouts are read alike. A member
that is refused ends the reading, whatever comes after it.

Main results:

* `Settings.ofStored_of_taken` and `Settings.ofStored_of_refused`: reading either layout, field by
  field.
* `Settings.ofStored_of_written`: what this is where every double reads back.
* `Settings.ofStored_storedText`: once and twice through the store.
-/

namespace CurveArt

open Json (Reader ReadError Takes AreBlanks ReadsBack ReadsAs floatText quote skipBlanks
  continuesNumber)
open Decimal (Halts halts_cons)

variable {s t : Settings} {text rest gap : List Char}

namespace Settings

/-- The settings with all colours moved to the nearest bytes. -/
def quantized (s : Settings) : Settings :=
  { s with
    color := s.color.quantized
    color1 := s.color1.quantized
    color2 := s.color2.quantized
    backgroundColor := s.backgroundColor.quantized }

/-- All doubles of the settings that are no channels of colours. -/
def floats (s : Settings) : List Float :=
  [s.domain.1, s.domain.2, s.alpha, s.pointSize, s.lineWidth, s.jitter, s.rotationDegrees,
    s.figureSize.1, s.figureSize.2]

def colors (s : Settings) : List Rgba :=
  [s.color, s.color1, s.color2, s.backgroundColor]

/-- The settings with what `f` makes of their doubles, channels of colours apart. -/
def mapFloats (f : Float → Float) (s : Settings) : Settings :=
  { s with
    domain := (f s.domain.1, f s.domain.2)
    alpha := f s.alpha
    pointSize := f s.pointSize
    lineWidth := f s.lineWidth
    jitter := f s.jitter
    rotationDegrees := f s.rotationDegrees
    figureSize := (f s.figureSize.1, f s.figureSize.2) }

/-- The number of samples is a word, and all doubles are finite and can be read back. -/
structure Storable (s : Settings) : Prop where
  sampleCount_lt : s.sampleCount < Word.count 64
  isFinite : ∀ x ∈ s.floats, x.isFinite = true
  readsBack : ∀ x ∈ s.floats, ReadsBack x

end Settings

namespace Field

/-- Settings with one field from others. -/
def copied (source s : Settings) : Field → Settings
  | .style => { s with style := source.style }
  | .f1 => { s with f1 := source.f1 }
  | .f2 => { s with f2 := source.f2 }
  | .sampling => { s with sampling := source.sampling }
  | .domain => { s with domain := source.domain }
  | .sampleCount => { s with sampleCount := source.sampleCount }
  | .colorMode => { s with colorMode := source.colorMode }
  | .color => { s with color := source.color }
  | .color1 => { s with color1 := source.color1 }
  | .color2 => { s with color2 := source.color2 }
  | .alpha => { s with alpha := source.alpha }
  | .pointSize => { s with pointSize := source.pointSize }
  | .lineWidth => { s with lineWidth := source.lineWidth }
  | .jitter => { s with jitter := source.jitter }
  | .mirror => { s with mirror := source.mirror }
  | .rotationDegrees => { s with rotationDegrees := source.rotationDegrees }
  | .backgroundColor => { s with backgroundColor := source.backgroundColor }
  | .seed => { s with seed := source.seed }
  | .figureSize => { s with figureSize := source.figureSize }

/-- The doubles that a field is written with. -/
def floats (s : Settings) : Field → List Float
  | .domain => [s.domain.1, s.domain.2]
  | .alpha => [s.alpha]
  | .pointSize => [s.pointSize]
  | .lineWidth => [s.lineWidth]
  | .jitter => [s.jitter]
  | .rotationDegrees => [s.rotationDegrees]
  | .figureSize => [s.figureSize.1, s.figureSize.2]
  | _ => []

theorem mem_floats {field : Field} {x : Float} (h : x ∈ field.floats s) : x ∈ s.floats := by
  simp only [Settings.floats, List.mem_cons]
  cases field <;> simp only [floats, List.mem_cons, List.not_mem_nil, or_false] at h <;> tauto

/-- No two fields share a key. -/
theorem ofKey?_key (field : Field) : ofKey? field.key = some field := by
  cases field <;> decide

/-- All fields together make up the settings. -/
theorem foldl_copied (source s : Settings) : all.foldl (copied source) s = source := by
  cases source
  cases s
  simp only [all, List.foldl_cons, List.foldl_nil, copied]

/-! ## Values -/

theorem takes_put {α : Type} {read : Reader α} {value : α} (h : Takes read text value)
    (set : α → Settings) : Takes (put read set) text (set value) := by
  intro gap rest hgap hrest
  unfold put
  rw [h gap rest hgap hrest]
  rfl

theorem put_error {α : Type} {read : Reader α} {e : ReadError} (h : read text = .error e)
    (set : α → Settings) : put read set text = .error e := by
  unfold put
  rw [h]
  rfl

theorem takes_color (c : Rgba) : Takes readColor (quote c.text.toList) c.quantized := by
  intro gap rest hgap hrest
  unfold readColor
  rw [Json.takes_text "a string" c.text gap rest hgap hrest]
  simp only [bind, Except.bind, Rgba.ofText?_text]

theorem takes_float {x y : Float} (hx : x.isFinite = true ∧ ReadsAs x y)
    (h : (Json.Value.ofFloat x).Written text) : Takes Json.readFloat text y := by
  unfold Json.Value.ofFloat at h
  rw [if_pos hx.1] at h
  rw [h.eq_scalar nofun nofun]
  exact Json.takes_float hx.2

theorem takes_pair {p p' : Float × Float} (hfirst : p.1.isFinite = true ∧ ReadsAs p.1 p'.1)
    (hsecond : p.2.isFinite = true ∧ ReadsAs p.2 p'.2) (h : (pairValue p).Written text) :
    Takes Json.readPair text p' := by
  obtain ⟨front, middle, back, hfront, hmiddle, hback, rfl⟩ := h.exists_pair
  unfold Json.Value.ofFloat
  rw [if_pos hfirst.1, if_pos hsecond.1]
  exact Json.takes_pair hfirst.2 hsecond.2 hfront hmiddle hback

theorem takes_seed (h : (value s .seed).Written text) :
    Takes (Json.readOptional (Json.readNatural "u64")) text (s.seed.map UInt64.toNat) := by
  unfold value at h
  cases hseed : s.seed with
  | none =>
    rw [hseed] at h
    rw [h.eq_scalar nofun nofun]
    exact Json.takes_none _
  | some n =>
    rw [hseed] at h
    rw [h.eq_scalar nofun nofun]
    exact Json.takes_someNatural n.toNat_lt _

theorem style_found (style : Style) :
    (styleNames.find? fun entry => entry.1 == style.name).map Prod.snd = some style := by
  cases style <;> decide

theorem sampling_found (sampling : Sampling) :
    (samplingNames.find? fun entry => entry.1 == sampling.name).map Prod.snd = some sampling := by
  cases sampling <;> decide

theorem colorMode_found (mode : ColorMode) :
    (colorModeNames.find? fun entry => entry.1 == mode.name).map Prod.snd = some mode := by
  cases mode <;> decide

/-- The field of the one settings, as it is written, is taken for the field of the other. -/
def Taken (s u : Settings) (field : Field) : Prop :=
  ∀ t text, (field.value s).Written text → Takes (update t field) text (copied u t field)

/-- A written field is taken for what its doubles read as. -/
theorem taken_mapFloats {field : Field} {f : Float → Float} (hcount : s.sampleCount < Word.count 64)
    (hfloats : ∀ x ∈ field.floats s, x.isFinite = true ∧ ReadsAs x (f x)) :
    field.Taken s (s.quantized.mapFloats f) := by
  intro t text h
  unfold update copied
  cases field with
  | style =>
    rw [h.eq_scalar nofun nofun]
    exact takes_put (Json.takes_choice (style_found s.style)) _
  | f1 =>
    rw [h.eq_scalar nofun nofun]
    exact takes_put (Json.takes_text _ s.f1) _
  | f2 =>
    rw [h.eq_scalar nofun nofun]
    exact takes_put (Json.takes_text _ s.f2) _
  | sampling =>
    rw [h.eq_scalar nofun nofun]
    exact takes_put (Json.takes_choice (sampling_found s.sampling)) _
  | domain | figureSize =>
    obtain ⟨hfirst, hfloats⟩ := List.forall_mem_cons.1 hfloats
    obtain ⟨hsecond, -⟩ := List.forall_mem_cons.1 hfloats
    exact takes_put (takes_pair hfirst hsecond h) _
  | sampleCount =>
    rw [h.eq_scalar nofun nofun]
    exact takes_put (Json.takes_natural hcount _) _
  | colorMode =>
    rw [h.eq_scalar nofun nofun]
    exact takes_put (Json.takes_choice (colorMode_found s.colorMode)) _
  | color =>
    rw [h.eq_scalar nofun nofun]
    exact takes_put (takes_color s.color) _
  | color1 =>
    rw [h.eq_scalar nofun nofun]
    exact takes_put (takes_color s.color1) _
  | color2 =>
    rw [h.eq_scalar nofun nofun]
    exact takes_put (takes_color s.color2) _
  | alpha | pointSize | lineWidth | jitter | rotationDegrees =>
    exact takes_put (takes_float (hfloats _ (List.mem_cons_self ..)) h) _
  | mirror =>
    rw [h.eq_scalar nofun nofun]
    exact takes_put (Json.takes_boolean s.mirror) _
  | backgroundColor =>
    rw [h.eq_scalar nofun nofun]
    exact takes_put (takes_color s.backgroundColor) _
  | seed =>
    have hwords : (s.seed.map UInt64.toNat).map Nat.toUInt64 = s.seed := by
      cases s.seed with
      | none => rfl
      | some n => exact congrArg some n.ofNat_toNat
    show Takes _ text { t with seed := s.seed }
    rw [← hwords]
    exact takes_put (takes_seed h) _

/-- The value of the field is refused, with whatever comes before and after it. -/
def Refused (s : Settings) (e : ReadError) (field : Field) : Prop :=
  ∀ t text gap rest, (field.value s).Written text → AreBlanks gap →
    update t field (gap ++ (text ++ rest)) = .error e

/-! ## Members -/

/-- The text is the member of a field: its key and its value, with any blanks before them. -/
def WrittenMember (s : Settings) (field : Field) (text : List Char) : Prop :=
  ∃ front middle value, AreBlanks front ∧ AreBlanks middle ∧ (field.value s).Written value ∧
    text = front ++ (quote field.key.toList ++ ':' :: (middle ++ value))

end Field

namespace Settings

variable {u : Settings} {field : Field} {fields before after seen : List Field}
  {member : Field → List Char} {e : ReadError}

theorem Storable.taken (hs : s.Storable) (field : Field) : field.Taken s s.quantized :=
  Field.taken_mapFloats (f := id) hs.sampleCount_lt fun x hx =>
    ⟨hs.isFinite x (Field.mem_floats hx), hs.readsBack x (Field.mem_floats hx)⟩

/-- What moves to a member: nothing in front of the first one, and a comma in front of another. -/
def separator (seen : List Field) : List Char :=
  if seen.isEmpty then [] else [',']

theorem nextMember?_quote (hgap : AreBlanks gap) (seen : List Field) (rest : List Char) :
    nextMember? seen.isEmpty (separator seen ++ (gap ++ '"' :: rest)) = .ok (some rest, []) := by
  unfold separator nextMember?
  cases seen.isEmpty with
  | true =>
    rw [if_pos rfl, List.nil_append, Json.skipBlanks_front hgap rfl]
    rfl
  | false =>
    have hfront : skipBlanks (gap ++ '"' :: rest) = '"' :: rest :=
      Json.skipBlanks_front hgap rfl rest
    rw [if_neg Bool.false_ne_true, List.singleton_append, Json.skipBlanks_cons rfl]
    simp only [Bool.false_eq_true, if_false, hfront]

/-- One member is read as its value is. -/
theorem readMembers_member (htext : field.WrittenMember s text) (hseen : field ∉ seen) (fuel : Nat)
    (t : Settings) (rest : List Char) : ∃ middle value, AreBlanks middle ∧
      (field.value s).Written value ∧
      readMembers (fuel + 1) seen t (separator seen ++ (text ++ rest)) =
        (Field.update t field (middle ++ (value ++ rest))).bind fun read =>
          readMembers fuel (field :: seen) read.1 read.2 := by
  obtain ⟨front, middle, value, hfront, hmiddle, hvalue, rfl⟩ := htext
  have hnew : seen.contains field = false := by simpa using hseen
  have hcolon (after : List Char) : Json.expect [':'] (skipBlanks (':' :: after)) = .ok after := by
    rw [Json.skipBlanks_cons rfl]
    rfl
  have hshape : front ++ (quote field.key.toList ++ ':' :: (middle ++ value)) ++ rest =
      front ++ '"' :: (field.key.toList.flatMap Json.escapeChar ++ '"' ::
        ':' :: (middle ++ (value ++ rest))) := by
    rw [Json.quote_append]
    simp only [List.append_assoc, List.cons_append]
  refine ⟨middle, value, hmiddle, hvalue, ?_⟩
  rw [hshape, readMembers, nextMember?_quote hfront]
  simp only [bind, Except.bind, Json.unquote?_quote, String.ofList_toList, Field.ofKey?_key, hnew,
    hcolon, Bool.false_eq_true, if_false]

theorem readMembers_of_taken (htaken : field.Taken s u) (htext : field.WrittenMember s text)
    (hseen : field ∉ seen) (hrest : Halts continuesNumber rest) (fuel : Nat) :
    readMembers (fuel + 1) seen t (separator seen ++ (text ++ rest)) =
      readMembers fuel (field :: seen) (Field.copied u t field) rest := by
  obtain ⟨middle, value, hmiddle, hvalue, hread⟩ := readMembers_member htext hseen fuel t rest
  rw [hread, htaken t value hvalue middle rest hmiddle hrest]
  rfl

theorem readMembers_of_refused (hrefused : field.Refused s e) (htext : field.WrittenMember s text)
    (hseen : field ∉ seen) (rest : List Char) (fuel : Nat) :
    readMembers (fuel + 1) seen t (separator seen ++ (text ++ rest)) = .error e := by
  obtain ⟨middle, value, hmiddle, hvalue, hread⟩ := readMembers_member htext hseen fuel t rest
  rw [hread, hrefused t value middle rest hvalue hmiddle]
  rfl

/-- Behind other members, a comma stands before a member. -/
theorem comma_eq_separator (hsome : seen ≠ []) (text : List Char) :
    ',' :: text = separator seen ++ text := by
  unfold separator
  rw [if_neg (by rwa [List.isEmpty_iff])]
  rfl

/-- What follows a member: other members and what closes the map. -/
theorem halts_members (hgap : AreBlanks gap) (fields : List Field) (rest : List Char) :
    Halts continuesNumber
      (fields.flatMap (fun field => ',' :: member field) ++ (gap ++ '\x7d' :: rest)) := by
  cases fields with
  | nil => exact hgap.halts (halts_cons rfl rest)
  | cons field fields => exact halts_cons rfl _

/-- A field that comes later is neither this one nor one of those before. -/
theorem not_mem_seen (hfields : (field :: fields).Nodup)
    (hseen : ∀ other ∈ field :: fields, other ∉ seen) :
    ∀ other ∈ fields, other ∉ field :: seen := by
  intro other hother
  rw [List.mem_cons, not_or]
  exact ⟨fun heq => (List.nodup_cons.1 hfields).1 (heq ▸ hother),
    hseen other (List.mem_cons_of_mem _ hother)⟩

/-- The members after the first one are read into their fields, and the map ends. -/
theorem readMembers_members (htaken : ∀ field ∈ fields, field.Taken s u) (hgap : AreBlanks gap)
    (hmember : ∀ field ∈ fields, field.WrittenMember s (member field)) (hfields : fields.Nodup)
    (hseen : ∀ field ∈ fields, field ∉ seen) (hsome : seen ≠ []) (t : Settings) :
    readMembers (fields.length + 1) seen t
        (fields.flatMap (fun field => ',' :: member field) ++ (gap ++ '\x7d' :: rest)) =
      .ok (fields.foldl (Field.copied u) t, rest) := by
  -- on the members that are left, each of which is read into its own field
  induction fields generalizing seen t with
  | nil =>
    have hend : nextMember? seen.isEmpty (gap ++ '\x7d' :: rest) = .ok (none, rest) := by
      unfold nextMember?
      rw [Json.skipBlanks_front hgap rfl]
      rfl
    show readMembers (0 + 1) seen t (gap ++ '\x7d' :: rest) = _
    rw [readMembers, hend]
    rfl
  | cons field fields ih =>
    obtain ⟨hfirst, hothers⟩ := List.forall_mem_cons.1 hmember
    obtain ⟨htake, htakes⟩ := List.forall_mem_cons.1 htaken
    rw [List.flatMap_cons, List.append_assoc, List.cons_append, comma_eq_separator hsome,
      List.length_cons, readMembers_of_taken htake hfirst (hseen field (List.mem_cons_self ..))
      (halts_members hgap fields rest)]
    exact ih htakes hothers (List.nodup_cons.1 hfields).2 (not_mem_seen hfields hseen)
      (List.cons_ne_nil _ _) _

/-- Members after the first one are read up to one that is refused. -/
theorem readMembers_stop (htaken : ∀ field ∈ before, field.Taken s u)
    (hrefused : field.Refused s e) (hgap : AreBlanks gap)
    (hmember : ∀ field : Field, field.WrittenMember s (member field))
    (hfields : (before ++ field :: after).Nodup)
    (hseen : ∀ other ∈ before ++ field :: after, other ∉ seen) (hsome : seen ≠ []) (t : Settings)
    {fuel : Nat} (hfuel : before.length ≤ fuel) :
    readMembers (fuel + 1) seen t
      ((before ++ field :: after).flatMap (fun field => ',' :: member field) ++
        (gap ++ '\x7d' :: rest)) = .error e := by
  -- on the members before the refused one, which are taken one by one
  induction before generalizing seen t fuel with
  | nil =>
    rw [List.nil_append, List.flatMap_cons, List.append_assoc, List.cons_append,
      comma_eq_separator hsome]
    exact readMembers_of_refused hrefused (hmember field)
      (hseen field (List.mem_append_right _ (List.mem_cons_self ..))) _ fuel
  | cons first before ih =>
    obtain ⟨htake, htakes⟩ := List.forall_mem_cons.1 htaken
    obtain ⟨fuel, rfl⟩ := Nat.exists_eq_add_of_le' (Nat.le_of_add_left_le hfuel)
    rw [List.cons_append, List.flatMap_cons, List.append_assoc, List.cons_append,
      comma_eq_separator hsome, readMembers_of_taken htake (hmember first)
      (hseen first (List.mem_cons_self ..)) (halts_members hgap _ rest)]
    exact ih htakes (List.nodup_cons.1 hfields).2 (not_mem_seen hfields hseen)
      (List.cons_ne_nil _ _) _ (Nat.le_of_succ_le_succ hfuel)

/-! ## Whole texts -/

/-- The members of a stored text, in either layout. -/
theorem exists_members (h : s.stored.Written text) :
    ∃ (member : Field → List Char) (gap : List Char), AreBlanks gap ∧
      (∀ field : Field, field.WrittenMember s (member field)) ∧
      text = '\x7b' :: (member Field.style ++
        (Field.all.tail.flatMap (fun field => ',' :: member field) ++ (gap ++ ['\x7d']))) := by
  unfold stored at h
  cases h with
  | compact =>
    refine ⟨fun field => quote field.key.toList ++ ':' :: (field.value s).compact, [],
      Json.areBlanks_nil,
      fun field => ⟨[], [], _, Json.areBlanks_nil, Json.areBlanks_nil, .compact, rfl⟩, ?_⟩
    show '\x7b' :: Json.compactMembers
      ((Field.style.key, Field.style.value s) :: Field.all.tail.map fun field =>
        (field.key, field.value s)) ++ ['\x7d'] = _
    rw [Json.compactMembers_cons, List.flatMap_map]
    simp only [List.cons_append, List.append_assoc, List.nil_append]
  | lines level =>
    refine ⟨fun field => '\n' :: Json.indent (level + 1) ++ (quote field.key.toList ++ ':' :: ' ' ::
        (field.value s).lines (level + 1)), '\n' :: Json.indent level, Json.areBlanks_indent level,
      fun field => ⟨_, [' '], _, Json.areBlanks_indent (level + 1), Json.areBlanks_space,
        .lines (level + 1), rfl⟩, ?_⟩
    show '\x7b' :: Json.memberLines level
      ((Field.style.key, Field.style.value s) :: Field.all.tail.map fun field =>
        (field.key, field.value s)) ++ '\n' :: Json.indent level ++ ['\x7d'] = _
    rw [Json.memberLines_cons, List.flatMap_map]
    simp only [List.cons_append, List.append_assoc]

theorem ofStored_map (text : List Char) :
    ofStored (String.ofList ('\x7b' :: text)) =
      (readMembers (Field.all.length + 1) [] default text).bind fun read =>
        if skipBlanks read.2 = [] then .ok read.1 else .error .malformed := by
  unfold ofStored readStored
  rw [String.toList_ofList, Json.skipBlanks_cons rfl]
  rfl

/-- **Stored settings are read** as other ones, if each of their fields is taken for a field of
these. -/
theorem ofStored_of_taken (htaken : ∀ field : Field, field.Taken s u)
    (h : s.stored.Written text) : ofStored (String.ofList text) = .ok u := by
  obtain ⟨member, gap, hgap, hmember, rfl⟩ := exists_members h
  have hmembers : readMembers (Field.all.length + 1) [] default (member Field.style ++
      (Field.all.tail.flatMap (fun field => ',' :: member field) ++ (gap ++ ['\x7d']))) =
        .ok (u, []) := by
    have hall : Field.all = .style :: Field.all.tail := rfl
    have hlength : Field.all.length = Field.all.tail.length + 1 := rfl
    have hfold := Field.foldl_copied u default
    rw [hall, List.foldl_cons] at hfold
    have hhalts : Halts continuesNumber
        (Field.all.tail.flatMap (fun field => ',' :: member field) ++ (gap ++ ['\x7d'])) :=
      halts_members hgap Field.all.tail []
    have hfirst := readMembers_of_taken (t := default) (htaken .style) (hmember .style)
      List.not_mem_nil hhalts Field.all.length
    have hothers : readMembers (Field.all.tail.length + 1) [.style]
        (Field.copied u default .style)
        (Field.all.tail.flatMap (fun field => ',' :: member field) ++ (gap ++ ['\x7d'])) =
          .ok (Field.all.tail.foldl (Field.copied u) (Field.copied u default .style), []) :=
      readMembers_members (fun field _ => htaken field) hgap (fun field _ => hmember field)
        (by decide) (by decide) (List.cons_ne_nil _ _) (Field.copied u default .style)
    rw [← hlength, hfold] at hothers
    have hnone : separator [] = [] := rfl
    rw [hothers, hnone, List.nil_append] at hfirst
    exact hfirst
  rw [ofStored_map, hmembers]
  rfl

/-- **Stored settings are refused** at the first of their fields that is, if the fields before it
are taken. -/
theorem ofStored_of_refused (hall : Field.all = .style :: before ++ field :: after)
    (htaken : ∀ field ∈ Field.style :: before, field.Taken s u) (hrefused : field.Refused s e)
    (h : s.stored.Written text) : ofStored (String.ofList text) = .error e := by
  obtain ⟨member, gap, hgap, hmember, rfl⟩ := exists_members h
  obtain ⟨hstyle, hbefore⟩ := List.forall_mem_cons.1 htaken
  have htail : Field.all.tail = before ++ field :: after := by rw [hall]; rfl
  have hlength : before.length ≤ Field.all.tail.length := by
    rw [htail, List.length_append]
    exact Nat.le_add_right _ _
  have hnone : separator [] = [] := rfl
  have hhalts : Halts continuesNumber
      (Field.all.tail.flatMap (fun field => ',' :: member field) ++ (gap ++ ['\x7d'])) :=
    halts_members hgap Field.all.tail []
  have hfirst := readMembers_of_taken (t := default) hstyle (hmember .style)
    List.not_mem_nil hhalts Field.all.length
  have hstop : readMembers Field.all.length [.style] (Field.copied u default .style)
      (Field.all.tail.flatMap (fun field => ',' :: member field) ++ (gap ++ ['\x7d'])) =
        .error e := by
    have hnew : ∀ field ∈ Field.all.tail, field ∉ [Field.style] := by decide
    have hnodup : Field.all.tail.Nodup := by decide
    rw [htail] at hnew hnodup ⊢
    exact readMembers_stop hbefore hrefused hgap hmember hnodup hnew (List.cons_ne_nil _ _) _
      hlength
  rw [hstop, hnone, List.nil_append] at hfirst
  rw [ofStored_map, hfirst]
  rfl

/-- **Stored settings are read back**, in either layout, up to the colours. -/
theorem ofStored_of_written (hs : s.Storable) (h : s.stored.Written text) :
    ofStored (String.ofList text) = .ok s.quantized :=
  ofStored_of_taken hs.taken h

/-- Both are stored alike. -/
theorem stored_quantized (s : Settings) : s.quantized.stored = s.stored := by
  unfold stored
  refine congrArg Json.Value.map (List.map_congr_left fun field _ => ?_)
  cases field with
  | color => exact congrArg (fun text => (_, Json.Value.text text)) s.color.text_quantized
  | color1 => exact congrArg (fun text => (_, Json.Value.text text)) s.color1.text_quantized
  | color2 => exact congrArg (fun text => (_, Json.Value.text text)) s.color2.text_quantized
  | backgroundColor =>
    exact congrArg (fun text => (_, Json.Value.text text)) s.backgroundColor.text_quantized
  | _ => rfl

/-- **Storing and reading settings** changes nothing but colours, and these to what their texts are
read as. Doing so again changes nothing at all: the settings that were read have the text that they
were read from, and are read back from it. -/
theorem ofStored_storedText (hs : s.Storable) :
    ofStored s.storedText = .ok s.quantized ∧
      (∀ c ∈ s.colors, Rgba.ofText? c.text = some c.quantized) ∧
      s.quantized.storedText = s.storedText ∧
      ofStored s.quantized.storedText = .ok s.quantized := by
  have hread : ofStored s.storedText = .ok s.quantized := ofStored_of_written hs .compact
  have htext : s.quantized.storedText = s.storedText := by
    unfold storedText
    rw [stored_quantized]
  refine ⟨hread, fun c _ => c.ofText?_text, htext, ?_⟩
  rw [htext]
  exact hread

/-- Settings with a formula that is hardly text, colours that are out of range or no numbers, and
the greatest words. -/
def peculiar : Settings :=
  { default with
    f1 := "\"quoted\" \\ \t \x01 π 𝒳"
    f2 := ""
    domain := (-0.1, 1e22)
    sampleCount := 18446744073709551615
    color := ⟨-1.0, 7.5, 0.3, 0.25⟩
    color1 := ⟨0.0 / 0.0, 1.0 / 0.0, 0.5, 1.0⟩
    seed := some 18446744073709551615 }

theorem ofStored_peculiar :
    ofStored peculiar.storedText = .ok peculiar.quantized ∧
      peculiar.color.text = "#00ff4d40" ∧ peculiar.color1.text = "#00ff80" := by
  have hfinite : ∀ x ∈ peculiar.floats, x.isFinite = true := by decide +kernel
  have hread : ∀ x ∈ peculiar.floats,
      (Json.readFloat (floatText x)).toOption = some (x, []) := by decide +kernel
  have hs : peculiar.Storable := by
    refine ⟨by decide, hfinite, fun x hx => ?_⟩
    have hx := hread x hx
    unfold ReadsBack
    cases hvalue : Json.readFloat (floatText x) with
    | error e =>
      rw [hvalue] at hx
      cases hx
    | ok found =>
      rw [hvalue] at hx
      exact congrArg Except.ok (Option.some.inj hx)
  exact ⟨(ofStored_storedText hs).1, by decide +kernel, by decide +kernel⟩

end Settings

end CurveArt
