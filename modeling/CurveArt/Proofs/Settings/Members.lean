import CurveArt.Proofs.Json.Decided
import CurveArt.Proofs.Settings.Stored
import CurveArt.Settings.Content
import Mathlib.Data.List.Forall2

/-!
# Members of stored settings

Settings are read from a map member by member. Each member has to name a field that no member named
before, and its value is read into that field alone. So what is read is told by the members with no
regard to their order, to which of its keys names a field, and to how keys and blanks are written:
`Fills` says what it is. A sequence is read as the map of its values under the keys of the first
fields.

Main results:

* `Settings.ofStored_object` and `Settings.ofStored_array`: what is read, and when anything is.
* `Settings.ofStored_by_name`: what follows for members in another order and for other keys, for
  missing, repeated and unknown members, and for sequences.
-/

namespace CurveArt

open Json (Reader ReadError Takes Decides AreBlanks IsValue IsContent StandsFor IsElement IsMember
  Separated Listed IsObject IsArray skipBlanks skipBlanks_front continuesNumber bind_eq_ok)
open Decimal (Halts halts_cons)

variable {s t base : Settings} {field other : Field} {raw value text rest left gap : List Char}

namespace Field

/-! ## Fields and their values -/

/-- What stands between the quotes of a key is one of the keys of the field. -/
def NamedBy (field : Field) (raw : List Char) : Prop :=
  ∃ key ∈ field.keys, StandsFor raw key.toList

/-- The value is read as the content of the field, into any settings. -/
def Reads (field : Field) (value : List Char) (content : field.Content) : Prop :=
  ∀ s, Takes (update s field) value (s.set field content)

theorem ofKey?_of_mem {key : String} (h : key ∈ field.keys) : ofKey? key = some field := by
  have hall : ∀ field ∈ all, ∀ key ∈ field.keys, ofKey? key = some field := by decide
  exact hall field field.mem_all key h

theorem mem_keys_of_ofKey? {key : String} (h : ofKey? key = some field) : key ∈ field.keys := by
  unfold ofKey? at h
  have hfound := List.find?_some h
  exact List.contains_iff_mem.1 hfound

theorem NamedBy.unique (h : field.NamedBy raw) (h' : other.NamedBy raw) : field = other := by
  obtain ⟨key, hkey, hraw⟩ := h
  obtain ⟨key', hkey', hraw'⟩ := h'
  obtain rfl := String.toList_injective (hraw.unique hraw')
  exact Option.some.inj ((ofKey?_of_mem hkey).symm.trans (ofKey?_of_mem hkey'))

theorem NamedBy.isContent (h : field.NamedBy raw) : IsContent raw := by
  obtain ⟨key, -, hraw⟩ := h
  exact hraw.isContent

theorem namedBy_key (field : Field) : field.NamedBy field.key.toList := by
  have hkey : field.key ∈ field.keys := by cases field <;> decide
  have hplain : ∀ c ∈ field.key.toList, c ≠ '"' ∧ c ≠ '\\' ∧ 0x20 ≤ c.toNat := by
    cases field <;> simp [key]
  exact ⟨field.key, hkey, Json.standsFor_self hplain⟩

theorem decides_color (h : IsValue value) : Decides readColor value := by
  refine (Json.decides_text h "a string").through
    (fun word => (Rgba.ofText? word).elim (.error (.invalidColor word)) .ok) fun text => ?_
  unfold readColor
  rcases Json.readText "a string" text with e | ⟨word, rest⟩
  · rfl
  · simp only [bind, Except.bind]
    cases Rgba.ofText? word <;> rfl

/-- Each field has a reader, and what it finds becomes the content of the field. -/
theorem exists_reader (field : Field) (h : IsValue value) :
    ∃ (α : Type) (read : Reader α) (content : α → field.Content),
      (∀ s, update s field = put read fun v => s.set field (content v)) ∧ Decides read value := by
  cases field with
  | style => exact ⟨_, _, id, fun _ => rfl, Json.decides_choice h styleNames⟩
  | sampling => exact ⟨_, _, id, fun _ => rfl, Json.decides_choice h samplingNames⟩
  | colorMode => exact ⟨_, _, id, fun _ => rfl, Json.decides_choice h colorModeNames⟩
  | f1 | f2 => exact ⟨_, _, id, fun _ => rfl, Json.decides_text h "a string"⟩
  | domain | figureSize => exact ⟨_, _, id, fun _ => rfl, Json.decides_pair h⟩
  | sampleCount => exact ⟨_, _, id, fun _ => rfl, Json.decides_natural h "usize"⟩
  | color | color1 | color2 | backgroundColor => exact ⟨_, _, id, fun _ => rfl, decides_color h⟩
  | alpha | pointSize | lineWidth | jitter | rotationDegrees =>
    exact ⟨_, _, id, fun _ => rfl, Json.decides_float h⟩
  | mirror => exact ⟨_, _, id, fun _ => rfl, Json.decides_boolean h⟩
  | seed =>
    exact ⟨_, _, Option.map Nat.toUInt64, fun _ => rfl,
      Json.decides_optional h (Json.decides_natural h "u64")⟩

/-- Where settings are read from a value, nothing but the content of the field is. -/
theorem exists_reads (h : IsValue value) (hgap : AreBlanks gap)
    (hrest : Halts continuesNumber rest)
    (hread : update s field (gap ++ (value ++ rest)) = .ok (t, left)) :
    left = rest ∧ ∃ content, field.Reads value content ∧ t = s.set field content := by
  obtain ⟨α, read, content, hupdate, hdecides⟩ := field.exists_reader h
  rw [hupdate] at hread
  obtain ⟨⟨v, left'⟩, hv, hread⟩ := bind_eq_ok.1 hread
  obtain ⟨rfl, rfl⟩ := Prod.mk.inj (Except.ok.inj hread)
  obtain ⟨rfl, htakes⟩ := hdecides gap rest left' v hgap hrest hv
  refine ⟨rfl, content v, fun s => ?_, rfl⟩
  rw [hupdate]
  exact takes_put htakes _

end Field

namespace Settings

/-! ## What members make of settings -/

/-- The members make the settings of others: each of them names a field of its own that is not among
those seen, and has the content of the field for its value. Fields that no member names stay as they
were. -/
structure Fills (seen : List Field) (base : Settings) (members : List (List Char × List Char))
    (s : Settings) : Prop where
  named : ∀ member ∈ members, ∃ field, field ∉ seen ∧ Field.NamedBy field member.1 ∧
    field.Reads member.2 (s.get field)
  distinct : members.Pairwise fun member member' =>
    ∀ field : Field, ¬(field.NamedBy member.1 ∧ field.NamedBy member'.1)
  others : ∀ field : Field, (∀ member ∈ members, ¬field.NamedBy member.1) →
    s.get field = base.get field

variable {seen fields : List Field} {member : List Char × List Char}
  {members members' : List (List Char × List Char)} {fuel : Nat}

theorem fills_nil : Fills seen base [] s ↔ s = base := by
  refine ⟨fun h => ext_get fun field => h.others field nofun, ?_⟩
  rintro rfl
  exact ⟨nofun, .nil, fun _ _ => rfl⟩

/-- The first member fills its field, and the others fill the rest. -/
theorem fills_cons : Fills seen base (member :: members) s ↔
    ∃ field content, field ∉ seen ∧ Field.NamedBy field member.1 ∧ field.Reads member.2 content ∧
      Fills (field :: seen) (base.set field content) members s := by
  constructor
  · rintro ⟨hnamed, hdistinct, hothers⟩
    obtain ⟨⟨field, hseen, hfield, hreads⟩, hnamed⟩ := List.forall_mem_cons.1 hnamed
    obtain ⟨hfirst, hdistinct⟩ := List.pairwise_cons.1 hdistinct
    refine ⟨field, s.get field, hseen, hfield, hreads, fun member' hmember' => ?_, hdistinct,
      fun other hother => ?_⟩
    · -- the field of another member is not that of the first one
      obtain ⟨other, hnew, hother, hreads'⟩ := hnamed member' hmember'
      refine ⟨other, ?_, hother, hreads'⟩
      rw [List.mem_cons, not_or]
      refine ⟨?_, hnew⟩
      rintro rfl
      exact hfirst member' hmember' other ⟨hfield, hother⟩
    · by_cases heq : other = field
      · subst heq
        rw [get_set_self]
      · rw [get_set_of_ne heq]
        refine hothers other (List.forall_mem_cons.2 ⟨fun h => heq (h.unique hfield), hother⟩)
  · rintro ⟨field, content, hseen, hfield, hreads, hnamed, hdistinct, hothers⟩
    -- no other member names the field of the first one
    have hfirst (member' : List Char × List Char) (hmember' : member' ∈ members) :
        ¬field.NamedBy member'.1 := by
      intro h
      obtain ⟨other, hnew, hother, -⟩ := hnamed member' hmember'
      exact hnew (h.unique hother ▸ List.mem_cons_self ..)
    have hcontent : s.get field = content := by
      rw [hothers field hfirst, get_set_self]
    refine ⟨List.forall_mem_cons.2 ⟨⟨field, hseen, hfield, hcontent ▸ hreads⟩, ?_⟩,
      List.pairwise_cons.2 ⟨?_, hdistinct⟩, fun other hother => ?_⟩
    · intro member' hmember'
      obtain ⟨other, hnew, hother⟩ := hnamed member' hmember'
      exact ⟨other, fun h => hnew (List.mem_cons_of_mem _ h), hother⟩
    · rintro member' hmember' other ⟨h, h'⟩
      exact hfirst member' hmember' (h.unique hfield ▸ h')
    · obtain ⟨hother, hrest⟩ := List.forall_mem_cons.1 hother
      rw [hothers other hrest, get_set_of_ne]
      rintro rfl
      exact hother hfield

/-! ## Reading members -/

theorem readMembers_gap (hgap : AreBlanks gap) (fuel : Nat) (seen : List Field) (s : Settings)
    (text : List Char) : readMembers fuel seen s (gap ++ text) = readMembers fuel seen s text := by
  cases fuel with
  | zero => rfl
  | succ fuel =>
    unfold readMembers nextMember?
    rw [Json.skipBlanks_gap hgap]

/-- One member is read into its field, which must be new. -/
theorem readMembers_eq_ok (hmember : IsMember member text) (hcontent : IsContent member.1)
    (hvalue : IsValue member.2) (hrest : Halts continuesNumber rest) :
    readMembers (fuel + 1) seen t (separator seen ++ (text ++ rest)) = .ok (s, left) ↔
      ∃ field content, field ∉ seen ∧ Field.NamedBy field member.1 ∧
        field.Reads member.2 content ∧
        readMembers fuel (field :: seen) (t.set field content) rest = .ok (s, left) := by
  obtain ⟨raw, value⟩ := member
  obtain ⟨front, middle, _, hfront, hmiddle, ⟨front', back, hfront', hback, rfl⟩, rfl⟩ := hmember
  have hshape : front ++ '"' :: (raw ++ '"' :: (middle ++ ':' :: (front' ++ (value ++ back)))) ++
      rest = front ++ '"' :: (raw ++ '"' :: (middle ++ ':' :: (front' ++ (value ++
        (back ++ rest))))) := by
    simp only [List.append_assoc, List.cons_append]
  have hcolon := Json.expect_front hmiddle (show Json.isBlank ':' = false from rfl)
    (front' ++ (value ++ (back ++ rest)))
  rw [hshape, readMembers, nextMember?_quote hfront]
  constructor
  · intro h
    obtain ⟨_, hnext, h⟩ := bind_eq_ok.1 h
    obtain rfl := Except.ok.inj hnext
    dsimp only at h
    rcases hcontent.standsFor_or_isRefused with ⟨letters, hletters⟩ | hrefused
    case inr =>
      rw [hrefused] at h
      cases h
    -- the key belongs to a field, which is not among those seen, and its value is read
    rw [Json.unquote?_of_standsFor hletters] at h
    dsimp only at h
    split at h
    case h_1 => cases h
    case h_2 field hfield =>
    split at h
    case isTrue => cases h
    case isFalse hnew =>
    obtain ⟨_, hcolon', h⟩ := bind_eq_ok.1 h
    obtain rfl := Except.ok.inj (hcolon.symm.trans hcolon')
    obtain ⟨⟨t', left'⟩, hupdate, h⟩ := bind_eq_ok.1 h
    obtain ⟨rfl, content, hreads, rfl⟩ :=
      Field.exists_reads hvalue hfront' (hback.halts hrest) hupdate
    refine ⟨field, content, by simpa using hnew,
      ⟨_, Field.mem_keys_of_ofKey? hfield, by rwa [String.toList_ofList]⟩, hreads, ?_⟩
    rwa [← readMembers_gap hback]
  · rintro ⟨field, content, hseen, ⟨key, hkey, hraw⟩, hreads, h⟩
    have hread := hreads t front' (back ++ rest) hfront' (hback.halts hrest)
    have hnew : seen.contains field = false := by simpa using hseen
    simp only [bind, Except.bind, Json.unquote?_of_standsFor hraw, String.ofList_toList,
      Field.ofKey?_of_mem hkey, hnew, hcolon, hread, Bool.false_eq_true, if_false,
      readMembers_gap hback]
    exact h

/-- As long as no field comes twice, there is a step left. -/
theorem exists_fuel (hseen : seen.Nodup) (hfuel : seen.length + fuel = Field.all.length + 1) :
    ∃ n, fuel = n + 1 := by
  have hlength := (List.subperm_of_subset hseen fun field _ => field.mem_all).length_le
  exact ⟨fuel - 1, by omega⟩

theorem readMembers_end (hgap : AreBlanks gap) (fuel : Nat) (seen : List Field) (s : Settings)
    (rest : List Char) : readMembers (fuel + 1) seen s (gap ++ '\x7d' :: rest) = .ok (s, rest) := by
  rw [readMembers_gap hgap]
  unfold readMembers nextMember?
  rw [Json.skipBlanks_cons rfl]
  rfl

/-- A member fills its field, where what follows it fills the rest. -/
theorem readMembers_cons_eq_ok {follow : List Char} (hmember : IsMember member text)
    (hcontent : IsContent member.1) (hvalue : IsValue member.2)
    (hfollow : Halts continuesNumber follow)
    (h : ∀ field content, field ∉ seen →
      (readMembers fuel (field :: seen) (t.set field content) follow = .ok (s, left) ↔
        left = rest ∧ Fills (field :: seen) (t.set field content) members s)) :
    readMembers (fuel + 1) seen t (separator seen ++ (text ++ follow)) = .ok (s, left) ↔
      left = rest ∧ Fills seen t (member :: members) s := by
  rw [readMembers_eq_ok hmember hcontent hvalue hfollow, fills_cons]
  constructor
  · rintro ⟨field, content, hnew, hfield, hreads, hread⟩
    obtain ⟨hleft, hfills⟩ := (h field content hnew).1 hread
    exact ⟨hleft, field, content, hnew, hfield, hreads, hfills⟩
  · rintro ⟨hleft, field, content, hnew, hfield, hreads, hfills⟩
    exact ⟨field, content, hnew, hfield, hreads, (h field content hnew).2 ⟨hleft, hfills⟩⟩

theorem ok_eq_ok : (.ok (t, rest) : Except ReadError (Settings × List Char)) = .ok (s, left) ↔
    left = rest ∧ s = t := by
  rw [Except.ok.injEq, Prod.mk.injEq, and_comm, eq_comm, @eq_comm _ s]

/-- **Members up to the end of the map** are read if they fill settings. -/
theorem readMembers_separated (h : Separated IsMember members text)
    (hcontent : ∀ member ∈ members, IsContent member.1)
    (hvalue : ∀ member ∈ members, IsValue member.2) (hseen : seen.Nodup)
    (hfuel : seen.length + fuel = Field.all.length + 1) :
    readMembers fuel seen t (separator seen ++ (text ++ '\x7d' :: rest)) = .ok (s, left) ↔
      left = rest ∧ Fills seen t members s := by
  induction h generalizing fuel seen t with
  | @single member text hmember =>
    obtain ⟨fuel, rfl⟩ := exists_fuel hseen hfuel
    refine readMembers_cons_eq_ok hmember (hcontent _ (List.mem_cons_self ..))
      (hvalue _ (List.mem_cons_self ..)) (halts_cons rfl rest) fun field content hnew => ?_
    have hlength : (field :: seen).length + fuel = Field.all.length + 1 := by
      rw [List.length_cons]
      omega
    -- the last step finds the end of the map
    obtain ⟨fuel, rfl⟩ := exists_fuel (List.nodup_cons.2 ⟨hnew, hseen⟩) hlength
    rw [← List.nil_append ('\x7d' :: rest), readMembers_end Json.areBlanks_nil, ok_eq_ok, fills_nil]
  | @cons member members text text' hmember _ ih =>
    obtain ⟨hkey, hkeys⟩ := List.forall_mem_cons.1 hcontent
    obtain ⟨hfirst, hvalues⟩ := List.forall_mem_cons.1 hvalue
    obtain ⟨fuel, rfl⟩ := exists_fuel hseen hfuel
    rw [List.append_assoc, List.cons_append]
    refine readMembers_cons_eq_ok hmember hkey hfirst (halts_cons rfl _)
      fun field content hnew => ?_
    have hlength : (field :: seen).length + fuel = Field.all.length + 1 := by
      rw [List.length_cons]
      omega
    exact ih hkeys hvalues (List.nodup_cons.2 ⟨hnew, hseen⟩) hlength

/-! ## Reading elements -/

theorem readElements_gap (hgap : AreBlanks gap) (first : Bool) (fields : List Field) (s : Settings)
    (text : List Char) :
    readElements first fields s (gap ++ text) = readElements first fields s text := by
  cases fields with
  | nil =>
    unfold readElements Json.closeSequence
    rw [Json.skipBlanks_gap hgap]
  | cons field fields =>
    unfold readElements Json.closeSequence
    rw [Json.nextElement?_gap hgap, Json.skipBlanks_gap hgap]

theorem readElements_end (hgap : AreBlanks gap) (first : Bool) (fields : List Field)
    (s : Settings) (rest : List Char) :
    readElements first fields s (gap ++ ']' :: rest) = .ok (s, rest) := by
  rw [readElements_gap hgap]
  cases fields <;> rfl

/-- One element is read into the field whose turn it is. -/
theorem readElements_eq_ok {first : Bool} (helement : IsElement value text) (hvalue : IsValue value)
    (hrest : Halts continuesNumber rest) :
    readElements first (field :: fields) t (Json.separator first ++ (text ++ rest)) =
        .ok (s, left) ↔
      ∃ content, field.Reads value content ∧
        readElements false fields (t.set field content) rest = .ok (s, left) := by
  obtain ⟨back, hback, hnext⟩ := helement.exists_next hvalue
  rw [readElements, hnext]
  constructor
  · intro h
    obtain ⟨_, hnext', h⟩ := bind_eq_ok.1 h
    obtain rfl := Except.ok.inj hnext'
    obtain ⟨⟨t', left'⟩, hupdate, h⟩ := bind_eq_ok.1 h
    obtain ⟨rfl, content, hreads, rfl⟩ :=
      Field.exists_reads hvalue Json.areBlanks_nil (hback.halts hrest) hupdate
    exact ⟨content, hreads, by rwa [← readElements_gap hback]⟩
  · rintro ⟨content, hreads, h⟩
    have hread := hreads t [] (back ++ rest) Json.areBlanks_nil (hback.halts hrest)
    rw [List.nil_append] at hread
    simp only [bind, Except.bind, hread, readElements_gap hback]
    exact h

/-- The values as members under the keys of the fields. -/
def keyed (fields : List Field) (values : List (List Char)) : List (List Char × List Char) :=
  (fields.map fun field => field.key.toList).zip values

theorem fills_keyed (hnew : field ∉ seen) {values : List (List Char)} :
    Fills seen t (keyed (field :: fields) (value :: values)) s ↔
      ∃ content, field.Reads value content ∧
        Fills (field :: seen) (t.set field content) (keyed fields values) s := by
  show Fills seen t ((field.key.toList, value) :: keyed fields values) s ↔ _
  rw [fills_cons]
  constructor
  · rintro ⟨other, content, -, hother, hreads, h⟩
    obtain rfl := hother.unique field.namedBy_key
    exact ⟨content, hreads, h⟩
  · rintro ⟨content, hreads, h⟩
    exact ⟨field, content, hnew, field.namedBy_key, hreads, h⟩

/-- An element fills the field whose turn it is, where what follows it fills the rest. -/
theorem readElements_cons_eq_ok {first : Bool} {values : List (List Char)} {follow : List Char}
    (helement : IsElement value text) (hvalue : IsValue value)
    (hfollow : Halts continuesNumber follow) (hnew : field ∉ seen)
    (h : ∀ content : field.Content,
      readElements false fields (t.set field content) follow = .ok (s, left) ↔
        left = rest ∧ Fills (field :: seen) (t.set field content) (keyed fields values) s) :
    readElements first (field :: fields) t (Json.separator first ++ (text ++ follow)) =
        .ok (s, left) ↔
      left = rest ∧ Fills seen t (keyed (field :: fields) (value :: values)) s := by
  rw [readElements_eq_ok helement hvalue hfollow, fills_keyed hnew]
  constructor
  · rintro ⟨content, hreads, hread⟩
    obtain ⟨hleft, hfills⟩ := (h content).1 hread
    exact ⟨hleft, content, hreads, hfills⟩
  · rintro ⟨hleft, content, hreads, hfills⟩
    exact ⟨content, hreads, (h content).2 ⟨hleft, hfills⟩⟩

/-- **Elements up to the end of the sequence** are read if they fill the fields in their order. -/
theorem readElements_separated {first : Bool} {values : List (List Char)}
    (h : Separated IsElement values text) (hvalue : ∀ value ∈ values, IsValue value)
    (hlength : values.length ≤ fields.length) (hfields : fields.Nodup)
    (hseen : ∀ field ∈ fields, field ∉ seen) :
    readElements first fields t (Json.separator first ++ (text ++ ']' :: rest)) = .ok (s, left) ↔
      left = rest ∧ Fills seen t (keyed fields values) s := by
  induction h generalizing first fields seen t with
  | @single value text helement =>
    -- there is a field whose turn it is, as there are no more values than fields
    obtain ⟨field, fields, rfl⟩ := List.exists_cons_of_length_pos hlength
    refine readElements_cons_eq_ok helement (hvalue _ (List.mem_cons_self ..)) (halts_cons rfl rest)
      (hseen field (List.mem_cons_self ..)) fun content => ?_
    have hkeyed : keyed fields [] = [] := List.zip_nil_right
    rw [hkeyed, ← List.nil_append (']' :: rest), readElements_end Json.areBlanks_nil, ok_eq_ok,
      fills_nil]
  | @cons value values text text' helement _ ih =>
    obtain ⟨hfirst, hvalues⟩ := List.forall_mem_cons.1 hvalue
    obtain ⟨field, fields, rfl⟩ := List.exists_cons_of_length_pos
      (Nat.lt_of_lt_of_le (Nat.succ_pos _) hlength)
    obtain ⟨hnew, hfields⟩ := List.nodup_cons.1 hfields
    obtain ⟨hfield, hseen⟩ := List.forall_mem_cons.1 hseen
    rw [List.append_assoc, List.cons_append]
    refine readElements_cons_eq_ok helement hfirst (halts_cons rfl _) hfield fun content => ?_
    refine ih hvalues (Nat.le_of_succ_le_succ hlength) hfields fun other hother => ?_
    rw [List.mem_cons, not_or]
    exact ⟨fun heq => hnew (heq ▸ hother), hseen other hother⟩

/-! ## Whole texts -/

theorem skipBlanks_eq_nil (hgap : AreBlanks gap) : skipBlanks gap = [] := by
  have hskip := Json.skipBlanks_gap hgap []
  rwa [List.append_nil] at hskip

/-- Settings are what is read off the front, if only blanks follow it. -/
theorem ofStored_eq_ok {text : String} {back : List Char} {P : Prop} (hback : AreBlanks back)
    (h : ∀ left, readStored text.toList = .ok (s, left) ↔ left = back ∧ P) :
    ofStored text = .ok s ↔ P := by
  unfold ofStored
  rw [bind_eq_ok]
  constructor
  · rintro ⟨⟨s', left⟩, hread, hs⟩
    dsimp only at hs
    split at hs
    · obtain rfl := Except.ok.inj hs
      exact ((h left).1 hread).2
    · cases hs
  · intro hP
    exact ⟨(s, back), (h back).2 ⟨rfl, hP⟩, if_pos (skipBlanks_eq_nil hback)⟩

/-- **What is read from a map**, and when anything is. -/
theorem ofStored_object {text : String} (h : IsObject members text) :
    ofStored text = .ok s ↔ Fills [] default members s := by
  obtain ⟨hcontent, hvalue, front, inner, back, hfront, hback, hlisted, htext⟩ := h
  refine ofStored_eq_ok hback fun left => ?_
  have hread : readStored text.toList =
      readMembers (Field.all.length + 1) [] default (inner ++ '\x7d' :: back) := by
    unfold readStored
    rw [htext, skipBlanks_front hfront rfl]
    rfl
  rw [hread]
  -- an empty map has no member to begin with
  cases hlisted with
  | none hinner => rw [readMembers_end hinner, ok_eq_ok, fills_nil]
  | some hseparated =>
    exact readMembers_separated hseparated hcontent hvalue .nil (Nat.zero_add _)

/-- **What is read from a sequence** is what is read from the map of its values. -/
theorem ofStored_array {values : List (List Char)} {text : String} (h : IsArray values text)
    (hlength : values.length ≤ Field.all.length) :
    ofStored text = .ok s ↔ Fills [] default (keyed Field.all values) s := by
  obtain ⟨hvalue, front, inner, back, hfront, hback, hlisted, htext⟩ := h
  refine ofStored_eq_ok hback fun left => ?_
  have hread : readStored text.toList =
      readElements true Field.all default (inner ++ ']' :: back) := by
    unfold readStored
    rw [htext, skipBlanks_front hfront rfl]
    rfl
  rw [hread]
  cases hlisted with
  | none hinner =>
    have hkeyed : keyed Field.all [] = [] := rfl
    rw [readElements_end hinner, ok_eq_ok, hkeyed, fills_nil]
  | some hseparated =>
    exact readElements_separated hseparated hvalue hlength (by decide) nofun

/-! ## Members in another order and under other keys -/

/-- The same value under the same key, or under another key of the same field. -/
def Rekeyed (member member' : List Char × List Char) : Prop :=
  member'.2 = member.2 ∧ (member'.1 = member.1 ∨
    ∃ field : Field, field.NamedBy member.1 ∧ field.NamedBy member'.1)

/-- The same members in any order, each under any key of its field. -/
def Rearranged (members members' : List (List Char × List Char)) : Prop :=
  ∃ permuted, members.Perm permuted ∧ List.Forall₂ Rekeyed permuted members'

theorem Rekeyed.namedBy_iff {member' : List Char × List Char} (h : Rekeyed member member') :
    field.NamedBy member'.1 ↔ field.NamedBy member.1 := by
  rcases h.2 with heq | ⟨other, hother, hother'⟩
  · rw [heq]
  · exact ⟨fun hfield => hfield.unique hother' ▸ hother,
      fun hfield => hfield.unique hother ▸ hother'⟩

theorem Fills.perm (h : Fills seen base members s) (hperm : members.Perm members') :
    Fills seen base members' s where
  named member hmember := h.named member (hperm.mem_iff.2 hmember)
  distinct := (hperm.pairwise_iff fun hdistinct field hfield =>
    hdistinct field hfield.symm).1 h.distinct
  others field hfield := h.others field fun member hmember =>
    hfield member (hperm.mem_iff.1 hmember)

theorem Fills.rekeyed (h : Fills seen base members s)
    (hrekeyed : List.Forall₂ Rekeyed members members') : Fills seen base members' s := by
  induction hrekeyed generalizing seen base with
  | nil => exact h
  | cons hfirst _ ih =>
    obtain ⟨field, content, hnew, hfield, hreads, hfills⟩ := fills_cons.1 h
    exact fills_cons.2 ⟨field, content, hnew, hfirst.namedBy_iff.2 hfield, hfirst.1 ▸ hreads,
      ih hfills⟩

theorem exists_error {text : String} (h : ∀ s, ofStored text ≠ .ok s) :
    ∃ e, ofStored text = .error e := by
  cases hread : ofStored text with
  | ok s => exact absurd hread (h s)
  | error e => exact ⟨e, rfl⟩

/-- **Members are read by name.** A map is read exactly if its members fill settings, which are
then what is read. So nothing depends on the order of the members or on which key of its field a
member has; fields without a member have their defaults; and a map is refused in which two members
name one field or some member names none. A sequence is read as the map in which its values stand
under the keys of the first fields. -/
theorem ofStored_by_name {text : String} (h : IsObject members text) :
    (∀ s, ofStored text = .ok s ↔ Fills [] default members s) ∧
    (∀ members' text' s, Rearranged members members' → IsObject members' text' →
      ofStored text = .ok s → ofStored text' = .ok s) ∧
    (∀ s field, ofStored text = .ok s → (∀ member ∈ members, ¬Field.NamedBy field member.1) →
      s.get field = (default : Settings).get field) ∧
    (∀ first second field, [first, second].Sublist members → Field.NamedBy field first.1 →
      Field.NamedBy field second.1 → ∃ e, ofStored text = .error e) ∧
    (∀ member ∈ members, (∀ field, ¬Field.NamedBy field member.1) →
      ∃ e, ofStored text = .error e) ∧
    (∀ values array, values.length ≤ Field.all.length → members = keyed Field.all values →
      IsArray values array → ∀ s, ofStored array = .ok s ↔ ofStored text = .ok s) := by
  have hread (s : Settings) : ofStored text = .ok s ↔ Fills [] default members s :=
    ofStored_object h
  refine ⟨hread, ?_, ?_, ?_, ?_, ?_⟩
  · rintro members' text' s ⟨permuted, hperm, hrekeyed⟩ h' hs
    exact (ofStored_object h').2 ((((hread s).1 hs).perm hperm).rekeyed hrekeyed)
  · intro s field hs hfield
    exact ((hread s).1 hs).others field hfield
  · intro first second field hsublist hfirst hsecond
    refine exists_error fun s hs => ?_
    have hdistinct := ((hread s).1 hs).distinct.sublist hsublist
    exact (List.pairwise_cons.1 hdistinct).1 second (List.mem_singleton_self _) field
      ⟨hfirst, hsecond⟩
  · intro member hmember hunknown
    refine exists_error fun s hs => ?_
    obtain ⟨field, -, hfield, -⟩ := ((hread s).1 hs).named member hmember
    exact hunknown field hfield
  · rintro values array hlength rfl harray s
    rw [ofStored_array harray hlength, hread s]

/-- A formula and a seed, with the formula under its second key. -/
def polarMembers : List (List Char × List Char) :=
  [("r_expr".toList, ['"', 't', '"']), ("seed".toList, ['7'])]

/-- The same the other way round, with the formula under its first key. -/
def turnedMembers : List (List Char × List Char) :=
  [("seed".toList, ['7']), ("f1_expr".toList, ['"', 't', '"'])]

theorem namedBy_polar : Field.f1.NamedBy "r_expr".toList :=
  ⟨"r_expr", by decide, Json.standsFor_self (by simp)⟩

theorem isValue_formula : IsValue ['"', 't', '"'] :=
  .string (.plain (by decide) (by decide) (by decide) .nil)

theorem isValue_seed : IsValue ['7'] :=
  .number ⟨[], ['7'], [], [], .inl rfl, ⟨⟨nofun, List.forall_mem_singleton.2 rfl⟩, nofun⟩, .absent,
    .absent, rfl⟩

theorem isObject_polarMembers :
    IsObject polarMembers "\x7b\"r_expr\":\"t\",\"seed\":7\x7d" where
  isContent := List.forall_mem_cons.2 ⟨namedBy_polar.isContent,
    List.forall_mem_singleton.2 Field.seed.namedBy_key.isContent⟩
  isValue := List.forall_mem_cons.2 ⟨isValue_formula, List.forall_mem_singleton.2 isValue_seed⟩
  layout := ⟨[], _, [], nofun, nofun,
    .some (.cons ⟨[], [], _, nofun, nofun, ⟨[], [], nofun, nofun, rfl⟩, rfl⟩
      (.single ⟨[], [], _, nofun, nofun, ⟨[], [], nofun, nofun, rfl⟩, rfl⟩)), by decide +kernel⟩

theorem isObject_turnedMembers :
    IsObject turnedMembers " \x7b\"seed\" : 7, \"f1_expr\":\"t\"\x7d" where
  isContent := List.forall_mem_cons.2 ⟨Field.seed.namedBy_key.isContent,
    List.forall_mem_singleton.2 Field.f1.namedBy_key.isContent⟩
  isValue := List.forall_mem_cons.2 ⟨isValue_seed, List.forall_mem_singleton.2 isValue_formula⟩
  layout := ⟨[' '], _, [], Json.areBlanks_space, nofun,
    .some (.cons ⟨[], [' '], _, nofun, Json.areBlanks_space,
        ⟨[' '], [], Json.areBlanks_space, nofun, rfl⟩, rfl⟩
      (.single ⟨[' '], [], _, Json.areBlanks_space, nofun, ⟨[], [], nofun, nofun, rfl⟩, rfl⟩)),
    by decide +kernel⟩

/-- Both texts are read as the same settings, with the default for what neither of them names. -/
theorem ofStored_by_name_polar :
    ∃ s, ofStored "\x7b\"r_expr\":\"t\",\"seed\":7\x7d" = .ok s ∧
      ofStored " \x7b\"seed\" : 7, \"f1_expr\":\"t\"\x7d" = .ok s ∧
      s.f1 = "t" ∧ s.seed = some 7 ∧ s.mirror = false := by
  obtain ⟨-, hrearranged, habsent, -⟩ := ofStored_by_name isObject_polarMembers
  have hturned : Rearranged polarMembers turnedMembers :=
    ⟨_, .swap _ _ [], .cons ⟨rfl, .inl rfl⟩
      (.cons ⟨rfl, .inr ⟨.f1, namedBy_polar, Field.f1.namedBy_key⟩⟩ .nil)⟩
  have hunnamed : ∀ member ∈ polarMembers, ¬Field.mirror.NamedBy member.1 := by
    refine List.forall_mem_cons.2 ⟨fun h => ?_, List.forall_mem_singleton.2 fun h => ?_⟩
    · cases h.unique namedBy_polar
    · cases h.unique Field.seed.namedBy_key
  have hread : (ofStored "\x7b\"r_expr\":\"t\",\"seed\":7\x7d").toOption.map
      (fun s => (s.f1, s.seed)) = some ("t", some 7) := by decide +kernel
  cases hs : ofStored "\x7b\"r_expr\":\"t\",\"seed\":7\x7d" with
  | error e =>
    rw [hs] at hread
    cases hread
  | ok s =>
    rw [hs] at hread
    obtain ⟨hf1, hseed⟩ := Prod.mk.inj (Option.some.inj hread)
    exact ⟨s, rfl, hrearranged _ _ s hturned isObject_turnedMembers hs, hf1, hseed,
      habsent s .mirror hs hunnamed⟩

end Settings

end CurveArt
