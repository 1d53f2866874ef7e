import CurveArt.Proofs.Color.Text
import CurveArt.Proofs.Decimal.ReadBack
import CurveArt.Proofs.Expr.Limits
import CurveArt.Proofs.Generation.Answer
import CurveArt.Settings.Summary
import CurveArt.Text.Lines

/-!
# The lines of a summary

A summary is written entry by entry, and what it looks like is decided by the line feeds in the
values. Most values have none, as they are numbers, names and colours. The two formulas are shown as
they were given, and a line feed is one of the characters that may stand between their tokens; so a
formula takes one line more for each of its line feeds.

Such a line can be told from the others. A key ends with a colon, and no formula has one. So whoever
looks for keys in a summary finds those of the style and the colour mode, each once and in their
order, whatever the values are.

Main results:

* `Text.ofLines_linesOf`: a text with its end is the lines that it is split into.
* `Spelling.Cut.not_mem_colon`: no text that is cut into tokens has a colon.
* `Settings.summary_lines`: the lines of a summary.
* `Settings.summary_brokenFormula`: a setting with two lines.
-/

namespace CurveArt

/-! ## Splitting a text into lines -/

namespace Text

/-- The lines of a text, the last of which has no end. -/
def linesOf (text : String) : List String :=
  (text.toList.splitOn '\n').map String.ofList

theorem toList_ofLines (lines : List String) :
    (ofLines lines).toList = lines.flatMap fun line => line.toList ++ ['\n'] := by
  simp [ofLines, List.flatMap_map, String.toList_append]

theorem ofLines_append (lines lines' : List String) :
    ofLines (lines ++ lines') = ofLines lines ++ ofLines lines' := by
  simp [ofLines]

/-- Splitting takes the line feeds away and nothing else. -/
theorem splitOn_spec (letters : List Char) :
    (letters.splitOn '\n').flatMap (· ++ ['\n']) = letters ++ ['\n'] ∧
      ∀ piece ∈ letters.splitOn '\n', '\n' ∉ piece := by
  induction letters with
  | nil => simp
  | cons c letters ih =>
    obtain ⟨hjoined, hpieces⟩ := ih
    rw [List.splitOn_cons_eq_if_modifyHead]
    split
    · next hc =>
      obtain rfl := beq_iff_eq.1 hc
      simp only [List.flatMap_cons, hjoined, List.forall_mem_cons]
      exact ⟨rfl, List.not_mem_nil, hpieces⟩
    · next hc =>
      -- any other character stands in front of what was the first piece
      obtain ⟨first, more, hcons⟩ :=
        List.exists_cons_of_ne_nil (List.splitOn_ne_nil '\n' letters)
      rw [hcons] at hjoined hpieces ⊢
      obtain ⟨hfirst, hmore⟩ := List.forall_mem_cons.1 hpieces
      rw [List.flatMap_cons] at hjoined
      rw [List.modifyHead_cons, List.flatMap_cons, List.cons_append, List.cons_append, hjoined]
      refine ⟨rfl, List.forall_mem_cons.2 ⟨?_, hmore⟩⟩
      rw [List.mem_cons, not_or]
      exact ⟨fun h => hc (beq_iff_eq.2 h.symm), hfirst⟩

/-- The lines of a text with their ends are the text with its end. -/
theorem ofLines_linesOf (text : String) : ofLines (linesOf text) = text ++ "\n" := by
  apply String.toList_inj.1
  rw [toList_ofLines, linesOf, List.flatMap_map, String.toList_append]
  simpa using (splitOn_spec text.toList).1

theorem not_mem_of_mem_linesOf {text line : String} (h : line ∈ linesOf text) :
    '\n' ∉ line.toList := by
  obtain ⟨piece, hpiece, rfl⟩ := List.mem_map.1 h
  rw [String.toList_ofList]
  exact (splitOn_spec text.toList).2 piece hpiece

/-- There is one line more than there are line feeds. -/
theorem length_linesOf (text : String) :
    (linesOf text).length = text.toList.count '\n' + 1 := by
  have hcount : ∀ pieces : List (List Char), (∀ piece ∈ pieces, '\n' ∉ piece) →
      (pieces.flatMap (· ++ ['\n'])).count '\n' = pieces.length := by
    intro pieces hpieces
    induction pieces with
    | nil => rfl
    | cons piece pieces ih =>
      obtain ⟨hpiece, hpieces⟩ := List.forall_mem_cons.1 hpieces
      rw [List.flatMap_cons, List.count_append, ih hpieces, List.count_append,
        List.count_eq_zero_of_not_mem hpiece, List.length_cons]
      simp [Nat.add_comm]
  obtain ⟨hjoined, hpieces⟩ := splitOn_spec text.toList
  rw [linesOf, List.length_map, ← hcount _ hpieces, hjoined, List.count_append]
  rfl

/-- All that stands in a line stands in the text. -/
theorem mem_of_mem_linesOf {text line : String} (h : line ∈ linesOf text) {c : Char}
    (hc : c ∈ line.toList) : c ∈ text.toList := by
  have hne : c ≠ '\n' := fun hfeed => not_mem_of_mem_linesOf h (hfeed ▸ hc)
  have hmem : c ∈ (ofLines (linesOf text)).toList := by
    rw [toList_ofLines]
    exact List.mem_flatMap.2 ⟨line, h, List.mem_append_left _ hc⟩
  rw [ofLines_linesOf, String.toList_append, List.mem_append] at hmem
  exact hmem.resolve_right fun hfeed => hne (List.mem_singleton.1 hfeed)

/-- What stands in front of a text without line feeds becomes part of its first line. -/
theorem linesOf_append {front text : String} (h : '\n' ∉ front.toList) :
    linesOf (front ++ text) =
      (linesOf text).modifyHead (front ++ ·) := by
  have hletters : ∀ before : List Char, '\n' ∉ before → ∀ letters : List Char,
      (before ++ letters).splitOn '\n' = (letters.splitOn '\n').modifyHead (before ++ ·) := by
    intro before hbefore letters
    induction before with
    | nil => exact (congrFun List.modifyHead_id _).symm
    | cons c before ih =>
      rw [List.mem_cons, not_or] at hbefore
      rw [List.cons_append, List.splitOn_cons_eq_if_modifyHead,
        if_neg (by simpa using Ne.symm hbefore.1), ih hbefore.2]
      simp [List.modifyHead_modifyHead, Function.comp_def]
  rw [linesOf, String.toList_append, hletters _ h, linesOf]
  obtain ⟨first, more, hcons⟩ :=
    List.exists_cons_of_ne_nil (List.splitOn_ne_nil '\n' text.toList)
  simp [hcons]

end Text

/-! ## What no formula contains -/

namespace Spelling

theorem ne_colon_of_isInner {c : Char} (h : isInner c = true) : c ≠ ':' := by
  rintro rfl
  cases h

theorem Spells.not_mem_colon {text : List Char} {t : Token} (h : Spells text t) : ':' ∉ text := by
  intro hmem
  cases h with
  | number h => exact ne_colon_of_isInner (inner_of_isNumeral h _ hmem) rfl
  | name h => exact ne_colon_of_isInner (inner_of_isName h _ hmem) rfl
  | symbol h =>
    have hall : ∀ entry ∈ symbols, ':' ∉ entry.1 := by decide
    exact hall _ h hmem

/-- A text that is cut into tokens has no colon, in them or between them. -/
theorem Cut.not_mem_colon {text : List Char} {ts : List Token} (h : Cut text ts) :
    ':' ∉ text := by
  induction h with
  | nil => exact List.not_mem_nil
  | skip hc _ ih =>
    rw [List.mem_cons, not_or]
    refine ⟨?_, ih⟩
    rintro rfl
    cases hc
  | token ht _ _ ih =>
    rw [List.mem_append, not_or]
    exact ⟨ht.not_mem_colon, ih⟩

end Spelling

/-! ## What no other value contains -/

namespace Text

open Spelling (isInner)

/-- Characters of numbers and names end no line. -/
theorem not_mem_lineFeed {letters : List Char} (h : ∀ c ∈ letters, isInner c = true) :
    '\n' ∉ letters := by
  intro hmem
  cases h _ hmem

theorem inner_plainText (x : Float) : ∀ c ∈ (plainText x).toList, isInner c = true := by
  unfold plainText NumberStyle.render
  split
  · exact List.all_eq_true.1 (by decide)
  · split <;> exact List.all_eq_true.1 (by decide)
  · next negative m q _ =>
    have hmagnitude : ∀ c ∈ (if m = 0 then Decimal.render .plain ⟨0, 0⟩
        else Decimal.render .plain (Decimal.shortest NumberStyle.plain.tie m q)),
        isInner c = true := by
      have hdecimal : ∀ d : Decimal, ∀ c ∈ Decimal.render .plain d, isInner c = true := by
        intro d
        rw [Decimal.render_plain]
        exact Spelling.inner_of_isNumeral
          (Decimal.positional_wellFormed (Decimal.isDigits_toDigits d.digits) _).isNumeral
      split <;> exact hdecimal _
    dsimp only
    rw [String.toList_ofList]
    split
    · exact List.forall_mem_cons.2 ⟨rfl, hmagnitude⟩
    · exact hmagnitude

theorem inner_toString (n : Nat) : ∀ c ∈ (toString n).toList, isInner c = true := by
  rw [Nat.toString_eq_ofList_toDigits, String.toList_ofList]
  exact fun c hc => Spelling.isInner_of_isDigit ((Decimal.isDigits_toDigits n).2 c hc)

theorem not_mem_colorText (c : Rgba) : '\n' ∉ c.text.toList := by
  rw [Rgba.text_eq, String.toList_ofList, List.mem_cons, not_or]
  refine ⟨by decide, fun hmem => ?_⟩
  have hblank : isBlank '\n' = false := by
    split at hmem
    · exact not_isBlank_of_hexPair
        (fun byte hbyte => c.bytes_lt byte (List.mem_of_mem_take hbyte)) hmem
    · exact not_isBlank_of_hexPair c.bytes_lt hmem
  cases hblank

end Text

/-! ## The summary -/

namespace Settings

variable {s : Settings}

/-- The keys of a summary in their order, for a style and a colour mode. -/
def shownKeys (style : Style) (mode : ColorMode) : List String :=
  "style" ::
    (match style with
      | .polar => ["r_expr", "theta_expr"]
      | _ => ["f1_expr", "f2_expr", "sampling", "domain"]) ++
    ["sample_count", "color_mode"] ++
    (match mode with
      | .solid => ["color"]
      | .linearGradient | .radialGradient => ["color1", "color2"]
      | .random => []) ++
    ["alpha",
      match style.drawStyle with
      | .points => "point_size"
      | .lines | .connectedLine => "line_width",
      "jitter", "mirror", "rotation_degrees", "background_color", "seed", "figure_size"]

/-- An entry on one line, if its value has no line feeds. -/
def entryText (entry : String × String) : String :=
  entry.1 ++ ": " ++ entry.2

/-- The lines of a summary. -/
def summaryLines (s : Settings) : List String :=
  s.entries.flatMap fun entry => Text.linesOf (entryText entry)

/-- The key of a line: what stands in front of its first colon. -/
def key? (line : String) : Option String :=
  if ':' ∈ line.toList then some (String.ofList (line.toList.takeWhile (· ≠ ':'))) else none

theorem keys_entries (s : Settings) : s.entries.map Prod.fst = shownKeys s.style s.colorMode := by
  cases hstyle : s.style <;> cases hmode : s.colorMode <;>
    simp [entries, shownKeys, formulaKeys, domainEntries, colorEntries, geometryEntry, hstyle,
      hmode, Style.drawStyle]

/-- No key has a colon or a line feed. -/
theorem plain_shownKeys (style : Style) (mode : ColorMode) :
    ∀ key ∈ shownKeys style mode, ':' ∉ key.toList ∧ '\n' ∉ key.toList := by
  cases style <;> cases mode <;> decide

theorem not_mem_domainEntries {entry : String × String} (h : entry ∈ s.domainEntries) :
    '\n' ∉ entry.2.toList := by
  unfold domainEntries at h
  split at h
  · cases h
  · have hnumber := fun x => Text.not_mem_lineFeed (Text.inner_plainText x)
    simp only [List.mem_cons, List.not_mem_nil, or_false] at h
    rcases h with rfl | rfl
    · cases s.sampling <;> decide
    · simp [String.toList_append, hnumber]

theorem not_mem_colorEntries {entry : String × String} (h : entry ∈ s.colorEntries) :
    '\n' ∉ entry.2.toList := by
  unfold colorEntries at h
  split at h <;> simp only [List.mem_cons, List.not_mem_nil, or_false] at h
  · rw [h]
    exact Text.not_mem_colorText s.color
  · rcases h with rfl | rfl
    · exact Text.not_mem_colorText s.color1
    · exact Text.not_mem_colorText s.color2
  · rcases h with rfl | rfl
    · exact Text.not_mem_colorText s.color1
    · exact Text.not_mem_colorText s.color2

theorem not_mem_geometryEntry : '\n' ∉ s.geometryEntry.2.toList := by
  unfold geometryEntry
  split <;> exact Text.not_mem_lineFeed (Text.inner_plainText _)

/-- The formulas stand behind the style, and no value but theirs can have a line feed. -/
theorem exists_entries (s : Settings) : ∃ others,
    s.entries = ("style", s.style.name) :: (s.formulaKeys.1, s.f1) :: (s.formulaKeys.2, s.f2) ::
      others ∧
    '\n' ∉ s.style.name.toList ∧ ∀ entry ∈ others, '\n' ∉ entry.2.toList := by
  have hnumber := fun x => Text.not_mem_lineFeed (Text.inner_plainText x)
  have hcount := fun n => Text.not_mem_lineFeed (Text.inner_toString n)
  refine ⟨s.entries.drop 3, rfl, by cases s.style <;> decide, fun entry h => ?_⟩
  simp only [entries, List.cons_append, List.nil_append, List.drop_succ_cons, List.drop_zero,
    List.mem_append, List.mem_cons, List.not_mem_nil, or_false] at h
  rcases h with ((h | rfl | rfl) | h) | rfl | rfl | rfl | rfl | rfl | rfl | rfl | rfl
  · exact not_mem_domainEntries h
  · exact hcount _
  · cases s.colorMode <;> decide
  · exact not_mem_colorEntries h
  · exact hnumber _
  · exact not_mem_geometryEntry
  · exact hnumber _
  · cases s.mirror <;> decide
  · exact hnumber _
  · exact Text.not_mem_colorText _
  · cases s.seed with
    | none => decide
    | some n => exact hcount n.toNat
  · simp [String.toList_append, hnumber]

/-! ## The lines of an entry -/

variable {entry : String × String}

theorem not_mem_front (hkey : '\n' ∉ entry.1.toList) : '\n' ∉ (entry.1 ++ ": ").toList := by
  simp [String.toList_append, hkey]

/-- An entry has one line, and one more for each line feed in its value. -/
theorem length_linesOf_entryText (hkey : '\n' ∉ entry.1.toList) :
    (Text.linesOf (entryText entry)).length = entry.2.toList.count '\n' + 1 := by
  rw [Text.length_linesOf, entryText, String.toList_append, List.count_append,
    List.count_eq_zero_of_not_mem (not_mem_front hkey), Nat.zero_add]

theorem linesOf_entryText (hkey : '\n' ∉ entry.1.toList) (hvalue : '\n' ∉ entry.2.toList) :
    Text.linesOf (entryText entry) = [entryText entry] := by
  rw [Text.linesOf, List.splitOn_eq_singleton, List.map_singleton, String.ofList_toList]
  rw [entryText, String.toList_append, List.mem_append, not_or]
  exact ⟨not_mem_front hkey, hvalue⟩

/-- The first line of an entry has its key, and the others have none. -/
theorem filterMap_key?_linesOf
    (hkey : ':' ∉ entry.1.toList ∧ '\n' ∉ entry.1.toList)
    (hvalue : '\n' ∉ entry.2.toList ∨ ':' ∉ entry.2.toList) :
    (Text.linesOf (entryText entry)).filterMap key? = [entry.1] := by
  have hfound : ∀ first : String, key? (entry.1 ++ ": " ++ first) = some entry.1 := by
    intro first
    have hletters : (entry.1 ++ ": " ++ first).toList =
        entry.1.toList ++ ':' :: ' ' :: first.toList := by
      simp [String.toList_append]
    have hbefore : ∀ c ∈ entry.1.toList, decide (c ≠ ':') = true := by
      intro c hc
      exact decide_eq_true fun hcolon => hkey.1 (hcolon ▸ hc)
    rw [key?, hletters, if_pos (by simp), List.takeWhile_append_of_pos hbefore]
    simp
  have hnone : ∀ line, ':' ∉ line.toList → key? line = none := fun line h => if_neg h
  obtain ⟨first, more, hcons⟩ := List.exists_cons_of_ne_nil
    (show Text.linesOf entry.2 ≠ [] by simp [Text.linesOf, List.splitOn_ne_nil])
  have hlines : Text.linesOf (entryText entry) = (entry.1 ++ ": " ++ first) :: more := by
    rw [entryText, Text.linesOf_append (not_mem_front hkey.2), hcons, List.modifyHead_cons]
  have hmore : more.filterMap key? = [] := by
    rw [List.filterMap_eq_nil_iff]
    intro line hline
    refine hnone line fun hcolon => ?_
    rcases hvalue with hvalue | hvalue
    · -- a value without line feeds has no second line
      have hlength := Text.length_linesOf entry.2
      rw [hcons, List.count_eq_zero_of_not_mem hvalue, List.length_cons] at hlength
      obtain rfl : more = [] := List.eq_nil_of_length_eq_zero (by omega)
      cases hline
    · have hmem : line ∈ Text.linesOf entry.2 := by
        rw [hcons]
        exact List.mem_cons_of_mem _ hline
      exact hvalue (Text.mem_of_mem_linesOf hmem hcolon)
  rw [hlines, List.filterMap_cons_some (hfound first), hmore]

theorem summary_eq (s : Settings) : s.summary = Text.ofLines s.summaryLines := by
  unfold summary summaryLines
  -- entry by entry
  generalize s.entries = entries
  induction entries with
  | nil => rfl
  | cons entry entries ih =>
    rw [List.map_cons, String.join_cons, ih, List.flatMap_cons, Text.ofLines_append,
      Text.ofLines_linesOf]
    rfl

/-- No key of an entry has a colon or a line feed. -/
theorem plain_key (h : entry ∈ s.entries) : ':' ∉ entry.1.toList ∧ '\n' ∉ entry.1.toList := by
  refine plain_shownKeys s.style s.colorMode entry.1 ?_
  rw [← keys_entries]
  exact List.mem_map_of_mem h

theorem flatMap_linesOf {entries : List (String × String)}
    (hkeys : ∀ entry ∈ entries, '\n' ∉ entry.1.toList)
    (hvalues : ∀ entry ∈ entries, '\n' ∉ entry.2.toList) :
    (entries.flatMap fun entry => Text.linesOf (entryText entry)) = entries.map entryText := by
  rw [← List.flatMap_singleton' (entries.map entryText), List.flatMap_map]
  exact List.flatMap_congr fun entry h => linesOf_entryText (hkeys entry h) (hvalues entry h)

/-- A formula takes one line more for each of its line feeds. -/
theorem length_summaryLines (s : Settings) :
    s.summaryLines.length = (shownKeys s.style s.colorMode).length + s.f1.toList.count '\n' +
      s.f2.toList.count '\n' := by
  obtain ⟨others, hentries, hstyle, hothers⟩ := s.exists_entries
  have hkey := fun entry (h : entry ∈ s.entries) => (plain_key h).2
  rw [hentries, List.forall_mem_cons, List.forall_mem_cons, List.forall_mem_cons] at hkey
  obtain ⟨hkeyStyle, hkeyFirst, hkeySecond, hkeys⟩ := hkey
  rw [← keys_entries, List.length_map, summaryLines, hentries, List.flatMap_cons,
    List.flatMap_cons, List.flatMap_cons, flatMap_linesOf hkeys hothers]
  simp only [List.length_append, List.length_cons, List.length_map,
    length_linesOf_entryText hkeyStyle, length_linesOf_entryText hkeyFirst,
    length_linesOf_entryText hkeySecond, List.count_eq_zero_of_not_mem hstyle]
  omega

/-- There is one line for each setting exactly if both formulas are on one line. -/
theorem summaryLines_eq_iff (s : Settings) :
    s.summaryLines = s.entries.map entryText ↔ '\n' ∉ s.f1.toList ∧ '\n' ∉ s.f2.toList := by
  constructor
  · intro heq
    have hlength := s.length_summaryLines
    rw [heq, List.length_map, ← keys_entries, List.length_map] at hlength
    exact ⟨List.count_eq_zero.1 (by omega), List.count_eq_zero.1 (by omega)⟩
  · rintro ⟨hfirst, hsecond⟩
    obtain ⟨others, hentries, hstyle, hothers⟩ := s.exists_entries
    refine flatMap_linesOf (fun entry h => (plain_key h).2) ?_
    rw [hentries, List.forall_mem_cons, List.forall_mem_cons, List.forall_mem_cons]
    exact ⟨hstyle, hfirst, hsecond, hothers⟩

/-- Where no formula has a colon, each key is found once. -/
theorem filterMap_key?_summaryLines (hfirst : ':' ∉ s.f1.toList) (hsecond : ':' ∉ s.f2.toList) :
    s.summaryLines.filterMap key? = shownKeys s.style s.colorMode := by
  obtain ⟨others, hentries, hstyle, hothers⟩ := s.exists_entries
  have hvalues : ∀ entry ∈ s.entries, '\n' ∉ entry.2.toList ∨ ':' ∉ entry.2.toList := by
    rw [hentries, List.forall_mem_cons, List.forall_mem_cons, List.forall_mem_cons]
    exact ⟨.inl hstyle, .inr hfirst, .inr hsecond, fun entry h => .inl (hothers entry h)⟩
  rw [summaryLines, List.filterMap_flatMap, ← keys_entries,
    ← List.flatMap_singleton' (s.entries.map Prod.fst), List.flatMap_map]
  exact List.flatMap_congr fun entry h => filterMap_key?_linesOf (plain_key h) (hvalues entry h)

/-- A formula that was compiled has no colon. -/
theorem not_mem_colon_of_compile {text : String} {vars : List String} {stream : Random.Stream}
    {f : Formula} (h : Formula.compile text vars stream = .ok f) : ':' ∉ text.toList := by
  obtain ⟨-, e, hread, -⟩ := Formula.compile_eq_ok_iff.1 h
  obtain ⟨d, hcut, -⟩ := Expr.exists_derivation hread
  exact hcut.not_mem_colon

/-- What the lines of a summary are. -/
structure Summarizes (s : Settings) (lines : List String) : Prop where
  /-- Lines with their ends make up the summary, and no line has an end in it. -/
  text : s.summary = Text.ofLines lines
  line : ∀ line ∈ lines, '\n' ∉ line.toList
  /-- The keys that can be found are those of the style and the colour mode, in their order. -/
  keys : lines.filterMap key? = shownKeys s.style s.colorMode
  /-- An entry whose value has no line feed has one line, and those of the formulas apart, no entry
  has a value with one. -/
  entry : ∀ entry ∈ s.entries, entry.1 ∉ [s.formulaKeys.1, s.formulaKeys.2] →
    entryText entry ∈ lines ∧ '\n' ∉ entry.2.toList
  /-- A formula takes one line more for each line feed in it. -/
  length : lines.length = (shownKeys s.style s.colorMode).length + s.f1.toList.count '\n' +
    s.f2.toList.count '\n'
  /-- There is one line for each setting exactly if both formulas are on one line. -/
  single_iff : lines = s.entries.map entryText ↔ '\n' ∉ s.f1.toList ∧ '\n' ∉ s.f2.toList

/-- **The lines of a summary.** Where both formulas are compiled, the summary is a sequence of lines
in which the keys of the style and the colour mode are found, each once and in their order. Every
other entry has one line; a formula has one line more for each of its line feeds, and so the lines
are as many as the keys exactly if neither formula has any. -/
theorem summary_lines {seed : UInt64} {formulas : Formula × Formula}
    (h : Generation.formulas s seed = .ok formulas) : s.Summarizes s.summaryLines := by
  obtain ⟨first, second⟩ := formulas
  obtain ⟨hfirst, hsecond⟩ := Generation.formulas_eq_ok_iff.1 h
  obtain ⟨others, hentries, hstyle, hothers⟩ := s.exists_entries
  have hvalue : ∀ entry ∈ s.entries, entry.1 ∉ [s.formulaKeys.1, s.formulaKeys.2] →
      '\n' ∉ entry.2.toList := by
    intro entry hentry hkey
    rw [hentries] at hentry
    rcases List.mem_cons.1 hentry with rfl | hentry
    · exact hstyle
    · rcases List.mem_cons.1 hentry with rfl | hentry
      · exact absurd (List.mem_cons_self ..) hkey
      · rcases List.mem_cons.1 hentry with rfl | hentry
        · exact absurd (List.mem_cons_of_mem _ (List.mem_cons_self ..)) hkey
        · exact hothers entry hentry
  refine ⟨s.summary_eq, ?_, ?_, ?_, s.length_summaryLines, ?_⟩
  · intro line hline
    obtain ⟨entry, -, hline⟩ := List.mem_flatMap.1 hline
    exact Text.not_mem_of_mem_linesOf hline
  · exact filterMap_key?_summaryLines (not_mem_colon_of_compile hfirst)
      (not_mem_colon_of_compile hsecond)
  · intro entry hentry hkey
    have hflat := hvalue entry hentry hkey
    refine ⟨List.mem_flatMap.2 ⟨entry, hentry, ?_⟩, hflat⟩
    rw [linesOf_entryText (plain_key hentry).2 hflat]
    exact List.mem_singleton.2 rfl
  · exact s.summaryLines_eq_iff

/-- Gradient settings whose first formula goes on in a second line. -/
def brokenFormula : Settings :=
  { Settings.default with f1 := "sin(x)\n+1", colorMode := .linearGradient }

theorem exists_formulas_brokenFormula :
    ∃ formulas, Generation.formulas brokenFormula 7 = .ok formulas := by
  have hok : (Generation.formulas brokenFormula 7).isOk = true := by decide +kernel
  cases h : Generation.formulas brokenFormula 7 with
  | error fault =>
    rw [h] at hok
    cases hok
  | ok formulas => exact ⟨formulas, rfl⟩

theorem summary_lines_brokenFormula :
    ∃ formulas, Generation.formulas brokenFormula 7 = .ok formulas ∧
      brokenFormula.Summarizes brokenFormula.summaryLines := by
  obtain ⟨formulas, h⟩ := exists_formulas_brokenFormula
  exact ⟨formulas, h, summary_lines h⟩

/-- Settings that pass and are compiled, and have a line in their summary that no key begins. -/
theorem summary_brokenFormula : brokenFormula.validate = .ok () ∧
    (∃ formulas, Generation.formulas brokenFormula 7 = .ok formulas) ∧
    brokenFormula.summary = Text.ofLines brokenFormula.summaryLines ∧
    (∃ line ∈ brokenFormula.summaryLines, line = "+1") ∧
    brokenFormula.summaryLines.length =
      (shownKeys brokenFormula.style brokenFormula.colorMode).length + 1 := by
  have hentry : ("f1_expr", "sin(x)\n+1") ∈ brokenFormula.entries :=
    List.mem_cons_of_mem _ (List.mem_cons_self ..)
  have hline : "+1" ∈ Text.linesOf (entryText ("f1_expr", "sin(x)\n+1")) := by decide
  refine ⟨rfl, exists_formulas_brokenFormula, brokenFormula.summary_eq,
    ⟨_, List.mem_flatMap.2 ⟨_, hentry, hline⟩, rfl⟩, ?_⟩
  rw [length_summaryLines]
  rfl

end Settings

end CurveArt
