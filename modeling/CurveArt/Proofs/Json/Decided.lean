import CurveArt.Proofs.Json.Grammar

/-!
# Readers decide values

What a reader finds in a value, it finds there and nothing more, and it finds the same wherever the
value stands. The first character tells the reader whether the value is of a kind that it reads.
What may still be wrong then is inside the value: a string that stands for nothing or is no name, a
number out of range, a sequence or a map of another size.

Main results: `decides_text`, `decides_float`, `decides_natural`, `decides_boolean`,
`decides_optional`, `decides_pair` and `decides_choice`, one for each reader.
-/

namespace CurveArt.Json

open Decimal (Halts halts_cons)

variable {α β : Type} {read : Reader α} {text raw rest left gap value inner : List Char}
  {letters : List Char} {found : α}

/-- What the reader finds in the text in one place, it takes the text for everywhere. -/
def Decides (read : Reader α) (text : List Char) : Prop :=
  ∀ gap rest left found, AreBlanks gap → Halts continuesNumber rest →
    read (gap ++ (text ++ rest)) = .ok (found, left) → left = rest ∧ Takes read text found

theorem Takes.decides (h : Takes read text found) : Decides read text := by
  intro gap rest left found' hgap hrest h'
  obtain ⟨rfl, rfl⟩ := Prod.mk.inj (Except.ok.inj ((h gap rest hgap hrest).symm.trans h'))
  exact ⟨rfl, h⟩

theorem bind_eq_ok {r : Except ReadError α} {f : α → Except ReadError β} {b : β} :
    (r >>= f) = .ok b ↔ ∃ a, r = .ok a ∧ f a = .ok b := by
  cases r with
  | ok a => exact ⟨fun h => ⟨a, rfl, h⟩, fun ⟨_, ha, h⟩ => Except.ok.inj ha ▸ h⟩
  | error e => exact ⟨nofun, fun ⟨_, ha, _⟩ => nomatch ha⟩

/-- What is found may be turned into something else or be refused after all. -/
theorem Decides.through {read' : Reader β} (h : Decides read text) (f : α → Except ReadError β)
    (hread : ∀ text, read' text = do
      let (a, rest) ← read text
      .ok (← f a, rest)) : Decides read' text := by
  intro gap rest left found hgap hrest h'
  rw [hread, bind_eq_ok] at h'
  obtain ⟨⟨a, left'⟩, ha, h'⟩ := h'
  obtain ⟨b, hb, h'⟩ := bind_eq_ok.1 h'
  obtain ⟨rfl, rfl⟩ := Prod.mk.inj (Except.ok.inj h')
  obtain ⟨rfl, htakes⟩ := h gap rest left' a hgap hrest ha
  refine ⟨rfl, fun gap rest hgap hrest => ?_⟩
  rw [hread, htakes gap rest hgap hrest]
  exact bind_eq_ok.2 ⟨_, rfl, bind_eq_ok.2 ⟨b, hb, rfl⟩⟩

theorem expect_front {c : Char} (hgap : AreBlanks gap) (hc : isBlank c = false)
    (rest : List Char) : expect [c] (skipBlanks (gap ++ c :: rest)) = .ok rest := by
  rw [skipBlanks_front hgap hc]
  simp [expect]

theorem expect_ne {c d : Char} (hgap : AreBlanks gap) (hd : isBlank d = false) (hne : c ≠ d)
    (rest : List Char) : expect [c] (skipBlanks (gap ++ d :: rest)) = .error .malformed := by
  rw [skipBlanks_front hgap hd]
  simp [expect, hne]

/-! ## Texts and numbers -/

/-- A string is taken for what it stands for. -/
theorem takes_standsFor (h : StandsFor raw letters) (expected : String) :
    Takes (readText expected) ('"' :: (raw ++ ['"'])) (String.ofList letters) := by
  intro gap rest hgap _
  unfold readText
  rw [List.cons_append, skipBlanks_front hgap rfl, List.append_assoc, List.singleton_append]
  simp only [unquote?_of_standsFor h]

theorem decides_text (h : IsValue text) (expected : String) :
    Decides (readText expected) text := by
  obtain ⟨c, tail, rfl, hshown⟩ := h.exists_shown
  intro gap rest left found hgap hrest h
  have hread := h
  unfold readText at h
  rw [List.cons_append, skipBlanks_front hgap hshown.nonblank] at h
  split at h
  case h_2 => cases h
  rename_i after heq
  obtain ⟨rfl, rfl⟩ := List.cons.inj heq
  obtain ⟨raw, hraw, rfl⟩ := hshown.string rfl
  rcases hraw.standsFor_or_isRefused with ⟨letters, hletters⟩ | hrefused
  · exact (takes_standsFor hletters expected).decides gap rest left _ hgap hrest hread
  · rw [List.append_assoc, List.singleton_append, hrefused rest] at h
    cases h

theorem decides_anyNumber (h : IsValue text) (expected : String) :
    Decides (readAnyNumber expected) text := by
  obtain ⟨c, tail, rfl, hshown⟩ := h.exists_shown
  intro gap rest left n hgap hrest h
  have hread := h
  unfold readAnyNumber at h
  rw [List.cons_append, skipBlanks_front hgap hshown.nonblank] at h
  dsimp only at h
  split at h
  case isFalse => cases h
  case isTrue hstarts =>
    have hnumber : IsNumber (c :: tail) :=
      hshown.number (by simpa only [startsNumber, Bool.or_eq_true, beq_iff_eq] using hstarts)
    -- the number is read alike wherever it ends
    obtain ⟨result, hresult⟩ := hnumber.isRead
    rw [← List.cons_append, hresult rest hrest] at h
    cases result with
    | error e => cases h
    | ok n =>
      have htakes : Takes (readAnyNumber expected) (c :: tail) n := by
        intro gap rest hgap hrest
        unfold readAnyNumber
        dsimp only
        rw [List.cons_append, skipBlanks_front hgap hshown.nonblank, if_pos (by exact hstarts)]
        exact hresult rest hrest
      exact htakes.decides gap rest left _ hgap hrest hread

theorem decides_float (h : IsValue text) : Decides readFloat text := by
  refine (decides_anyNumber h "f64").through (fun n => .ok n.toFloat) fun text => ?_
  rw [readFloat_eq]
  cases readAnyNumber "f64" text <;> rfl

/-- The number, if it is a whole one that was written without a sign. -/
def Number.asNatural (expected : String) : Number → Except ReadError Nat
  | .natural value => .ok value
  | .negative magnitude => .error (.invalidValue (.negative magnitude) expected)
  | .float value => .error (.invalidType (.float value) expected)

theorem decides_natural (h : IsValue text) (expected : String) :
    Decides (readNatural expected) text := by
  refine (decides_anyNumber h expected).through (Number.asNatural expected) fun text => ?_
  unfold readNatural
  rcases readAnyNumber expected text with e | ⟨_ | _ | _, rest⟩ <;> rfl

/-! ## Words -/

theorem decides_boolean (h : IsValue text) : Decides readBoolean text := by
  obtain ⟨c, tail, rfl, hshown⟩ := h.exists_shown
  intro gap rest left found hgap hrest h
  have hread := h
  unfold readBoolean at h
  rw [List.cons_append, skipBlanks_front hgap hshown.nonblank] at h
  split at h
  case h_1 heq =>
    obtain ⟨rfl, -⟩ := List.cons.inj heq
    obtain rfl := hshown.truth rfl
    exact (takes_boolean true).decides gap rest left _ hgap hrest hread
  case h_2 heq =>
    obtain ⟨rfl, -⟩ := List.cons.inj heq
    obtain rfl := hshown.falsity rfl
    exact (takes_boolean false).decides gap rest left _ hgap hrest hread
  case h_3 => cases h

theorem decides_optional (h : IsValue text) (hread : Decides read text) :
    Decides (readOptional read) text := by
  obtain ⟨c, tail, rfl, hshown⟩ := h.exists_shown
  by_cases hnull : c = 'n'
  · subst hnull
    obtain rfl := hshown.null rfl
    exact (takes_none read).decides
  intro gap rest left found hgap hrest h
  unfold readOptional at h
  rw [List.cons_append, skipBlanks_front hgap hshown.nonblank] at h
  split at h
  case h_1 heq => exact absurd (List.cons.inj heq).1 hnull
  case h_2 =>
    obtain ⟨⟨value, left'⟩, hvalue, h⟩ := bind_eq_ok.1 h
    obtain ⟨rfl, rfl⟩ := Prod.mk.inj (Except.ok.inj h)
    obtain ⟨rfl, htakes⟩ := hread [] rest left' value areBlanks_nil hrest hvalue
    exact ⟨rfl, takes_some htakes hshown.nonblank hnull⟩

/-! ## Sequences -/

/-- What is written before an item: a comma, unless it is the first. -/
def separator (first : Bool) : List Char :=
  if first then [] else [',']

theorem nextElement?_gap (hgap : AreBlanks gap) (first : Bool) (text : List Char) :
    nextElement? first (gap ++ text) = nextElement? first text := by
  unfold nextElement?
  rw [skipBlanks_gap hgap]

theorem nextElement?_end (hgap : AreBlanks gap) (first : Bool) (rest : List Char) :
    nextElement? first (gap ++ ']' :: rest) = .ok none := by
  rw [nextElement?_gap hgap]
  rfl

theorem closeSequence_end (hgap : AreBlanks gap) (rest : List Char) :
    closeSequence (gap ++ ']' :: rest) = .ok rest :=
  expect_front hgap rfl rest

theorem closeSequence_comma (hgap : AreBlanks gap) (rest : List Char) :
    closeSequence (gap ++ ',' :: rest) = .error .malformed :=
  expect_ne hgap rfl (by decide) rest

/-- A reader moves to an element through the blanks in front of it. -/
theorem IsElement.exists_next (h : IsElement value text) (hvalue : IsValue value) :
    ∃ back, AreBlanks back ∧ ∀ first rest,
      nextElement? first (separator first ++ (text ++ rest)) =
        .ok (some (value ++ (back ++ rest))) := by
  obtain ⟨front, back, hfront, hback, rfl⟩ := h
  obtain ⟨c, tail, rfl, hshown⟩ := hvalue.exists_shown
  refine ⟨back, hback, fun first rest => ?_⟩
  -- a value begins with no blank, so all blanks in front of it are passed over and no more
  have hskip : skipBlanks (front ++ (c :: tail ++ back) ++ rest) =
      c :: tail ++ (back ++ rest) := by
    simp only [List.append_assoc, List.cons_append]
    exact skipBlanks_front hfront hshown.nonblank _
  rw [← hskip]
  cases first with
  | true => exact nextElement?_first hskip hshown.nonclosing
  | false => exact nextElement?_comma hskip hshown.nonclosing

/-- What is found in an element it is taken for, and nothing but blanks is left of it. -/
theorem IsElement.exists_back {follow element : List Char} (first : Bool)
    (h : IsElement value text) (hvalue : IsValue value) (hdecides : Decides read value)
    (hfollow : Halts continuesNumber follow)
    (hnext : nextElement? first (separator first ++ (text ++ follow)) = .ok (some element))
    (hread : read element = .ok (found, left)) :
    ∃ back, AreBlanks back ∧ left = back ++ follow ∧ Takes read value found := by
  obtain ⟨back, hback, hnext'⟩ := h.exists_next hvalue
  obtain rfl := Option.some.inj (Except.ok.inj ((hnext' first follow).symm.trans hnext))
  obtain ⟨rfl, htakes⟩ := hdecides [] _ _ _ areBlanks_nil (hback.halts hfollow) hread
  exact ⟨back, hback, rfl, htakes⟩

/-- Two elements that are doubles make a pair. -/
theorem takes_elements {x y : Float} {first second value' : List Char}
    (helement : IsElement value first) (hvalue : IsValue value) (hx : Takes readFloat value x)
    (helement' : IsElement value' second) (hvalue' : IsValue value')
    (hy : Takes readFloat value' y) :
    Takes readPair ('[' :: (first ++ ',' :: second ++ [']'])) (x, y) := by
  intro gap rest hgap _
  obtain ⟨back, hback, hnext⟩ := helement.exists_next hvalue
  obtain ⟨back', hback', hnext'⟩ := helement'.exists_next hvalue'
  have hsecond : nextElement? false (back ++ ',' :: (second ++ ']' :: rest)) =
      .ok (some (value' ++ (back' ++ ']' :: rest))) := by
    rw [nextElement?_gap hback]
    exact hnext' false _
  simp only [List.cons_append, List.append_assoc, List.nil_append]
  exact readPair_eq_ok (skipBlanks_front hgap rfl _) (hnext true _)
    (hx [] _ areBlanks_nil (hback.halts (halts_cons rfl _))) hsecond
    (hy [] _ areBlanks_nil (hback'.halts (halts_cons rfl _))) (closeSequence_end hback' rest)

theorem exists_of_readPair {p : Float × Float} (h : readPair ('[' :: inner) = .ok (p, rest)) :
    ∃ element left element' left', nextElement? true inner = .ok (some element) ∧
      readFloat element = .ok (p.1, left) ∧ nextElement? false left = .ok (some element') ∧
      readFloat element' = .ok (p.2, left') ∧ closeSequence left' = .ok rest := by
  unfold readPair at h
  rw [skipBlanks_cons rfl] at h
  dsimp only at h
  obtain ⟨_ | element, helement, h⟩ := bind_eq_ok.1 h
  · cases h
  obtain ⟨⟨x, left⟩, hx, h⟩ := bind_eq_ok.1 h
  obtain ⟨_ | element', helement', h⟩ := bind_eq_ok.1 h
  · cases h
  obtain ⟨⟨y, left'⟩, hy, h⟩ := bind_eq_ok.1 h
  obtain ⟨last, hlast, h⟩ := bind_eq_ok.1 h
  obtain ⟨rfl, rfl⟩ := Prod.mk.inj (Except.ok.inj h)
  exact ⟨element, left, element', left', helement, hx, helement', hy, hlast⟩

theorem decides_pair (h : IsValue text) : Decides readPair text := by
  obtain ⟨c, tail, rfl, hshown⟩ := h.exists_shown
  intro gap rest left p hgap hrest h
  have hread : readPair (c :: tail ++ rest) = .ok (p, left) := by
    rw [← h]
    unfold readPair
    rw [skipBlanks_gap hgap]
  unfold readPair at h
  rw [List.cons_append, skipBlanks_front hgap hshown.nonblank] at h
  split at h
  case h_2 => cases h
  case h_1 heq =>
  obtain ⟨rfl, -⟩ := List.cons.inj heq
  obtain ⟨values, inner, hvalues, hlisted, rfl⟩ := hshown.sequence rfl
  rw [List.cons_append, List.append_assoc, List.singleton_append] at hread
  obtain ⟨_, left₁, _, left₂, hnext, hx, hnext', hy, hclose⟩ := exists_of_readPair hread
  cases hlisted with
  | none hinner =>
    rw [nextElement?_end hinner] at hnext
    cases hnext
  | some hseparated =>
    cases hseparated with
    | single helement =>
      have hvalue := hvalues _ (List.mem_cons_self ..)
      obtain ⟨back, hback, rfl, -⟩ := helement.exists_back true hvalue
        (decides_float hvalue) (halts_cons rfl rest) hnext hx
      -- a pair has two elements
      rw [nextElement?_end hback] at hnext'
      cases hnext'
    | @cons value values element others helement hothers =>
      have hvalue := hvalues _ (List.mem_cons_self ..)
      rw [List.append_assoc, List.cons_append] at hnext
      obtain ⟨back, hback, rfl, htakes⟩ := helement.exists_back true hvalue
        (decides_float hvalue) (halts_cons rfl _) hnext hx
      rw [nextElement?_gap hback] at hnext'
      cases hothers with
      | single helement' =>
        have hvalue' := hvalues _ (List.mem_cons_of_mem _ (List.mem_cons_self ..))
        obtain ⟨back', hback', rfl, htakes'⟩ := helement'.exists_back false hvalue'
          (decides_float hvalue') (halts_cons rfl rest) hnext' hy
        obtain rfl := Except.ok.inj ((closeSequence_end hback' rest).symm.trans hclose)
        exact ⟨rfl, takes_elements helement hvalue htakes helement' hvalue' htakes'⟩
      | cons helement' _ =>
        have hvalue' := hvalues _ (List.mem_cons_of_mem _ (List.mem_cons_self ..))
        rw [List.append_assoc, List.cons_append] at hnext'
        obtain ⟨back', hback', rfl, -⟩ := helement'.exists_back false hvalue'
          (decides_float hvalue') (halts_cons rfl _) hnext' hy
        -- and no more than two
        rw [closeSequence_comma hback'] at hclose
        cases hclose

/-! ## Names -/

variable {known : List (String × α)}

theorem exists_of_readName (hraw : IsContent raw)
    (h : readName known (raw ++ '"' :: rest) = .ok (found, left)) :
    left = rest ∧ ∀ rest, readName known (raw ++ '"' :: rest) = .ok (found, rest) := by
  rcases hraw.standsFor_or_isRefused with ⟨letters, hletters⟩ | hrefused
  · have hread (rest : List Char) := unquote?_of_standsFor hletters rest
    unfold readName at h ⊢
    simp only [hread] at h ⊢
    cases hfind : known.find? fun entry => entry.1 == String.ofList letters with
    | none =>
      rw [hfind] at h
      cases h
    | some entry =>
      rw [hfind] at h
      obtain ⟨rfl, rfl⟩ := Prod.mk.inj (Except.ok.inj h)
      exact ⟨rfl, fun _ => rfl⟩
  · unfold readName at h
    rw [hrefused rest] at h
    cases h

theorem exists_of_readChoice {after : List Char} (h : skipBlanks text = '\x7b' :: after)
    (hread : readChoice known text = .ok (found, rest)) :
    ∃ name left value word last, skipBlanks after = '"' :: name ∧
      readName known name = .ok (found, left) ∧ expect [':'] (skipBlanks left) = .ok value ∧
      skipBlanks value = 'n' :: word ∧ expect ['u', 'l', 'l'] word = .ok last ∧
      expect ['\x7d'] (skipBlanks last) = .ok rest := by
  unfold readChoice at hread
  rw [h] at hread
  split at hread
  case h_1 heq => exact absurd (List.cons.inj heq).1 (by decide)
  case h_3 => cases hread
  case h_2 heq =>
  obtain ⟨-, rfl⟩ := List.cons.inj heq
  split at hread
  case h_2 => cases hread
  case h_1 name hname =>
  obtain ⟨⟨found, left⟩, hfound, hread⟩ := bind_eq_ok.1 hread
  obtain ⟨value, hcolon, hread⟩ := bind_eq_ok.1 hread
  split at hread
  case h_2 => cases hread
  case h_1 word hword =>
  obtain ⟨last, hnull, hread⟩ := bind_eq_ok.1 hread
  obtain ⟨rest, hclose, hread⟩ := bind_eq_ok.1 hread
  obtain ⟨rfl, rfl⟩ := Prod.mk.inj (Except.ok.inj hread)
  exact ⟨name, left, value, word, last, hname, hfound, hcolon, hword, hnull, hclose⟩

theorem readChoice_eq_ok {after name value word last : List Char}
    (h : skipBlanks text = '\x7b' :: after) (hname : skipBlanks after = '"' :: name)
    (hfound : readName known name = .ok (found, left))
    (hcolon : expect [':'] (skipBlanks left) = .ok value) (hword : skipBlanks value = 'n' :: word)
    (hnull : expect ['u', 'l', 'l'] word = .ok last)
    (hclose : expect ['\x7d'] (skipBlanks last) = .ok rest) :
    readChoice known text = .ok (found, rest) := by
  unfold readChoice
  simp only [h, hname, hfound, hcolon, hword, hnull, hclose, bind, Except.bind]

/-- A string that is a name. -/
theorem takes_name (h : ∀ rest, readName known (raw ++ '"' :: rest) = .ok (found, rest)) :
    Takes (readChoice known) ('"' :: (raw ++ ['"'])) found := by
  intro gap rest hgap _
  unfold readChoice
  rw [List.cons_append, List.append_assoc, List.singleton_append, skipBlanks_front hgap rfl]
  exact h rest

/-- A map with nothing but a name for null. -/
theorem takes_named {front middle front' back : List Char}
    (hfound : ∀ rest, readName known (raw ++ '"' :: rest) = .ok (found, rest))
    (hfront : AreBlanks front) (hmiddle : AreBlanks middle) (hfront' : AreBlanks front')
    (hback : AreBlanks back) :
    Takes (readChoice known) ('\x7b' :: (front ++ '"' :: (raw ++ '"' :: (middle ++ ':' ::
      (front' ++ (['n', 'u', 'l', 'l'] ++ back)))) ++ ['\x7d'])) found := by
  intro gap rest hgap _
  simp only [List.cons_append, List.append_assoc, List.nil_append]
  exact readChoice_eq_ok (skipBlanks_front hgap rfl _) (skipBlanks_front hfront rfl _)
    (hfound _) (expect_front hmiddle rfl _) (skipBlanks_front hfront' rfl _) rfl
    (expect_front hback rfl rest)

/-- Where a name was found in a member, its value is null. -/
theorem IsMember.exists_named {member : List Char × List Char} {follow name word last : List Char}
    (h : IsMember member text) (hkey : IsContent member.1) (hvalue : IsValue member.2)
    (hname : skipBlanks (text ++ follow) = '"' :: name)
    (hfound : readName known name = .ok (found, left))
    (hcolon : expect [':'] (skipBlanks left) = .ok value) (hword : skipBlanks value = 'n' :: word)
    (hnull : expect ['u', 'l', 'l'] word = .ok last) :
    ∃ back, AreBlanks back ∧ last = back ++ follow ∧
      Takes (readChoice known) ('\x7b' :: (text ++ ['\x7d'])) found := by
  obtain ⟨front, middle, _, hfront, hmiddle, ⟨front', back, hfront', hback, rfl⟩, rfl⟩ := h
  obtain ⟨raw, value'⟩ := member
  simp only [List.append_assoc, List.cons_append] at hname
  rw [skipBlanks_front hfront rfl] at hname
  obtain ⟨-, rfl⟩ := List.cons.inj hname
  obtain ⟨rfl, hname⟩ := exists_of_readName hkey hfound
  -- behind the colon the value begins as null does, and then it is null
  obtain rfl := Except.ok.inj ((expect_front hmiddle rfl _).symm.trans hcolon)
  obtain ⟨c, tail, rfl, hshown⟩ := hvalue.exists_shown
  rw [List.cons_append, skipBlanks_front hfront' hshown.nonblank] at hword
  obtain ⟨rfl, rfl⟩ := List.cons.inj hword
  obtain rfl := hshown.null rfl
  obtain rfl : back ++ follow = last := Except.ok.inj hnull
  exact ⟨back, hback, rfl, takes_named hname hfront hmiddle hfront' hback⟩

theorem decides_choice (h : IsValue text) (known : List (String × α)) :
    Decides (readChoice known) text := by
  obtain ⟨c, tail, rfl, hshown⟩ := h.exists_shown
  intro gap rest left found hgap hrest h
  have hread := h
  unfold readChoice at h
  rw [List.cons_append, skipBlanks_front hgap hshown.nonblank] at h
  split at h
  case h_1 heq =>
    obtain ⟨rfl, rfl⟩ := List.cons.inj heq
    obtain ⟨raw, hraw, rfl⟩ := hshown.string rfl
    rw [List.append_assoc, List.singleton_append] at h
    obtain ⟨rfl, hname⟩ := exists_of_readName hraw h
    exact ⟨rfl, takes_name hname⟩
  case h_3 => cases h
  case h_2 heq =>
    obtain ⟨rfl, -⟩ := List.cons.inj heq
    obtain ⟨members, inner, hkeys, hvalues, hlisted, rfl⟩ := hshown.map rfl
    have hfront : skipBlanks (gap ++ ('\x7b' :: (inner ++ ['\x7d']) ++ rest)) =
        '\x7b' :: (inner ++ '\x7d' :: rest) := by
      rw [List.cons_append, skipBlanks_front hgap rfl, List.append_assoc, List.singleton_append]
    obtain ⟨name, left₁, value, word, last, hname, hfound, hcolon, hword, hnull, hclose⟩ :=
      exists_of_readChoice hfront hread
    cases hlisted with
    | none hinner =>
      -- an empty map has no name
      rw [skipBlanks_front hinner rfl] at hname
      exact absurd (List.cons.inj hname).1 (by decide)
    | some hseparated =>
      cases hseparated with
      | single hmember =>
        obtain ⟨back, hback, rfl, htakes⟩ := hmember.exists_named (hkeys _ (List.mem_cons_self ..))
          (hvalues _ (List.mem_cons_self ..)) hname hfound hcolon hword hnull
        obtain rfl := Except.ok.inj ((expect_front hback rfl rest).symm.trans hclose)
        exact ⟨rfl, htakes⟩
      | cons hmember _ =>
        rw [List.append_assoc, List.cons_append] at hname
        obtain ⟨back, hback, rfl, -⟩ := hmember.exists_named (hkeys _ (List.mem_cons_self ..))
          (hvalues _ (List.mem_cons_self ..)) hname hfound hcolon hword hnull
        -- the map has no other members
        rw [expect_ne hback rfl (by decide)] at hclose
        cases hclose

end CurveArt.Json
