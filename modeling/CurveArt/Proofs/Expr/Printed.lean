import CurveArt.Proofs.Decimal.ReadBack
import CurveArt.Proofs.Expr.Boundaries
import CurveArt.Proofs.Expr.Grammar
import CurveArt.Proofs.Formula.Scope

/-!
# The tokens of a printed expression

The text of an expression is cut into tokens again. A number or a name is followed by a blank, a
parenthesis or a comma, or by nothing, and none of these could make it longer; the other tokens that
nothing separates are single characters that begin no longer one. So the tokens are those that the
expression says, whatever they mean to the grammar.

Numbers come back as themselves as long as they are finite and have no sign. Infinity has no
numeral, so it comes back as a name.

Main results:

* `tokensOf_text`: the tokens of a printed expression.
* `wellSpelled_of_cut`: what a derivation reads from a text can be printed so.
-/

namespace CurveArt

/-! ## Expressions that can be printed -/

namespace Expr

/-- One place of an expression is spelled as a token: its name is a name, its number has no sign. -/
def Spelled : Expr → Prop
  | .number value => Binary64.Unsigned value
  | .name word | .call word _ => Spelling.IsName word.toList
  | _ => True

/-- Every place of the expression is spelled as a token. -/
def WellSpelled (e : Expr) : Prop :=
  ∀ part, Occurs part e → part.Spelled

theorem wellSpelled_iff {e : Expr} :
    e.WellSpelled ↔ e.Spelled ∧ ∀ operand ∈ e.operands, operand.WellSpelled :=
  forall_occurs_iff

mutual

/-- The tokens of the text of an expression. -/
def tokens : Expr → List Token
  | .number value => [if value.isFinite then .number value else .name "inf"]
  | .name word => [.name word]
  | .call function arguments =>
    .name function :: .leftParen :: (argumentsTokens arguments ++ [.rightParen])
  | .signed sign operand => sign.token :: operand.tokens
  | .binary op left right =>
    .leftParen :: (left.tokens ++ op.token :: (right.tokens ++ [.rightParen]))

def argumentsTokens : List Expr → List Token
  | [] => []
  | [e] => e.tokens
  | e :: rest => e.tokens ++ .comma :: argumentsTokens rest

end

end Expr

namespace Spelling

/-! ## Tokens that are cut where they end -/

/-- The characters that stand behind a number or a name in a printed text. -/
def isSeparator (c : Char) : Bool :=
  c == ' ' || c == '(' || c == ')' || c == ','

/-- The text is empty or begins with a separator. -/
def Separated (text : List Char) : Prop :=
  ∀ c ∈ text.head?, isSeparator c = true

theorem separated_nil : Separated [] := nofun

theorem separated_cons {c : Char} (h : isSeparator c = true) (rest : List Char) :
    Separated (c :: rest) := by
  intro d hd
  rwa [← Option.some.inj hd]

theorem Separated.ends {rest : List Char} (h : Separated rest) (ts : List Token) :
    Ends ts rest := by
  intro c hc
  have hkind : isInner c = false ∧ c ≠ '*' := by
    have hseparator := h c hc
    simp only [isSeparator, Bool.or_eq_true, beq_iff_eq] at hseparator
    rcases hseparator with ((rfl | rfl) | rfl) | rfl <;> decide
  exact ⟨hkind.1, fun hstar => absurd hstar hkind.2⟩

/-- A token in front of a separator is cut where it ends. -/
theorem tokensOf_append {text rest : List Char} {t : Token} (h : Spells text t)
    (hr : Separated rest) : tokensOf (text ++ rest) = t :: tokensOf rest := by
  obtain ⟨c, tail, htext, hc, -, hscan⟩ := scan_of_longest h (h.length_le (hr.ends [t]))
  rw [htext, tokensOf_cons hc, hscan]

/-! ## Printed expressions -/

theorem spells_number {value : Float} (h : Binary64.Unsigned value) :
    Spells (plainText value).toList (if value.isFinite then .number value else .name "inf") := by
  cases hfinite : value.isFinite with
  | true =>
    obtain ⟨hnumeral, hvalue⟩ := Decimal.number?_plainText h hfinite
    exact .number hnumeral hvalue
  | false =>
    rw [Decimal.plainText_of_infinite h hfinite]
    exact @Spells.name ['i', 'n', 'f'] (.word (.mk rfl (by simp [Token.continuesName])))

theorem spells_name {word : String} (h : IsName word.toList) :
    Spells word.toList (.name word) := by
  have hspells := Spells.name h
  rwa [String.ofList_toList] at hspells

theorem spells_operator (op : BinaryOp) : Spells op.symbol.toList op.token := by
  refine .symbol ?_
  cases op <;> simp [symbols, BinaryOp.symbol, BinaryOp.token]

/-- A sign in front of an expression is always a token. -/
theorem tokensOf_sign (sign : Sign) (rest : List Char) :
    tokensOf (sign.symbol.toList ++ rest) = sign.token :: tokensOf rest := by
  cases sign with
  | plus => exact @tokensOf_single '+' (by simp [singles]) rest
  | minus => exact @tokensOf_single '-' (by simp [singles]) rest

mutual

/-- **The tokens of a printed expression.** -/
theorem tokensOf_text (e : Expr) (h : e.WellSpelled) {rest : List Char} (hr : Separated rest) :
    tokensOf (e.text.toList ++ rest) = e.tokens ++ tokensOf rest := by
  obtain ⟨houter, hoperands⟩ := Expr.wellSpelled_iff.1 h
  -- the parts are cut from the right, so that what stands behind a part is a separator
  match e with
  | .number value => exact tokensOf_append (spells_number houter) hr
  | .name word => exact tokensOf_append (spells_name houter) hr
  | .call function arguments =>
    have harguments := tokensOf_argumentsText arguments hoperands
      (@separated_cons ')' rfl rest)
    have hfunction := tokensOf_append (spells_name houter)
      (@separated_cons '(' rfl ((Expr.argumentsText arguments).toList ++ ')' :: rest))
    rw [tokensOf_single (by simp [singles]), harguments, tokensOf_single (by simp [singles])]
      at hfunction
    have htext : (Expr.call function arguments).text.toList ++ rest =
        function.toList ++ '(' :: ((Expr.argumentsText arguments).toList ++ ')' :: rest) := by
      simp [Expr.text]
    rw [htext, hfunction]
    simp [Expr.tokens, Token.ofChar]
  | .signed sign operand =>
    have hoperand := tokensOf_text operand (hoperands operand (List.mem_singleton_self operand)) hr
    rw [Expr.text, String.toList_append, List.append_assoc, tokensOf_sign, hoperand]
    rfl
  | .binary op left right =>
    have hright := tokensOf_text right (hoperands right (by simp [Expr.operands]))
      (@separated_cons ')' rfl rest)
    have hop := tokensOf_append (spells_operator op)
      (@separated_cons ' ' rfl (right.text.toList ++ ')' :: rest))
    have hleft := tokensOf_text left (hoperands left (by simp [Expr.operands]))
      (@separated_cons ' ' rfl (op.symbol.toList ++ ' ' :: (right.text.toList ++ ')' :: rest)))
    rw [tokensOf_skip rfl, hright, tokensOf_single (by simp [singles])] at hop
    rw [tokensOf_skip rfl, hop] at hleft
    have htext : (Expr.binary op left right).text.toList ++ rest =
        '(' :: (left.text.toList ++ ' ' :: (op.symbol.toList ++
          ' ' :: (right.text.toList ++ ')' :: rest))) := by
      simp [Expr.text]
    rw [htext, tokensOf_single (by simp [singles]), hleft]
    simp [Expr.tokens, Token.ofChar]

theorem tokensOf_argumentsText (es : List Expr) (h : ∀ e ∈ es, e.WellSpelled) {rest : List Char}
    (hr : Separated rest) :
    tokensOf ((Expr.argumentsText es).toList ++ rest) =
      Expr.argumentsTokens es ++ tokensOf rest := by
  match es with
  | [] => rfl
  | [e] => exact tokensOf_text e (h e (List.mem_singleton_self e)) hr
  | e :: e' :: more =>
    obtain ⟨he, hmore⟩ := List.forall_mem_cons.1 h
    have hrest := tokensOf_argumentsText (e' :: more) hmore hr
    have hfirst := tokensOf_text e he
      (@separated_cons ',' rfl (' ' :: ((Expr.argumentsText (e' :: more)).toList ++ rest)))
    rw [tokensOf_single (by simp [singles]), tokensOf_skip rfl, hrest] at hfirst
    have htext : (Expr.argumentsText (e :: e' :: more)).toList ++ rest =
        e.text.toList ++ ',' :: ' ' :: ((Expr.argumentsText (e' :: more)).toList ++ rest) := by
      simp [Expr.argumentsText]
    rw [htext, hfirst]
    simp [Expr.argumentsTokens, Token.ofChar]

end

end Spelling

/-! ## Expressions that texts denote -/

/-- A token that a text spells. -/
def Token.Spelled : Token → Prop
  | .number value => Binary64.Unsigned value
  | .name word => Spelling.IsName word.toList
  | _ => True

namespace Spelling

theorem Spells.spelled {text : List Char} {t : Token} (h : Spells text t) : t.Spelled := by
  cases h with
  | number h hv => exact h.unsigned hv
  | name h =>
    show IsName (String.ofList text).toList
    rwa [String.toList_ofList]
  | symbol h =>
    simp only [symbols, List.mem_cons, Prod.mk.injEq, List.not_mem_nil, or_false] at h
    rcases h with h | h | h | h | h | h | h | h | h <;>
      rw [h.2] <;> trivial

theorem Cut.spelled {text : List Char} {ts : List Token} (h : Cut text ts) :
    ∀ t ∈ ts, t.Spelled := by
  induction h with
  | nil => exact nofun
  | skip _ _ ih => exact ih
  | token ht _ _ ih => exact List.forall_mem_cons.2 ⟨ht.spelled, ih⟩

end Spelling

namespace Grammar

/-- A fact about the expression that a category stands for, or about every argument of a list. -/
def Category.Holds (P : Expr → Prop) : (c : Category) → c.Result → Prop
  | .arguments, trees => ∀ e ∈ ParseTree.exprs trees, P e
  | .sum, tree | .term, tree | .unary, tree | .power, tree | .primary, tree => P tree.expr

end Grammar

namespace Expr

theorem wellSpelled_signed {sign : Sign} {operand : Expr} (h : operand.WellSpelled) :
    (Expr.signed sign operand).WellSpelled :=
  wellSpelled_iff.2 ⟨trivial, by simpa [operands] using h⟩

theorem wellSpelled_binary {op : BinaryOp} {left right : Expr} (hl : left.WellSpelled)
    (hr : right.WellSpelled) : (Expr.binary op left right).WellSpelled :=
  wellSpelled_iff.2 ⟨trivial, by simpa [operands] using ⟨hl, hr⟩⟩

end Expr

/-- Derived expressions are well spelled if their tokens are. -/
theorem Grammar.Derivation.wellSpelled {c : Category} (d : Derivation c)
    (h : ∀ t ∈ d.tokens, t.Spelled) : c.Holds Expr.WellSpelled d.result := by
  induction d with
  | ofTerm _ ih | ofUnary _ ih | ofPower _ ih | ofPrimary _ ih => exact ih h
  | add left op right ihl ihr | multiply left op right ihl ihr =>
    obtain ⟨hl, hr⟩ := List.forall_mem_append.1 h
    exact Expr.wellSpelled_binary (ihl hl) (ihr (List.forall_mem_cons.1 hr).2)
  | raise base exponent ihb ihe =>
    obtain ⟨hb, he⟩ := List.forall_mem_append.1 h
    exact Expr.wellSpelled_binary (ihb hb) (ihe (List.forall_mem_cons.1 he).2)
  | signed sign operand ih =>
    exact Expr.wellSpelled_signed (ih (List.forall_mem_cons.1 h).2)
  | number value | name word =>
    exact Expr.wellSpelled_iff.2 ⟨h _ (List.mem_singleton_self _), nofun⟩
  | callEmpty function =>
    exact Expr.wellSpelled_iff.2 ⟨(List.forall_mem_cons.1 h).1, nofun⟩
  | call function arguments ih =>
    obtain ⟨hfunction, hrest⟩ := List.forall_mem_cons.1 h
    obtain ⟨harguments, -⟩ := List.forall_mem_append.1 (List.forall_mem_cons.1 hrest).2
    exact Expr.wellSpelled_iff.2 ⟨hfunction, ih harguments⟩
  | group inner ih =>
    exact ih (List.forall_mem_append.1 (List.forall_mem_cons.1 h).2).1
  | one argument ih =>
    exact List.forall_mem_singleton.2 (ih h)
  | more before argument ihb iha =>
    obtain ⟨hb, ha⟩ := List.forall_mem_append.1 h
    show ∀ e ∈ ParseTree.exprs (before.result ++ [argument.result]), e.WellSpelled
    rw [ParseTree.exprs_append]
    exact List.forall_mem_append.2 ⟨ihb hb,
      List.forall_mem_singleton.2 (iha (List.forall_mem_cons.1 ha).2)⟩

/-- What a derivation reads from a text is well spelled. -/
theorem wellSpelled_of_cut {text : List Char} {d : Grammar.Derivation .sum}
    (h : Spelling.Cut text d.tokens) : d.expr.WellSpelled :=
  d.wellSpelled h.spelled

end CurveArt
