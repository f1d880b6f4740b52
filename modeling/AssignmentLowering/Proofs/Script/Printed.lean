import AssignmentLowering.Proofs.Script.Signed

/-!
# What printed expressions are divided into

Each printed expression is divided into the tokens of its parts, one part after the other,
with those tokens between them that the printer puts there. There is one exception: the
point of a member belongs to a whole number in front of it, and what the name behind the
point then is depends on the name. The divisions of an expression are told as a language,
of one list of tokens or of none, so that the exception is one more language among those
that are strung together.

## Main definitions

* `Expr.Legible` — expressions that are read back if their numbers are.
* `Expr.language` — the divisions of a printed expression.

## Main statements

* `Expr.Legible.splits` — a printed expression is divided as told, wherever it stands.
-/

namespace AssignmentLowering.Script

namespace Expr

mutual

/-- Expressions that are read back if their numbers are. -/
def Legible (A : Alphabet) : Expr → Prop
  | null | bool _ | number _ | string _ | this => True
  | ident name => A.IsIdentifier name ∧ name ≠ "NaN"
  | typeHandle name => ∀ c ∈ name.toList, handlePart c = true
  | member object name => object.Legible A ∧ A.IsWord name
  | index object i => object.Legible A ∧ i.Legible A
  | call callee args => callee.Legible A ∧ AllLegible A args
  | array items => AllLegible A items
  | assign target value => target.Legible A ∧ value.Legible A
  | compoundAssign op target value =>
    (∃ assignOp : AssignOp, assignOp.binary? = some op) ∧ target.Legible A ∧ value.Legible A
  | binary _ left right => left.Legible A ∧ right.Legible A
  | verbatim _ => False

def AllLegible (A : Alphabet) : List Expr → Prop
  | [] => True
  | e :: es => e.Legible A ∧ AllLegible A es

end

end Expr

/-- The assignment operator that applies a binary operator, if there is one. -/
def compoundOp : BinaryOp → AssignOp
  | .add => .addAssign
  | .sub => .subAssign
  | .mul => .mulAssign
  | .div => .divAssign
  | .mod => .modAssign
  | .bitwiseAnd => .andAssign
  | .bitwiseOr => .orAssign
  | .bitwiseXor => .xorAssign
  | .shiftLeft => .shlAssign
  | .shiftRight => .shrAssign
  | .shiftRightUnsigned => .ushrAssign
  | _ => .assign

theorem compoundOp_of_binary? {a : AssignOp} {op : BinaryOp} (h : a.binary? = some op) :
    compoundOp op = a := by
  cases a <;> cases h <;> rfl

/-- Tokens in parentheses where the printer puts these. -/
def atLevelLanguage (level precedence : Nat) (L : Language Lexeme) : Language Lexeme :=
  if precedence < level then {[.token .openParen]} * (L * {[.token .closeParen]}) else L

namespace Expr

/-- Whether an expression is a number that is printed without a point. -/
def isIntegral : Expr → Bool
  | number x => isInteger x
  | _ => false

mutual

/-- The divisions of the bare text of an expression. The point and the name behind a whole
number may make a number with it. -/
def language (A : Alphabet) : Expr → Language Lexeme
  | null => {[.token (.word "null")]}
  | bool true => {[.token (.word "true")]}
  | bool false => {[.token (.word "false")]}
  | number x => {numberLexemes x}
  | string s => {[.token (.string s)]}
  | ident name => {[.token (.word name)]}
  | this => {[.token (.word "this")]}
  | typeHandle name => {[.token (.handle name)]}
  | member object name =>
    if object.isIntegral then divisions A (object.bare ++ '.' :: name.toList)
    else atLevelLanguage postfixLevel object.precedence (object.language A) *
      {[.token .dot, .token (.word name)]}
  | index object i =>
    atLevelLanguage postfixLevel object.precedence (object.language A) *
      ({[.token .openBracket]} * (i.language A * {[.token .closeBracket]}))
  | call callee args =>
    atLevelLanguage postfixLevel callee.precedence (callee.language A) *
      ({[.token .openParen]} * (languageAll A args * {[.token .closeParen]}))
  | array items =>
    {[.token .openBracket]} * (languageAll A items * {[.token .closeBracket]})
  | assign target value =>
    atLevelLanguage postfixLevel target.precedence (target.language A) *
      ({[.token (.assign .assign)]} * value.language A)
  | compoundAssign op target value =>
    atLevelLanguage postfixLevel target.precedence (target.language A) *
      ({[.token (.assign (compoundOp op))]} * value.language A)
  | binary op left right =>
    atLevelLanguage op.precedence left.precedence (left.language A) *
      ({[.token (.binary op)]} *
        atLevelLanguage (op.precedence + 1) right.precedence (right.language A))
  | verbatim _ => 0

/-- The divisions of items between commas. -/
def languageAll (A : Alphabet) : List Expr → Language Lexeme
  | [] => 1
  | [item] => item.language A
  | item :: next :: rest =>
    item.language A * ({[.token .comma]} * languageAll A (next :: rest))

end

end Expr

variable {A : Alphabet} {t u : Tail} {cs ds : List Char} {L M : Language Lexeme}

namespace Splits

theorem paren (h : Splits A t cs L) :
    Splits A .closed ('(' :: (cs ++ [')']))
      ({[.token .openParen]} * (L * {[.token .closeParen]})) :=
  splits_openParen.append_closed (h.append splits_closeParen fun _ => .cons (by decide))

theorem index (h : Splits A t cs L) (hi : Splits A u ds M) :
    Splits A .closed (cs ++ '[' :: (ds ++ [']']))
      (L * ({[.token .openBracket]} * (M * {[.token .closeBracket]}))) :=
  h.append (splits_openBracket.append_closed
    (hi.append splits_closeBracket fun _ => .cons (by decide))) fun _ => .cons (by decide)

theorem call (h : Splits A t cs L) (ha : Splits A u ds M) :
    Splits A .closed (cs ++ '(' :: (ds ++ [')']))
      (L * ({[.token .openParen]} * (M * {[.token .closeParen]}))) :=
  h.append (splits_openParen.append_closed
    (ha.append splits_closeParen fun _ => .cons (by decide))) fun _ => .cons (by decide)

theorem array (ha : Splits A t cs L) :
    Splits A .closed ('[' :: (cs ++ [']']))
      ({[.token .openBracket]} * (L * {[.token .closeBracket]})) :=
  splits_openBracket.append_closed (ha.append splits_closeBracket fun _ => .cons (by decide))

theorem binary (op : BinaryOp) (h : Splits A t cs L) (h' : Splits A u ds M) :
    Splits A u (cs ++ spaced op.token ++ ds) (L * ({[.token (.binary op)]} * M)) := by
  rw [List.append_assoc]
  exact h.append ((splits_binary op).append_closed h') fun _ => .cons (by decide)

theorem assign (op : AssignOp) (h : Splits A t cs L) (h' : Splits A u ds M) :
    Splits A u (cs ++ spaced op.token ++ ds) (L * ({[.token (.assign op)]} * M)) := by
  rw [List.append_assoc]
  exact h.append ((splits_assign op).append_closed h') fun _ => .cons (by decide)

theorem comma (h : Splits A t cs L) (h' : Splits A u ds M) :
    Splits A u (cs ++ ',' :: ' ' :: ds) (L * ({[.token .comma]} * M)) :=
  h.append (splits_comma.append_closed h') fun _ => .cons (by decide)

/-- Parentheses stand where the printer puts them. -/
theorem atLevel (h : Splits A t cs L) (level precedence : Nat) :
    Splits A t (atLevel level precedence cs) (atLevelLanguage level precedence L) := by
  unfold Script.atLevel atLevelLanguage
  split
  · exact h.paren.of_closed
  · exact h

/-- What a member is taken of does not end with a whole number. -/
theorem object {e : Expr} (h : Splits A e.tail e.bare L) (hn : e.isNumber = false) :
    Splits A .name (e.chars postfixLevel) (atLevelLanguage postfixLevel e.precedence L) := by
  by_cases hatomic : e.isAtomic = true
  · rw [Expr.tail_of_isAtomic hatomic hn] at h
    exact h.atLevel _ _
  · have hlt : e.precedence < postfixLevel := by simpa [Expr.isAtomic] using hatomic
    rw [Expr.chars, Script.atLevel, atLevelLanguage, if_pos hlt, if_pos hlt]
    exact h.paren.of_closed

end Splits

namespace Expr

theorem splits_integral_member {object : Expr} {name : String} (h : object.isIntegral = true)
    (hname : A.IsWord name) :
    Splits A .name (object.chars postfixLevel ++ '.' :: name.toList)
        (divisions A (object.bare ++ '.' :: name.toList)) := by
  cases object
  case number x =>
    obtain ⟨L, hsplits, -⟩ := exists_splits_fused (A := A) h hname
    have hL := hsplits.divisions_eq
    rw [← hL] at hsplits
    exact hsplits
  all_goals cases h

mutual

/-- The bare text of an expression is divided as told. -/
theorem Legible.splits : ∀ e : Expr, e.Legible A → Splits A e.tail e.bare (e.language A)
  | null, _ => splits_literal "null" rfl (by decide)
  | bool true, _ => splits_literal "true" rfl (by decide)
  | bool false, _ => splits_literal "false" rfl (by decide)
  | this, _ => splits_literal "this" rfl (by decide)
  | number x, _ => (splits_numberChars x).to_number
  | string s, _ => (splits_quotedChars s).of_closed
  | ident _, h => splits_word h.1.1
  | typeHandle _, h => (splits_handle h).of_closed
  | member object name, ⟨ho, hname⟩ => by
    have hobject := Legible.splits object ho
    rw [bare_member, language]
    split
    · next hint => exact splits_integral_member hint hname
    · next hint =>
      refine Splits.append ?_ (splits_member hname) fun _ => .point
      cases hn : object.isNumber with
      | false => exact hobject.object hn
      | true =>
        obtain ⟨x, rfl⟩ : ∃ x, object = number x := by
          cases object <;> first | exact ⟨_, rfl⟩ | cases hn
        have hnumber := splits_numberChars (A := A) x
        have hx : isInteger x = false := by simpa [isIntegral] using hint
        rw [numberTail, hx] at hnumber
        exact hnumber
  | index object i, ⟨ho, hi⟩ => by
    have hi := Legible.splits i hi
    rw [bare_index, chars_assignLevel]
    exact (((Legible.splits object ho).atLevel _ _).index hi).of_closed
  | call callee args, ⟨hc, ha⟩ => by
    have hargs := AllLegible.splits args ha
    rw [bare_call]
    exact (((Legible.splits callee hc).atLevel _ _).call hargs).of_closed
  | array items, h => (Splits.array (AllLegible.splits items h)).of_closed
  | assign target value, ⟨ht, hv⟩ => by
    have hvalue := Legible.splits value hv
    rw [bare_assign, chars_assignLevel]
    exact (((Legible.splits target ht).atLevel _ _).assign .assign hvalue).to_number
  | compoundAssign op target value, ⟨⟨a, ha⟩, ht, hv⟩ => by
    have hvalue := Legible.splits value hv
    have h := (((Legible.splits target ht).atLevel postfixLevel target.precedence).assign a
      hvalue).to_number
    rw [AssignOp.token, ha] at h
    rw [bare_compoundAssign, chars_assignLevel, language, compoundOp_of_binary? ha]
    exact h
  | binary op left right, ⟨hl, hr⟩ =>
    (((Legible.splits left hl).atLevel _ _).binary op
      ((Legible.splits right hr).atLevel _ _)).to_number

theorem AllLegible.splits : ∀ es : List Expr, AllLegible A es →
    Splits A .number (listChars es) (languageAll A es)
  | [], _ => .nil
  | [e], ⟨he, _⟩ => by
    have h := (Legible.splits e he).to_number
    rwa [← chars_assignLevel] at h
  | e :: f :: es, ⟨he, hes⟩ => by
    have h := Legible.splits e he
    rw [← chars_assignLevel] at h
    exact h.comma (AllLegible.splits (f :: es) hes)

end

end Expr

end AssignmentLowering.Script
