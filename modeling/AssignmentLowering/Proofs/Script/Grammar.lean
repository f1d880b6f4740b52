import AssignmentLowering.Proofs.Script.Token

/-!
# The grammar of script expressions

Which expression a list of tokens is. Assignment is the loosest form and groups to the right;
the binary operators stand in ten layers above it and group to the left; member access,
subscripts and calls follow their operand, and above all of these are the forms without an
open end. Parentheses make any expression one of the last.

The grammar is ambiguous in no place. To see this, tokens are parsed from left to right, with
the operators that come next deciding how far an operand reaches: the tokens of a derivation
are parsed as the expression derived, so there is only one.

## Main definitions

* `Script.layers`, `BinaryOp.rank` — the binary operators by how tightly they bind.
* `Script.Derives`, `Script.DerivesAll` — the grammar, of expressions and of lists.
* `Script.Reads` — the expressions that a text is.

## Main statements

* `Script.ParsesFrom.unique` — parsing has one result at most.
* `Script.Derives.parses` — derived tokens parse as what they derive.
* `Script.Reads.unique` — a text is one expression at most.
-/

namespace AssignmentLowering

open Script (Token)

namespace Script

/-- The binary operators, loosest first, those of one layer together. -/
def layers : List (List BinaryOp) :=
  [[.logicalOr], [.logicalAnd], [.bitwiseOr], [.bitwiseXor], [.bitwiseAnd],
    [.equal, .notEqual], [.less, .lessEqual, .greater, .greaterEqual],
    [.shiftLeft, .shiftRight, .shiftRightUnsigned], [.add, .sub], [.mul, .div, .mod]]

end Script

/-- The layer of an operator, counted from one: below them all is assignment. -/
def BinaryOp.rank (op : BinaryOp) : Nat := Script.layers.findIdx (op ∈ ·) + 1

theorem BinaryOp.rank_pos (op : BinaryOp) : 0 < op.rank := Nat.succ_pos _

/-- All layers lie below the postfix forms. -/
theorem BinaryOp.rank_lt (op : BinaryOp) : op.rank < 11 := by
  cases op <;> decide

namespace Script

/-- The rank of what an access or a call applies to: above all layers. -/
def postfixRank : Nat := 11

/-- The rank of names, literals and what stands in brackets. -/
def primaryRank : Nat := 12

/-- What a name stands for by itself. Words that introduce other forms of the language are not
told apart from identifiers, as there are no such forms here. -/
def Expr.ofWord : String → Expr
  | "null" => .null
  | "true" => .bool true
  | "false" => .bool false
  | "this" => .this
  | name => .ident name

/-- An assignment with the given operator. -/
def Expr.ofAssign (op : AssignOp) (target value : Expr) : Expr :=
  match op.binary? with
  | none => .assign target value
  | some op => .compoundAssign op target value

mutual

/-- The expressions of a rank: `Derives k ts e` says that the tokens `ts` are the expression
`e`, in a form that binds at least as tightly as rank `k` asks for. -/
inductive Derives : Nat → List Token → Expr → Prop
  | word (name : String) : Derives primaryRank [.word name] (.ofWord name)
  | number (n : Nat) : Derives primaryRank [.number n] (.number (.ofInt n))
  | string (s : String) : Derives primaryRank [.string s] (.string s)
  | handle (name : String) : Derives primaryRank [.handle name] (.typeHandle name)
  | paren {ts : List Token} {e : Expr} (h : Derives 0 ts e) :
    Derives primaryRank (.openParen :: (ts ++ [.closeParen])) e
  | array {ts : List Token} {items : List Expr} (h : DerivesAll ts items) :
    Derives primaryRank (.openBracket :: (ts ++ [.closeBracket])) (.array items)
  | member {ts : List Token} {object : Expr} (h : Derives postfixRank ts object)
    (name : String) : Derives postfixRank (ts ++ [.dot, .word name]) (.member object name)
  | index {ts us : List Token} {object i : Expr} (h : Derives postfixRank ts object)
    (hi : Derives 0 us i) :
    Derives postfixRank (ts ++ .openBracket :: (us ++ [.closeBracket])) (.index object i)
  | call {ts us : List Token} {callee : Expr} {args : List Expr}
    (h : Derives postfixRank ts callee) (ha : DerivesAll us args) :
    Derives postfixRank (ts ++ .openParen :: (us ++ [.closeParen])) (.call callee args)
  | binary (op : BinaryOp) {ts us : List Token} {left right : Expr}
    (hl : Derives op.rank ts left) (hr : Derives (op.rank + 1) us right) :
    Derives op.rank (ts ++ .binary op :: us) (.binary op left right)
  | assign (op : AssignOp) {ts us : List Token} {target value : Expr}
    (ht : Derives postfixRank ts target) (hv : Derives 0 us value) :
    Derives 0 (ts ++ .assign op :: us) (.ofAssign op target value)
  | weaken {k : Nat} {ts : List Token} {e : Expr} (h : Derives (k + 1) ts e) : Derives k ts e

/-- Expressions between commas. -/
inductive DerivesAll : List Token → List Expr → Prop
  | nil : DerivesAll [] []
  | one {ts : List Token} {e : Expr} (h : Derives 0 ts e) : DerivesAll ts [e]
  | cons {ts us : List Token} {e f : Expr} {es : List Expr} (h : Derives 0 ts e)
    (hs : DerivesAll us (f :: es)) : DerivesAll (ts ++ .comma :: us) (e :: f :: es)

end

/-- The expressions that a text is. -/
def Reads (A : Alphabet) (text : String) (e : Expr) : Prop :=
  ∃ ts, Lexes A text.toList ts ∧ Derives 0 ts e

theorem Derives.of_le {j k : Nat} {ts : List Token} {e : Expr} (hjk : j ≤ k)
    (h : Derives k ts e) : Derives j ts e := by
  induction hjk with
  | refl => exact h
  | step _ ih => exact ih h.weaken

/-! ### Parsing from left to right -/

/-- How tightly a token draws on the expression before it, if it does. -/
def Token.pull : Token → Option Nat
  | .binary op => some op.rank
  | .assign _ => some 0
  | .dot | .openParen | .openBracket => some primaryRank
  | _ => none

/-- What follows draws on the expression before it less than a rank asks for. -/
def Below (k : Nat) (rest : List Token) : Prop :=
  ∀ t ∈ rest.head?, ∀ s ∈ t.pull, s < k

@[simp] theorem below_cons {k : Nat} {t : Token} {rest : List Token} :
    Below k (t :: rest) ↔ ∀ s ∈ t.pull, s < k := by
  simp [Below]

theorem Below.mono {j k : Nat} {rest : List Token} (h : Below j rest) (hjk : j ≤ k) :
    Below k rest :=
  fun t ht s hs => Nat.lt_of_lt_of_le (h t ht s hs) hjk

/-- Whether a token closes a list. -/
def Token.closes : Token → Bool
  | .closeParen | .closeBracket => true
  | _ => false

mutual

/-- An operand with all that is applied to it, and the tokens that follow. -/
inductive ParsesOperand : List Token → Expr × List Token → Prop
  | word {name : String} {ts : List Token} {p : Expr × List Token}
    (hs : ParsesSuffixes (.ofWord name) ts p) : ParsesOperand (.word name :: ts) p
  | number {n : Nat} {ts : List Token} {p : Expr × List Token}
    (hs : ParsesSuffixes (.number (.ofInt n)) ts p) : ParsesOperand (.number n :: ts) p
  | string {s : String} {ts : List Token} {p : Expr × List Token}
    (hs : ParsesSuffixes (.string s) ts p) : ParsesOperand (.string s :: ts) p
  | handle {name : String} {ts : List Token} {p : Expr × List Token}
    (hs : ParsesSuffixes (.typeHandle name) ts p) : ParsesOperand (.handle name :: ts) p
  | paren {ts us : List Token} {e : Expr} {p : Expr × List Token}
    (h : ParsesFrom 0 ts (e, .closeParen :: us)) (hs : ParsesSuffixes e us p) :
    ParsesOperand (.openParen :: ts) p
  | array {ts us : List Token} {es : List Expr} {p : Expr × List Token}
    (h : ParsesItems ts (es, .closeBracket :: us)) (hs : ParsesSuffixes (.array es) us p) :
    ParsesOperand (.openBracket :: ts) p

/-- The accesses and calls that follow an operand. -/
inductive ParsesSuffixes : Expr → List Token → Expr × List Token → Prop
  | member {e : Expr} {name : String} {ts : List Token} {p : Expr × List Token}
    (hs : ParsesSuffixes (.member e name) ts p) :
    ParsesSuffixes e (.dot :: .word name :: ts) p
  | index {e i : Expr} {ts us : List Token} {p : Expr × List Token}
    (h : ParsesFrom 0 ts (i, .closeBracket :: us)) (hs : ParsesSuffixes (.index e i) us p) :
    ParsesSuffixes e (.openBracket :: ts) p
  | call {e : Expr} {es : List Expr} {ts us : List Token} {p : Expr × List Token}
    (h : ParsesItems ts (es, .closeParen :: us)) (hs : ParsesSuffixes (.call e es) us p) :
    ParsesSuffixes e (.openParen :: ts) p
  | stop {e : Expr} {ts : List Token} (h : Below primaryRank ts) : ParsesSuffixes e ts (e, ts)

/-- An expression with the operators that have at least the given rank. -/
inductive ParsesFrom : Nat → List Token → Expr × List Token → Prop
  | mk {k : Nat} {ts us : List Token} {e : Expr} {p : Expr × List Token}
    (h : ParsesOperand ts (e, us)) (hr : ParsesRest k e us p) : ParsesFrom k ts p

/-- The operators of at least the given rank that follow an operand, with their other
operands. -/
inductive ParsesRest : Nat → Expr → List Token → Expr × List Token → Prop
  | binary {k : Nat} {op : BinaryOp} {e right : Expr} {ts us : List Token}
    {p : Expr × List Token} (hk : k ≤ op.rank) (h : ParsesFrom (op.rank + 1) ts (right, us))
    (hr : ParsesRest k (.binary op e right) us p) : ParsesRest k e (.binary op :: ts) p
  | assign (op : AssignOp) {e value : Expr} {ts us : List Token}
    (h : ParsesFrom 0 ts (value, us)) :
    ParsesRest 0 e (.assign op :: ts) (.ofAssign op e value, us)
  | stop {k : Nat} {e : Expr} {ts : List Token} (h : Below k ts) : ParsesRest k e ts (e, ts)

/-- Expressions between commas, up to a closing bracket. -/
inductive ParsesItems : List Token → List Expr × List Token → Prop
  | nil {t : Token} {ts : List Token} (ht : t.closes = true) :
    ParsesItems (t :: ts) ([], t :: ts)
  | first {e : Expr} {ts us : List Token} {p : List Expr × List Token}
    (h : ParsesFrom 0 ts (e, us)) (hm : ParsesMore e us p) : ParsesItems ts p

/-- A first item together with those behind a comma. -/
inductive ParsesMore : Expr → List Token → List Expr × List Token → Prop
  | last {e : Expr} {t : Token} {ts : List Token} (ht : t.closes = true) :
    ParsesMore e (t :: ts) ([e], t :: ts)
  | comma {e : Expr} {es : List Expr} {ts us : List Token} (h : ParsesItems ts (es, us)) :
    ParsesMore e (.comma :: ts) (e :: es, us)

end

/-- No expression starts with a closing bracket. -/
theorem ParsesFrom.closes_eq_false {k : Nat} {t : Token} {ts : List Token}
    {p : Expr × List Token} (h : ParsesFrom k (t :: ts) p) : t.closes = false := by
  obtain ⟨h, -⟩ := h
  cases h <;> rfl

mutual

/-- What comes next always decides how parsing goes on. -/
theorem ParsesOperand.unique : ∀ {ts : List Token} {p q : Expr × List Token},
    ParsesOperand ts p → ParsesOperand ts q → p = q
  | _, _, _, .word hs, .word hs' | _, _, _, .number hs, .number hs'
  | _, _, _, .string hs, .string hs' | _, _, _, .handle hs, .handle hs' => hs.unique hs'
  | _, _, _, .paren h hs, .paren h' hs' | _, _, _, .array h hs, .array h' hs' => by
    cases h.unique h'
    exact hs.unique hs'
termination_by structural _ _ _ h => h

theorem ParsesSuffixes.unique : ∀ {e : Expr} {ts : List Token} {p q : Expr × List Token},
    ParsesSuffixes e ts p → ParsesSuffixes e ts q → p = q
  | _, _, _, _, .member hs, .member hs' => hs.unique hs'
  | _, _, _, _, .index h hs, .index h' hs' | _, _, _, _, .call h hs, .call h' hs' => by
    cases h.unique h'
    exact hs.unique hs'
  | _, _, _, _, .stop _, .stop _ => rfl
  | _, _, _, _, .stop hb, .member _ | _, _, _, _, .stop hb, .index _ _
  | _, _, _, _, .stop hb, .call _ _ | _, _, _, _, .member _, .stop hb
  | _, _, _, _, .index _ _, .stop hb | _, _, _, _, .call _ _, .stop hb => by
    simp [Token.pull] at hb
termination_by structural _ _ _ _ h => h

theorem ParsesFrom.unique : ∀ {k : Nat} {ts : List Token} {p q : Expr × List Token},
    ParsesFrom k ts p → ParsesFrom k ts q → p = q
  | _, _, _, _, .mk h hr, .mk h' hr' => by
    cases h.unique h'
    exact hr.unique hr'
termination_by structural _ _ _ _ h => h

theorem ParsesRest.unique : ∀ {k : Nat} {e : Expr} {ts : List Token} {p q : Expr × List Token},
    ParsesRest k e ts p → ParsesRest k e ts q → p = q
  | _, _, _, _, _, .binary _ h hr, .binary _ h' hr' => by
    cases h.unique h'
    exact hr.unique hr'
  | _, _, _, _, _, .assign _ h, .assign _ h' => by
    cases h.unique h'
    rfl
  | _, _, _, _, _, .stop _, .stop _ => rfl
  | _, _, _, _, _, .stop hb, .binary hk _ _ | _, _, _, _, _, .binary hk _ _, .stop hb => by
    simp only [below_cons, Token.pull] at hb
    exact absurd (hb _ rfl) (Nat.not_lt.2 hk)
  | _, _, _, _, _, .stop hb, .assign _ _ | _, _, _, _, _, .assign _ _, .stop hb => by
    simp [Token.pull] at hb
termination_by structural _ _ _ _ _ h => h

theorem ParsesItems.unique : ∀ {ts : List Token} {p q : List Expr × List Token},
    ParsesItems ts p → ParsesItems ts q → p = q
  | _, _, _, .nil _, .nil _ => rfl
  | _, _, _, .first h hm, .first h' hm' => by
    cases h.unique h'
    exact hm.unique hm'
  | _, _, _, .nil ht, .first h _ | _, _, _, .first h _, .nil ht => by
    simp [h.closes_eq_false] at ht
termination_by structural _ _ _ h => h

theorem ParsesMore.unique : ∀ {e : Expr} {ts : List Token} {p q : List Expr × List Token},
    ParsesMore e ts p → ParsesMore e ts q → p = q
  | _, _, _, _, .last _, .last _ => rfl
  | _, _, _, _, .comma h, .comma h' => by
    cases h.unique h'
    rfl
  | _, _, _, _, .last ht, .comma _ | _, _, _, _, .comma _, .last ht => by
    simp [Token.closes] at ht
termination_by structural _ _ _ _ h => h

end

/-! ### Derived tokens are parsed -/

/-- Tokens that parse as an expression of a rank: how far they reach is settled by what
follows. -/
structure Parses (k : Nat) (ts : List Token) (e : Expr) : Prop where
  operand : postfixRank ≤ k → ∀ rest {p}, ParsesSuffixes e rest p → ParsesOperand (ts ++ rest) p
  inner : 0 < k → k ≤ postfixRank → ∀ rest {j p}, j ≤ k → Below (k + 1) rest →
    ParsesRest j e rest p → ParsesFrom j (ts ++ rest) p
  whole : ∀ rest, Below 0 rest → ParsesFrom 0 (ts ++ rest) (e, rest)

namespace Parses

variable {k : Nat} {ts : List Token} {e : Expr}

theorem of_inner (hk : k < postfixRank)
    (h : ∀ rest {j p}, j ≤ k → Below (k + 1) rest → ParsesRest j e rest p →
      ParsesFrom j (ts ++ rest) p) : Parses k ts e where
  operand hle := absurd hle (Nat.not_le.2 hk)
  inner _ _ := h
  whole rest hb := h rest (Nat.zero_le k) (hb.mono (Nat.zero_le _)) (.stop hb)

theorem of_operand
    (h : ∀ rest {p}, ParsesSuffixes e rest p → ParsesOperand (ts ++ rest) p) :
    Parses k ts e where
  operand _ := h
  inner _ hk rest _ _ _ hb hr := .mk (h rest (.stop (hb.mono (Nat.succ_le_succ hk)))) hr
  whole rest hb := .mk (h rest (.stop (hb.mono (Nat.zero_le _)))) (.stop hb)

theorem of_whole (h : ∀ rest, Below 0 rest → ParsesFrom 0 (ts ++ rest) (e, rest)) :
    Parses 0 ts e where
  operand hle := absurd hle (by decide)
  inner h0 := absurd h0 (Nat.lt_irrefl 0)
  whole := h

theorem weaken (h : Parses (k + 1) ts e) : Parses k ts e := by
  rcases Nat.eq_zero_or_pos k with rfl | hk
  · exact of_whole h.whole
  rcases Nat.lt_or_ge k postfixRank with hlt | hge
  · exact of_inner hlt fun rest _ _ hj hb hr =>
      h.inner (Nat.succ_pos k) hlt rest (Nat.le_succ_of_le hj) (hb.mono (Nat.le_succ _)) hr
  · exact of_operand (h.operand (Nat.le_succ_of_le hge))

end Parses

mutual

/-- Derived tokens parse as the expression that they derive. -/
theorem Derives.parses : ∀ {k : Nat} {ts : List Token} {e : Expr}, Derives k ts e → Parses k ts e
  | _, _, _, .word _ => .of_operand fun _ _ hs => .word hs
  | _, _, _, .number _ => .of_operand fun _ _ hs => .number hs
  | _, _, _, .string _ => .of_operand fun _ _ hs => .string hs
  | _, _, _, .handle _ => .of_operand fun _ _ hs => .handle hs
  | _, _, _, .paren h => .of_operand fun rest _ hs => by
    have hinner := h.parses.whole (.closeParen :: rest) (by simp [Token.pull])
    simpa using ParsesOperand.paren hinner hs
  | _, _, _, .array h => .of_operand fun rest _ hs => by
    have hitems := h.parses .closeBracket rest rfl
    simpa using ParsesOperand.array hitems hs
  | _, _, _, .member h _ => .of_operand fun _ _ hs => by
    simpa using h.parses.operand (Nat.le_refl _) _ (.member hs)
  | _, _, _, .index h hi => .of_operand fun rest _ hs => by
    have hinner := hi.parses.whole (.closeBracket :: rest) (by simp [Token.pull])
    simpa using h.parses.operand (Nat.le_refl _) _ (.index hinner hs)
  | _, _, _, .call h ha => .of_operand fun rest _ hs => by
    have hitems := ha.parses .closeParen rest rfl
    simpa using h.parses.operand (Nat.le_refl _) _ (.call hitems hs)
  | _, _, _, .binary op hl hr => .of_inner op.rank_lt fun rest _ _ hj hb hrest => by
    -- The right operand ends where an operator of the same layer follows.
    have hright := hr.parses.inner (Nat.succ_pos _) op.rank_lt rest (Nat.le_refl _)
      (hb.mono (Nat.le_succ _)) (.stop hb)
    simpa using hl.parses.inner op.rank_pos op.rank_lt.le _ hj (by simp [Token.pull])
      (.binary hj hright hrest)
  | _, _, _, .assign op ht hv => .of_whole fun rest hb => by
    simpa using ht.parses.inner (by decide) (Nat.le_refl _) _ (Nat.zero_le _)
      (by simp [Token.pull, postfixRank]) (.assign op (hv.parses.whole rest hb))
  | _, _, _, .weaken h => h.parses.weaken

/-- So do lists, up to the bracket that closes them. -/
theorem DerivesAll.parses : ∀ {us : List Token} {es : List Expr}, DerivesAll us es →
    ∀ t ts, t.closes = true → ParsesItems (us ++ t :: ts) (es, t :: ts)
  | _, _, .nil, _, _, ht => .nil ht
  | _, _, .one h, t, ts, ht => by
    have hpull : t.pull = none := by cases t <;> simp_all [Token.closes, Token.pull]
    exact .first (h.parses.whole (t :: ts) (by simp [hpull])) (.last ht)
  | _, _, .cons h hs, t, ts, ht => by
    simpa using ParsesItems.first (h.parses.whole _ (by simp [Token.pull]))
      (.comma (hs.parses t ts ht))

end

/-- The grammar is unambiguous. -/
theorem Derives.unique {ts : List Token} {e e' : Expr} (h : Derives 0 ts e)
    (h' : Derives 0 ts e') : e = e' := by
  have hparse := h.parses.whole [] (by simp [Below])
  have hparse' := h'.parses.whole [] (by simp [Below])
  cases hparse.unique hparse'
  rfl

/-- A text is one expression at most. -/
theorem Reads.unique {A : Alphabet} {text : String} {e e' : Expr} (h : Reads A text e)
    (h' : Reads A text e') : e = e' := by
  obtain ⟨ts, hlex, hts⟩ := h
  obtain ⟨ts', hlex', hts'⟩ := h'
  obtain rfl := hlex.unique hlex'
  exact hts.unique hts'

end Script
end AssignmentLowering
