import AssignmentLowering.Proofs.Script.Printed
import AssignmentLowering.Proofs.Script.Template

/-!
# Which numbers in printed script are read back

The printer takes every number for an operand that needs no parentheses. Whether it is read
back depends on its text and on where it stands. Infinities are printed as names, and a
negative zero as zero, which is another number. The sign of a negative number is lost where
an access or a call is applied, and a whole number takes the point of a member in front of
the name. All other numbers are read back, and so are the expressions around them.

That these are read back follows the printer: each part is read in its position. That the
others are not cannot follow it, since a text might be read in some other way. Instead each
number that is not admitted where it stands adds to the weight of the text, and no part of
an expression makes up for that.

## Main definitions

* `Position.Admits` — the numbers that may stand in a position.
* `Expr.Survives` — every number in an expression is admitted where it stands.
* `ReadBack` — a text is read as the given expression and nothing else.

## Main statements

* `readBack_iff_survives` — the text of an expression is read back if and only if its numbers
  are admitted where they stand.
* `numbers_survive_iff` — the same of expressions and of templates that take a member.
-/

namespace AssignmentLowering.Script

open AssignmentLowering.Binary64 (negativeZero)

/-! ### Where numbers stand -/

/-- Every NaN is the same number; all others are told apart by their bits. -/
def sameNumber (x y : Binary64) : Bool := (x.isNaN && y.isNaN) || x = y

/-- Whether two expressions are the same, a zero and a negative zero told apart. -/
def Expr.alike : Expr → Expr → Bool := Expr.sameWith sameNumber

/-- Where a number stands. -/
inductive Position where
  /-- A whole expression, an operand, an argument, a subscript, an item of an array, or an
  assigned value. -/
  | plain
  /-- What a subscript is taken of, what is called, or what is assigned to. -/
  | applied
  /-- What a member is taken of. -/
  | named
  deriving DecidableEq

/-- The numbers that can be read back where they stand. Infinities are printed as names and a
negative zero without its sign; a sign binds less tightly than what is applied; and the point
of a member belongs to a number without one. -/
def Position.Admits : Position → Binary64 → Prop
  | .plain, x => x.isNaN = true ∨ x.isFinite = true ∧ x ≠ negativeZero
  | .applied, x => x.isNaN = true ∨ x.isFinite = true ∧ x.isNegative = false
  | .named, x =>
    x.isNaN = true ∨ x.isFinite = true ∧ x.isNegative = false ∧ isInteger x = false

namespace Expr

mutual

/-- Every number in an expression is admitted where it stands, the expression itself standing
in the given position. -/
def Survives : Position → Expr → Prop
  | p, number x => p.Admits x
  | _, member object _ => object.Survives .named
  | _, index object i => object.Survives .applied ∧ i.Survives .plain
  | _, call callee args => callee.Survives .applied ∧ AllSurvive args
  | _, array items => AllSurvive items
  | _, assign target value | _, compoundAssign _ target value =>
    target.Survives .applied ∧ value.Survives .plain
  | _, binary _ left right => left.Survives .plain ∧ right.Survives .plain
  | _, _ => True

def AllSurvive : List Expr → Prop
  | [] => True
  | e :: es => e.Survives .plain ∧ AllSurvive es

end

end Expr

variable {A : Alphabet} {L M : Language Lexeme}

/-! ### Admitted numbers are read back -/

/-- The rank that the grammar with numbers has for a level of the printer. -/
def formRank (level : Nat) : Nat := if level ≤ 13 then rankOf level else rankOf level + 1

theorem formRank_precedence (op : BinaryOp) :
    formRank op.precedence = op.rank ∧ formRank (op.precedence + 1) = op.rank + 1 := by
  cases op <;> exact ⟨rfl, rfl⟩

theorem formRank_mono {l m : Nat} (h : l ≤ m) : formRank l ≤ formRank m := by
  have := rankOf_mono h
  unfold formRank
  split <;> split <;> omega

theorem formRank_le (l : Nat) : formRank l ≤ operandRank := by
  have := rankOf_le l
  unfold formRank
  split <;> simp only [operandRank, primaryRank] at * <;> omega

/-- Some division among the given ones is read as the given expression. -/
def ReadsIn (L : Language Lexeme) (k : Nat) (e : Expr) : Prop :=
  ∃ xs ∈ L, ∃ e', Forms k xs e' ∧ e'.alike e = true

/-- Some division among the given ones is read as the given expressions between commas. -/
def ReadsInAll (L : Language Lexeme) (es : List Expr) : Prop :=
  ∃ xs ∈ L, ∃ es', FormsAll xs es' ∧ Expr.sameAll sameNumber es' es = true

namespace ReadsIn

open Language (append_mem_mul)

variable {j k : Nat} {e f : Expr} {es : List Expr}

theorem of_le (hjk : j ≤ k) (h : ReadsIn L k e) : ReadsIn L j e := by
  obtain ⟨xs, hx, e', hf, he⟩ := h
  exact ⟨xs, hx, e', hf.of_le hjk, he⟩

theorem operand {x : Lexeme} (h : Forms operandRank [x] f) (he : f.alike e = true) :
    ReadsIn {[x]} operandRank e :=
  ⟨[x], rfl, f, h, he⟩

theorem paren (h : ReadsIn L 0 e) :
    ReadsIn ({[.token .openParen]} * (L * {[.token .closeParen]})) operandRank e := by
  obtain ⟨xs, hx, e', hf, he⟩ := h
  exact ⟨_, append_mem_mul rfl (append_mem_mul hx rfl), e', .paren hf, he⟩

theorem member (name : String) (h : ReadsIn L appliedRank e) :
    ReadsIn (L * {[.token .dot, .token (.word name)]}) appliedRank (.member e name) := by
  obtain ⟨xs, hx, e', hf, he⟩ := h
  exact ⟨_, append_mem_mul hx rfl, _, .member hf name,
    by simpa [Expr.alike, Expr.sameWith] using he⟩

theorem index (h : ReadsIn L appliedRank e) (hi : ReadsIn M 0 f) :
    ReadsIn (L * ({[.token .openBracket]} * (M * {[.token .closeBracket]}))) appliedRank
      (.index e f) := by
  obtain ⟨xs, hx, e', hf, he⟩ := h
  obtain ⟨ys, hy, f', hf', he'⟩ := hi
  exact ⟨_, append_mem_mul hx (append_mem_mul rfl (append_mem_mul hy rfl)), _, .index hf hf',
    by simpa [Expr.alike, Expr.sameWith] using ⟨he, he'⟩⟩

theorem call (h : ReadsIn L appliedRank e) (ha : ReadsInAll M es) :
    ReadsIn (L * ({[.token .openParen]} * (M * {[.token .closeParen]}))) appliedRank
      (.call e es) := by
  obtain ⟨xs, hx, e', hf, he⟩ := h
  obtain ⟨ys, hy, es', hf', he'⟩ := ha
  exact ⟨_, append_mem_mul hx (append_mem_mul rfl (append_mem_mul hy rfl)), _, .call hf hf',
    by simpa [Expr.alike, Expr.sameWith] using ⟨he, he'⟩⟩

theorem array (ha : ReadsInAll L es) :
    ReadsIn ({[.token .openBracket]} * (L * {[.token .closeBracket]})) operandRank
      (.array es) := by
  obtain ⟨xs, hx, es', hf, he⟩ := ha
  exact ⟨_, append_mem_mul rfl (append_mem_mul hx rfl), _, .array hf,
    by simpa [Expr.alike, Expr.sameWith] using he⟩

theorem binary (op : BinaryOp) (h : ReadsIn L op.rank e) (h' : ReadsIn M (op.rank + 1) f) :
    ReadsIn (L * ({[.token (.binary op)]} * M)) op.rank (.binary op e f) := by
  obtain ⟨xs, hx, e', hf, he⟩ := h
  obtain ⟨ys, hy, f', hf', he'⟩ := h'
  exact ⟨_, append_mem_mul hx (append_mem_mul rfl hy), _, .binary op hf hf',
    by simpa [Expr.alike, Expr.sameWith] using ⟨he, he'⟩⟩

theorem assign (op : AssignOp) (h : ReadsIn L appliedRank e) (h' : ReadsIn M 0 f) :
    ReadsIn (L * ({[.token (.assign op)]} * M)) 0 (.ofAssign op e f) := by
  obtain ⟨xs, hx, e', hf, he⟩ := h
  obtain ⟨ys, hy, f', hf', he'⟩ := h'
  refine ⟨_, append_mem_mul hx (append_mem_mul rfl hy), _, .assign op hf hf', ?_⟩
  unfold Expr.ofAssign
  split <;> simpa [Expr.alike, Expr.sameWith] using ⟨he, he'⟩

theorem one (h : ReadsIn L 0 e) : ReadsInAll L [e] := by
  obtain ⟨xs, hx, e', hf, he⟩ := h
  exact ⟨xs, hx, [e'], .one hf, by simpa [Expr.sameAll, Expr.alike] using he⟩

theorem cons (h : ReadsIn L 0 e) (hs : ReadsInAll M (f :: es)) :
    ReadsInAll (L * ({[.token .comma]} * M)) (e :: f :: es) := by
  obtain ⟨xs, hx, e', hf, he⟩ := h
  obtain ⟨ys, hy, fs, hf', he'⟩ := hs
  cases fs with
  | nil => cases he'
  | cons f' es' =>
    exact ⟨_, append_mem_mul hx (append_mem_mul rfl hy), e' :: f' :: es', .cons hf hf',
      by rw [Expr.sameAll, Bool.and_eq_true]; exact ⟨he, he'⟩⟩

/-- What is read bare is read in any position, in parentheses if the printer puts these. -/
theorem atLevel {precedence : Nat} (level : Nat) (hk : level ≤ precedence → formRank level ≤ k)
    (h : ReadsIn L k e) :
    ReadsIn (atLevelLanguage level precedence L) (formRank level) e := by
  unfold atLevelLanguage
  split
  · exact (h.of_le (Nat.zero_le _)).paren.of_le (formRank_le level)
  · next hle => exact h.of_le (hk (Nat.not_lt.1 hle))

end ReadsIn

theorem sameNumber_self (x : Binary64) : sameNumber x x = true := by simp [sameNumber]

theorem readsIn_number {p : Position} {x : Binary64} (h : p.Admits x) :
    ReadsIn {numberLexemes x} (if p = .plain then unaryRank else operandRank) (.number x) := by
  have hrank : (if p = .plain then unaryRank else operandRank) ≤ operandRank := by
    split <;> decide
  have hself : (Expr.number x).alike (.number x) = true := sameNumber_self x
  cases hx : x.decode with
  | nan =>
    have hnan : x.isNaN = true := by simp [Binary64.isNaN, hx]
    have hsame : (Expr.ofName "NaN").alike (.number x) = true := by
      have : AssignmentLowering.Binary64.nan.isNaN = true := by decide +kernel
      simp [Expr.ofName, Expr.alike, Expr.sameWith, sameNumber, this, hnan]
    simpa [numberLexemes, hx] using (ReadsIn.operand (.word "NaN") hsame).of_le hrank
  | infinite negative =>
    have := Binary64.infinite_of_decode hx
    cases p <;> simp [Position.Admits, this] at h
  | finite negative m q =>
    obtain ⟨hfinite, hnan, hsign⟩ := Binary64.finite_of_decode hx
    have hzero := Binary64.eq_negativeZero_iff hx
    cases negative with
    | false =>
      simpa [numberLexemes, hx, signLexemes] using (ReadsIn.operand (.numeral x) hself).of_le hrank
    | true =>
      have hp : p = .plain := by
        cases p <;> simp_all [Position.Admits]
      have hm : 0 < m := by
        have hne : x ≠ negativeZero := by simp_all [Position.Admits]
        exact Nat.pos_of_ne_zero fun h0 => hne (hzero.2 ⟨rfl, h0⟩)
      have hform := Forms.negative x.neg
      rw [Binary64.neg_neg] at hform
      refine ⟨_, rfl, _, ?_, hself⟩
      simpa [numberLexemes, hx, signLexemes, hm, hp] using hform

/-- The rank of the bare text of an expression. In a plain position a number may have a sign. -/
def rankAt (p : Position) (e : Expr) : Nat :=
  if e.isNumber = true ∧ p = .plain then unaryRank else formRank e.precedence

/-- Only in plain positions does the printer ask for less than a form that accesses apply to. -/
theorem formRank_le_rankAt {p : Position} {e : Expr} {level : Nat} (hp : p = .plain → level ≤ 13)
    (h : level ≤ e.precedence) : formRank level ≤ rankAt p e := by
  unfold rankAt
  split
  · next hplain => exact formRank_mono (hp hplain.2)
  · exact formRank_mono h

theorem ReadsIn.inPosition {e : Expr} {p : Position} (h : ReadsIn L (rankAt p e) e) (level : Nat)
    (hp : p = .plain → level ≤ 13) :
    ReadsIn (atLevelLanguage level e.precedence L) (formRank level) e :=
  h.atLevel level (formRank_le_rankAt hp)

namespace Expr

/-- A number whose member can be taken has a point, or is printed as a name. -/
theorem Survives.isIntegral_eq_false {e : Expr} (h : e.Survives .named) :
    e.isIntegral = false := by
  cases e
  case number x =>
    rcases h with hnan | h
    · have hdecode : x.decode = .nan := by simpa [Binary64.isNaN] using hnan
      simp [isIntegral, isInteger, hdecode]
    · exact h.2.2
  all_goals rfl

mutual

/-- An expression whose numbers are admitted is read back. -/
theorem Survives.readsIn : ∀ (e : Expr) (p : Position), e.Legible A → e.Survives p →
    ReadsIn (e.language A) (rankAt p e) e
  | null, _, _, _ => .operand (.word "null") (by decide)
  | bool true, _, _, _ => .operand (.word "true") (by decide)
  | bool false, _, _, _ => .operand (.word "false") (by decide)
  | this, _, _, _ => .operand (.word "this") (by decide)
  | ident name, _, h, _ => by
    refine .operand (.word name) ?_
    simp [ofName, ofWord, h.1.2, h.2, alike, sameWith]
  | string s, _, _, _ => .operand (.string s) (by simp [alike, sameWith])
  | typeHandle name, _, _, _ => .operand (.handle name) (by simp [alike, sameWith])
  | number x, p, _, h => by
    have hx := readsIn_number h
    cases p <;> exact hx
  | member object name, p, ⟨ho, _⟩, h => by
    have hobject := (Survives.readsIn object .named ho h).inPosition postfixLevel nofun
    rw [language, if_neg (by simp [h.isIntegral_eq_false])]
    exact hobject.member name
  | index object i, p, ⟨ho, hi⟩, ⟨h, h'⟩ => by
    have hobject := (Survives.readsIn object .applied ho h).inPosition postfixLevel nofun
    exact hobject.index ((Survives.readsIn i .plain hi h').of_le (Nat.zero_le _))
  | call callee args, p, ⟨hc, ha⟩, ⟨h, h'⟩ => by
    have hcallee := (Survives.readsIn callee .applied hc h).inPosition postfixLevel nofun
    exact hcallee.call (AllSurvive.readsIn args ha h')
  | array items, p, ha, h => .array (AllSurvive.readsIn items ha h)
  | assign target value, p, ⟨ht, hv⟩, ⟨h, h'⟩ => by
    have htarget := (Survives.readsIn target .applied ht h).inPosition postfixLevel nofun
    have hvalue := (Survives.readsIn value .plain hv h').of_le (Nat.zero_le _)
    exact htarget.assign .assign hvalue
  | compoundAssign op target value, p, ⟨⟨a, ha⟩, ht, hv⟩, ⟨h, h'⟩ => by
    have htarget := (Survives.readsIn target .applied ht h).inPosition postfixLevel nofun
    have hvalue := (Survives.readsIn value .plain hv h').of_le (Nat.zero_le _)
    have hassign := htarget.assign a hvalue
    rw [ofAssign, ha, ← compoundOp_of_binary? ha] at hassign
    exact hassign
  | binary op left right, p, ⟨hl, hr⟩, ⟨h, h'⟩ => by
    obtain ⟨hrank, hrank'⟩ := formRank_precedence op
    have := op.precedence_lt_thirteen
    have hleft := (Survives.readsIn left .plain hl h).inPosition op.precedence (by omega)
    have hright := (Survives.readsIn right .plain hr h').inPosition (op.precedence + 1) (by omega)
    rw [hrank] at hleft
    rw [hrank'] at hright
    exact (hleft.binary op hright).of_le hrank.le

theorem AllSurvive.readsIn : ∀ es : List Expr, AllLegible A es → AllSurvive es →
    ReadsInAll (languageAll A es) es
  | [], _, _ => ⟨[], rfl, [], .nil, rfl⟩
  | [e], ⟨he, _⟩, ⟨h, _⟩ => ((Survives.readsIn e .plain he h).of_le (Nat.zero_le _)).one
  | e :: f :: es, ⟨he, hes⟩, ⟨h, hs⟩ =>
    ((Survives.readsIn e .plain he h).of_le (Nat.zero_le _)).cons
      (AllSurvive.readsIn (f :: es) hes hs)

end

end Expr

/-! ### Other numbers are not

What is read weighs as much as its tokens once the signs are joined. Where a number is not
admitted, its tokens weigh more than they should: a name more than the infinity that it is to
stand for, a zero more than the negative zero, a sign that is not joined more than none, and a
numeral more than a whole number together with a name. -/

/-- Tokens in front of `rest` that weigh, joined, as much as they should or more, and that only
if `P` holds weigh just as much. -/
def Outweighs (L : Language Lexeme) (weight : Int) (P : Prop) (rest : List Lexeme) : Prop :=
  ∀ xs ∈ L, ∃ extra : Nat,
    weigh (joinSigns true (xs ++ rest)) = weight + extra + weigh (joinSigns false rest) ∧
      (extra = 0 → P)

variable {rest : List Lexeme} {P : Prop}

/-- A token that is no operator keeps its weight. -/
theorem weigh_joinSigns_cons {x : Lexeme} (hx : x ≠ minus) (ha : x.awaits = false) (due : Bool)
    (rest : List Lexeme) :
    weigh (joinSigns due (x :: rest)) = x.weight + weigh (joinSigns false rest) := by
  rw [joinSigns_of_ne hx, ha]
  rfl

theorem weigh_joinSigns_word (due : Bool) (name : String) (rest : List Lexeme) :
    weigh (joinSigns due (.token (.word name) :: rest)) = -2 + weigh (joinSigns false rest) :=
  weigh_joinSigns_cons (by simp [minus]) rfl due rest

theorem weigh_joinSigns_numeral (due : Bool) (x : Binary64) (rest : List Lexeme) :
    weigh (joinSigns due (.numeral x :: rest)) =
      numberWeight x + weigh (joinSigns false rest) :=
  weigh_joinSigns_cons (by simp [minus]) rfl due rest

/-- A sign in front of a name is an operator. -/
theorem weigh_joinSigns_minus_word (name : String) (rest : List Lexeme) :
    weigh (joinSigns true (minus :: .token (.word name) :: rest)) =
      -1 + weigh (joinSigns false rest) := by
  have hminus : joinSigns true (minus :: .token (.word name) :: rest) =
      minus :: joinSigns true (.token (.word name) :: rest) := by
    simp [minus, joinSigns, Lexeme.awaits]
  rw [hminus, weigh, weigh_joinSigns_word]
  simp only [minus, Lexeme.weight]
  omega

/-- A sign in front of a numeral is joined to it, or is an operator. -/
theorem weigh_joinSigns_minus_numeral (x : Binary64) (rest : List Lexeme) :
    weigh (joinSigns true (minus :: .numeral x :: rest)) =
      (if applied rest then 1 + numberWeight x else numberWeight x.neg) +
        weigh (joinSigns false rest) := by
  rw [joinSigns_negative]
  split
  · simp [weigh, Lexeme.weight, minus, Int.add_assoc]
  · simp [weigh, Lexeme.weight]

theorem numberWeight_bounds (x : Binary64) : -4 ≤ numberWeight x ∧ numberWeight x ≤ -2 := by
  unfold numberWeight
  split
  · decide
  · split <;> decide

theorem numberWeight_of_infinite {x : Binary64} {negative : Bool}
    (h : x.decode = .infinite negative) : numberWeight x = -3 := by
  have hzero : x ≠ negativeZero := by
    rintro rfl
    cases h.symm.trans
      (by decide +kernel : negativeZero.decode = .finite true 0 Binary64.minExponent)
  rw [numberWeight, if_neg hzero]
  simp [Binary64.infinite_of_decode h]

theorem numberWeight_of_finite {x : Binary64} {negative : Bool} {m : Nat} {q : Int}
    (h : x.decode = .finite negative m q) :
    numberWeight x = if negative = true ∧ m = 0 then -4 else -3 := by
  simp [numberWeight, Binary64.finite_of_decode h, Binary64.eq_negativeZero_iff h]

/-- Without its sign a negative number is no negative zero. -/
theorem numberWeight_neg {x : Binary64} (hneg : x.isNegative = true) (hnan : x.isNaN = false) :
    numberWeight x.neg = -3 := by
  have hzero : x.neg ≠ negativeZero := by
    intro h
    have hsign := x.isNegative_neg
    rw [h, hneg] at hsign
    exact absurd hsign (by decide +kernel)
  simp [numberWeight, Binary64.isNaN_neg, hnan, hzero]

/-- A token that is no operator weighs what it should. -/
theorem outweighs_operand {x : Lexeme} (hx : x ≠ minus) (ha : x.awaits = false) (hP : P) :
    Outweighs {[x]} x.weight P rest := by
  rintro _ rfl
  refine ⟨0, ?_, fun _ => hP⟩
  simpa using weigh_joinSigns_cons hx ha true rest

/-- A sign that is not joined to its numeral weighs more than none. -/
theorem outweighs_negative {p : Position} {x : Binary64} {m : Nat} {q : Int}
    (hx : x.decode = .finite true m q) (hm : 0 < m) (hrest : applied rest = decide (p ≠ .plain)) :
    Outweighs {numberLexemes x} (numberWeight x) (p.Admits x) rest := by
  rintro _ rfl
  obtain ⟨hfinite, hnan, hsign⟩ := Binary64.finite_of_decode hx
  have hm0 : m ≠ 0 := Nat.ne_of_gt hm
  have hself : numberWeight x = -3 := by simp [numberWeight_of_finite hx, hm0]
  have hlexemes : numberLexemes x = [minus, .numeral x.neg] := by
    simp [numberLexemes, hx, signLexemes, hm]
  rw [hlexemes, List.cons_append, List.singleton_append, weigh_joinSigns_minus_numeral, hrest]
  by_cases hplain : p = .plain
  · refine ⟨0, ?_, fun _ => ?_⟩
    · simp [hplain, Binary64.neg_neg]
    · simp [Position.Admits, hplain, hfinite, Binary64.eq_negativeZero_iff hx, hm0]
  · refine ⟨1, ?_, (absurd · (by decide))⟩
    simp [hplain, numberWeight_neg hsign hnan, hself]

/-- Only if it is admitted does a number weigh just what it should. -/
theorem outweighs_number {p : Position} {x : Binary64} (hp : p = .named → isInteger x = false)
    (hrest : applied rest = decide (p ≠ .plain)) :
    Outweighs {numberLexemes x} (numberWeight x) (p.Admits x) rest := by
  cases hx : x.decode with
  | nan =>
    rintro _ rfl
    have hnan : x.isNaN = true := by simp [Binary64.isNaN, hx]
    have hadmits : p.Admits x := by cases p <;> exact .inl hnan
    refine ⟨0, ?_, fun _ => hadmits⟩
    simp [numberLexemes, hx, weigh_joinSigns_word, numberWeight, hnan]
  | infinite negative =>
    rintro _ rfl
    rw [numberWeight_of_infinite hx]
    cases negative with
    | false =>
      refine ⟨1, ?_, (absurd · (by decide))⟩
      simp [numberLexemes, hx, signLexemes, weigh_joinSigns_word]
    | true =>
      refine ⟨2, ?_, (absurd · (by decide))⟩
      simp [numberLexemes, hx, signLexemes, weigh_joinSigns_minus_word]
  | finite negative m q =>
    obtain ⟨hfinite, hnan, hsign⟩ := Binary64.finite_of_decode hx
    have hzero := Binary64.eq_negativeZero_iff hx
    cases negative with
    | false =>
      rintro _ rfl
      have hadmits : p.Admits x := by cases p <;> simp_all [Position.Admits]
      refine ⟨0, ?_, fun _ => hadmits⟩
      simp [numberLexemes, hx, signLexemes, weigh_joinSigns_numeral]
    | true =>
      rcases Nat.eq_zero_or_pos m with rfl | hm
      · -- the sign of a zero is not printed
        rintro _ rfl
        refine ⟨1, ?_, (absurd · (by decide))⟩
        simp [numberLexemes, hx, signLexemes, weigh_joinSigns_numeral,
          numberWeight_neg hsign hnan, numberWeight_of_finite hx]
      · exact outweighs_negative hx hm hrest

/-- A numeral weighs more than a whole number and a name. -/
theorem outweighs_fused {x : Binary64} {name : String} (hx : isInteger x = true)
    (hname : A.IsWord name) :
    Outweighs (divisions A (numberChars x ++ '.' :: name.toList)) (numberWeight x - 2) P rest := by
  obtain ⟨L, hsplits, hL⟩ := exists_splits_fused hx hname
  rw [hsplits.divisions_eq]
  intro xs hxs
  obtain ⟨negative, value, rfl⟩ := hL xs hxs
  obtain ⟨w, hw, hle⟩ : ∃ w,
      weigh (joinSigns true (signLexemes negative ++ .numeral value :: rest)) =
        w + weigh (joinSigns false rest) ∧ -4 ≤ w := by
    have hvalue := (numberWeight_bounds value).1
    cases negative with
    | false => exact ⟨_, weigh_joinSigns_numeral true value rest, hvalue⟩
    | true =>
      refine ⟨_, weigh_joinSigns_minus_numeral value rest, ?_⟩
      split
      · omega
      · exact (numberWeight_bounds _).1
  have hle' : numberWeight x ≤ -3 := by
    unfold isInteger at hx
    split at hx
    · next h => 
      rw [numberWeight_of_finite h]
      split <;> decide
    · cases hx
  refine ⟨(w - (numberWeight x - 2)).toNat, ?_, fun h => ?_⟩
  · rw [List.append_assoc, List.singleton_append, hw]
    omega
  · omega

theorem closing_cases {t : Token} (ht : t.closes = true) : t = .closeParen ∨ t = .closeBracket := by
  cases t <;> simp_all [Token.closes]

namespace Outweighs

variable {w w' : Int} {P Q : Prop}

theorem imp (h : Outweighs L w P rest) (hPQ : P → Q) : Outweighs L w Q rest := by
  intro xs hxs
  obtain ⟨extra, hweigh, hP⟩ := h xs hxs
  exact ⟨extra, hweigh, fun h0 => hPQ (hP h0)⟩

/-- A bracket in front of what it opens. -/
theorem opened {t : Token} (ht : t = .openParen ∨ t = .openBracket)
    (h : Outweighs L w P rest) : Outweighs ({[.token t]} * L) w P rest := by
  intro xs hxs
  obtain ⟨_, rfl, ys, hys, rfl⟩ := Language.mem_mul.1 hxs
  obtain ⟨extra, hweigh, hP⟩ := h ys hys
  refine ⟨extra, ?_, hP⟩
  rcases ht with rfl | rfl <;> simpa [joinSigns, weigh, Lexeme.weight, Lexeme.awaits] using hweigh

/-- A bracket behind what it closes. -/
theorem closed {t : Token} (ht : t.closes = true) (h : Outweighs L w P (.token t :: rest)) :
    Outweighs (L * {[.token t]}) w P rest := by
  intro xs hxs
  obtain ⟨ys, hys, _, rfl, rfl⟩ := Language.mem_mul.1 hxs
  obtain ⟨extra, hweigh, hP⟩ := h ys hys
  refine ⟨extra, ?_, hP⟩
  rw [List.append_assoc, List.singleton_append, hweigh, joinSigns_false]
  rcases closing_cases ht with rfl | rfl <;> simp [weigh, Lexeme.weight, Lexeme.awaits]

/-- What is asked for behind a token goes on from what stands in front of it. -/
theorem joined {x : Lexeme} (hx : x.awaits = true)
    (h : ∀ ys ∈ M, Outweighs L w P (x :: (ys ++ rest))) (h' : Outweighs M w' Q rest) :
    Outweighs (L * ({[x]} * M)) (w + x.weight + w') (P ∧ Q) rest := by
  intro xs hxs
  obtain ⟨ys, hys, _, ⟨_, rfl, zs, hzs, rfl⟩, rfl⟩ := Language.mem_mul.1 hxs
  obtain ⟨extra, hweigh, hP⟩ := h zs hzs ys hys
  obtain ⟨extra', hweigh', hQ⟩ := h' zs hzs
  refine ⟨extra + extra', ?_, fun h0 => ⟨hP (by omega), hQ (by omega)⟩⟩
  simp only [List.append_assoc, List.cons_append, List.nil_append]
  rw [hweigh, joinSigns_false, weigh, hx, hweigh']
  push_cast
  omega

theorem member {name : String}
    (h : Outweighs L w P (.token .dot :: .token (.word name) :: rest)) :
    Outweighs (L * {[.token .dot, .token (.word name)]}) (w - 2) P rest := by
  intro xs hxs
  obtain ⟨ys, hys, _, rfl, rfl⟩ := Language.mem_mul.1 hxs
  obtain ⟨extra, hweigh, hP⟩ := h ys hys
  refine ⟨extra, ?_, hP⟩
  rw [List.append_assoc]
  refine hweigh.trans ?_
  simp only [joinSigns, weigh, Lexeme.weight, Lexeme.awaits]
  omega

end Outweighs

namespace Expr

/-- Only for numbers does it matter where they stand. -/
theorem Survives.of_isNumber_eq_false {e : Expr} {p q : Position} (he : e.isNumber = false)
    (h : e.Survives p) : e.Survives q := by
  cases e
  case number => cases he
  all_goals exact h

/-- Wherever an expression may stand, its tokens outweigh it unless its numbers are admitted. -/
def Tells (A : Alphabet) (e : Expr) : Prop :=
  ∀ (p : Position) (rest : List Lexeme), (p ≠ .plain → e.isAtomic = true) →
    (p = .named → e.isIntegral = false) → applied rest = decide (p ≠ .plain) →
    Outweighs (e.language A) e.weight (e.Survives p) rest

/-- The same with the parentheses of the printer. -/
theorem Tells.atLevel {e : Expr} (h : e.Tells A) (p : Position) (level : Nat)
    (hlevel : p ≠ .plain → level = postfixLevel)
    (hp : p = .named → e.isIntegral = false) (hrest : applied rest = decide (p ≠ .plain)) :
    Outweighs (atLevelLanguage level e.precedence (e.language A)) e.weight (e.Survives p) rest := by
  unfold atLevelLanguage
  split
  · next hlt =>
    have hinner := h .plain (.token .closeParen :: rest) (absurd rfl) nofun rfl
    refine ((hinner.closed rfl).opened (.inl rfl)).imp fun hs => ?_
    by_cases hplain : p = .plain
    · exact hplain ▸ hs
    · rw [hlevel hplain] at hlt
      refine hs.of_isNumber_eq_false ?_
      cases e <;> first | rfl | exact absurd hlt (by simp [precedence, postfixLevel, primaryLevel])
  · next hle =>
    refine h p rest (fun hne => ?_) hp hrest
    rw [hlevel hne] at hle
    simpa [isAtomic] using hle

theorem tells_operand {e : Expr} {x : Lexeme} (hx : x ≠ minus) (ha : x.awaits = false)
    (hlanguage : e.language A = {[x]}) (hweight : e.weight = x.weight)
    (hs : ∀ p, e.Survives p) : e.Tells A := by
  intro p rest _ _ _
  rw [hlanguage, hweight]
  exact outweighs_operand hx ha (hs p)

/-- What binds less tightly than accesses stands in plain positions only. -/
theorem plain_of_not_isAtomic {e : Expr} {p : Position} (he : e.isAtomic = false)
    (hp : p ≠ .plain → e.isAtomic = true) : p = .plain := by
  by_contra hne
  simp [hp hne] at he

mutual

/-- The numbers of an expression are all that its tokens may outweigh it by. -/
theorem Legible.tells : ∀ e : Expr, e.Legible A → e.Tells A
  | null, _ | bool true, _ | bool false, _ | this, _ | string _, _ | ident _, _
  | typeHandle _, _ => tells_operand (by simp [minus]) rfl rfl rfl fun _ => trivial
  | number x, _ => fun _ _ _ hp hrest => outweighs_number hp hrest
  | member object name, ⟨ho, hname⟩ => fun p rest _ _ _ => by
    have hobject := Legible.tells object ho
    rw [language, weight]
    split
    · next hint =>
      cases object
      case number x => exact outweighs_fused hint hname
      all_goals cases hint
    · next hint =>
      exact (hobject.atLevel .named _ (fun _ => rfl) (fun _ => by simpa using hint) rfl).member
  | index object i, ⟨ho, hi⟩ => fun p rest _ _ _ => by
    have hobject := Legible.tells object ho
    have hi := Legible.tells i hi .plain (.token .closeBracket :: rest) (absurd rfl) nofun rfl
    have h := Outweighs.joined (x := .token .openBracket) rfl
      (fun ys _ => hobject.atLevel .applied _ (fun _ => rfl) nofun rfl) (hi.closed rfl)
    simpa only [Lexeme.weight, Int.add_zero, language, weight, Survives] using h
  | call callee args, ⟨hc, ha⟩ => fun p rest _ _ _ => by
    have hcallee := Legible.tells callee hc
    have hargs := AllLegible.tells args ha .closeParen rest rfl
    have h := Outweighs.joined (x := .token .openParen) rfl
      (fun ys _ => hcallee.atLevel .applied _ (fun _ => rfl) nofun rfl) (hargs.closed rfl)
    simpa only [Lexeme.weight, Int.add_zero, language, weight, Survives] using h
  | array items, ha => fun _ rest _ _ _ =>
    ((AllLegible.tells items ha .closeBracket rest rfl).closed rfl).opened (.inr rfl)
  | assign target value, ⟨ht, hv⟩ => fun p rest hp _ hrest => by
    obtain rfl := plain_of_not_isAtomic rfl hp
    have htarget := Legible.tells target ht
    have hvalue := Legible.tells value hv .plain rest (absurd rfl) nofun hrest
    have h := Outweighs.joined (x := .token (.assign .assign)) rfl
      (fun ys _ => htarget.atLevel .applied _ (fun _ => rfl) nofun rfl) hvalue
    simpa only [Lexeme.weight, Int.add_zero, language, weight, Survives] using h
  | compoundAssign op target value, ⟨_, ht, hv⟩ => fun p rest hp _ hrest => by
    obtain rfl := plain_of_not_isAtomic rfl hp
    have htarget := Legible.tells target ht
    have hvalue := Legible.tells value hv .plain rest (absurd rfl) nofun hrest
    have h := Outweighs.joined (x := .token (.assign (compoundOp op))) rfl
      (fun ys _ => htarget.atLevel .applied _ (fun _ => rfl) nofun rfl) hvalue
    simpa only [Lexeme.weight, Int.add_zero, language, weight, Survives] using h
  | binary op left right, ⟨hl, hr⟩ => fun p rest hp _ hrest => by
    obtain rfl := plain_of_not_isAtomic (by cases op <;> rfl) hp
    have hleft := Legible.tells left hl
    have hright := (Legible.tells right hr).atLevel .plain (op.precedence + 1)
      (absurd rfl) nofun hrest
    exact Outweighs.joined (x := .token (.binary op)) rfl
      (fun ys _ => hleft.atLevel .plain _ (absurd rfl) nofun rfl) hright

/-- Up to the bracket that closes them. -/
theorem AllLegible.tells : ∀ es : List Expr, AllLegible A es → ∀ (t : Token) (rest : List Lexeme),
    t.closes = true →
      Outweighs (languageAll A es) (weightAll es) (AllSurvive es) (.token t :: rest)
  | [], _, t, rest, ht => by
    rintro _ rfl
    refine ⟨0, ?_, fun _ => trivial⟩
    rcases closing_cases ht with rfl | rfl <;> simp [joinSigns, Lexeme.awaits, weightAll]
  | [e], ⟨he, _⟩, t, rest, ht => by
    have h := Legible.tells e he .plain (.token t :: rest) (absurd rfl) nofun
      (by rcases closing_cases ht with rfl | rfl <;> rfl)
    simpa [languageAll, weightAll, AllSurvive] using h
  | e :: f :: es, ⟨he, hes⟩, t, rest, ht => by
    have he := Legible.tells e he
    have h := Outweighs.joined (x := .token .comma) rfl
      (fun ys _ => he .plain _ (absurd rfl) nofun rfl) (AllLegible.tells (f :: es) hes t rest ht)
    simpa only [Lexeme.weight, Int.add_zero, languageAll, weightAll, AllSurvive] using h

end

mutual

theorem weight_eq_of_alike : ∀ {e f : Expr}, e.alike f = true → e.weight = f.weight
  | null, f, h | bool _, f, h | this, f, h | string _, f, h | ident _, f, h
  | typeHandle _, f, h | verbatim _, f, h => by
    cases f <;> first | rfl | exact absurd h (by simp [alike, sameWith])
  | number x, f, h => by
    cases f <;> try cases h
    simp only [alike, sameWith, sameNumber, Bool.or_eq_true, Bool.and_eq_true] at h
    rcases h with ⟨hx, hy⟩ | hxy
    · simp [weight, numberWeight, hx, hy]
    · rw [of_decide_eq_true hxy]
  | member o _, f, h => by
    cases f <;> try cases h
    simp only [alike, sameWith, Bool.and_eq_true] at h
    rw [weight, weight, weight_eq_of_alike h.1]
  | index o i, f, h => by
    cases f <;> try cases h
    simp only [alike, sameWith, Bool.and_eq_true] at h
    rw [weight, weight, weight_eq_of_alike h.1, weight_eq_of_alike h.2]
  | call c as, f, h => by
    cases f <;> try cases h
    simp only [alike, sameWith, Bool.and_eq_true] at h
    rw [weight, weight, weight_eq_of_alike h.1, weightAll_eq_of_alike h.2]
  | array as, f, h => by
    cases f <;> try cases h
    rw [weight, weight, weightAll_eq_of_alike h]
  | assign t v, f, h => by
    cases f <;> try cases h
    simp only [alike, sameWith, Bool.and_eq_true] at h
    rw [weight, weight, weight_eq_of_alike h.1, weight_eq_of_alike h.2]
  | compoundAssign _ t v, f, h => by
    cases f <;> try cases h
    simp only [alike, sameWith, Bool.and_eq_true] at h
    rw [weight, weight, weight_eq_of_alike h.1.2, weight_eq_of_alike h.2]
  | binary op l r, f, h => by
    cases f <;> try cases h
    simp only [alike, sameWith, Bool.and_eq_true, decide_eq_true_eq] at h
    rw [weight, weight, h.1.1, weight_eq_of_alike h.1.2, weight_eq_of_alike h.2]

theorem weightAll_eq_of_alike : ∀ {es fs : List Expr}, sameAll sameNumber es fs = true →
    weightAll es = weightAll fs
  | [], fs, h => by
    cases fs <;> first | rfl | cases h
  | e :: es, fs, h => by
    cases fs <;> try cases h
    simp only [sameAll, Bool.and_eq_true] at h
    rw [weightAll, weightAll, weight_eq_of_alike h.1, weightAll_eq_of_alike h.2]

end

end Expr

/-- A text is read as an expression: as it alone, or one with another NaN. -/
def ReadBack (A : Alphabet) (text : String) (e : Expr) : Prop :=
  ∃ e', e'.alike e = true ∧ ∀ f, IsReadAs A text f ↔ f = e'

/-- An expression is read back if and only if its numbers are admitted where they stand. -/
theorem readBack_iff_survives {e : Expr} (h : e.Legible A) :
    ReadBack A e.text e ↔ e.Survives .plain := by
  have hdivides (xs : List Lexeme) : Divides A e.text.toList xs ↔ xs ∈ e.language A := by
    rw [← mem_divisions, Expr.text, String.toList_ofList, Expr.chars_assignLevel,
      (Expr.Legible.splits e h).divisions_eq]
  constructor
  · rintro ⟨e', halike, hread⟩
    obtain ⟨xs, hxs, hforms⟩ := (hread e').2 rfl
    obtain ⟨extra, hweigh, hsurvives⟩ := Expr.Legible.tells e h .plain [] (absurd rfl) nofun rfl xs
      ((hdivides xs).1 hxs)
    rw [List.append_nil, hforms.weigh_joinSigns, Expr.weight_eq_of_alike halike] at hweigh
    exact hsurvives (by simp [joinSigns, weigh] at hweigh; omega)
  · intro hs
    obtain ⟨xs, hxs, e', hforms, halike⟩ :=
      (Expr.Survives.readsIn e .plain h hs).of_le (Nat.zero_le _)
    have hself : IsReadAs A e.text e' := ⟨xs, (hdivides xs).2 hxs, hforms⟩
    exact ⟨e', halike, fun f => ⟨fun hf => hf.unique hself, fun hf => hf ▸ hself⟩⟩

/-! ### Numbers in templates -/

/-- A name has no brace in it. -/
theorem Alphabet.IsWord.not_brace {name : String} (h : A.IsWord name) :
    ∀ c ∈ name.toList, c ≠ '{' ∧ c ≠ '}' := by
  obtain ⟨c, cs, hname, hc, hcs⟩ := h
  have hopen : A.start '{' = false ∧ A.part '{' = false :=
    ⟨A.start_ascii _ (by decide), A.part_ascii _ (by decide)⟩
  have hclose : A.start '}' = false ∧ A.part '}' = false :=
    ⟨A.start_ascii _ (by decide), A.part_ascii _ (by decide)⟩
  rw [hname]
  intro d hd
  have hdname : A.start d = true ∨ A.part d = true := by
    rcases List.mem_cons.1 hd with rfl | hd
    · exact .inl hc
    · exact .inr (hcs d hd)
  constructor
  · rintro rfl
    simp [hopen] at hdname
  · rintro rfl
    simp [hclose] at hdname

/-- A template that takes a member of a placeholder prints the member of the operand. -/
theorem substitute_member {placeholder name : String} {operand? : String → Option Expr} {e : Expr}
    (hclose : '}' ∉ placeholder.toList) (hopen : placeholder.toList.head? ≠ some '{')
    (he : operand? placeholder = some e) (hname : A.IsWord name) (span : Span) :
    Template.substitute ("\x7b" ++ placeholder ++ "\x7d." ++ name) span operand? =
      .ok (Expr.member e name).text := by
  have hsuffix : Template.doubled ("." ++ name) = "." ++ name :=
    Template.doubled_eq_self (by simpa using hname.not_brace)
  have hspells : Template.Spells
      (.placeholder placeholder.toList :: Template.literals ("." ++ name))
      ("\x7b" ++ placeholder ++ "\x7d." ++ name).toList := by
    have h := (Template.spells_literals ("." ++ name)).cons (p := .placeholder placeholder.toList)
      ⟨hclose, hopen⟩
    rw [hsuffix] at h
    simpa [Template.Part.written] using h
  have houtput : (Template.Part.placeholder placeholder.toList).output? operand? =
      some (e.chars postfixLevel) := by
    simp [Template.Part.output?, he, Template.Part.operandChars_eq]
  refine (hspells.substitute_eq_ok_iff span operand?).2
    ⟨_, .cons houtput (Template.outputs_literals operand? _), ?_⟩
  simp [Expr.text, ← List.flatMap_def, List.flatMap_singleton']

/-- Exactly the expressions whose numbers are all admitted where they stand are read back. A
number is taken for an operand that a member can be taken of, in expressions and in templates
alike; but only NaN and the numbers with a point and no sign are. -/
theorem numbers_survive_iff (A : Alphabet) :
    (∀ e : Expr, e.Legible A → (ReadBack A e.text e ↔ e.Survives .plain)) ∧
    (∀ (e : Expr) (name : String), e.Legible A → A.IsWord name →
      ∀ (placeholder : String) (operand? : String → Option Expr) (span : Span),
        '}' ∉ placeholder.toList → placeholder.toList.head? ≠ some '{' →
        operand? placeholder = some e →
        ∃ text, Template.substitute ("\x7b" ++ placeholder ++ "\x7d." ++ name) span operand? =
            .ok text ∧ (ReadBack A text (.member e name) ↔ e.Survives .named)) ∧
    ∀ (x : Binary64) (name : String), A.IsWord name →
      (Expr.number x).isAtomic = true ∧
        (ReadBack A (Expr.member (.number x) name).text (.member (.number x) name) ↔
          x.isNaN = true ∨ x.isFinite = true ∧ x.isNegative = false ∧ isInteger x = false) := by
  refine ⟨fun e => readBack_iff_survives, ?_, ?_⟩
  · intro e name he hname placeholder operand? span hclose hopen hoperand
    exact ⟨_, substitute_member hclose hopen hoperand hname span,
      readBack_iff_survives ⟨he, hname⟩⟩
  · intro x name hname
    exact ⟨rfl, readBack_iff_survives (e := .member (.number x) name) ⟨trivial, hname⟩⟩

/-- A method called on a number with a point, on a whole number, and a member taken of a whole
number by a template. -/
theorem numbers_survive_iff_receiver :
    ReadBack .ascii "5.5.$M(-3, NaN)" (.call (.member (.number ⟨0x4016000000000000⟩) "$M")
      [.number (.ofInt (-3)), .number Binary64.nan]) ∧
    ¬ ReadBack .ascii "5.$M()" (.call (.member (.number (.ofInt 5)) "$M") []) ∧
    (∃ text, Template.substitute "\x7bthis\x7d.x" default (fun _ => some (.number (.ofInt 5))) =
      .ok text ∧ ¬ ReadBack .ascii text (.member (.number (.ofInt 5)) "x")) ∧
    ReadBack .ascii "NaN.x" (.member (.number Binary64.nan) "x") := by
  obtain ⟨hexpr, htemplate, hmember⟩ := numbers_survive_iff .ascii
  have hM : Alphabet.ascii.IsWord "$M" := .of_ascii rfl (by decide)
  have hx : Alphabet.ascii.IsWord "x" := .of_ascii rfl (by decide)
  have hfive : ¬ Position.named.Admits (.ofInt 5) := by
    have hnan : (Binary64.ofInt 5).isNaN = false := by decide +kernel
    have hint : isInteger (.ofInt 5) = true := by decide +kernel
    simp [Position.Admits, hnan, hint]
  refine ⟨?_, ?_, ?_, ?_⟩
  · have h := hexpr (.call (.member (.number ⟨0x4016000000000000⟩) "$M")
      [.number (.ofInt (-3)), .number Binary64.nan]) ⟨⟨trivial, hM⟩, trivial, trivial, trivial⟩
    have htext : (Expr.call (.member (.number ⟨0x4016000000000000⟩) "$M")
      [.number (.ofInt (-3)), .number Binary64.nan]).text = "5.5.$M(-3, NaN)" := by decide +kernel
    rw [htext] at h
    exact h.2
      ⟨.inr (by decide +kernel), .inr (by decide +kernel), .inl (by decide +kernel), trivial⟩
  · have h := hexpr (.call (.member (.number (.ofInt 5)) "$M") []) ⟨⟨trivial, hM⟩, trivial⟩
    have htext : (Expr.call (.member (.number (.ofInt 5)) "$M") []).text = "5.$M()" := by
      decide +kernel
    rw [htext] at h
    exact fun hback => hfive (h.1 hback).1
  · obtain ⟨text, htext, hback⟩ := htemplate (.number (.ofInt 5)) "x" trivial hx "this"
      (fun _ => some (.number (.ofInt 5))) default (by decide) (by decide) rfl
    exact ⟨text, htext, fun h => hfive (hback.1 h)⟩
  · have h := (hmember Binary64.nan "x" hx).2.2 (.inl (by decide +kernel))
    have htext : (Expr.member (.number Binary64.nan) "x").text = "NaN.x" := by decide +kernel
    rwa [htext] at h

end AssignmentLowering.Script
