import AssignmentLowering.Proofs.Script.Literal

/-!
# The grammar of expressions with numbers

A negative number is a numeral behind a minus sign, and binds less tightly than accesses and
calls do: the sign of `-5[0]` belongs to what the subscript gives. Since operands with a sign
are no expressions here unless they are numbers, that text is none.

Which minus signs are signs is told by what stands around them: an operand is due before
them, and nothing is applied to the numeral behind them. With these signs joined to their
numerals, an expression is one of the grammar without numbers, where type handles stand in
their place. So the grammar with numbers is unambiguous because the one without is.

To tell later that a text is *not* read as an expression, tokens and expressions are weighed.
Whatever tokens are read as an expression weigh, once their signs are joined, exactly as much
as the expression does.

## Main definitions

* `Forms` — the grammar.
* `IsReadAs` — what a text is read as.
* `joinSigns` — tokens with the signs of numerals joined to them.
* `weigh`, `Expr.weight` — the weight of tokens and of expressions.

## Main statements

* `Forms.exists_unsigned` — with signs joined, expressions are those of the grammar without
  numbers.
* `IsReadAs.unique` — a text is read as one expression at most.
* `Forms.weigh_joinSigns` — tokens weigh as much as the expression that they are read as.
-/

namespace AssignmentLowering

namespace Script

open AssignmentLowering.Binary64 (nan negativeZero)

/-- What a name stands for by itself. One name is that of a number. -/
def Expr.ofName (name : String) : Expr :=
  if name = "NaN" then .number nan else .ofWord name

/-- The rank of a number with a sign: above all binary operators. -/
def unaryRank : Nat := 11

/-- The rank of what an access or a call applies to. -/
def appliedRank : Nat := 12

/-- The rank of names, literals and what stands in brackets. -/
def operandRank : Nat := 13

mutual

/-- The expressions of a rank. Numbers are never negative by themselves: a minus sign in front
of a numeral makes one that is, if no access or call is applied to the numeral first. Other
operands that have a sign are no expressions here. -/
inductive Forms : Nat → List Lexeme → Expr → Prop
  | word (name : String) : Forms operandRank [.token (.word name)] (.ofName name)
  | numeral (x : Binary64) : Forms operandRank [.numeral x] (.number x)
  | string (s : String) : Forms operandRank [.token (.string s)] (.string s)
  | handle (name : String) : Forms operandRank [.token (.handle name)] (.typeHandle name)
  | paren {xs : List Lexeme} {e : Expr} (h : Forms 0 xs e) :
    Forms operandRank (.token .openParen :: (xs ++ [.token .closeParen])) e
  | array {xs : List Lexeme} {items : List Expr} (h : FormsAll xs items) :
    Forms operandRank (.token .openBracket :: (xs ++ [.token .closeBracket])) (.array items)
  | member {xs : List Lexeme} {object : Expr} (h : Forms appliedRank xs object)
    (name : String) :
    Forms appliedRank (xs ++ [.token .dot, .token (.word name)]) (.member object name)
  | index {xs ys : List Lexeme} {object i : Expr} (h : Forms appliedRank xs object)
    (hi : Forms 0 ys i) :
    Forms appliedRank (xs ++ .token .openBracket :: (ys ++ [.token .closeBracket]))
      (.index object i)
  | call {xs ys : List Lexeme} {callee : Expr} {args : List Expr}
    (h : Forms appliedRank xs callee) (ha : FormsAll ys args) :
    Forms appliedRank (xs ++ .token .openParen :: (ys ++ [.token .closeParen]))
      (.call callee args)
  | negative (x : Binary64) : Forms unaryRank [minus, .numeral x] (.number x.neg)
  | binary (op : BinaryOp) {xs ys : List Lexeme} {left right : Expr}
    (hl : Forms op.rank xs left) (hr : Forms (op.rank + 1) ys right) :
    Forms op.rank (xs ++ .token (.binary op) :: ys) (.binary op left right)
  | assign (op : AssignOp) {xs ys : List Lexeme} {target value : Expr}
    (ht : Forms appliedRank xs target) (hv : Forms 0 ys value) :
    Forms 0 (xs ++ .token (.assign op) :: ys) (.ofAssign op target value)
  | weaken {k : Nat} {xs : List Lexeme} {e : Expr} (h : Forms (k + 1) xs e) : Forms k xs e

/-- Expressions between commas. -/
inductive FormsAll : List Lexeme → List Expr → Prop
  | nil : FormsAll [] []
  | one {xs : List Lexeme} {e : Expr} (h : Forms 0 xs e) : FormsAll xs [e]
  | cons {xs ys : List Lexeme} {e f : Expr} {es : List Expr} (h : Forms 0 xs e)
    (hs : FormsAll ys (f :: es)) : FormsAll (xs ++ .token .comma :: ys) (e :: f :: es)

end

/-- The text is read as the expression, numbers included. -/
def IsReadAs (A : Alphabet) (text : String) (e : Expr) : Prop :=
  ∃ xs, Divides A text.toList xs ∧ Forms 0 xs e

theorem Forms.of_le {j k : Nat} {xs : List Lexeme} {e : Expr} (hjk : j ≤ k)
    (h : Forms k xs e) : Forms j xs e := by
  induction hjk with
  | refl => exact h
  | step _ ih => exact ih h.weaken

/-! ### Signs joined to their numerals -/

/-- Whether an operand is due behind a token. -/
def Lexeme.awaits : Lexeme → Bool
  | .token (.binary _) | .token (.assign _) | .token .dot | .token .comma
  | .token .openParen | .token .openBracket => true
  | _ => false

/-- Whether something is applied, or assigned, to what comes before. -/
def applied : List Lexeme → Bool
  | .token .dot :: _ | .token .openParen :: _ | .token .openBracket :: _
  | .token (.assign _) :: _ => true
  | _ => false

/-- The tokens with each sign joined to its numeral. Signs are those minus signs that stand
where an operand is due. -/
def joinSigns : Bool → List Lexeme → List Lexeme
  | _, [] => []
  | true, .token (.binary .sub) :: .numeral x :: xs =>
    if applied xs then minus :: .numeral x :: joinSigns false xs
    else .numeral x.neg :: joinSigns false xs
  | _, x :: xs => x :: joinSigns x.awaits xs

variable {x : Lexeme} {xs : List Lexeme} {due : Bool}

theorem joinSigns_false (x : Lexeme) (xs : List Lexeme) :
    joinSigns false (x :: xs) = x :: joinSigns x.awaits xs := by
  simp [joinSigns]

theorem joinSigns_of_ne (hx : x ≠ minus) (due : Bool) (xs : List Lexeme) :
    joinSigns due (x :: xs) = x :: joinSigns x.awaits xs := by
  cases due with
  | false => exact joinSigns_false x xs
  | true =>
    rw [joinSigns]
    rintro y ys - rfl rfl
    exact absurd rfl hx

theorem joinSigns_negative (x : Binary64) (xs : List Lexeme) :
    joinSigns true (minus :: .numeral x :: xs) =
      if applied xs then minus :: .numeral x :: joinSigns false xs
      else .numeral x.neg :: joinSigns false xs := rfl

/-! ### Numbers as type handles

Joined to their signs, numbers are operands like any others, so that a grammar without numbers
can have type handles in their place. The names of these tell what they are. -/

/-- A token with a handle in place of a number. -/
def Lexeme.coded : Lexeme → Token
  | .token (.handle name) => .handle (String.ofList ('t' :: name.toList))
  | .token t => t
  | .numeral x => .handle (String.ofList ('n' :: Nat.toDigits 10 x.bits.toNat))

/-- What the name of a handle tells. -/
def decodedName (name : String) : Expr :=
  match name.toList with
  | 't' :: cs => .typeHandle (String.ofList cs)
  | _ :: cs => .number ⟨UInt64.ofNat (Nat.ofDigitChars 10 cs 0)⟩
  | [] => .typeHandle ""

namespace Expr

mutual

/-- An expression with numbers put in. -/
def decoded : Expr → Expr
  | null => null
  | bool b => bool b
  | number x => number x
  | string s => string s
  | ident name => .ofName name
  | this => this
  | typeHandle name => decodedName name
  | member object name => member object.decoded name
  | index object i => index object.decoded i.decoded
  | call callee args => call callee.decoded (decodedAll args)
  | array items => array (decodedAll items)
  | assign target value => assign target.decoded value.decoded
  | compoundAssign op target value => compoundAssign op target.decoded value.decoded
  | binary op left right => binary op left.decoded right.decoded
  | verbatim text => verbatim text

def decodedAll : List Expr → List Expr
  | [] => []
  | e :: es => e.decoded :: decodedAll es

end

theorem decoded_ofWord (name : String) : (ofWord name).decoded = .ofName name := by
  unfold ofWord
  split <;> simp [decoded, ofName, ofWord]

theorem decoded_ofAssign (op : AssignOp) (target value : Expr) :
    (ofAssign op target value).decoded = .ofAssign op target.decoded value.decoded := by
  unfold ofAssign
  split <;> rfl

end Expr

theorem decodedName_handle (name : String) :
    decodedName (String.ofList ('t' :: name.toList)) = .typeHandle name := by
  simp [decodedName]

theorem decodedName_number (x : Binary64) :
    decodedName (String.ofList ('n' :: Nat.toDigits 10 x.bits.toNat)) = .number x := by
  simp [decodedName, Nat.ofDigitChars_ten_toDigits]

/-! ### The weight of tokens and of expressions -/

/-- A NaN weighs as much as its name, other numbers less, and a zero with a minus sign still
less. -/
def numberWeight (x : Binary64) : Int :=
  if x.isNaN then -2 else if x = negativeZero then -4 else -3

/-- The weight of a token. -/
def Lexeme.weight : Lexeme → Int
  | .token (.word _) => -2
  | .token (.binary .sub) => 1
  | .token _ => 0
  | .numeral x => numberWeight x

/-- The weight of tokens together. -/
def weigh : List Lexeme → Int
  | [] => 0
  | x :: xs => x.weight + weigh xs

@[simp] theorem weigh_append (xs ys : List Lexeme) : weigh (xs ++ ys) = weigh xs + weigh ys := by
  induction xs with
  | nil => simp [weigh]
  | cons x xs ih => simp [weigh, ih, Int.add_assoc]

namespace Expr

mutual

/-- The weight of the tokens that an expression has at least. -/
def weight : Expr → Int
  | null | bool _ | this | ident _ => -2
  | number x => numberWeight x
  | string _ | typeHandle _ | verbatim _ => 0
  | member object _ => object.weight - 2
  | index object i => object.weight + i.weight
  | call callee args => callee.weight + weightAll args
  | array items => weightAll items
  | assign target value | compoundAssign _ target value => target.weight + value.weight
  | binary op left right => left.weight + (Lexeme.token (.binary op)).weight + right.weight

def weightAll : List Expr → Int
  | [] => 0
  | e :: es => e.weight + weightAll es

end

theorem weight_ofName (name : String) : (ofName name).weight = -2 := by
  unfold ofName
  split
  · decide
  · unfold ofWord
    split <;> rfl

theorem weight_ofAssign (op : AssignOp) (target value : Expr) :
    (ofAssign op target value).weight = target.weight + value.weight := by
  unfold ofAssign
  split <;> rfl

end Expr

/-! ### Every expression is one of the grammar without numbers -/

/-- The rank without signs. -/
def unsignedRank (k : Nat) : Nat := if k ≤ unaryRank then k else k - 1

@[simp] theorem unsignedRank_zero : unsignedRank 0 = 0 := rfl

@[simp] theorem unsignedRank_applied : unsignedRank appliedRank = postfixRank := rfl

@[simp] theorem unsignedRank_operand : unsignedRank operandRank = primaryRank := rfl

@[simp] theorem unsignedRank_rank (op : BinaryOp) :
    unsignedRank op.rank = op.rank ∧ unsignedRank (op.rank + 1) = op.rank + 1 := by
  have := op.rank_lt
  exact ⟨if_pos (by simp only [unaryRank]; omega), if_pos (by simp only [unaryRank]; omega)⟩

/-- Tokens whose signs are joined to numerals alike wherever they stand as an operand. -/
def Joins (k : Nat) (xs ys : List Lexeme) : Prop :=
  ∀ rest, (k < appliedRank → applied rest = false) →
    joinSigns true (xs ++ rest) = ys ++ joinSigns false rest

/-- An expression of the grammar without numbers that stands for the given one. -/
structure Unsigned (k : Nat) (xs ys : List Lexeme) (e e₀ : Expr) : Prop where
  joins : Joins k xs ys
  derives : Derives (unsignedRank k) (ys.map Lexeme.coded) e₀
  decoded_eq : e₀.decoded = e
  weigh_eq : weigh ys = e.weight

/-- The same for a list, up to the bracket that closes it. -/
structure UnsignedAll (xs ys : List Lexeme) (es es₀ : List Expr) : Prop where
  joins : ∀ (t : Token) rest, t.closes = true →
    joinSigns true (xs ++ .token t :: rest) = ys ++ .token t :: joinSigns false rest
  derives : DerivesAll (ys.map Lexeme.coded) es₀
  decoded_eq : Expr.decodedAll es₀ = es
  weigh_eq : weigh ys = Expr.weightAll es

namespace Unsigned

variable {k : Nat} {xs ys zs ws : List Lexeme} {e f e₀ f₀ : Expr} {es es₀ : List Expr}

/-- A token that is no operator stays as it is. -/
theorem operand {x : Lexeme} (hx : x ≠ minus) (ha : x.awaits = false)
    (hd : Derives primaryRank [x.coded] e₀) (he : e₀.decoded = e) (hw : x.weight = e.weight) :
    Unsigned operandRank [x] [x] e e₀ where
  joins rest _ := by
    rw [List.singleton_append, joinSigns_of_ne hx, ha]
    rfl
  derives := hd
  decoded_eq := he
  weigh_eq := by simpa [weigh] using hw

/-- A sign is joined to its numeral. -/
theorem negative (x : Binary64) :
    ∃ e₀, Unsigned unaryRank [minus, .numeral x] [.numeral x.neg] (.number x.neg) e₀ := by
  refine ⟨_, fun rest h => ?_, (Derives.handle _).weaken, decodedName_number x.neg,
    by simp [weigh, Lexeme.weight, Expr.weight]⟩
  have hrest := h (by decide)
  simp [joinSigns_negative, hrest]

theorem paren (h : Unsigned 0 xs ys e e₀) :
    Unsigned operandRank (.token .openParen :: (xs ++ [.token .closeParen]))
      (.token .openParen :: (ys ++ [.token .closeParen])) e e₀ where
  joins rest _ := by
    have hinner := h.joins (.token .closeParen :: rest) fun _ => rfl
    simpa [joinSigns, Lexeme.awaits] using hinner
  derives := by simpa [Lexeme.coded] using Derives.paren h.derives
  decoded_eq := h.decoded_eq
  weigh_eq := by simpa [weigh, Lexeme.weight] using h.weigh_eq

theorem array (h : UnsignedAll xs ys es es₀) :
    Unsigned operandRank (.token .openBracket :: (xs ++ [.token .closeBracket]))
      (.token .openBracket :: (ys ++ [.token .closeBracket])) (.array es) (.array es₀) where
  joins rest _ := by
    have hinner := h.joins .closeBracket rest rfl
    simpa [joinSigns, Lexeme.awaits] using hinner
  derives := by simpa [Lexeme.coded] using Derives.array h.derives
  decoded_eq := congrArg Expr.array h.decoded_eq
  weigh_eq := by simpa [weigh, Lexeme.weight, Expr.weight] using h.weigh_eq

theorem member (h : Unsigned appliedRank xs ys e e₀) (name : String) :
    Unsigned appliedRank (xs ++ [.token .dot, .token (.word name)])
      (ys ++ [.token .dot, .token (.word name)]) (.member e name) (.member e₀ name) where
  joins rest _ := by
    have hobject := h.joins (.token .dot :: .token (.word name) :: rest) (absurd · (by decide))
    simpa [joinSigns, Lexeme.awaits] using hobject
  derives := by simpa [Lexeme.coded] using Derives.member h.derives name
  decoded_eq := by simp [Expr.decoded, h.decoded_eq]
  weigh_eq := by
    simp [weigh, Lexeme.weight, Expr.weight, h.weigh_eq]
    rfl

theorem index (h : Unsigned appliedRank xs ys e e₀) (hi : Unsigned 0 zs ws f f₀) :
    Unsigned appliedRank (xs ++ .token .openBracket :: (zs ++ [.token .closeBracket]))
      (ys ++ .token .openBracket :: (ws ++ [.token .closeBracket])) (.index e f)
      (.index e₀ f₀) where
  joins rest _ := by
    rw [List.append_assoc, h.joins _ (absurd · (by decide))]
    have hinner := hi.joins (.token .closeBracket :: rest) fun _ => rfl
    simpa [joinSigns, Lexeme.awaits] using hinner
  derives := by simpa [Lexeme.coded] using Derives.index h.derives hi.derives
  decoded_eq := by simp [Expr.decoded, h.decoded_eq, hi.decoded_eq]
  weigh_eq := by simp [weigh, Lexeme.weight, Expr.weight, h.weigh_eq, hi.weigh_eq]

theorem call (h : Unsigned appliedRank xs ys e e₀) (ha : UnsignedAll zs ws es es₀) :
    Unsigned appliedRank (xs ++ .token .openParen :: (zs ++ [.token .closeParen]))
      (ys ++ .token .openParen :: (ws ++ [.token .closeParen])) (.call e es)
      (.call e₀ es₀) where
  joins rest _ := by
    rw [List.append_assoc, h.joins _ (absurd · (by decide))]
    have hinner := ha.joins .closeParen rest rfl
    simpa [joinSigns, Lexeme.awaits] using hinner
  derives := by simpa [Lexeme.coded] using Derives.call h.derives ha.derives
  decoded_eq := by simp [Expr.decoded, h.decoded_eq, ha.decoded_eq]
  weigh_eq := by simp [weigh, Lexeme.weight, Expr.weight, h.weigh_eq, ha.weigh_eq]

theorem binary (op : BinaryOp) (h : Unsigned op.rank xs ys e e₀)
    (h' : Unsigned (op.rank + 1) zs ws f f₀) :
    Unsigned op.rank (xs ++ .token (.binary op) :: zs) (ys ++ .token (.binary op) :: ws)
      (.binary op e f) (.binary op e₀ f₀) where
  joins rest hrank := by
    have hrest := hrank (by have := op.rank_lt; simp only [appliedRank]; omega)
    rw [List.append_assoc, h.joins _ fun _ => rfl]
    simpa [joinSigns_false, Lexeme.awaits] using h'.joins rest fun _ => hrest
  derives := by
    obtain ⟨hleft, hright⟩ := unsignedRank_rank op
    have hd := h.derives
    have hd' := h'.derives
    rw [hleft] at hd
    rw [hright] at hd'
    rw [hleft]
    simpa [Lexeme.coded] using Derives.binary op hd hd'
  decoded_eq := by simp [Expr.decoded, h.decoded_eq, h'.decoded_eq]
  weigh_eq := by simp [weigh, Expr.weight, h.weigh_eq, h'.weigh_eq, Int.add_assoc]

theorem assign (op : AssignOp) (h : Unsigned appliedRank xs ys e e₀)
    (h' : Unsigned 0 zs ws f f₀) :
    Unsigned 0 (xs ++ .token (.assign op) :: zs) (ys ++ .token (.assign op) :: ws)
      (.ofAssign op e f) (.ofAssign op e₀ f₀) where
  joins rest hrank := by
    have hrest := hrank (by decide)
    rw [List.append_assoc, h.joins _ (absurd · (by decide))]
    simpa [joinSigns_false, Lexeme.awaits] using h'.joins rest fun _ => hrest
  derives := by simpa [Lexeme.coded] using Derives.assign op h.derives h'.derives
  decoded_eq := by simp [Expr.decoded_ofAssign, h.decoded_eq, h'.decoded_eq]
  weigh_eq := by simp [weigh, Lexeme.weight, Expr.weight_ofAssign, h.weigh_eq, h'.weigh_eq]

theorem weaken (h : Unsigned (k + 1) xs ys e e₀) : Unsigned k xs ys e e₀ where
  joins rest hrest := h.joins rest fun hk => hrest (by omega)
  derives := h.derives.of_le (by grind [unsignedRank, unaryRank])
  decoded_eq := h.decoded_eq
  weigh_eq := h.weigh_eq

end Unsigned

namespace UnsignedAll

variable {xs ys zs ws : List Lexeme} {e f e₀ f₀ : Expr} {es es₀ : List Expr}

theorem nil : UnsignedAll [] [] [] [] where
  joins t rest ht := by cases t <;> first | rfl | cases ht
  derives := .nil
  decoded_eq := rfl
  weigh_eq := rfl

theorem one (h : Unsigned 0 xs ys e e₀) : UnsignedAll xs ys [e] [e₀] where
  joins t rest ht := by
    have hlast := h.joins (.token t :: rest) fun _ => by cases t <;> first | rfl | cases ht
    rw [hlast, joinSigns_false]
    cases t <;> first | rfl | cases ht
  derives := .one h.derives
  decoded_eq := by simp [Expr.decodedAll, h.decoded_eq]
  weigh_eq := by simp [Expr.weightAll, h.weigh_eq]

theorem cons (h : Unsigned 0 xs ys e e₀) (hs : UnsignedAll zs ws (f :: es) (f₀ :: es₀)) :
    UnsignedAll (xs ++ .token .comma :: zs) (ys ++ .token .comma :: ws) (e :: f :: es)
      (e₀ :: f₀ :: es₀) where
  joins t rest ht := by
    rw [List.append_assoc, h.joins _ fun _ => rfl]
    simpa [joinSigns_false, Lexeme.awaits] using hs.joins t rest ht
  derives := by simpa [Lexeme.coded] using DerivesAll.cons h.derives hs.derives
  decoded_eq := by simpa [Expr.decodedAll, h.decoded_eq] using hs.decoded_eq
  weigh_eq := by simp [weigh, Lexeme.weight, Expr.weightAll, h.weigh_eq, hs.weigh_eq]

end UnsignedAll

mutual

/-- With its signs joined, each expression is one of the grammar without numbers. -/
theorem Forms.exists_unsigned : ∀ {k : Nat} {xs : List Lexeme} {e : Expr}, Forms k xs e →
    ∃ ys e₀, Unsigned k xs ys e e₀
  | _, _, _, .word name => ⟨_, _, .operand (by simp [minus]) rfl (.word name)
      (Expr.decoded_ofWord name) (Expr.weight_ofName name).symm⟩
  | _, _, _, .numeral x => ⟨_, _, .operand (by simp [minus]) rfl (.handle _)
      (decodedName_number x) rfl⟩
  | _, _, _, .string s => ⟨_, _, .operand (by simp [minus]) rfl (.string s) rfl rfl⟩
  | _, _, _, .handle name => ⟨_, _, .operand (by simp [minus]) rfl (.handle _)
      (decodedName_handle name) rfl⟩
  | _, _, _, .negative x => ⟨_, Unsigned.negative x⟩
  | _, _, _, .paren h => by
    obtain ⟨_, _, h⟩ := h.exists_unsigned
    exact ⟨_, _, h.paren⟩
  | _, _, _, .array h => by
    obtain ⟨_, _, h⟩ := h.exists_unsigned
    exact ⟨_, _, .array h⟩
  | _, _, _, .member h name => by
    obtain ⟨_, _, h⟩ := h.exists_unsigned
    exact ⟨_, _, h.member name⟩
  | _, _, _, .index h hi => by
    obtain ⟨_, _, h⟩ := h.exists_unsigned
    obtain ⟨_, _, hi⟩ := hi.exists_unsigned
    exact ⟨_, _, h.index hi⟩
  | _, _, _, .call h ha => by
    obtain ⟨_, _, h⟩ := h.exists_unsigned
    obtain ⟨_, _, ha⟩ := ha.exists_unsigned
    exact ⟨_, _, h.call ha⟩
  | _, _, _, .binary op hl hr => by
    obtain ⟨_, _, hl⟩ := hl.exists_unsigned
    obtain ⟨_, _, hr⟩ := hr.exists_unsigned
    exact ⟨_, _, hl.binary op hr⟩
  | _, _, _, .assign op ht hv => by
    obtain ⟨_, _, ht⟩ := ht.exists_unsigned
    obtain ⟨_, _, hv⟩ := hv.exists_unsigned
    exact ⟨_, _, ht.assign op hv⟩
  | _, _, _, .weaken h => by
    obtain ⟨_, _, h⟩ := h.exists_unsigned
    exact ⟨_, _, h.weaken⟩

theorem FormsAll.exists_unsigned : ∀ {xs : List Lexeme} {es : List Expr}, FormsAll xs es →
    ∃ ys es₀, UnsignedAll xs ys es es₀
  | _, _, .nil => ⟨_, _, .nil⟩
  | _, _, .one h => by
    obtain ⟨_, _, h⟩ := h.exists_unsigned
    exact ⟨_, _, .one h⟩
  | _, _, .cons h hs => by
    obtain ⟨ys, e₀, h⟩ := h.exists_unsigned
    obtain ⟨zs, es₀, hs⟩ := hs.exists_unsigned
    cases es₀ with
    | nil => cases hs.decoded_eq
    | cons f₀ es₀ => exact ⟨_, _, .cons h hs⟩

end

/-- The grammar is unambiguous. -/
theorem Forms.unique {xs : List Lexeme} {e f : Expr} (h : Forms 0 xs e) (h' : Forms 0 xs f) :
    e = f := by
  obtain ⟨ys, e₀, hj, hd, rfl, -⟩ := h.exists_unsigned
  obtain ⟨zs, f₀, hj', hd', rfl, -⟩ := h'.exists_unsigned
  have hys := hj [] fun _ => rfl
  have hzs := hj' [] fun _ => rfl
  have hsame : ys = zs := by simpa [joinSigns] using hys.symm.trans hzs
  rw [hd.unique (hsame ▸ hd')]

/-- A text is read as one expression at most. -/
theorem IsReadAs.unique {A : Alphabet} {text : String} {e f : Expr} (h : IsReadAs A text e)
    (h' : IsReadAs A text f) : e = f := by
  obtain ⟨xs, hdiv, hforms⟩ := h
  obtain ⟨ys, hdiv', hforms'⟩ := h'
  obtain rfl := hdiv.unique hdiv'
  exact hforms.unique hforms'

/-- The tokens of an expression weigh, joined, as much as the expression. -/
theorem Forms.weigh_joinSigns {xs : List Lexeme} {e : Expr} (h : Forms 0 xs e) :
    weigh (joinSigns true xs) = e.weight := by
  obtain ⟨ys, e₀, hj, -, -, hw⟩ := h.exists_unsigned
  have hys := hj [] fun _ => rfl
  rw [← hw, ← List.append_nil xs, hys, joinSigns, List.append_nil]

end Script
end AssignmentLowering
