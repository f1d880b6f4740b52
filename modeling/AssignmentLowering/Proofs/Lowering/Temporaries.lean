import AssignmentLowering.Proofs.Expr.Annotate
import AssignmentLowering.Proofs.Lowering.Forms
import Mathlib.Algebra.Order.BigOperators.Group.List
import Mathlib.Algebra.Ring.Nat
import Mathlib.Data.List.Perm.Basic

/-!
# Where temporaries are mentioned

Lowering hands out temporaries by number. What it makes of an expression declares those
numbered from the count it started at up to the count it ended with, and mentions no
others, unless a local variable of the program is spelled like one.

## Main definitions

* `Script.Expr.mentions` — how often an identifier stands in an expression.
* `Numbered` — statements that declare temporaries in turn, before they mention them.
* `Confined` — script that keeps to the temporaries of a range.
* `Expr.avoidsTemps` — the local variable that an expression is has a name of its own.

## Main statements

* `Temporary.name_injective` — temporaries of different numbers have different names.
* `Lowers.confined` — lowering keeps to the temporaries that it hands out.
-/

namespace AssignmentLowering

open Script (Stmt)

/-! ## Mentions -/

namespace Script

mutual

/-- How often the identifier `x` stands in an expression. The name of a helper that is
called is not counted. Text made from a template is opaque and mentions nothing. -/
def Expr.mentions (x : String) : Expr → Nat
  | .null | .bool _ | .number _ | .string _ | .this | .typeHandle _ | .verbatim _ => 0
  | .ident name => if name = x then 1 else 0
  | .member object _ => object.mentions x
  | .index object i => object.mentions x + i.mentions x
  | .call (.ident _) args => Expr.allMentions x args
  | .call callee args => callee.mentions x + Expr.allMentions x args
  | .array items => Expr.allMentions x items
  | .assign target value | .compoundAssign _ target value =>
    target.mentions x + value.mentions x
  | .binary _ left right => left.mentions x + right.mentions x

def Expr.allMentions (x : String) : List Expr → Nat
  | [] => 0
  | e :: rest => e.mentions x + Expr.allMentions x rest

end

/-- How often the identifier `x` stands in statements, declarations of it aside. -/
def mentions (x : String) (stmts : List Stmt) : Nat :=
  (stmts.map fun s => s.value.mentions x).sum

attribute [local simp] Expr.mentions

variable (x : String)

@[simp] theorem Expr.allMentions_eq (es : List Expr) :
    Expr.allMentions x es = (es.map (Expr.mentions x)).sum := by
  induction es with
  | nil => rfl
  | cons e es ih => simp [Expr.allMentions, ih]

@[simp] theorem mentions_nil : mentions x [] = 0 := rfl

@[simp] theorem mentions_append (stmts stmts' : List Stmt) :
    mentions x (stmts ++ stmts') = mentions x stmts + mentions x stmts' := by
  simp [mentions]

@[simp] theorem mentions_expr (e : Expr) : mentions x [.expr e] = e.mentions x := by
  simp [mentions, Stmt.value]

@[simp] theorem mentions_declare (name : String) (e : Expr) :
    mentions x [.declare name e] = e.mentions x := by
  simp [mentions, Stmt.value]

@[simp] theorem Expr.mentions_callMethod (object : Expr) (name : String) (args : List Expr) :
    (Expr.callMethod object name args).mentions x =
      object.mentions x + (args.map (Expr.mentions x)).sum := by
  simp [Expr.callMethod]

@[simp] theorem Expr.mentions_callHelper (helper : String) (args : List Expr) :
    (Expr.call (.ident helper) args).mentions x = (args.map (Expr.mentions x)).sum := by
  simp

@[simp] theorem Expr.mentions_copied (names : RuntimeNames) (s : CopySemantics) (fresh : Bool)
    (uses : Nat) (value : Expr) :
    (copied names s fresh uses value).mentions x = value.mentions x := by
  unfold copied
  cases s.cloneTag? fresh uses <;> simp [clone]

@[simp] theorem Expr.mentions_callBase (names : RuntimeNames) (declaring : TypeRef)
    (name : String) (args : List Expr) :
    (callBase names declaring name args).mentions x = (args.map (Expr.mentions x)).sum := by
  simp [callBase]

end Script

/-- A copy mentions what it is a copy of. -/
@[simp] theorem Context.mentions_copied (cx : Context) (x : String) (ty : TypeRef)
    (fresh : Bool) (uses : Nat) (e : Script.Expr) :
    (cx.copied ty fresh uses e).mentions x = e.mentions x :=
  Script.Expr.mentions_copied ..

/-- How often the identifier `x` stands in operands. -/
def Address.mentions (x : String) (a : Address) : Nat :=
  (a.object.toList.map (Script.Expr.mentions x)).sum + (a.args.map (Script.Expr.mentions x)).sum

namespace Target

variable {ε : Type} {names : RuntimeNames} {t : Target ε} {a : Address} {x : String}

theorem mentions_object :
    (t.object a).mentions x = (a.object.toList.map (Script.Expr.mentions x)).sum := by
  unfold object
  cases a.object with
  | some e => simp
  | none => cases t.staticOwner <;> rfl

theorem mentions_subscript {place : Script.Expr} (h : t.subscript a = .ok place) :
    place.mentions x = a.mentions x := by
  unfold subscript at h
  split at h
  case h_1 i hi =>
    cases h
    simp [Script.Expr.mentions, mentions_object, Address.mentions, hi]
  case h_2 => cases h

/-- A target mentions what its operands mention, and the variable that it may be. -/
theorem mentions_native (hlocal : t.kind ≠ .localVar x) (hcell : t.kind ≠ .cell x)
    {place : Script.Expr} (h : t.native names a = .ok place) :
    place.mentions x ≤ a.mentions x := by
  unfold native at h
  split at h
  case h_1 _ name hkind =>
    cases h
    have hne : name ≠ x := fun hname => hlocal (hname ▸ hkind)
    simp [Script.Expr.mentions, hne]
  case h_2 _ name hkind =>
    cases h
    have hne : name ≠ x := fun hname => hcell (hname ▸ hkind)
    simp [Script.Expr.mentions, hne]
  case h_3 | h_4 =>
    cases h
    simp only [Script.Expr.mentions, mentions_object, Address.mentions]
    omega
  case h_8 => cases h
  all_goals exact (mentions_subscript h).le

theorem mentions_useAccessor {value : Option Script.Expr} {accessor : Accessor}
    {e : Script.Expr} (h : t.useAccessor names a value accessor = .ok e) :
    e.mentions x ≤ a.mentions x + (value.toList.map (Script.Expr.mentions x)).sum := by
  cases accessor with
  | method name =>
    simp only [useAccessor] at h
    cases hd : t.dispatch with
    | dynamic =>
      simp only [hd, Except.ok.injEq] at h
      subst h
      simp only [Script.Expr.mentions_callMethod, mentions_object, List.map_append,
        List.sum_append, Address.mentions]
      omega
    | bound declaring =>
      simp only [hd, Except.ok.injEq] at h
      subst h
      simp only [Script.Expr.mentions_callBase, List.map_append, List.sum_append,
        Address.mentions]
      omega
  | inline template =>
    simp only [useAccessor] at h
    cases htext : Template.substitute template t.span (t.operand? a value) with
    | error err => simp [htext, Except.map] at h
    | ok text =>
      simp only [htext, Except.map, Except.ok.injEq] at h
      subst h
      simp [Script.Expr.mentions]
  | subscript =>
    simp only [useAccessor] at h
    cases hplace : t.subscript a with
    | error err => simp [hplace, Except.map] at h
    | ok place =>
      simp only [hplace, Except.map, Except.ok.injEq] at h
      have hmentions := mentions_subscript (x := x) hplace
      cases value with
      | none => subst h; simp [hmentions]
      | some v => subst h; simp [Script.Expr.mentions, hmentions]

theorem mentions_load (hlocal : t.kind ≠ .localVar x) (hcell : t.kind ≠ .cell x)
    {e : Script.Expr} (h : t.load names a = .ok e) : e.mentions x ≤ a.mentions x := by
  unfold load at h
  split at h
  case h_1 => cases h; simp [Script.Expr.mentions]
  case h_2 =>
    cases h
    simp [mentions_object, Address.mentions]
  case h_3 =>
    split at h
    · simpa using mentions_useAccessor h
    · exact mentions_native hlocal hcell h

theorem mentions_store (hlocal : t.kind ≠ .localVar x) (hcell : t.kind ≠ .cell x)
    {value e : Script.Expr} (h : t.store names a value = .ok e) :
    e.mentions x ≤ a.mentions x + value.mentions x := by
  unfold store at h
  split at h
  case h_1 => cases h; simp [Script.Expr.mentions]
  case h_2 =>
    cases h
    simp only [Script.Expr.mentions_callHelper, List.map_cons, List.map_append, List.map_nil,
      List.sum_cons, List.sum_append, List.sum_nil, mentions_object, Address.mentions]
    omega
  case h_3 =>
    split at h
    · simpa using mentions_useAccessor h
    · cases hplace : t.native names a with
      | error err => simp [hplace, Except.map] at h
      | ok place =>
        simp only [hplace, Except.map, Except.ok.injEq] at h
        subst h
        have := mentions_native hlocal hcell hplace
        simp only [Script.Expr.mentions]
        omega

end Target
/-! ## Ranges of temporaries -/

variable {cx : Context}

/-- Temporaries of different numbers have different names. -/
theorem Temporary.name_injective (stem : String) : Function.Injective (name stem) := by
  intro m n h
  have hrepr : m.repr = n.repr := (String.append_right_inj stem).1 h
  have hdigits : Nat.toDigits 10 m = Nat.toDigits 10 n := by
    rw [← Nat.toList_repr, ← Nat.toList_repr, hrepr]
  have hvalue := congrArg (Nat.ofDigitChars 10 · 0) hdigits
  simpa [Nat.ofDigitChars_toDigits] using hvalue

theorem Context.temp_injective (cx : Context) : Function.Injective cx.temp :=
  Temporary.name_injective cx.tempStem

/-- How often the identifier `x` stands in expressions. -/
def Script.mentionsAll (x : String) (es : List Script.Expr) : Nat :=
  (es.map (Script.Expr.mentions x)).sum

/-- Statements that declare the temporaries behind the `n`-th and up to the `n'`-th, in this
order, and mention none that is still to be declared. -/
inductive Numbered (cx : Context) : Nat → List Stmt → Nat → Prop
  | nil {n : Nat} : Numbered cx n [] n
  | expr {n n' : Nat} {e : Script.Expr} {stmts : List Stmt}
      (he : ∀ k, n < k → e.mentions (cx.temp k) = 0) (hrest : Numbered cx n stmts n') :
      Numbered cx n (.expr e :: stmts) n'
  | declare {n n' : Nat} {e : Script.Expr} {stmts : List Stmt}
      (he : ∀ k, n < k → e.mentions (cx.temp k) = 0) (hrest : Numbered cx (n + 1) stmts n') :
      Numbered cx n (.declare (cx.temp (n + 1)) e :: stmts) n'

namespace Numbered

variable {n n' n'' : Nat} {stmts stmts' : List Stmt}

theorem le (h : Numbered cx n stmts n') : n ≤ n' := by
  induction h with
  | nil => exact le_rfl
  | expr _ _ ih => exact ih
  | declare _ _ ih => omega

theorem append (h : Numbered cx n stmts n') (h' : Numbered cx n' stmts' n'') :
    Numbered cx n (stmts ++ stmts') n'' := by
  induction h with
  | nil => exact h'
  | expr he _ ih => exact .expr he (ih h')
  | declare he _ ih => exact .declare he (ih h')

theorem mem (h : Numbered cx n stmts n') {k : Nat} {y : Script.Expr}
    (hk : Stmt.declare (cx.temp k) y ∈ stmts) : n < k ∧ k ≤ n' := by
  induction h with
  | nil => cases hk
  | expr _ _ ih =>
    obtain hk | hk := List.mem_cons.1 hk
    · cases hk
    · exact ih hk
  | declare _ hrest ih =>
    have hle := hrest.le
    obtain hk | hk := List.mem_cons.1 hk
    · injection hk with hname
      have := cx.temp_injective hname
      omega
    · have := ih hk
      omega

end Numbered

/-- Statements, and expressions that are evaluated behind them, that keep to the temporaries
behind the `n`-th and up to the `n'`-th. -/
structure Confined (cx : Context) (n n' : Nat) (stmts : List Stmt) (es : List Script.Expr) :
    Prop where
  numbered : Numbered cx n stmts n'
  stmts : ∀ k, ¬(n < k ∧ k ≤ n') → Script.mentions (cx.temp k) stmts = 0
  exprs : ∀ k, ¬(n < k ∧ k ≤ n') → Script.mentionsAll (cx.temp k) es = 0

namespace Confined

variable {n n' n'' : Nat} {stmts stmts' : List Stmt} {es es' : List Script.Expr}

theorem le (h : Confined cx n n' stmts es) : n ≤ n' := h.numbered.le

theorem nil : Confined cx n n [] [] := ⟨.nil, by simp, by simp [Script.mentionsAll]⟩

theorem append (h : Confined cx n n' stmts es) (h' : Confined cx n' n'' stmts' es') :
    Confined cx n n'' (stmts ++ stmts') (es ++ es') := by
  have hle := h.le
  have hle' := h'.le
  refine ⟨h.numbered.append h'.numbered, fun k hk => ?_, fun k hk => ?_⟩
  · rw [Script.mentions_append, h.stmts k (by omega), h'.stmts k (by omega)]
  · have h₁ := h.exprs k (by omega)
    have h₂ := h'.exprs k (by omega)
    unfold Script.mentionsAll at h₁ h₂ ⊢
    rw [List.map_append, List.sum_append, h₁, h₂]

/-- Other expressions, which mention no more. -/
theorem of_le (h : Confined cx n n' stmts es)
    (hes : ∀ k, ¬(n < k ∧ k ≤ n') →
      Script.mentionsAll (cx.temp k) es' ≤ Script.mentionsAll (cx.temp k) es) :
    Confined cx n n' stmts es' :=
  ⟨h.numbered, h.stmts, fun k hk => by
    have := hes k hk
    have := h.exprs k hk
    omega⟩

/-- An expression evaluated by a statement. -/
theorem push {e : Script.Expr} (h : Confined cx n n' stmts (e :: es)) :
    Confined cx n n' (stmts ++ [.expr e]) es := by
  have hsum : ∀ k, ¬(n < k ∧ k ≤ n') →
      e.mentions (cx.temp k) = 0 ∧ Script.mentionsAll (cx.temp k) es = 0 := by
    intro k hk
    have := h.exprs k hk
    unfold Script.mentionsAll at this ⊢
    rw [List.map_cons, List.sum_cons] at this
    omega
  refine ⟨h.numbered.append (.expr (fun k hk => (hsum k (by omega)).1) .nil), fun k hk => ?_,
    fun k hk => (hsum k hk).2⟩
  rw [Script.mentions_append, h.stmts k hk, Script.mentions_expr, (hsum k hk).1]

/-- An expression held in the next temporary. -/
theorem capture {e : Script.Expr} (h : Confined cx n n' stmts (e :: es)) :
    Confined cx n (n' + 1) (stmts ++ [.declare (cx.temp (n' + 1)) e])
      (.ident (cx.temp (n' + 1)) :: es) := by
  have hle := h.le
  have hsum : ∀ k, ¬(n < k ∧ k ≤ n') →
      e.mentions (cx.temp k) = 0 ∧ Script.mentionsAll (cx.temp k) es = 0 := by
    intro k hk
    have := h.exprs k hk
    unfold Script.mentionsAll at this ⊢
    rw [List.map_cons, List.sum_cons] at this
    omega
  refine ⟨h.numbered.append (.declare (fun k hk => (hsum k (by omega)).1) .nil), fun k hk => ?_,
    fun k hk => ?_⟩
  · rw [Script.mentions_append, h.stmts k (by omega), Script.mentions_declare,
      (hsum k (by omega)).1]
  · have hne : cx.temp (n' + 1) ≠ cx.temp k := fun hname => by
      have := cx.temp_injective hname
      omega
    have := (hsum k (by omega)).2
    unfold Script.mentionsAll at this ⊢
    simpa [Script.Expr.mentions, hne] using this

end Confined

theorem Held.confined {e x : Script.Expr} {n m m' : Nat} {flag : Bool}
    {stmts₀ stmts : List Stmt} {es : List Script.Expr} (h : Held cx e m flag x stmts m')
    (he : Confined cx n m stmts₀ (e :: es)) : Confined cx n m' (stmts₀ ++ stmts) (x :: es) := by
  cases h with
  | inline => simpa using he
  | captured => exact he.capture

/-- The local variable that an expression is, if it is one, is not spelled like a
temporary. -/
def Expr.avoidsTemps (cx : Context) (e : Expr) : Prop :=
  ∀ l, e.form = .place (.localVar l) → ∀ k, l.name ≠ cx.temp k

/-- An expression whose lowering keeps to the temporaries that it hands out. -/
def LowersConfined (cx : Context) (e : Expr) : Prop :=
  ∀ {n n' : Nat} {w : Lowered}, e.lower cx n = .ok w n' → Confined cx n n' w.stmts [w.expr]

theorem Confined.composes : Composes cx fun n stmts es n' => Confined cx n n' stmts es where
  nil _ := .nil
  append h h' := h.append h'
  perm hperm h := h.of_le fun _ _ => (hperm.symm.map _).sum_eq.le
  held h hheld := hheld.confined h

theorem Taken.confined {c : Capture} {later : List Expr} {o : Expr} {n n' : Nat} {v : Value}
    {stmts : List Stmt} (ho : LowersConfined cx o) (h : Taken cx c later o n v stmts n') :
    Confined cx n n' stmts [v.expr] :=
  Confined.composes.taken ho h

theorem TakenAll.confined {rest : List Expr} {items : List (Capture × Expr)} {n n' : Nat}
    {vs : List Value} {stmts : List Stmt}
    (hitems : ∀ e ∈ items.map (·.2), LowersConfined cx e)
    (h : TakenAll cx rest items n vs stmts n') :
    Confined cx n n' stmts (vs.map (·.expr)) :=
  Confined.composes.takenAll hitems h

/-- What is known about a target when temporaries are counted. -/
structure Target.AvoidsTemps (cx : Context) (t : Target Expr) : Prop where
  arranges : ∃ indices, Arranges t.args indices
  localVar : ∀ k, t.kind ≠ .localVar (cx.temp k)
  cell : ∀ k, t.kind ≠ .cell (cx.temp k)
  operands : ∀ e ∈ t.operands, LowersConfined cx e
  omitted : ∀ e ∈ t.omitted, LowersConfined cx e

theorem Address.mentions_eq (x : String) (a : Address) :
    a.mentions x = Script.mentionsAll x (a.object.toList ++ a.args) := by
  simp [Address.mentions, Script.mentionsAll]

/-- Copies mention what they are copies of. -/
@[simp] theorem LoweredAddress.mentions_passed (x : String) (a : LoweredAddress)
    (accessor : Option Accessor) (uses : Nat) :
    (a.passed cx accessor uses).mentions x = a.address.mentions x := by
  unfold LoweredAddress.passed
  split
  · simp [Address.mentions, LoweredAddress.address, Function.comp_def]
  · rfl

theorem Addressed.confined {reuse : Bool} {rest : List Expr} {t : Target Expr} {n n' : Nat}
    {a : LoweredAddress} {stmts : List Stmt} (ht : t.AvoidsTemps cx)
    (h : Addressed cx reuse rest t n a stmts n') :
    Confined cx n n' stmts (a.address.object.toList ++ a.address.args) := by
  obtain ⟨indices, harr⟩ := ht.arranges
  exact Confined.composes.addressed harr ht.operands ht.omitted h

/-- The operands of a target and then a value. -/
theorem Addressed.confined_value {reuse : Bool} {t : Target Expr} {n n' n'' : Nat}
    {a : LoweredAddress} {stmts stmts' : List Stmt} {value : Expr} {c : Capture} {v : Value}
    (ht : t.AvoidsTemps cx) (hvalue : LowersConfined cx value)
    (h : Addressed cx reuse [value] t n a stmts n')
    (htaken : Taken cx c [] value n' v stmts' n'') :
    Confined cx n n'' (stmts ++ stmts') (a.address.object.toList ++ a.address.args ++ [v.expr]) :=
  (h.confined ht).append (htaken.confined hvalue)

theorem Script.mentionsAll_append (x : String) (es es' : List Script.Expr) :
    mentionsAll x (es ++ es') = mentionsAll x es + mentionsAll x es' := by
  simp [mentionsAll]

@[simp] theorem Script.mentionsAll_singleton (x : String) (e : Script.Expr) :
    mentionsAll x [e] = e.mentions x := by
  simp [mentionsAll]

/-! ## Forms -/

section

variable {usage : Usage} {a : Assignment Expr} {n n' : Nat} {w : Lowered}

/-- A store as a statement, with its result behind it, or as the expression itself. -/
theorem Confined.finish {store : Script.Expr} {result : Value} {stmts : List Stmt}
    (h : Confined cx n n' stmts [store, result.expr]) :
    Confined cx n n' (usage.finish store result stmts).stmts
      [(usage.finish store result stmts).expr] := by
  cases usage with
  | used => exact h.push
  | discarded =>
    refine h.of_le fun k _ => ?_
    simp [Script.mentionsAll, Usage.finish]

/-- The old value of a target is read by a call and combined with the value. The operands are
kept, since the store mentions them again. -/
theorem Addressed.confined_combined {t : Target Expr} {op : BinaryOp} {value : Expr}
    {addr : LoweredAddress} {v : Value} {load old : Script.Expr} {captured : Bool}
    {accessor : Option Accessor} {stmts stmts₁ stmts₂ : List Stmt} {n₁ n₂ n₃ : Nat}
    (ht : t.AvoidsTemps cx) (hvalue : LowersConfined cx value)
    (haddr : Addressed cx true [value] t n addr stmts n₁)
    (hload : t.load cx.names (addr.passed cx accessor 2) = .ok load)
    (hold : Held cx load n₁ captured old stmts₁ n₂)
    (htaken : Taken cx {} [] value n₂ v stmts₂ n₃) :
    Confined cx n n₃ (stmts ++ stmts₁ ++ stmts₂)
      (.binary op old v.expr :: (addr.address.object.toList ++ addr.address.args)) := by
  have haddress := haddr.confined ht
  have hloaded : Confined cx n n₁ stmts
      (load :: (addr.address.object.toList ++ addr.address.args)) := by
    refine haddress.of_le fun k hk => ?_
    have hle := Target.mentions_load (ht.localVar k) (ht.cell k) hload
    have hnone := haddress.exprs k hk
    rw [← Address.mentions_eq] at hnone
    rw [LoweredAddress.mentions_passed] at hle
    rw [← List.singleton_append, Script.mentionsAll_append, Script.mentionsAll_singleton,
      ← Address.mentions_eq]
    omega
  refine ((hold.confined hloaded).append (htaken.confined hvalue)).of_le fun k _ => ?_
  rw [← List.singleton_append, ← List.singleton_append (x := old)]
  simp only [Script.mentionsAll_append, Script.mentionsAll_singleton, Script.Expr.mentions]
  omega

/-- What an assignment is lowered to keeps to its temporaries. -/
theorem LowersAssign.confined (hvalue : LowersConfined cx a.value)
    (htargets : ∀ t, a.target.target cx.metadata cx.enclosing = .ok t → t.AvoidsTemps cx)
    (h : LowersAssign cx usage a n w n') : Confined cx n n' w.stmts [w.expr] := by
  cases h with
  | @native t addr v place stmts stmts' _ _ htarget hop hnative hshared haddr htaken hplace =>
    have ht := htargets t htarget
    refine (haddr.confined_value ht hvalue htaken).of_le fun k _ => ?_
    have hle := Target.mentions_native (ht.localVar k) (ht.cell k) hplace
    rw [Script.mentionsAll_append, ← Address.mentions_eq]
    simp only [Script.mentionsAll_singleton, Script.Expr.mentions, Context.mentions_copied]
    omega
  | @compoundNative t op addr v place stmts stmts' _ _ htarget hop hnative haddr htaken hplace =>
    have ht := htargets t htarget
    refine (haddr.confined_value ht hvalue htaken).of_le fun k _ => ?_
    have hle := Target.mentions_native (ht.localVar k) (ht.cell k) hplace
    rw [Script.mentionsAll_append, ← Address.mentions_eq]
    simp only [Script.mentionsAll_singleton, Script.Expr.mentions]
    omega
  | @readBack t addr v place stmts stmts' _ _ htarget hop hnative hshared haddr htaken hplace =>
    have ht := htargets t htarget
    have hall := haddr.confined_value ht hvalue htaken
    refine Confined.push (hall.of_le fun k hk => ?_)
    have hzero := hall.exprs k hk
    have hle := Target.mentions_native (ht.localVar k) (ht.cell k) hplace
    rw [Script.mentionsAll_append, ← Address.mentions_eq, Script.mentionsAll_singleton] at hzero
    simp only [Script.mentionsAll, List.map_cons, List.map_nil, List.sum_cons, List.sum_nil,
      Script.Expr.mentions, Context.mentions_copied]
    omega
  | @byCall t addr v store stmts stmts' _ _ htarget hop hnative haddr htaken hstore =>
    have ht := htargets t htarget
    have hall := haddr.confined_value ht hvalue htaken
    refine Confined.finish (hall.of_le fun k hk => ?_)
    have hzero := hall.exprs k hk
    have hle := Target.mentions_store (ht.localVar k) (ht.cell k) hstore
    rw [Script.mentionsAll_append, ← Address.mentions_eq, Script.mentionsAll_singleton] at hzero
    rw [LoweredAddress.mentions_passed, Context.mentions_copied] at hle
    have hresult : (if t.isReceiver then (⟨.this, false, true⟩ : Value) else
        ⟨v.expr, false, v.stable⟩).expr.mentions (cx.temp k) = 0 := by
      split
      · rfl
      · exact Nat.eq_zero_of_add_eq_zero_left hzero
    simp only [Script.mentionsAll, List.map_cons, List.map_nil, List.sum_cons, List.sum_nil]
    omega
  | @compoundByCall t op addr v load old new store _ _ _ _ _ _ _ _ htarget _ _ _ haddr hload hold
      htaken hnew hstore =>
    have ht := htargets t htarget
    have hall := hnew.confined (haddr.confined_combined ht hvalue hload hold htaken)
    refine Confined.finish (hall.of_le fun k hk => ?_)
    have hzero := hall.exprs k hk
    have hle := Target.mentions_store (ht.localVar k) (ht.cell k) hstore
    rw [← List.singleton_append, Script.mentionsAll_append, Script.mentionsAll_singleton,
      ← Address.mentions_eq] at hzero
    rw [LoweredAddress.mentions_passed, Context.mentions_copied] at hle
    simp only [Script.mentionsAll, List.map_cons, List.map_nil, List.sum_cons, List.sum_nil]
    omega

/-- The arguments of a call mention what they are copies of. -/
theorem Context.mentions_handed (x : String) (tys : List TypeRef) : ∀ vs : List Value,
    Script.mentionsAll x (cx.handed tys vs) ≤ Script.mentionsAll x (vs.map (·.expr)) := by
  induction tys with
  | nil => intro vs; simp [Context.handed, Script.mentionsAll]
  | cons ty tys ih =>
    intro vs
    cases vs with
    | nil => simp [Context.handed, Script.mentionsAll]
    | cons v vs =>
      have hhead : cx.handed (ty :: tys) (v :: vs) =
          [cx.copied ty v.fresh 1 v.expr] ++ cx.handed tys vs := rfl
      have hrest := ih vs
      rw [hhead, List.map_cons, ← List.singleton_append (l := vs.map _),
        Script.mentionsAll_append, Script.mentionsAll_append]
      simp only [Script.mentionsAll_singleton, Context.mentions_copied]
      omega

theorem mentions_callScript {ε : Type} (names : RuntimeNames) (x : String) (r : Receiver ε)
    (name : String) (objects : List Value) (args : List Script.Expr) :
    (callScript names r name (r.script objects) args).mentions x ≤
      Script.mentionsAll x (objects.map (·.expr)) + Script.mentionsAll x args := by
  cases r with
  | object e =>
    cases objects with
    | nil => simp [callScript, Receiver.script, Script.Expr.mentions, Script.mentionsAll]
    | cons v objects =>
      simp only [callScript, Receiver.script, Script.Expr.mentions_callMethod,
        Script.mentionsAll, List.map_cons, List.sum_cons]
      omega
  | static owner =>
    simp [callScript, Receiver.script, Script.Expr.mentions, Script.mentionsAll]
  | base declaring => simp [callScript, Script.mentionsAll]

/-- The target of a place avoids temporaries if the place does. -/
theorem Target.AvoidsTemps.of_ofPlace {p : Place Expr} {span : Span} {t : Target Expr}
    (ht : Target.ofPlace cx.metadata cx.enclosing Expr.ty span p = .ok t)
    (havoids : (⟨.place p, span⟩ : Expr).avoidsTemps cx)
    (hparts : ∀ e ∈ p.operands ++ p.defaults, LowersConfined cx e) : t.AvoidsTemps cx where
  arranges := ⟨_, (Target.ofPlace_arranges ht).2⟩
  localVar k hk := by
    obtain ⟨l, rfl, hl⟩ := (Classified.of_ofPlace ht).exists_localVar (.inl hk)
    exact havoids l rfl k hl
  cell k hk := by
    obtain ⟨l, rfl, hl⟩ := (Classified.of_ofPlace ht).exists_localVar (.inr hk)
    exact havoids l rfl k hl
  operands e he := hparts e (List.mem_append_left _ (Target.operands_ofPlace ht ▸ he))
  omitted e he := hparts e (List.mem_append_right _ (Target.mem_defaults_of_mem_omitted ht he))

theorem Target.AvoidsTemps.of_assign {a : Assignment Expr} {span : Span} {t : Target Expr}
    (havoids : Expr.Everywhere (·.avoidsTemps cx) ⟨.assign a, span⟩)
    (hparts : ∀ e ∈ (⟨.assign a, span⟩ : Expr).parts, LowersConfined cx e)
    (ht : a.target.target cx.metadata cx.enclosing = .ok t) : t.AvoidsTemps cx := by
  obtain ⟨p, hp, hplace⟩ := Expr.target_arranges ht
  exact .of_ofPlace hplace (fun l hl => havoids.target.here l (hp.trans hl))
    fun e he => hparts e (Expr.place_mem_parts (Expr.place?_of_place hp) span he)

/-- What an expression is lowered to keeps to its temporaries, if what its parts are lowered
to does. -/
theorem Lowers.confined {e : Expr} (havoids : e.Everywhere (·.avoidsTemps cx))
    (hparts : ∀ c ∈ e.parts, LowersConfined cx c) (h : Lowers cx e n w n') :
    Confined cx n n' w.stmts [w.expr] := by
  cases h with
  | @literal value =>
    refine Confined.nil.of_le fun k _ => ?_
    cases value <;> simp [Literal.script, Script.Expr.mentions]
  | @defaultValue ty =>
    refine Confined.nil.of_le fun k _ => ?_
    unfold Context.defaultValue
    cases cx.metadata.semantics ty <;> simp [Script.Expr.mentions]
  | this => exact Confined.nil.of_le fun k _ => by simp [Script.Expr.mentions]
  | @load p span _ _ t addr load stmts hthis htarget haddr hload =>
    have ht := Target.AvoidsTemps.of_ofPlace htarget havoids.here (by simpa using hparts)
    refine (haddr.confined ht).of_le fun k _ => ?_
    have hle := Target.mentions_load (ht.localVar k) (ht.cell k) hload
    rwa [LoweredAddress.mentions_passed, Address.mentions_eq,
      ← Script.mentionsAll_singleton] at hle
  | @call r m args span _ _ name objects vs stmts hmethod htaken hobjects =>
    refine (htaken.confined (by rwa [map_snd_map_capture])).of_le fun k _ => ?_
    have hcall := mentions_callScript cx.names (cx.temp k) r name objects
      (cx.handed (argTypes m.params args) vs)
    have hhanded := cx.mentions_handed (cx.temp k) (argTypes m.params args) vs
    rw [List.map_append, Script.mentionsAll_append, Script.mentionsAll_singleton]
    dsimp only
    omega
  | callInline _ htaken =>
    refine (htaken.confined (by rwa [map_snd_map_capture])).of_le fun k _ => ?_
    simp [Script.Expr.mentions]
  | binary htaken =>
    refine (htaken.confined (by simpa using hparts)).of_le fun k _ => ?_
    simp [Script.mentionsAll, Script.Expr.mentions]
  | @assign a span _ _ _ h =>
    exact h.confined (hparts _ (Expr.value_mem_parts a span))
      fun t ht => .of_assign havoids hparts ht

end

/-- Lowering keeps to the temporaries that it hands out. -/
theorem LowersConfined.of_everywhere (e : Expr) (havoids : e.Everywhere (·.avoidsTemps cx)) :
    LowersConfined cx e := by
  induction e using Expr.inductParts with
  | step e ih =>
    intro n n' w h
    exact (Lowers.of_lower h).confined havoids fun c hc => ih c hc (havoids.part c hc)

end AssignmentLowering
