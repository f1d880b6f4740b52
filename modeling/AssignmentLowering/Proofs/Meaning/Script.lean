import AssignmentLowering.Proofs.Effects.Event
import AssignmentLowering.Proofs.Lowering.Temporaries

/-!
# What script means

Script is evaluated from left to right, over an interpretation of everything that it
does not decide itself: what members, elements and operators yield, and what calls and
stores do to the heap. Calls cannot reach the variables of the body. Expressions that
make no sense, such as an assignment to a call, have no value, and neither have copies
and text from templates: what is said here is about values that are shared.

## Main definitions

* `Interpretation` — a meaning for what is left open.
* `State`, `Reference` — variables and heap, and what can be assigned.
* `Script.Expr.eval`, `Script.run` — evaluating script.

## Main statements

* `Script.Expr.eval_set` — variables that are not mentioned do not matter.
* `Script.Expr.eval_quiet` — without events the state stays as it is.
-/

namespace AssignmentLowering

/-- A meaning for what is left open. Reading depends on the heap, calls and stores change
it, and everything else is a matter of values alone. -/
structure Interpretation where
  Value : Type
  Heap : Type
  null : Value
  bool : Bool → Value
  number : Binary64 → Value
  string : String → Value
  this : Value
  typeHandle : String → Value
  array : List Value → Value
  truthy : Value → Bool
  binary : BinaryOp → Value → Value → Value
  /-- The default value of the type with the given handle. -/
  defaultValue : Value → Value
  member : Value → String → Heap → Value
  index : Value → Value → Heap → Value
  multiGet : List Value → Heap → Value
  setMember : Value → String → Value → Heap → Heap
  setIndex : Value → Value → Value → Heap → Heap
  /-- A call of a member of an object. -/
  call : Value → String → List Value → Heap → Value × Heap
  /-- A call of a helper of the runtime. -/
  helper : String → List Value → Heap → Value × Heap

variable {I : Interpretation}

namespace Interpretation

/-- Whether the right operand is skipped. -/
def skips (I : Interpretation) : BinaryOp → I.Value → Bool
  | .logicalAnd, left => !I.truthy left
  | .logicalOr, left => I.truthy left
  | _, _ => false

end Interpretation

/-- Variables and heap. -/
structure State (I : Interpretation) where
  vars : String → I.Value
  heap : I.Heap

namespace State

/-- Assign a variable. -/
def set (s : State I) (x : String) (v : I.Value) : State I :=
  { s with vars := Function.update s.vars x v }

@[simp] theorem heap_set (s : State I) (x : String) (v : I.Value) : (s.set x v).heap = s.heap :=
  rfl

@[simp] theorem vars_set_self (s : State I) (x : String) (v : I.Value) :
    (s.set x v).vars x = v := by
  simp [set]

theorem vars_set_of_ne (s : State I) {x y : String} (v : I.Value) (h : y ≠ x) :
    (s.set x v).vars y = s.vars y := by
  simp [set, h]

theorem set_comm (s : State I) {x y : String} (v w : I.Value) (h : x ≠ y) :
    (s.set x v).set y w = (s.set y w).set x v := by
  simp [set, Function.update_comm h]

end State

/-- Two states with the same heap and the same values of the variables that satisfy `p`. -/
structure State.Agree (p : String → Prop) (s t : State I) : Prop where
  heap : s.heap = t.heap
  vars : ∀ y, p y → s.vars y = t.vars y

namespace State.Agree

variable {p : String → Prop} {s t u : State I}

theorem refl (s : State I) : s.Agree p s := ⟨rfl, fun _ _ => rfl⟩

theorem trans (h : s.Agree p t) (h' : t.Agree p u) : s.Agree p u :=
  ⟨h.heap.trans h'.heap, fun y hy => (h.vars y hy).trans (h'.vars y hy)⟩

/-- A variable that does not satisfy `p` may be assigned. -/
theorem set_left (h : s.Agree p t) {x : String} (hx : ¬p x) (v : I.Value) :
    (s.set x v).Agree p t :=
  ⟨h.heap, fun y hy => by
    have hne : y ≠ x := fun hyx => hx (hyx ▸ hy)
    rw [State.vars_set_of_ne _ _ hne, h.vars y hy]⟩

end State.Agree

/-- What can be assigned. -/
inductive Reference (I : Interpretation) where
  | ident (name : String)
  | member (object : I.Value) (name : String)
  | index (object i : I.Value)

namespace Reference

def get (s : State I) : Reference I → I.Value
  | .ident name => s.vars name
  | .member object name => I.member object name s.heap
  | .index object i => I.index object i s.heap

def set (s : State I) (v : I.Value) : Reference I → State I
  | .ident name => s.set name v
  | .member object name => { s with heap := I.setMember object name v s.heap }
  | .index object i => { s with heap := I.setIndex object i v s.heap }

theorem get_set_of_ne (s : State I) {y : String} (v : I.Value) {place : Reference I}
    (h : place ≠ .ident y) : place.get (s.set y v) = place.get s := by
  cases place with
  | ident name =>
    have hne : name ≠ y := fun hname => h (hname ▸ rfl)
    exact s.vars_set_of_ne v hne
  | _ => rfl

theorem set_set_of_ne (s : State I) {y : String} (v w : I.Value) {place : Reference I}
    (h : place ≠ .ident y) : place.set (s.set y v) w = (place.set s w).set y v := by
  cases place with
  | ident name =>
    have hne : y ≠ name := fun hname => h (hname ▸ rfl)
    exact s.set_comm v w hne
  | _ => rfl

theorem get_congr {p : String → Prop} {s t : State I} (h : s.Agree p t) {place : Reference I}
    (hplace : ∀ name, place = .ident name → p name) : place.get s = place.get t := by
  cases place with
  | ident name => exact h.vars name (hplace name rfl)
  | member | index => simp only [get, h.heap]

theorem set_congr {p : String → Prop} {s t : State I} (h : s.Agree p t) (v : I.Value)
    (place : Reference I) : (place.set s v).Agree p (place.set t v) := by
  cases place with
  | ident name =>
    refine ⟨h.heap, fun y hy => ?_⟩
    by_cases hyx : y = name
    · subst hyx
      simp [set]
    · simp [set, State.vars_set_of_ne _ _ hyx, h.vars y hy]
  | member object name => exact ⟨by simp only [set, h.heap], h.vars⟩
  | index object i => exact ⟨by simp only [set, h.heap], h.vars⟩

theorem vars_set (s : State I) (v : I.Value) {place : Reference I} {y : String}
    (hplace : place ≠ .ident y) : (place.set s v).vars y = s.vars y := by
  cases place with
  | ident name =>
    have hne : y ≠ name := fun hyx => hplace (hyx ▸ rfl)
    exact s.vars_set_of_ne v hne
  | _ => rfl

end Reference

namespace Script

/-- The value of a call of a helper, and the heap behind it. -/
def callHelper (I : Interpretation) (names : RuntimeNames) (helper : String)
    (args : List I.Value) (heap : I.Heap) : Option (I.Value × I.Heap) :=
  if helper = names.defaultValue then args.head?.map fun ty => (I.defaultValue ty, heap)
  else if helper = names.multiGet then some (I.multiGet args heap, heap)
  else if helper = names.clone then none
  else some (I.helper helper args heap)

variable (I : Interpretation) (names : RuntimeNames)

mutual

/-- Evaluate an expression. -/
def Expr.eval : Expr → State I → Option (I.Value × State I)
  | .null, s => some (I.null, s)
  | .bool b, s => some (I.bool b, s)
  | .number x, s => some (I.number x, s)
  | .string text, s => some (I.string text, s)
  | .ident x, s => some (s.vars x, s)
  | .this, s => some (I.this, s)
  | .typeHandle name, s => some (I.typeHandle name, s)
  | .member object name, s => do
    let (o, s) ← object.eval s
    some (I.member o name s.heap, s)
  | .index object i, s => do
    let (o, s) ← object.eval s
    let (v, s) ← i.eval s
    some (I.index o v s.heap, s)
  | .call callee args, s =>
    match callee with
    | .member object name => do
      let (o, s) ← object.eval s
      let (vs, s) ← Expr.evalAll args s
      let (v, heap) := I.call o name vs s.heap
      some (v, { s with heap })
    | .ident helper => do
      let (vs, s) ← Expr.evalAll args s
      let (v, heap) ← callHelper I names helper vs s.heap
      some (v, { s with heap })
    | _ => none
  | .array items, s => do
    let (vs, s) ← Expr.evalAll items s
    some (I.array vs, s)
  | .assign target value, s => do
    let (place, s) ← target.evalReference s
    let (v, s) ← value.eval s
    some (v, place.set s v)
  | .compoundAssign op target value, s => do
    let (place, s) ← target.evalReference s
    let old := place.get s
    let (v, s) ← value.eval s
    some (I.binary op old v, place.set s (I.binary op old v))
  | .binary op left right, s => do
    let (l, s) ← left.eval s
    if I.skips op l then some (l, s)
    else do
      let (r, s) ← right.eval s
      some (I.binary op l r, s)
  | .verbatim _, _ => none

/-- Find what an expression on the left of an assignment stands for. -/
def Expr.evalReference : Expr → State I → Option (Reference I × State I)
  | .ident x, s => some (.ident x, s)
  | .member object name, s => do
    let (o, s) ← object.eval s
    some (.member o name, s)
  | .index object i, s => do
    let (o, s) ← object.eval s
    let (v, s) ← i.eval s
    some (.index o v, s)
  | _, _ => none

/-- Evaluate expressions one after the other. -/
def Expr.evalAll : List Expr → State I → Option (List I.Value × State I)
  | [], s => some ([], s)
  | e :: rest, s => do
    let (v, s) ← e.eval s
    let (vs, s) ← Expr.evalAll rest s
    some (v :: vs, s)

end

/-- Run statements one after the other. -/
def run : List Stmt → State I → Option (State I)
  | [], s => some s
  | .expr e :: rest, s => do
    let (_, s) ← e.eval I names s
    run rest s
  | .declare x e :: rest, s => do
    let (v, s) ← e.eval I names s
    run rest (s.set x v)

variable {I names}

theorem run_append {stmts stmts' : List Stmt} {s s' : State I}
    (h : run I names stmts s = some s') :
    run I names (stmts ++ stmts') s = run I names stmts' s' := by
  induction stmts generalizing s with
  | nil => cases h; rfl
  | cons stmt stmts ih =>
    cases stmt with
    | expr e =>
      simp only [run, Option.bind_eq_bind, Option.bind_eq_some_iff] at h
      obtain ⟨⟨v, s₁⟩, he, h⟩ := h
      simp only [List.cons_append, run, he, Option.bind_eq_bind, Option.bind_some]
      exact ih h
    | declare x e =>
      simp only [run, Option.bind_eq_bind, Option.bind_eq_some_iff] at h
      obtain ⟨⟨v, s₁⟩, he, h⟩ := h
      simp only [List.cons_append, run, he, Option.bind_eq_bind, Option.bind_some]
      exact ih h

theorem run_expr {e : Expr} {v : I.Value} {s s' : State I}
    (h : e.eval I names s = some (v, s')) : run I names [.expr e] s = some s' := by
  simp [run, h]

theorem run_declare {x : String} {e : Expr} {v : I.Value} {s s' : State I}
    (h : e.eval I names s = some (v, s')) :
    run I names [.declare x e] s = some (s'.set x v) := by
  simp [run, h]

theorem Expr.evalAll_cons {e : Expr} {es : List Expr} {v : I.Value} {vs : List I.Value}
    {s s' s'' : State I} (h : e.eval I names s = some (v, s'))
    (h' : Expr.evalAll I names es s' = some (vs, s'')) :
    Expr.evalAll I names (e :: es) s = some (v :: vs, s'') := by
  simp [Expr.evalAll, h, h']

theorem Expr.evalAll_append {es es' : List Expr} {vs vs' : List I.Value} {s s' s'' : State I}
    (h : Expr.evalAll I names es s = some (vs, s'))
    (h' : Expr.evalAll I names es' s' = some (vs', s'')) :
    Expr.evalAll I names (es ++ es') s = some (vs ++ vs', s'') := by
  induction es generalizing s vs with
  | nil => cases h; exact h'
  | cons e es ih =>
    simp only [Expr.evalAll, Option.bind_eq_bind, Option.bind_eq_some_iff, Option.some.injEq,
      Prod.mk.injEq] at h
    obtain ⟨⟨v, s₁⟩, he, ⟨ws, s₂⟩, hes, rfl, rfl⟩ := h
    exact Expr.evalAll_cons he (ih hes)

theorem Expr.length_of_evalAll {es : List Expr} {vs : List I.Value} {s s' : State I}
    (h : Expr.evalAll I names es s = some (vs, s')) : vs.length = es.length := by
  induction es generalizing s vs with
  | nil => cases h; rfl
  | cons e es ih =>
    simp only [Expr.evalAll, Option.bind_eq_bind, Option.bind_eq_some_iff, Option.some.injEq,
      Prod.mk.injEq] at h
    obtain ⟨⟨v, s₁⟩, he, ⟨ws, s₂⟩, hes, rfl, rfl⟩ := h
    simp [ih hes]

/-! ## Variables that are not mentioned -/

section

variable (y : String) (w : I.Value)

mutual

/-- A variable that an expression does not mention does not matter to it. -/
theorem Expr.eval_set : ∀ (e : Expr) {s s' : State I} {v : I.Value}, e.mentions y = 0 →
    e.eval I names s = some (v, s') → e.eval I names (s.set y w) = some (v, s'.set y w)
  | .null, _, _, _, _, h | .bool _, _, _, _, _, h | .number _, _, _, _, _, h
  | .string _, _, _, _, _, h | .this, _, _, _, _, h | .typeHandle _, _, _, _, _, h => by
    cases h
    rfl
  | .ident x, s, s', v, hm, h => by
    cases h
    have hne : x ≠ y := fun hx => by simp [Expr.mentions, hx] at hm
    simp [Expr.eval, State.vars_set_of_ne _ _ hne]
  | .member object name, s, s', v, hm, h => by
    simp only [Expr.eval, Option.bind_eq_bind, Option.bind_eq_some_iff, Option.some.injEq,
      Prod.mk.injEq] at h
    obtain ⟨⟨o, s₁⟩, ho, rfl, rfl⟩ := h
    simp [Expr.eval, Expr.eval_set object hm ho]
  | .index object i, s, s', v, hm, h => by
    simp only [Expr.eval, Option.bind_eq_bind, Option.bind_eq_some_iff, Option.some.injEq,
      Prod.mk.injEq] at h
    simp only [Expr.mentions, Nat.add_eq_zero_iff] at hm
    obtain ⟨⟨o, s₁⟩, ho, ⟨x, s₂⟩, hi, rfl, rfl⟩ := h
    simp [Expr.eval, Expr.eval_set object hm.1 ho, Expr.eval_set i hm.2 hi]
  | .array items, s, s', v, hm, h => by
    simp only [Expr.eval, Option.bind_eq_bind, Option.bind_eq_some_iff, Option.some.injEq,
      Prod.mk.injEq] at h
    obtain ⟨⟨vs, s₁⟩, hvs, rfl, rfl⟩ := h
    simp [Expr.eval, Expr.evalAll_set items hm hvs]
  | .assign target value, s, s', v, hm, h => by
    simp only [Expr.eval, Option.bind_eq_bind, Option.bind_eq_some_iff, Option.some.injEq,
      Prod.mk.injEq] at h
    simp only [Expr.mentions, Nat.add_eq_zero_iff] at hm
    obtain ⟨⟨place, s₁⟩, hplace, ⟨x, s₂⟩, hx, rfl, rfl⟩ := h
    obtain ⟨htarget, hne⟩ := Expr.evalReference_set target hm.1 hplace
    simp [Expr.eval, htarget, Expr.eval_set value hm.2 hx, place.set_set_of_ne _ _ _ hne]
  | .compoundAssign op target value, s, s', v, hm, h => by
    simp only [Expr.eval, Option.bind_eq_bind, Option.bind_eq_some_iff, Option.some.injEq,
      Prod.mk.injEq] at h
    simp only [Expr.mentions, Nat.add_eq_zero_iff] at hm
    obtain ⟨⟨place, s₁⟩, hplace, ⟨x, s₂⟩, hx, rfl, rfl⟩ := h
    obtain ⟨htarget, hne⟩ := Expr.evalReference_set target hm.1 hplace
    simp [Expr.eval, htarget, Expr.eval_set value hm.2 hx, Reference.set_set_of_ne _ _ _ hne,
      Reference.get_set_of_ne _ _ hne]
  | .binary op left right, s, s', v, hm, h => by
    simp only [Expr.eval, Option.bind_eq_bind, Option.bind_eq_some_iff] at h
    simp only [Expr.mentions, Nat.add_eq_zero_iff] at hm
    obtain ⟨⟨l, s₁⟩, hl, h⟩ := h
    have hleft := Expr.eval_set left hm.1 hl
    by_cases hskip : I.skips op l = true
    · simp only [hskip, if_true, Option.some.injEq, Prod.mk.injEq] at h
      obtain ⟨rfl, rfl⟩ := h
      simp [Expr.eval, hleft, hskip]
    · simp only [hskip, if_false, Option.bind_eq_some_iff, Option.some.injEq,
        Prod.mk.injEq, Bool.false_eq_true] at h
      obtain ⟨⟨r, s₂⟩, hr, rfl, rfl⟩ := h
      simp [Expr.eval, hleft, hskip, Expr.eval_set right hm.2 hr]
  | .verbatim _, _, _, _, _, h => by cases h
  | .call callee args, s, s', v, hm, h => by
    have hle : (Expr.allMentions y args) = 0 := by
      cases callee <;> simp_all [Expr.mentions]
    cases callee with
    | member object name =>
      have hobject : object.mentions y = 0 := by
        simp only [Expr.mentions, Nat.add_eq_zero_iff] at hm
        exact hm.1
      simp only [Expr.eval, Option.bind_eq_bind, Option.bind_eq_some_iff, Option.some.injEq,
        Prod.mk.injEq] at h
      obtain ⟨⟨o, s₁⟩, ho, ⟨vs, s₂⟩, hvs, rfl, rfl⟩ := h
      simp only [Expr.eval, Expr.eval_set object hobject ho, Expr.evalAll_set args hle hvs,
        Option.bind_eq_bind, Option.bind_some]
      rfl
    | ident helper =>
      simp only [Expr.eval, Option.bind_eq_bind, Option.bind_eq_some_iff, Option.some.injEq,
        Prod.mk.injEq] at h
      obtain ⟨⟨vs, s₁⟩, hvs, ⟨x, heap⟩, hx, rfl, rfl⟩ := h
      simp only [Expr.eval, Expr.evalAll_set args hle hvs, State.heap_set, hx,
        Option.bind_eq_bind, Option.bind_some]
      rfl
    | _ => cases h

theorem Expr.evalReference_set : ∀ (e : Expr) {s s' : State I} {place : Reference I},
    e.mentions y = 0 → e.evalReference I names s = some (place, s') →
      e.evalReference I names (s.set y w) = some (place, s'.set y w) ∧ place ≠ .ident y
  | .ident x, s, s', place, hm, h => by
    cases h
    refine ⟨rfl, fun hx => ?_⟩
    cases hx
    simp [Expr.mentions] at hm
  | .member object name, s, s', place, hm, h => by
    simp only [Expr.evalReference, Option.bind_eq_bind, Option.bind_eq_some_iff,
      Option.some.injEq, Prod.mk.injEq] at h
    obtain ⟨⟨o, s₁⟩, ho, rfl, rfl⟩ := h
    simp [Expr.evalReference, Expr.eval_set object hm ho]
  | .index object i, s, s', place, hm, h => by
    simp only [Expr.evalReference, Option.bind_eq_bind, Option.bind_eq_some_iff,
      Option.some.injEq, Prod.mk.injEq] at h
    simp only [Expr.mentions, Nat.add_eq_zero_iff] at hm
    obtain ⟨⟨o, s₁⟩, ho, ⟨x, s₂⟩, hi, rfl, rfl⟩ := h
    simp [Expr.evalReference, Expr.eval_set object hm.1 ho, Expr.eval_set i hm.2 hi]
  | .null, _, _, _, _, h | .bool _, _, _, _, _, h | .number _, _, _, _, _, h
  | .string _, _, _, _, _, h | .this, _, _, _, _, h | .typeHandle _, _, _, _, _, h
  | .call .., _, _, _, _, h | .array _, _, _, _, _, h | .assign .., _, _, _, _, h
  | .compoundAssign .., _, _, _, _, h | .binary .., _, _, _, _, h
  | .verbatim _, _, _, _, _, h => by cases h

theorem Expr.evalAll_set : ∀ (es : List Expr) {s s' : State I} {vs : List I.Value},
    Expr.allMentions y es = 0 → Expr.evalAll I names es s = some (vs, s') →
      Expr.evalAll I names es (s.set y w) = some (vs, s'.set y w)
  | [], _, _, _, _, h => by
    cases h
    rfl
  | e :: es, s, s', vs, hm, h => by
    simp only [Expr.evalAll, Option.bind_eq_bind, Option.bind_eq_some_iff, Option.some.injEq,
      Prod.mk.injEq] at h
    simp only [Expr.allMentions, Nat.add_eq_zero_iff] at hm
    obtain ⟨⟨v, s₁⟩, he, ⟨ws, s₂⟩, hes, rfl, rfl⟩ := h
    exact Expr.evalAll_cons (Expr.eval_set e hm.1 he) (Expr.evalAll_set es hm.2 hes)

end

end

/-! ## Expressions without events -/

theorem callHelper_quiet {helper : String} {args : List Expr} {vs : List I.Value} {v : I.Value}
    {heap heap' : I.Heap} (hevents : helperEvents names helper args = [])
    (h : callHelper I names helper vs heap = some (v, heap')) : heap' = heap := by
  unfold helperEvents at hevents
  unfold callHelper at h
  split at h
  · simp only [Option.map_eq_some_iff, Prod.mk.injEq] at h
    obtain ⟨_, _, _, rfl⟩ := h
    rfl
  · split at h
    · cases h
      rfl
    · split at h
      · cases h
      · exfalso
        split at hevents
        · simp_all [RuntimeNames.silent]
        · split at hevents
          · cases hevents
          · split at hevents
            · cases hevents
            · split at hevents
              · split at hevents <;> cases hevents
              · cases hevents

mutual

/-- Evaluating an expression without events leaves the state as it is. -/
theorem Expr.eval_quiet : ∀ (e : Expr) {s s' : State I} {v : I.Value}, e.events names = [] →
    e.eval I names s = some (v, s') → s' = s
  | .null, _, _, _, _, h | .bool _, _, _, _, _, h | .number _, _, _, _, _, h
  | .string _, _, _, _, _, h | .this, _, _, _, _, h | .typeHandle _, _, _, _, _, h
  | .ident _, _, _, _, _, h => by
    cases h
    rfl
  | .member object name, s, s', v, he, h => by
    simp only [Expr.eval, Option.bind_eq_bind, Option.bind_eq_some_iff, Option.some.injEq,
      Prod.mk.injEq] at h
    obtain ⟨⟨o, s₁⟩, ho, rfl, rfl⟩ := h
    exact Expr.eval_quiet object he ho
  | .index object i, s, s', v, he, h => by
    simp only [Expr.eval, Option.bind_eq_bind, Option.bind_eq_some_iff, Option.some.injEq,
      Prod.mk.injEq] at h
    simp only [Expr.events, List.append_eq_nil_iff] at he
    obtain ⟨⟨o, s₁⟩, ho, ⟨x, s₂⟩, hi, rfl, rfl⟩ := h
    exact (Expr.eval_quiet i he.2 hi).trans (Expr.eval_quiet object he.1 ho)
  | .array items, s, s', v, he, h => by
    simp only [Expr.eval, Option.bind_eq_bind, Option.bind_eq_some_iff, Option.some.injEq,
      Prod.mk.injEq] at h
    obtain ⟨⟨vs, s₁⟩, hvs, rfl, rfl⟩ := h
    exact Expr.evalAll_quiet items he hvs
  | .assign target value, _, _, _, he, _ | .compoundAssign op target value, _, _, _, he, _ => by
    simp [Expr.events] at he
  | .binary op left right, s, s', v, he, h => by
    simp only [Expr.eval, Option.bind_eq_bind, Option.bind_eq_some_iff] at h
    simp only [Expr.events, List.append_eq_nil_iff] at he
    obtain ⟨⟨l, s₁⟩, hl, h⟩ := h
    have hleft := Expr.eval_quiet left he.1 hl
    split at h
    · simp only [Option.some.injEq, Prod.mk.injEq] at h
      exact h.2 ▸ hleft
    · simp only [Option.bind_eq_some_iff, Option.some.injEq, Prod.mk.injEq] at h
      obtain ⟨⟨r, s₂⟩, hr, rfl, rfl⟩ := h
      exact (Expr.eval_quiet right he.2 hr).trans hleft
  | .verbatim _, _, _, _, _, h => by cases h
  | .call callee args, s, s', v, he, h => by
    simp only [Expr.events, List.append_eq_nil_iff] at he
    cases callee with
    | ident helper =>
      simp only [Expr.eval, Option.bind_eq_bind, Option.bind_eq_some_iff, Option.some.injEq,
        Prod.mk.injEq] at h
      obtain ⟨⟨vs, s₁⟩, hvs, ⟨x, heap⟩, hx, rfl, rfl⟩ := h
      have hargs := Expr.evalAll_quiet args he.1.2 hvs
      have hheap := callHelper_quiet he.2 hx
      subst hargs hheap
      rfl
    | _ => exact absurd he.2 (by simp [callEvents])

theorem Expr.evalAll_quiet : ∀ (es : List Expr) {s s' : State I} {vs : List I.Value},
    Expr.allEvents names es = [] → Expr.evalAll I names es s = some (vs, s') → s' = s
  | [], _, _, _, _, h => by
    cases h
    rfl
  | e :: es, s, s', vs, he, h => by
    simp only [Expr.evalAll, Option.bind_eq_bind, Option.bind_eq_some_iff, Option.some.injEq,
      Prod.mk.injEq] at h
    simp only [Expr.allEvents, List.append_eq_nil_iff] at he
    obtain ⟨⟨v, s₁⟩, hv, ⟨ws, s₂⟩, hes, rfl, rfl⟩ := h
    exact (Expr.evalAll_quiet es he.2 hes).trans (Expr.eval_quiet e he.1 hv)

end

/-- Statements without events change nothing but the variables that they declare. -/
theorem run_quiet : ∀ {stmts : List Stmt} {s s' : State I}, events names stmts = [] →
    run I names stmts s = some s' →
      s'.heap = s.heap ∧ ∀ y, (∀ e, Stmt.declare y e ∉ stmts) → s'.vars y = s.vars y
  | [], _, _, _, h => by
    cases h
    exact ⟨rfl, fun _ _ => rfl⟩
  | .expr e :: rest, s, s', he, h => by
    simp only [run, Option.bind_eq_bind, Option.bind_eq_some_iff] at h
    simp only [events, List.flatMap_cons, List.append_eq_nil_iff] at he
    obtain ⟨⟨v, s₁⟩, hv, hrest⟩ := h
    obtain rfl := Expr.eval_quiet e he.1 hv
    obtain ⟨hheap, hvars⟩ := run_quiet he.2 hrest
    exact ⟨hheap, fun y hy => hvars y fun e he => hy e (List.mem_cons_of_mem _ he)⟩
  | .declare x e :: rest, s, s', he, h => by
    simp only [run, Option.bind_eq_bind, Option.bind_eq_some_iff] at h
    simp only [events, List.flatMap_cons, List.append_eq_nil_iff] at he
    obtain ⟨⟨v, s₁⟩, hv, hrest⟩ := h
    obtain rfl := Expr.eval_quiet e he.1 hv
    obtain ⟨hheap, hvars⟩ := run_quiet he.2 hrest
    refine ⟨hheap, fun y hy => ?_⟩
    have hne : y ≠ x := fun hyx => hy e (hyx ▸ List.mem_cons_self)
    rw [hvars y fun e he => hy e (List.mem_cons_of_mem _ he), State.vars_set_of_ne _ _ hne]

end Script

end AssignmentLowering
