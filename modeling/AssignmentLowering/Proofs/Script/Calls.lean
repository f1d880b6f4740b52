import AssignmentLowering.Proofs.Lowering.Steps
import Mathlib.Algebra.Ring.Nat

/-!
# Calls in script

Calls of some kind are counted wherever they stand in an expression. A call stands
strictly inside an expression if it is an operand, an argument, a stored value or part of
one; the outermost call is all that is left otherwise.

## Main definitions

* `Script.CallKind` — a kind of calls.
* `Script.Expr.calls`, `Script.callsIn` — the calls of a kind, counted.
* `Script.Expr.callsBelow` — those strictly inside an expression.
* `Script.Stmt.StandsAlone` — a statement in which they are all of a statement or absent.
* `Script.callsMethod` — calls of certain methods.

## Main statements

* `Script.Expr.calls_eq` — the calls in an expression are those inside and the outermost.
* `Target.callsBelow_load`, `Target.callsBelow_store` — access has those of its operands.
-/

namespace AssignmentLowering

namespace Script

/-- A kind of calls, told by what is called and with which arguments. -/
abbrev CallKind := Expr → List Expr → Bool

variable (k : CallKind)

mutual

/-- How many calls of a kind there are in an expression. Text made from a template is opaque
and has none. -/
def Expr.calls : Expr → Nat
  | .null | .bool _ | .number _ | .string _ | .ident _ | .this | .typeHandle _
  | .verbatim _ => 0
  | .member object _ => object.calls
  | .index object i => object.calls + i.calls
  | .call callee args =>
    (k callee args).toNat + (callee.calls + Expr.allCalls args)
  | .array items => Expr.allCalls items
  | .assign target value | .compoundAssign _ target value => target.calls + value.calls
  | .binary _ left right => left.calls + right.calls

def Expr.allCalls : List Expr → Nat
  | [] => 0
  | e :: rest => e.calls + Expr.allCalls rest

end

/-- How many calls of a kind there are strictly inside an expression. -/
def Expr.callsBelow : Expr → Nat
  | .call callee args => callee.calls k + Expr.allCalls k args
  | e => e.calls k

/-- Whether an expression is a call of a kind. -/
def Expr.isCallOf : Expr → Bool
  | .call callee args => k callee args
  | _ => false

/-- How many calls of a kind there are in statements. -/
def callsIn (stmts : List Stmt) : Nat := (stmts.map fun s => s.value.calls k).sum

/-- Calls of a kind are not used: one may be a whole statement, and that is all. -/
def Stmt.StandsAlone : Stmt → Prop
  | .expr e => e.callsBelow k = 0
  | .declare _ value => value.calls k = 0

/-- The method that a base type's helper is told to call. -/
def baseMethod? : List Expr → Option String
  | [.typeHandle _, .string name, .array [], .array (.this :: _)] => some name
  | _ => none

/-- Calls of the given methods, of an object's own or as a base type has them. -/
def callsMethod (names : RuntimeNames) (methods : List String) : CallKind
  | .member _ name, _ => name ∈ methods
  | .ident helper, args => helper = names.callBase ∧ ∃ name ∈ baseMethod? args, name ∈ methods
  | _, _ => false

attribute [local simp] Expr.calls Expr.callsBelow Expr.isCallOf

@[simp] theorem Expr.allCalls_eq (es : List Expr) :
    Expr.allCalls k es = (es.map (Expr.calls k)).sum := by
  induction es with
  | nil => rfl
  | cons e es ih => simp [Expr.allCalls, ih]

/-- The calls in an expression are those strictly inside and the outermost, if it is one. -/
theorem Expr.calls_eq (e : Expr) :
    e.calls k = (e.isCallOf k).toNat + e.callsBelow k := by
  cases e <;> simp

theorem Expr.calls_of_isReusable {e : Expr} (h : e.isReusable = true) : e.calls k = 0 := by
  cases e <;> simp_all [Expr.isReusable]

@[simp] theorem callsIn_nil : callsIn k [] = 0 := rfl

@[simp] theorem callsIn_append (stmts stmts' : List Stmt) :
    callsIn k (stmts ++ stmts') = callsIn k stmts + callsIn k stmts' := by
  simp [callsIn]

@[simp] theorem callsIn_expr (e : Expr) : callsIn k [.expr e] = e.calls k := by
  simp [callsIn, Stmt.value]

@[simp] theorem callsIn_declare (name : String) (e : Expr) :
    callsIn k [.declare name e] = e.calls k := by
  simp [callsIn, Stmt.value]

@[simp] theorem Expr.callsBelow_callMethod (object : Expr) (name : String) (args : List Expr) :
    (Expr.callMethod object name args).callsBelow k =
      object.calls k + (args.map (Expr.calls k)).sum := by
  simp [Expr.callMethod]

@[simp] theorem Expr.callsBelow_callBase (names : RuntimeNames) (declaring : TypeRef)
    (name : String) (args : List Expr) :
    (callBase names declaring name args).callsBelow k =
      (args.map (Expr.calls k)).sum := by
  simp [callBase]

variable {k}

/-- A kind of calls that copying is none of. -/
def CallKind.SparesCopies (k : CallKind) (names : RuntimeNames) : Prop :=
  ∀ value tag, k (.ident names.clone) [value, .typeHandle tag] = false

theorem CallKind.SparesCopies.calls_copied {names : RuntimeNames} (h : k.SparesCopies names)
    (s : CopySemantics) (fresh : Bool) (uses : Nat) (e : Expr) :
    (copied names s fresh uses e).calls k = e.calls k := by
  unfold copied
  cases s.cloneTag? fresh uses with
  | none => rfl
  | some tag => simp [clone, h e tag]

theorem sparesCopies_callsMethod (names : RuntimeNames) (methods : List String) :
    (callsMethod names methods).SparesCopies names := by
  intro value tag
  simp [callsMethod, baseMethod?]

end Script

/-! ## Access -/

/-- How many calls of a kind there are in operands. -/
def Address.calls (k : Script.CallKind) (a : Address) : Nat :=
  ((a.object.toList ++ a.args).map (Script.Expr.calls k)).sum

namespace Target

variable {ε : Type} {names : RuntimeNames} {t : Target ε} {a : Address} {k : Script.CallKind}

attribute [local simp] Script.Expr.calls

theorem calls_object : (t.object a).calls k =
    (a.object.toList.map (Script.Expr.calls k)).sum := by
  unfold object
  cases a.object with
  | some e => simp
  | none => cases t.staticOwner <;> simp

theorem calls_object_add :
    (t.object a).calls k + (a.args.map (Script.Expr.calls k)).sum = a.calls k := by
  simp [calls_object, Address.calls]

theorem calls_subscript {place : Script.Expr} (h : t.subscript a = .ok place) :
    place.calls k = a.calls k := by
  unfold subscript at h
  split at h
  case h_1 i hi =>
    cases h
    simp [← calls_object_add (t := t), hi]
  case h_2 => cases h

/-- The target on the left of `=` has no other calls than its operands; it may leave out
arguments. -/
theorem calls_native {place : Script.Expr} (h : t.native names a = .ok place) :
    place.calls k ≤ a.calls k := by
  have hobject : (t.object a).calls k ≤ a.calls k := by
    rw [← calls_object_add (t := t)]
    exact Nat.le_add_right ..
  unfold native at h
  split at h
  case h_1 => cases h; simp
  case h_2 => cases h; simp
  case h_3 | h_4 => cases h; simpa using hobject
  case h_8 => cases h
  all_goals exact (calls_subscript h).le

theorem callsBelow_useAccessor {value : Option Script.Expr} {accessor : Accessor}
    {e : Script.Expr} (h : t.useAccessor names a value accessor = .ok e) :
    e.callsBelow k ≤
      a.calls k + (value.toList.map (Script.Expr.calls k)).sum := by
  cases accessor with
  | method name =>
    simp only [useAccessor] at h
    cases hd : t.dispatch with
    | dynamic =>
      simp only [hd, Except.ok.injEq] at h
      subst h
      simp [← calls_object_add (t := t), Nat.add_assoc]
    | bound declaring =>
      simp only [hd, Except.ok.injEq] at h
      subst h
      simp only [Script.Expr.callsBelow_callBase, List.map_append, List.sum_append]
      rw [← calls_object_add (t := t)]
      omega
  | inline template =>
    simp only [useAccessor] at h
    cases htext : Template.substitute template t.span (t.operand? a value) with
    | error err => simp [htext, Except.map] at h
    | ok text =>
      simp only [htext, Except.map, Except.ok.injEq] at h
      subst h
      simp [Script.Expr.callsBelow]
  | subscript =>
    simp only [useAccessor] at h
    cases hplace : t.subscript a with
    | error err => simp [hplace, Except.map] at h
    | ok place =>
      simp only [hplace, Except.map, Except.ok.injEq] at h
      have hcalls := calls_subscript (k := k) hplace
      cases value with
      | none =>
        subst h
        rw [Script.Expr.calls_eq] at hcalls
        simp only [Option.toList_none, List.map_nil, List.sum_nil]
        omega
      | some v =>
        subst h
        simp [Script.Expr.callsBelow, hcalls]

theorem callsBelow_load {e : Script.Expr} (h : t.load names a = .ok e) :
    e.callsBelow k ≤ a.calls k := by
  unfold load at h
  split at h
  case h_1 => cases h; simp [Script.Expr.callsBelow]
  case h_2 =>
    cases h
    simp [Script.Expr.callsBelow, calls_object_add]
  case h_3 =>
    split at h
    · simpa using callsBelow_useAccessor h
    · have hplace := calls_native (k := k) h
      rw [Script.Expr.calls_eq] at hplace
      omega

theorem callsBelow_store {value e : Script.Expr} (h : t.store names a value = .ok e) :
    e.callsBelow k ≤ a.calls k + value.calls k := by
  unfold store at h
  split at h
  case h_1 => cases h; simp [Script.Expr.callsBelow]
  case h_2 =>
    cases h
    simp [Script.Expr.callsBelow, ← calls_object_add (t := t), Nat.add_assoc]
  case h_3 =>
    split at h
    · simpa using callsBelow_useAccessor h
    · cases hplace : t.native names a with
      | error err => simp [hplace, Except.map] at h
      | ok place =>
        simp only [hplace, Except.map, Except.ok.injEq] at h
        subst h
        simpa [Script.Expr.callsBelow] using calls_native hplace

end Target
end AssignmentLowering
