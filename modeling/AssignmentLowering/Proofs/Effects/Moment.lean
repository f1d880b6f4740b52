import AssignmentLowering.Proofs.Effects.Event

/-!
# When copies are made

To make a copy is no effect. But a copy is of what the value is at that moment, and so it
matters between which effects it is made. The moments of evaluation are the effects and, in
their places between them, the copies.

## Main definitions

* `Script.Moment` — an effect, or the making of a copy.
* `Script.Expr.moments`, `Script.moments` — the moments that evaluation comes to.

## Main statements

* `Script.effects_moments` — the effects among them are the events.
-/

namespace AssignmentLowering
namespace Script

/-- A moment of evaluation: an effect, or the making of a copy of a value. -/
inductive Moment where
  | effect (e : Event Expr)
  | copy (value : Expr)

def Moment.effect? : Moment → Option (Event Expr)
  | .effect e => some e
  | .copy _ => none

/-- The moment of a call, what is evaluated before it aside. -/
def callMoments (names : RuntimeNames) (args : List Expr) : Expr → List Moment
  | .ident helper =>
    if helper = names.clone then args.head?.toList.map .copy
    else (helperEvents names helper args).map .effect
  | callee => (callEvents names args callee).map .effect

mutual

/-- The moments of evaluating an expression. -/
def Expr.moments (names : RuntimeNames) : Expr → List Moment
  | .null | .bool _ | .number _ | .string _ | .ident _ | .this | .typeHandle _ => []
  | .member object _ => object.moments names
  | .index object i => object.moments names ++ i.moments names
  | .call callee args =>
    callee.moments names ++ Expr.allMoments names args ++ callMoments names args callee
  | .array items => Expr.allMoments names items
  | .assign target value =>
    target.moments names ++ value.moments names ++ [.effect ⟨.assign target.written, [value]⟩]
  | .compoundAssign op target value =>
    target.moments names ++ value.moments names ++
      [.effect ⟨.compoundAssign op target.written, []⟩]
  | .binary _ left right => left.moments names ++ right.moments names
  | .verbatim text => [.effect ⟨.code text, []⟩]

def Expr.allMoments (names : RuntimeNames) : List Expr → List Moment
  | [] => []
  | e :: rest => e.moments names ++ Expr.allMoments names rest

end

/-- The moments of statements run one after the other. -/
def moments (names : RuntimeNames) (stmts : List Stmt) : List Moment :=
  stmts.flatMap fun s => s.value.moments names

section

variable (names : RuntimeNames)

@[simp] theorem Moment.effect?_effect (e : Event Expr) : (effect e).effect? = some e := rfl

@[simp] theorem Moment.effect?_comp_effect : effect? ∘ effect = some := rfl

@[simp] theorem Moment.effect?_copy (value : Expr) : (copy value).effect? = none := rfl

/-- The copies of a helper are no events. -/
theorem effects_callMoments (args : List Expr) (callee : Expr) :
    (callMoments names args callee).filterMap Moment.effect? = callEvents names args callee := by
  cases callee with
  | ident helper =>
    by_cases h : helper = names.clone
    · subst h
      cases args <;> simp [callMoments, callEvents, helperEvents, RuntimeNames.silent]
    · simp [callMoments, callEvents, h]
  | _ => simp [callMoments]

mutual

/-- The effects among the moments of evaluating an expression are its events. -/
theorem Expr.effects_moments :
    ∀ e : Expr, (e.moments names).filterMap Moment.effect? = e.events names
  | .null | .bool _ | .number _ | .string _ | .ident _ | .this | .typeHandle _ => rfl
  | .member object _ => Expr.effects_moments object
  | .index object i => by
    simp [Expr.moments, Expr.events, Expr.effects_moments object, Expr.effects_moments i]
  | .call callee args => by
    simp [Expr.moments, Expr.events, Expr.effects_moments callee, Expr.effects_allMoments args,
      effects_callMoments]
  | .array items => Expr.effects_allMoments items
  | .assign target value => by
    simp [Expr.moments, Expr.events, Expr.effects_moments target, Expr.effects_moments value]
  | .compoundAssign _ target value => by
    simp [Expr.moments, Expr.events, Expr.effects_moments target, Expr.effects_moments value]
  | .binary _ left right => by
    simp [Expr.moments, Expr.events, Expr.effects_moments left, Expr.effects_moments right]
  | .verbatim _ => rfl

theorem Expr.effects_allMoments :
    ∀ es : List Expr, (Expr.allMoments names es).filterMap Moment.effect? =
      Expr.allEvents names es
  | [] => rfl
  | e :: rest => by
    simp [Expr.allMoments, Expr.allEvents, Expr.effects_moments e, Expr.effects_allMoments rest]

end

/-- The effects among the moments of running statements are their events. -/
theorem effects_moments (stmts : List Stmt) :
    (moments names stmts).filterMap Moment.effect? = events names stmts := by
  induction stmts with
  | nil => rfl
  | cons s stmts ih =>
    simpa [moments, events, List.filterMap_append, Expr.effects_moments] using ih

@[simp] theorem Expr.allMoments_eq (es : List Expr) :
    Expr.allMoments names es = es.flatMap (Expr.moments names) := by
  induction es with
  | nil => rfl
  | cons e es ih => simp [Expr.allMoments, ih]

/-- A copy is made behind everything that evaluating the value comes to. -/
@[simp] theorem Expr.moments_clone (value : Expr) (tag : String) :
    (clone names value tag).moments names = value.moments names ++ [.copy value] := by
  simp [clone, Expr.moments, callMoments]

@[simp] theorem Expr.moments_callMethod (object : Expr) (name : String) (args : List Expr) :
    (Expr.callMethod object name args).moments names =
      object.moments names ++ args.flatMap (Expr.moments names) ++
        [.effect ⟨.call name, args⟩] := by
  simp [Expr.callMethod, Expr.moments, callMoments, callEvents]

variable {names}

theorem Expr.moments_callBase (h : names.Separated) (declaring : TypeRef) (name : String)
    (args : List Expr) :
    (callBase names declaring name args).moments names =
      args.flatMap (Expr.moments names) ++
        [.effect ⟨.baseCall declaring.name name, args⟩] := by
  have hne : names.callBase ≠ names.clone := fun heq =>
    h.2 names.callBase (by simp [RuntimeNames.effectful]) (by simp [heq, RuntimeNames.silent])
  have hsilent := h.2 names.callBase (by simp [RuntimeNames.effectful])
  have hnodup := h.1
  simp only [RuntimeNames.effectful, List.nodup_cons, List.mem_cons, not_or] at hnodup
  simp [callBase, Expr.moments, callMoments, helperEvents, hne, hsilent, Ne.symm hnodup.1.2.1,
    Ne.symm hnodup.2.1.1]

end

end Script
end AssignmentLowering
