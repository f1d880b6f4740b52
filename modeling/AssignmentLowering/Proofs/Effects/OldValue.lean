import AssignmentLowering.Proofs.Effects.Event
import AssignmentLowering.Proofs.Lowering.Sample
import Mathlib.Data.List.Basic

/-!
# When a compound assignment reads the old value

A compound assignment to a target that may stand on the left of `=` becomes the
compound operator of script. That operator reads the old value when its right operand
is about to be evaluated. Statements that the right operand needs run earlier, so the
old value comes first exactly if these statements have no effects. Targets with
accessors do not depend on this: their old value is captured before such statements.

## Main definitions

* `Script.Step` — an effect, or the moment at which the old value is read.
* `LoweredAssignment.steps` — the steps of what is emitted, in order of evaluation.
* `LoweredAssignment.ReadsOldFirst` — the old value is read before the right operand has
  effects.

## Main statements

* `lowerAssignment_readsOldFirst_iff` — when this is so for a compound operator of script.
-/

namespace AssignmentLowering

namespace Script

/-- A step of evaluation: an effect, or that the compound operator on the outside reads
the old value. -/
inductive Step where
  | effect (e : Event Expr)
  | oldValue

/-- The steps of evaluating an expression. A compound operator finds its target, reads the
old value, evaluates its right operand and stores. -/
def Expr.steps (names : RuntimeNames) : Expr → List Step
  | .compoundAssign op target value =>
    (target.events names).map .effect ++
      .oldValue :: ((value.events names).map .effect ++
        [.effect ⟨.compoundAssign op target.written, []⟩])
  | e => (e.events names).map .effect

end Script

open Script (Step)

namespace LoweredAssignment

/-- The steps of what is emitted: those of the statements and last those of the result,
which is the last statement where the value is not wanted. -/
def steps (names : RuntimeNames) (out : LoweredAssignment) : List Step :=
  match out.result, out.statements.reverse with
  | some e, _ => (Script.events names out.statements).map .effect ++ e.steps names
  | none, .expr e :: before =>
    (Script.events names before.reverse).map .effect ++ e.steps names
  | none, _ => (Script.events names out.statements).map .effect

theorem steps_ofLowered (names : RuntimeNames) (usage : Usage) (v : Lowered) :
    (ofLowered usage v).steps names =
      (Script.events names v.stmts).map .effect ++ v.expr.steps names := by
  cases usage <;> simp [ofLowered, steps]

/-- Whether the old value is read before the right operand, lowered to `b`, has any effect:
all of them follow, and then the store. -/
def ReadsOldFirst (names : RuntimeNames) (b : Lowered) (out : LoweredAssignment) : Prop :=
  ∃ before store, out.steps names =
    before ++ .oldValue :: ((Script.events names b.stmts ++ b.expr.events names).map .effect ++
      [.effect store])

end LoweredAssignment

/-- Behind the last mark stands what stands behind it. -/
theorem eq_of_append_oldValue {before before' : List Step} {after after' : List (Event Script.Expr)}
    (h : before ++ .oldValue :: after.map .effect =
      before' ++ .oldValue :: after'.map .effect) : after = after' :=
  eq_of_append_mark (fun _ _ hab => by cases hab; rfl) (fun _ hmark => by cases hmark) h

variable {cx : Context}

/-- **The old value under a compound operator of script.** The emitted statements are
those that address the target and then those of the right operand; the result applies
the operator to what is left of both. The old value is read before every effect of the
right operand if and only if the statements of the right operand have none. -/
theorem lowerAssignment_readsOldFirst_iff {usage : Usage} {a : Assignment Expr} {span : Span}
    {t : Target Expr} {op : BinaryOp}
    (htarget : a.target.target cx.metadata cx.enclosing = .ok t) (hop : a.op.binary? = some op)
    (hnative : t.isNative = true) {n n' : Nat} {v : Lowered}
    (h : lowerAssignment cx usage a span n = .ok v n') :
    ∃ stmts place m b, a.value.lower cx m = .ok b n' ∧ v.stmts = stmts ++ b.stmts ∧
      v.expr = .compoundAssign op place b.expr ∧
      ((LoweredAssignment.ofLowered usage v).ReadsOldFirst cx.names b ↔
        Script.events cx.names b.stmts = []) := by
  cases LowersAssign.of_lowerAssignment h with
  | native _ hop' | readBack _ hop' | byCall _ hop' => rw [hop] at hop'; cases hop'
  | compoundByCall htarget' _ hnative' =>
    rw [htarget] at htarget'
    cases htarget'
    rw [hnative] at hnative'
    cases hnative'
  | @compoundNative t' op' addr b place stmts stmts' m _ _ hop' _ haddr htaken _ =>
    rw [hop] at hop'
    cases hop'
    cases htaken with
    | @intro w m' _ e stmts'' hlower hheld =>
      have hinline : a.value.mustCapture cx {} [] w.toValue = false := by
        simp [Expr.mustCapture]
      rw [hinline] at hheld
      cases hheld
      refine ⟨stmts, place, m, w, hlower, by simp, rfl, ?_⟩
      have hsteps : (LoweredAssignment.ofLowered usage
          { expr := .compoundAssign op place w.expr, fresh := true, stable := false,
            stmts := stmts ++ (w.stmts ++ []) }).steps cx.names =
          (Script.events cx.names stmts ++ Script.events cx.names w.stmts ++
            place.events cx.names).map .effect ++
          .oldValue :: (w.expr.events cx.names ++
            [(⟨.compoundAssign op place.written, []⟩ : Event Script.Expr)]).map .effect := by
        rw [LoweredAssignment.steps_ofLowered]
        simp [Script.Expr.steps]
      constructor
      · rintro ⟨before, store, heq⟩
        have hafter : w.expr.events cx.names ++ [⟨.compoundAssign op place.written, []⟩] =
            Script.events cx.names w.stmts ++ w.expr.events cx.names ++ [store] := by
          have hboth := hsteps.symm.trans heq
          rw [← List.map_singleton (f := Step.effect), ← List.map_append] at hboth
          exact eq_of_append_oldValue hboth
        have hcount := congrArg List.length hafter
        simp only [List.length_append, List.length_singleton] at hcount
        exact List.length_eq_zero_iff.1 (by omega)
      · intro hnone
        refine ⟨(Script.events cx.names stmts ++ place.events cx.names).map .effect,
          ⟨.compoundAssign op place.written, []⟩, hsteps.trans ?_⟩
        simp [hnone]

open Sample in
theorem lowerAssignment_readsOldFirst_iff_setter : ∃ v stmts place m b,
    lowerAssignment (context .reference) .discarded
      ⟨field "f", .addAssign, assign (property "P") .assign (call "F" [])⟩ {} 0 = .ok v 1 ∧
      (assign (property "P") .assign (call "F" [])).lower (context .reference) m = .ok b 1 ∧
      v.stmts = stmts ++ b.stmts ∧ v.expr = .compoundAssign .add place b.expr ∧
      ((LoweredAssignment.ofLowered .discarded v).ReadsOldFirst (context .reference).names b ↔
        Script.events (context .reference).names b.stmts = []) := by
  have hlower : ∃ v, lowerAssignment (context .reference) .discarded
      ⟨field "f", .addAssign, assign (property "P") .assign (call "F" [])⟩ {} 0 = .ok v 1 :=
    ⟨_, rfl⟩
  obtain ⟨v, hv⟩ := hlower
  obtain ⟨stmts, place, m, b, h⟩ :=
    lowerAssignment_readsOldFirst_iff rfl rfl rfl hv
  exact ⟨v, stmts, place, m, b, hv, h⟩

end AssignmentLowering
