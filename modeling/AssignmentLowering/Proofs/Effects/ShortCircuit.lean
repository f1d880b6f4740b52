import AssignmentLowering.Proofs.Effects.Event
import AssignmentLowering.Proofs.Lowering.Evaluated

/-!
# Operators that may skip their right operand

What `&&` and `||` are lowered to has the same operator of script. Whether the right
operand is evaluated is decided when the left one has been; but statements that the right
operand needs are run before, and in any case. So the operator of script guards the right
operand exactly if these statements have no effects.

## Main definitions

* `Script.Turn` — an effect, or the decision on the right operand.
* `Lowered.turns` — the turns that evaluation takes.
* `Lowered.Guards` — the decision comes before all effects of the right operand.

## Main statements

* `Task.guards_iff` — when this is so, for an operation anywhere in what is lowered.
-/

namespace AssignmentLowering

/-- A turn of evaluation: an effect, or the decision whether the right operand of the
operator on the outside is evaluated. -/
inductive Script.Turn where
  | effect (e : Event Script.Expr)
  | decision

open Script (Stmt Turn)

/-- The turns of evaluating an expression. Behind the left operand of an operator that may
skip the right one it is decided whether to go on. -/
def Script.Expr.turns (names : RuntimeNames) : Script.Expr → List Turn
  | .binary op left right =>
    (left.events names).map .effect ++ (if op.shortCircuits then [.decision] else []) ++
      (right.events names).map .effect
  | e => (e.events names).map .effect

namespace Lowered

/-- The turns of running the statements, which nothing makes conditional, and of evaluating the
expression behind them. -/
def turns (names : RuntimeNames) (w : Lowered) : List Turn :=
  (Script.events names w.stmts).map .effect ++ w.expr.turns names

/-- Whether the right operand, lowered to `b`, has effects only if the left one selects it: it
is decided first, and then come all effects of the right operand. -/
def Guards (names : RuntimeNames) (w b : Lowered) : Prop :=
  ∃ before, w.turns names =
    before ++ .decision :: (Script.events names b.stmts ++ b.expr.events names).map .effect

end Lowered

variable {cx : Context}

/-- What `&&` and `||` are lowered to: the same operator, behind the statements of both
operands. The right operand is what it is lowered to by itself, since nothing follows it. -/
theorem lower_binary {op : BinaryOp} {l r : Expr} {ty : TypeRef} {span : Span} {n n' : Nat}
    {w : Lowered} (h : Expr.lower cx ⟨.binary op l r ty, span⟩ n = .ok w n') :
    ∃ left stmts m b, r.lower cx m = .ok b n' ∧ w.expr = .binary op left b.expr ∧
      w.stmts = stmts ++ b.stmts := by
  cases Lowers.of_lower h with
  | @binary _ _ _ _ _ _ _ left _ _ htaken =>
    cases htaken with
    | @cons _ _ _ _ _ _ _ _ stmts _ _ htail =>
      cases htail with
      | cons hright hnil =>
        cases hnil
        obtain ⟨b, hlower, rfl, rfl⟩ := hright.of_last
        exact ⟨left.expr, stmts, _, b, hlower, rfl, by simp⟩

/-- The right operand is guarded if and only if the statements it is lowered to have no
effects. -/
theorem guards_iff_events_eq_nil {op : BinaryOp} (hop : op.shortCircuits = true) {w b : Lowered}
    {left : Script.Expr} {stmts : List Stmt} {names : RuntimeNames}
    (hexpr : w.expr = .binary op left b.expr) (hstmts : w.stmts = stmts ++ b.stmts) :
    w.Guards names b ↔ Script.events names b.stmts = [] := by
  have hturns : w.turns names =
      (Script.events names stmts ++ Script.events names b.stmts ++ left.events names).map .effect ++
        .decision :: (b.expr.events names).map .effect := by
    simp [Lowered.turns, hexpr, hstmts, Script.Expr.turns, hop]
  constructor
  · intro hguards
    obtain ⟨before, hbefore⟩ := hguards
    have hafter : b.expr.events names = Script.events names b.stmts ++ b.expr.events names :=
      eq_of_append_mark (fun _ _ hab => by cases hab; rfl) (fun _ hmark => by cases hmark)
        (hturns.symm.trans hbefore)
    exact List.self_eq_append_left.1 hafter
  · intro hnone
    unfold Lowered.Guards
    rw [hturns, hnone, List.nil_append]
    exact ⟨_, rfl⟩

/-- **Operators that may skip their right operand.** Wherever such an operation is evaluated
in what is lowered, its statements, with those of its right operand among them, are run
with the statements of the output, in any case. The operator of script decides before
every effect of the right operand if and only if the statements of the right operand have
no effects. -/
theorem Task.guards_iff {t : Task} {n n' : Nat} {out : LoweredAssignment}
    (h : t.lower n = .ok out n') {op : BinaryOp} (hop : op.shortCircuits = true) {l r : Expr}
    {ty : TypeRef} {span : Span}
    (hnode : t.expr.Evaluates t.cx ⟨.binary op l r ty, span⟩) :
    ∃ m w m' k b, Expr.lower t.cx ⟨.binary op l r ty, span⟩ m = .ok w m' ∧
      r.lower t.cx k = .ok b m' ∧ b.stmts <:+ w.stmts ∧ w.stmts <:+: out.statements ∧
      (w.Guards t.cx.names b ↔ Script.events t.cx.names b.stmts = []) := by
  obtain ⟨m, w, m', hlower, hinfix⟩ := t.within h hnode fun a hform => by cases hform
  obtain ⟨left, stmts, k, b, hright, hexpr, hstmts⟩ := lower_binary hlower
  exact ⟨m, w, m', k, b, hlower, hright, ⟨stmts, hstmts.symm⟩, hinfix,
    guards_iff_events_eq_nil hop hexpr hstmts⟩

namespace Sample

/-- `a && M(F(), G())` -/
def guarded : Expr :=
  ⟨.binary .logicalAnd (localVar "a") (call "M" [call "F" [], call "G" []]) ty, {}⟩

/-- `x = a && M(F(), G());` -/
def guardedTask : Task :=
  .assignment (context .reference) .discarded ⟨localVar "x", .assign, guarded⟩ {}

end Sample

open Sample in
/-- The call of `F` is kept in a temporary, since `G` is called behind it. -/
theorem Task.guards_iff_call : ∃ out m w m' k b,
    guardedTask.lower 0 = .ok out 1 ∧ guarded.lower guardedTask.cx m = .ok w m' ∧
      (call "M" [call "F" [], call "G" []]).lower guardedTask.cx k = .ok b m' ∧
      b.stmts <:+ w.stmts ∧ w.stmts <:+: out.statements ∧
      (w.Guards guardedTask.cx.names b ↔ Script.events guardedTask.cx.names b.stmts = []) := by
  have hlower : ∃ out, guardedTask.lower 0 = .ok out 1 := ⟨_, rfl⟩
  obtain ⟨out, hout⟩ := hlower
  have hmem : guarded ∈ guardedTask.expr.evaluated guardedTask.cx :=
    List.mem_append_right _ List.mem_cons_self
  obtain ⟨m, w, m', k, b, hresult⟩ := Task.guards_iff hout rfl (.step hmem .refl)
  exact ⟨out, m, w, m', k, b, hout, hresult⟩

end AssignmentLowering
