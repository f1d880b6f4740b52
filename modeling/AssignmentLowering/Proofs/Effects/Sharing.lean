import AssignmentLowering.Proofs.Lowering.Forms
import AssignmentLowering.Proofs.Lowering.Sample

/-!
# The value of a compound assignment and its target

The value of a compound assignment is the value that its target now holds. A target with
accessors is given a copy, and what is left for others is reported as not fresh. A target
on the left of a compound operator of script is given the value itself, which is reported
as fresh all the same; whoever takes it next therefore makes no copy, and two places hold
one instance.

## Main definitions

* `Lowered.StoresItself` — the value is stored in the target as it is.
* `Lowered.StoresCopy` — a copy of the value is stored in the target.

## Main statements

* `next_compound_shared_iff` — which of the two a consumer is handed, and what it makes
  of it.
-/

namespace AssignmentLowering

open Script (Stmt)

variable {cx : Context}

/-- A copy is not what it is a copy of. -/
theorem clone_ne (names : RuntimeNames) (e : Script.Expr) (tag : String) :
    clone names e tag ≠ e := by
  intro h
  have hsize := congrArg sizeOf h
  simp only [clone, Script.Expr.call.sizeOf_spec, List.cons.sizeOf_spec] at hsize
  omega

theorem Context.copied_of_mutable {ty : TypeRef} {tag : String}
    (hty : cx.metadata.semantics ty = .mutable tag) (fresh : Bool) (e : Script.Expr) :
    cx.copied ty fresh 1 e = if fresh then e else clone cx.names e tag := by
  unfold copied AssignmentLowering.copied
  rw [hty]
  cases fresh <;> rfl

/-- The value is that of a compound operator of script on the target, and so it is stored
there. -/
def Lowered.StoresItself (cx : Context) (t : Target Expr) (op : BinaryOp) (w : Lowered) : Prop :=
  ∃ addr place value, t.native cx.names addr = .ok place ∧ w.expr = .compoundAssign op place value

/-- The last statement stores a copy of the value in the target. -/
def Lowered.StoresCopy (cx : Context) (t : Target Expr) (tag : String) (w : Lowered) : Prop :=
  ∃ addr store stmts, t.store cx.names addr (clone cx.names w.expr tag) = .ok store ∧
    w.stmts = stmts ++ [.expr store]

/-- The value of a compound assignment is reported as fresh exactly if it is stored in the
target as it is. -/
theorem lower_compound {a : Assignment Expr} {span : Span} {op : BinaryOp}
    (hop : a.op.binary? = some op) {t : Target Expr}
    (htarget : a.target.target cx.metadata cx.enclosing = .ok t) {tag : String}
    (hty : cx.metadata.semantics t.ty = .mutable tag) {n n' : Nat} {w : Lowered}
    (h : Expr.lower cx ⟨.assign a, span⟩ n = .ok w n') :
    w.fresh = t.isNative ∧ (t.isNative = true → w.StoresItself cx t op) ∧
      (t.isNative = false → w.StoresCopy cx t tag) := by
  cases Lowers.of_lower h with
  | assign h =>
    cases h with
    | native _ hop' | readBack _ hop' | byCall _ hop' => rw [hop] at hop'; cases hop'
    | compoundNative htarget' hop' hnative _ _ hplace =>
      rw [htarget] at htarget'
      rw [hop] at hop'
      cases htarget'
      cases hop'
      refine ⟨hnative.symm, fun _ => ⟨_, _, _, hplace, rfl⟩, fun hnot => ?_⟩
      rw [hnative] at hnot
      cases hnot
    | @compoundByCall _ _ addr _ _ _ new _ _ _ _ _ _ _ _ _ htarget' _ hnative _ _ _ _ _ _ hstore =>
      rw [htarget] at htarget'
      cases htarget'
      have hcopy : cx.copied t.ty true 2 new = clone cx.names new tag := by
        simp [Context.copied, copied, CopySemantics.cloneTag?, hty, CopySemantics.tag?]
      have hstore' : t.store cx.names _ (cx.copied t.ty true 2 new) = .ok _ := hstore
      rw [hcopy] at hstore'
      refine ⟨hnative.symm, fun hyes => ?_, fun _ => ⟨_, _, _, hstore', rfl⟩⟩
      rw [hnative] at hyes
      cases hyes

/-- **Who takes the value of a compound assignment.** Whatever it is taken for — a store, an
argument, an index — and whatever is still to come, the value handed on is reported as fresh
exactly if the target is native, that is, exactly if the target was given the same instance.
A consumer of a mutable type then makes no copy of it; of the value left by a target with
accessors it makes one, and such a target was given a copy before. -/
theorem next_compound_shared_iff {a : Assignment Expr} {span : Span} {op : BinaryOp}
    (hop : a.op.binary? = some op) {t : Target Expr}
    (htarget : a.target.target cx.metadata cx.enclosing = .ok t) {tag : String}
    (hty : cx.metadata.semantics t.ty = .mutable tag) {c : Capture} {later : List Expr} {n : Nat}
    {stmts : List Stmt} {v : Value} {s : Sequence}
    (h : Sequence.next cx c (sequenceOf cx n (⟨.assign a, span⟩ :: later) stmts) = .ok v s) :
    (∃ w n', Expr.lower cx ⟨.assign a, span⟩ n = .ok w n' ∧ w.fresh = t.isNative ∧
      (t.isNative = true → w.StoresItself cx t op) ∧
      (t.isNative = false → w.StoresCopy cx t tag)) ∧
    ∀ ty tag', cx.metadata.semantics ty = .mutable tag' →
      (cx.copied ty v.fresh 1 v.expr = v.expr ↔ t.isNative = true) ∧
      (cx.copied ty v.fresh 1 v.expr = clone cx.names v.expr tag' ↔ t.isNative = false) := by
  obtain ⟨stmts', n', htaken, -⟩ := next_ok h
  cases htaken with
  | @intro w m _ e _ hlower hheld =>
    obtain ⟨hfresh, hitself, hcopy⟩ := lower_compound hop htarget hty hlower
    refine ⟨⟨w, m, hlower, hfresh, hitself, hcopy⟩, ?_⟩
    intro ty tag' hty'
    rw [Context.copied_of_mutable hty', hfresh]
    cases t.isNative with
    | true => simpa using (clone_ne cx.names e tag').symm
    | false => simpa using clone_ne cx.names e tag'

open Sample in
/-- `f += F()` for a field `f`, in front of another operand with effects. -/
theorem next_compound_shared_iff_field : ∃ v s,
    Sequence.next (context (.mutable "Point")) {}
      (sequenceOf (context (.mutable "Point")) 0
        [assign (field "f") .addAssign (call "F" []), call "G" []] []) = .ok v s ∧
    (context (.mutable "Point")).copied ty v.fresh 1 v.expr = v.expr := by
  have hnext : ∃ v s, Sequence.next (context (.mutable "Point")) {}
      (sequenceOf (context (.mutable "Point")) 0
        [assign (field "f") .addAssign (call "F" []), call "G" []] []) = .ok v s := ⟨_, _, rfl⟩
  obtain ⟨v, s, h⟩ := hnext
  obtain ⟨-, hconsumer⟩ := next_compound_shared_iff rfl rfl rfl h
  exact ⟨v, s, h, (hconsumer ty "Point" rfl).1.2 rfl⟩

end AssignmentLowering
