import AssignmentLowering.Proofs.Expr.Annotate
import AssignmentLowering.Proofs.Lowering.Forms
import AssignmentLowering.Proofs.Lowering.Sample

/-!
# What stable operands are

A stable operand is never captured to protect its value, so nothing that runs later may
change it. The flag is passed on by assignments, whose result may be the value assigned,
and by sequences. Wherever it arrives, the operand is a literal, the current object, or a
temporary, and the temporary has been declared in the statements collected by then.

## Main definitions

* `Lasting` — an expression that keeps its value once certain statements have run.

## Main statements

* `LowersAssign.lasting`, `Lowers.lasting` — one step, from parts to whole.
* `lasting_of_stable` — what is stable is lasting, and can be used again.
-/

namespace AssignmentLowering

open Script (Stmt)

/-- An expression that keeps its value once `stmts` have run: a literal, the current
object, or a temporary declared there. -/
inductive Lasting (cx : Context) (stmts : List Stmt) : Script.Expr → Prop
  | null : Lasting cx stmts .null
  | bool (value : Bool) : Lasting cx stmts (.bool value)
  | number (value : Binary64) : Lasting cx stmts (.number value)
  | string (value : String) : Lasting cx stmts (.string value)
  | this : Lasting cx stmts .this
  | temp {k : Nat} {init : Script.Expr} (hdeclared : .declare (cx.temp k) init ∈ stmts) :
      Lasting cx stmts (.ident (cx.temp k))

variable {cx : Context}

namespace Lasting

variable {stmts stmts' : List Stmt} {e : Script.Expr}

theorem isReusable (h : Lasting cx stmts e) : e.isReusable = true := by
  cases h <;> rfl

theorem script (value : Literal) : Lasting cx stmts value.script := by
  cases value with
  | int value => exact .number _
  | double value => exact .number _
  | bool value => exact .bool _
  | string value => exact .string _
  | null => exact .null

/-- More statements declare more temporaries. -/
theorem mono (hsub : stmts ⊆ stmts') (h : Lasting cx stmts e) : Lasting cx stmts' e := by
  cases h with
  | null => exact .null
  | bool value => exact .bool value
  | number value => exact .number value
  | string value => exact .string value
  | this => exact .this
  | temp hdeclared => exact .temp (hsub hdeclared)

end Lasting

/-- An expression whose lowering is lasting if it is stable. -/
def LowersLasting (cx : Context) (e : Expr) : Prop :=
  ∀ {n n' : Nat} {w : Lowered}, e.lower cx n = .ok w n' → w.stable = true →
    Lasting cx w.stmts w.expr

theorem Held.lasting {e x : Script.Expr} {n n' : Nat} {stmts : List Stmt}
    (h : Held cx e n true x stmts n') : Lasting cx stmts x := by
  cases h with
  | captured => exact .temp List.mem_cons_self

/-- An operand is stable because its lowering was, or because it has been captured. -/
theorem Taken.lasting {c : Capture} {later : List Expr} {o : Expr} {n n' : Nat} {v : Value}
    {stmts : List Stmt} (ho : LowersLasting cx o) (h : Taken cx c later o n v stmts n')
    (hstable : v.stable = true) : Lasting cx stmts v.expr := by
  cases h with
  | @intro w _ _ _ _ hlower hheld =>
    cases hcapture : o.mustCapture cx c later w.toValue with
    | true =>
      rw [hcapture] at hheld
      exact hheld.lasting.mono (List.subset_append_right _ _)
    | false =>
      rw [hcapture] at hheld hstable
      cases hheld
      rw [Bool.or_false] at hstable
      exact (ho hlower hstable).mono (List.subset_append_left _ _)

/-- The result behind a store is lasting, if it was before the store. -/
theorem Lasting.finish {usage : Usage} {store : Script.Expr} {result : Value} {stmts : List Stmt}
    (hresult : usage.isUsed = true → result.stable = true → Lasting cx stmts result.expr)
    (hstable : (usage.finish store result stmts).stable = true) :
    Lasting cx (usage.finish store result stmts).stmts
      (usage.finish store result stmts).expr := by
  cases usage with
  | used => exact (hresult rfl hstable).mono (List.subset_append_left _ _)
  | discarded => cases hstable

theorem LowersAssign.lasting {usage : Usage} {a : Assignment Expr} {n n' : Nat} {w : Lowered}
    (hvalue : LowersLasting cx a.value) (h : LowersAssign cx usage a n w n')
    (hstable : w.stable = true) : Lasting cx w.stmts w.expr := by
  cases h with
  | native | readBack | compoundNative => cases hstable
  | @byCall t _ v _ _ _ _ _ _ _ _ _ htaken _ =>
    refine Lasting.finish (fun _ hresult => ?_) hstable
    cases hreceiver : t.isReceiver with
    | true => exact .this
    | false =>
      rw [hreceiver] at hresult
      exact (htaken.lasting hvalue hresult).mono (List.subset_append_right _ _)
  | compoundByCall _ _ _ _ _ _ _ _ hnew _ =>
    refine Lasting.finish (fun hused _ => ?_) hstable
    rw [hused, Bool.true_or] at hnew
    exact hnew.lasting.mono (List.subset_append_right _ _)

theorem Lowers.lasting {e : Expr} {n n' : Nat} {w : Lowered}
    (hparts : ∀ c ∈ e.parts, LowersLasting cx c) (h : Lowers cx e n w n')
    (hstable : w.stable = true) : Lasting cx w.stmts w.expr := by
  cases h with
  | @literal value => exact .script value
  | this => exact .this
  | defaultValue | load | call | callInline | binary => cases hstable
  | @assign a span _ _ _ h => exact h.lasting (hparts _ (Expr.value_mem_parts a span)) hstable

theorem LowersLasting.of_lower (e : Expr) : LowersLasting cx e := by
  induction e using Expr.inductParts with
  | step e ih => exact fun h hstable => (Lowers.of_lower h).lasting ih hstable

/-- What is stable is a literal, the current object, or a temporary declared in the
statements so far, and can be used again: for expressions and assignments in any usage, and
for each operand that a sequence hands out. -/
theorem lasting_of_stable (cx : Context) :
    (∀ (e : Expr) (n : Nat) {n' : Nat} {w : Lowered}, e.lower cx n = .ok w n' →
      w.stable = true → Lasting cx w.stmts w.expr ∧ w.expr.isReusable = true) ∧
    (∀ (usage : Usage) (a : Assignment Expr) (span : Span) (n : Nat) {n' : Nat} {w : Lowered},
      lowerAssignment cx usage a span n = .ok w n' → w.stable = true →
        Lasting cx w.stmts w.expr ∧ w.expr.isReusable = true) ∧
    (∀ (c : Capture) (pending : List Expr) (n : Nat) (stmts : List Stmt) {v : Value}
      {s' : Sequence},
      Sequence.next cx c (sequenceOf cx n pending stmts) = .ok v s' → v.stable = true →
        Lasting cx s'.stmts v.expr ∧ v.expr.isReusable = true) := by
  refine ⟨fun e n _ _ h hstable => ?_, fun usage a span n _ _ h hstable => ?_,
    fun c pending n stmts v s' h hstable => ?_⟩
  · have hlasting := LowersLasting.of_lower _ h hstable
    exact ⟨hlasting, hlasting.isReusable⟩
  · have hlasting := (LowersAssign.of_lowerAssignment h).lasting (LowersLasting.of_lower _) hstable
    exact ⟨hlasting, hlasting.isReusable⟩
  · cases pending with
    | nil =>
      rw [Sequence.next_apply_nil cx c rfl] at h
      cases h
    | cons o later =>
      obtain ⟨stmts', n', htaken, rfl⟩ := next_ok h
      have hlasting := (htaken.lasting (LowersLasting.of_lower o) hstable).mono
        (List.subset_append_right stmts stmts')
      exact ⟨hlasting, hlasting.isReusable⟩

namespace Sample

/-- The value of `Q` after `F()` has been added to it, assigned to `P`. -/
def addAndAssign : Assignment Expr :=
  ⟨property "P", .assign, assign (property "Q") .addAssign (call "F" [])⟩

end Sample

open Sample in
/-- The sum is held in a temporary, and both the assignment and whoever takes it as an operand
get that temporary. -/
theorem lasting_of_stable_addAndAssign :
    let cx := context .reference
    let e : Expr := ⟨.assign addAndAssign, {}⟩
    (∃ w n, e.lower cx 0 = .ok w n ∧ w.stable = true ∧ Lasting cx w.stmts w.expr) ∧
      (∃ w n, lowerAssignment cx .used addAndAssign {} 0 = .ok w n ∧ w.stable = true ∧
        Lasting cx w.stmts w.expr) ∧
      ∃ v s, Sequence.next cx {} (sequenceOf cx 0 [e, localVar "x"] []) = .ok v s ∧
        v.stable = true ∧ Lasting cx s.stmts v.expr := by
  intro cx e
  obtain ⟨hlower, hassignment, hnext⟩ := lasting_of_stable cx
  refine ⟨⟨_, _, rfl, rfl, ?_⟩, ⟨_, _, rfl, rfl, ?_⟩, ⟨_, _, rfl, rfl, ?_⟩⟩
  · exact (hlower e 0 rfl rfl).1
  · exact (hassignment .used addAndAssign {} 0 rfl rfl).1
  · exact (hnext {} [e, localVar "x"] 0 [] rfl rfl).1

end AssignmentLowering
