import AssignmentLowering.Expr.Fold
import AssignmentLowering.Expr.Induction
import AssignmentLowering.Proofs.Target.Map

/-!
# Results beside expressions, and induction along evaluation

What a tree means is told by a step from the meaning of its parts. The parts of an
assignment are not its two operands: its target is not evaluated, only the operands of
that target are. A step therefore needs more than one result for each subexpression;
it needs to see the place that a subexpression is, with the results for the operands
of the place.

## Main definitions

* `Annotated` — an expression with a result, and with the place it is.
* `Expr.annotate` — the fold that makes these, with `Expr.annotate_eq`.
* `Expr.parts` — the expressions evaluated in the course of evaluating one.
* `Expr.Everywhere` — a property of an expression and all below it.

## Main statements

* `Expr.inductParts` — what passes from the parts to the whole holds of all.
-/

namespace AssignmentLowering

/-- An expression with a result. If it is a place, the operands of that place have
theirs. -/
structure Annotated (α : Type) where
  expr : Expr
  value : α
  place? : Option (Place (Annotated α))

namespace Annotated

variable {α : Type}

def ty (a : Annotated α) : TypeRef := a.expr.ty

end Annotated

namespace Expr

variable {α : Type}

/-- An expression with the result that `step` gives, and its subexpressions with theirs. -/
def annotate (step : Form (Annotated α) → Span → α) : Expr → Annotated α :=
  fold fun form span =>
    let parts := form.map (·.2)
    { expr := ⟨form.map (·.1), span⟩, value := step parts span, place? := parts.place? }

theorem annotate_eq (step : Form (Annotated α) → Span → α) (e : Expr) :
    e.annotate step =
      { expr := e
        value := step (e.form.map (annotate step)) e.span
        place? := (e.form.map (annotate step)).place? } := by
  have h (step : Form (Expr × Annotated α) → Span → Annotated α) :
      (e.form.map (withFold step)).map (·.1) = e.form := by
    simp [Function.comp_def, withFold]
  have h' (step : Form (Expr × Annotated α) → Span → Annotated α) :
      (e.form.map (withFold step)).map (·.2) = e.form.map (fold step) := by
    simp [Function.comp_def, withFold]
  unfold annotate
  rw [fold_eq]
  simp only [h, h']
  cases e
  rfl

@[simp] theorem expr_annotate (step : Form (Annotated α) → Span → α) (e : Expr) :
    (e.annotate step).expr = e := by
  rw [annotate_eq]

@[simp] theorem ty_annotate (step : Form (Annotated α) → Span → α) (e : Expr) :
    (e.annotate step).ty = e.ty := by
  rw [Annotated.ty, expr_annotate]

theorem place?_annotate (step : Form (Annotated α) → Span → α) (e : Expr) :
    (e.annotate step).place? = e.form.place?.map (Place.map (annotate step)) := by
  rw [annotate_eq, Form.place?_map]

/-- A target is the same with results for its operands. -/
theorem ofPlace_annotate (step : Form (Annotated α) → Span → α) {md : Metadata}
    {enclosing : EnclosingMember} {span : Span} {p : Place Expr} {t : Target Expr}
    (ht : Target.ofPlace md enclosing Expr.ty span p = .ok t) :
    Target.ofPlace md enclosing Annotated.ty span (p.map (annotate step)) =
      .ok (t.map (annotate step)) := by
  rw [Target.ofPlace_map _ fun e => ty_annotate step e, ht]
  rfl

/-- The place that an expression is, if it is one. -/
def place? (e : Expr) : Option (Place Expr) := e.form.place?

theorem place?_of_place {e : Expr} {p : Place Expr} (hp : e.form = .place p) :
    e.place? = some p := by
  rw [place?, hp]
  rfl

theorem eq_of_place {e : Expr} {p : Place Expr} (hp : e.form = .place p) :
    e = ⟨.place p, e.span⟩ := by
  obtain ⟨form, span⟩ := e
  cases hp
  rfl

theorem ty_of_place {e : Expr} {p : Place Expr} (hp : e.form = .place p) : e.ty = p.ty := by
  rw [eq_of_place hp]
  rfl

/-- The expressions evaluated in the course of evaluating one: of the target of an
assignment only what addresses it. -/
def parts (e : Expr) : List Expr :=
  match e.form with
  | .assign a => (a.target.place?.elim [] fun p => p.operands ++ p.defaults) ++ [a.value]
  | x => x.children

@[simp] theorem parts_place (p : Place Expr) (span : Span) :
    (⟨.place p, span⟩ : Expr).parts = p.operands ++ p.defaults := rfl

@[simp] theorem parts_call (r : Receiver Expr) (m : Method) (args : List Expr) (span : Span) :
    (⟨.call r m args, span⟩ : Expr).parts = r.object?.toList ++ args := rfl

@[simp] theorem parts_binary (op : BinaryOp) (l r : Expr) (ty : TypeRef) (span : Span) :
    (⟨.binary op l r ty, span⟩ : Expr).parts = [l, r] := rfl

theorem parts_assign {a : Assignment Expr} {p : Place Expr} (hp : a.target.place? = some p)
    (span : Span) :
    (⟨.assign a, span⟩ : Expr).parts = p.operands ++ p.defaults ++ [a.value] := by
  simp [parts, hp]

/-- What addresses the place that is assigned is among the parts. -/
theorem place_mem_parts {a : Assignment Expr} {p : Place Expr} (hp : a.target.place? = some p)
    (span : Span) {e : Expr} (he : e ∈ p.operands ++ p.defaults) :
    e ∈ (⟨.assign a, span⟩ : Expr).parts := by
  rw [parts_assign hp]
  exact List.mem_append_left _ he

theorem value_mem_parts (a : Assignment Expr) (span : Span) :
    a.value ∈ (⟨.assign a, span⟩ : Expr).parts := by
  simp [parts]

/-- A part is a child, or a child of a child. -/
theorem parts_below {P : Expr → Prop} {e : Expr} (h : ∀ c ∈ e.form.children, P c)
    (h' : ∀ c ∈ e.form.children, ∀ d ∈ c.form.children, P d) : ∀ c ∈ e.parts, P c := by
  intro c hc
  unfold parts at hc
  cases hform : e.form with
  | assign a =>
    simp only [hform, List.mem_append, List.mem_singleton] at hc
    rw [hform] at h h'
    obtain hc | rfl := hc
    · cases hp : a.target.form with
      | place p =>
        simp only [place?, hp, Form.place?, Option.elim_some] at hc
        refine h' a.target (by simp [Form.children, Form.operands]) c ?_
        rw [hp]
        exact hc
      | _ => simp [place?, hp, Form.place?] at hc
    · exact h _ (by simp [Form.children, Form.operands])
  | _ =>
    rw [hform] at h hc
    exact h c hc

/-- What passes from the parts of an expression to the expression holds of all. -/
theorem inductParts {P : Expr → Prop} (step : ∀ e : Expr, (∀ c ∈ e.parts, P c) → P e)
    (e : Expr) : P e := by
  have h : P e ∧ ∀ c ∈ e.form.children, P c := by
    refine induct (P := fun e => P e ∧ ∀ c ∈ e.form.children, P c) (fun e ih => ?_) e
    have hchildren : ∀ c ∈ e.form.children, P c := fun c hc => (ih c hc).1
    exact ⟨step e (parts_below hchildren fun c hc => (ih c hc).2), hchildren⟩
  exact h.1

/-- The property `p` holds of an expression and of all below it. -/
inductive Everywhere (p : Expr → Prop) : Expr → Prop
  | intro {e : Expr} (here : p e) (below : ∀ c ∈ e.form.children, Everywhere p c) :
      Everywhere p e

namespace Everywhere

variable {p q : Expr → Prop} {e : Expr}

theorem here (h : Everywhere p e) : p e := by
  cases h with
  | intro here _ => exact here

theorem child (h : Everywhere p e) : ∀ c ∈ e.form.children, Everywhere p c := by
  cases h with
  | intro _ below => exact below

theorem part (h : Everywhere p e) : ∀ c ∈ e.parts, Everywhere p c :=
  parts_below h.child fun c hc => (h.child c hc).child

theorem mono (hpq : ∀ e, p e → q e) (h : Everywhere p e) : Everywhere q e := by
  induction h with
  | intro here _ ih => exact .intro (hpq _ here) ih

/-- The target of an assignment has the property too. -/
theorem target {a : Assignment Expr} {span : Span} (h : Everywhere p ⟨.assign a, span⟩) :
    Everywhere p a.target :=
  h.child _ (by simp [Form.children, Form.operands])

end Everywhere
end Expr
end AssignmentLowering
