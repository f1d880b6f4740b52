import AssignmentLowering.Lowering.Assignment

/-!
# Lowering expressions

Lowering is a fold: every form is lowered from operands that know how they
themselves are lowered, so that a form decides when, in what order and whether at
all.

## Main definitions

* `lowerForm` — a form with operands that are ready to be lowered.
* `Expr.operand` — an expression as an operand.
* `Expr.lower`, `lowerAssignment` — lowering an expression, or an assignment whose
  value may not be wanted.
-/

namespace AssignmentLowering

/-- A literal in script. -/
def Literal.script : Literal → Script.Expr
  | int value => .number (.ofInt value)
  | double value => .number value
  | bool value => .bool value
  | string value => .string value
  | null => .null

open Sequence

/-- Read a place. -/
def lowerLoad (cx : Context) (p : Place Operand) (span : Span) : LowerM Lowered := do
  let t ← liftExcept (Target.ofPlace cx.metadata cx.enclosing Operand.ty span p)
  sequenced t.operands do
    let a ← lowerAddress cx t.getterIsInline t
    let load ← liftExcept (t.load cx.names (a.passed cx t.getter? 1))
    pure ⟨load, t.loadIsFresh, false⟩

/-- The object of a call. -/
def lowerReceiver (cx : Context) (c : Capture) : Receiver Operand → SequenceM Script.Expr
  | .object _ => do
    let v ← next cx c
    pure v.expr
  | .static owner => pure (.typeHandle owner.name)
  | .base _ => pure .this

/-- The arguments of a call, each as its parameter gets it. An argument for which no
parameter is left goes by its own type. -/
def lowerCallArgs (cx : Context) (c : Capture) :
    List Param → List Operand → SequenceM (List Script.Expr)
  | _, [] => pure []
  | params, o :: rest => do
    let v ← next cx c
    let ty := (params.head?.map (·.ty)).getD o.ty
    let vs ← lowerCallArgs cx c params.tail rest
    pure (cx.copied ty v.fresh 1 v.expr :: vs)

/-- The operand that a placeholder in a method's template stands for. -/
def callOperand? (m : Method) (object : Script.Expr) (args : List Script.Expr)
    (name : String) : Option Script.Expr :=
  if name = "this" then some object
  else (Template.index? (m.params.map (·.name)) name).bind (args[·]?)

/-- Call a method. Operands of a template are handed to it as constants or temporaries,
since it may use them in any way. -/
def lowerCall (cx : Context) (r : Receiver Operand) (m : Method) (args : List Operand)
    (span : Span) : LowerM Lowered :=
  let operands := r.object?.toList ++ args
  match cx.metadata.method m with
  | .unusable => throw (.memberNotUsable m.qualifiedName span)
  | .method name =>
    sequenced operands do
      let object ← lowerReceiver cx {} r
      let args ← lowerCallArgs cx {} m.params args
      let call := match r with
        | .base declaring => callBase cx.names declaring name args
        | .object _ | .static _ => .callMethod object name args
      pure ⟨call, true, false⟩
  | .inline template =>
    sequenced operands do
      let object ← lowerReceiver cx ⟨true, false⟩ r
      let args ← lowerCallArgs cx ⟨true, false⟩ m.params args
      let text ← liftExcept
        (Template.substitute template span (callOperand? m object args))
      pure ⟨.verbatim text, true, false⟩

/-- Apply a binary operator. -/
def lowerBinary (cx : Context) (op : BinaryOp) (left right : Operand) : LowerM Lowered :=
  sequenced [left, right] do
    let l ← next cx {}
    let r ← next cx {}
    pure ⟨.binary op l.expr r.expr, true, false⟩

/-- Lower a form whose operands are ready to be lowered. -/
def lowerForm (cx : Context) (form : Form Operand) (span : Span) : LowerM Lowered :=
  match form with
  | .literal value _ => pure { expr := value.script, fresh := true, stable := true }
  | .defaultValue ty => pure { expr := cx.defaultValue ty, fresh := true, stable := false }
  | .place (.this _) => pure { expr := .this, fresh := false, stable := true }
  | .place p => lowerLoad cx p span
  | .call r m args => lowerCall cx r m args span
  | .binary op l r _ => lowerBinary cx op l r
  | .assign a => lowerAssignmentOf cx .used a span

namespace Expr

/-- An expression as an operand. -/
def operand (cx : Context) : Expr → Operand :=
  fold fun form span =>
    let operands := form.map (·.2)
    { expr := ⟨form.map (·.1), span⟩
      lower := lowerForm cx operands span
      place? := operands.place? }

/-- Lower an expression for its value. -/
def lower (cx : Context) (e : Expr) : LowerM Lowered := (e.operand cx).lower

/-- An operand is made from those of its subexpressions. -/
theorem operand_eq (cx : Context) (e : Expr) :
    e.operand cx =
      { expr := e
        lower := lowerForm cx (e.form.map (operand cx)) e.span
        place? := (e.form.map (operand cx)).place? } := by
  have h (step : Form (Expr × Operand) → Span → Operand) :
      (e.form.map (withFold step)).map (·.1) = e.form := by
    simp [Function.comp_def, withFold]
  have h' (step : Form (Expr × Operand) → Span → Operand) :
      (e.form.map (withFold step)).map (·.2) = e.form.map (fold step) := by
    simp [Function.comp_def, withFold]
  unfold operand
  rw [fold_eq]
  simp only [h, h']
  cases e
  rfl

@[simp] theorem expr_operand (cx : Context) (e : Expr) : (e.operand cx).expr = e := by
  rw [operand_eq]

/-- Lowering an expression is lowering its form, with its subexpressions as operands. -/
theorem lower_eq (cx : Context) (e : Expr) :
    e.lower cx = lowerForm cx (e.form.map (operand cx)) e.span := by
  rw [lower, operand_eq]

end Expr

/-- Lower an assignment. -/
def lowerAssignment (cx : Context) (usage : Usage) (a : Assignment Expr) (span : Span) :
    LowerM Lowered :=
  lowerAssignmentOf cx usage (a.map (Expr.operand cx)) span

end AssignmentLowering
