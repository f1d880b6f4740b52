import AssignmentLowering.Lowering.Address

/-!
# Lowering assignments

A target that may stand on the left of `=` in script is assigned there, so that
chains of shared values nest in one expression. All other targets are written by a
call. Its result is of no use: the value of the assignment is the value stored, which
is kept in a temporary if it is wanted.

Where a native target takes a value that must not be shared and the result is
wanted, the store becomes a statement of its own and the result is read back from
the target. A compound assignment through accessors reads the old value before the
right operand is evaluated.

## Main definitions

* `Usage` — whether the value of an assignment is wanted.
* `assignSimple`, `assignCompound` — the two forms of assignment.
* `lowerAssignmentOf` — an assignment with operands ready to be lowered.
-/

namespace AssignmentLowering

/-- Whether the value of an assignment is wanted. -/
inductive Usage where
  | discarded | used
  deriving DecidableEq, Repr

def Usage.isUsed : Usage → Bool
  | used => true
  | discarded => false

open Sequence

/-- Plain assignment to a target that may stand on the left of `=`. -/
def assignNative (cx : Context) (used : Bool) (t : Target Operand) (value : Operand) :
    LowerM Lowered :=
  let readBack := used && (cx.metadata.semantics t.ty).tag?.isSome
  sequenced (t.operands ++ [value]) do
    let a ← lowerAddress cx readBack t
    let v ← next cx {}
    let place ← liftExcept (t.native cx.names a.address)
    let stored := Script.Expr.assign place (cx.copied t.ty v.fresh 1 v.expr)
    if readBack then do
      push (.expr stored)
      pure ⟨place, false, false⟩
    else
      pure ⟨stored, v.fresh, false⟩

/-- Plain assignment by a call. The receiver itself can be read back for free; the value
stored anywhere else must be kept if it is wanted. -/
def assignByCall (cx : Context) (used : Bool) (t : Target Operand) (value : Operand) :
    LowerM Lowered :=
  let keep := used && !t.isReceiver
  sequenced (t.operands ++ [value]) do
    let a ← lowerAddress cx t.setterIsInline t
    let v ← next cx ⟨keep || t.setterIsInline, false⟩
    let stored := cx.copied t.ty v.fresh (if keep then 2 else 1) v.expr
    let store ← liftExcept (t.store cx.names (a.passed cx t.setter? 1) stored)
    if used then do
      push (.expr store)
      pure (if keep then ⟨v.expr, false, v.stable⟩ else ⟨.this, false, true⟩)
    else
      pure ⟨store, false, false⟩

/-- Plain assignment. -/
def assignSimple (cx : Context) (used : Bool) (t : Target Operand) (value : Operand) :
    LowerM Lowered :=
  if t.isNative then assignNative cx used t value else assignByCall cx used t value

/-- Compound assignment to a target that may stand on the left of the operator. -/
def compoundNative (cx : Context) (op : BinaryOp) (t : Target Operand) (value : Operand) :
    LowerM Lowered :=
  sequenced (t.operands ++ [value]) do
    let a ← lowerAddress cx false t
    let v ← next cx {}
    let place ← liftExcept (t.native cx.names a.address)
    pure ⟨.compoundAssign op place v.expr, true, false⟩

/-- Compound assignment by a reading and a writing call, which share the operands. -/
def compoundByCall (cx : Context) (used : Bool) (op : BinaryOp) (t : Target Operand)
    (value : Operand) : LowerM Lowered :=
  sequenced (t.operands ++ [value]) do
    let a ← lowerAddress cx true t
    let load ← liftExcept (t.load cx.names (a.passed cx t.getter? 2))
    let old ← if (← get).pendingHasEffects cx then capture cx load else pure load
    let v ← next cx {}
    let sum := Script.Expr.binary op old v.expr
    let new ← if used || t.setterIsInline then capture cx sum else pure sum
    let stored := cx.copied t.ty true (if used then 2 else 1) new
    let store ← liftExcept (t.store cx.names (a.passed cx t.setter? 2) stored)
    if used then do
      push (.expr store)
      pure ⟨new, false, true⟩
    else
      pure ⟨store, false, false⟩

/-- Compound assignment. The receiver has no old value to speak of. -/
def assignCompound (cx : Context) (used : Bool) (assignOp : AssignOp) (op : BinaryOp)
    (t : Target Operand) (value : Operand) (span : Span) : LowerM Lowered :=
  if t.isReceiver then throw (.internal (.compoundReceiver assignOp) span)
  else if t.isNative then compoundNative cx op t value
  else compoundByCall cx used op t value

/-- An assignment, with operands that are ready to be lowered. -/
def lowerAssignmentOf (cx : Context) (usage : Usage) (a : Assignment Operand) (span : Span) :
    LowerM Lowered := do
  let t ← liftExcept (a.target.target cx)
  match a.op.binary? with
  | none => assignSimple cx usage.isUsed t a.value
  | some op => assignCompound cx usage.isUsed a.op op t a.value span

end AssignmentLowering
