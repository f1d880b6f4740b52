import AssignmentLowering.Lowering.Sequence
import AssignmentLowering.Target.Access

/-!
# Lowering the operands of a target

The receiver comes first, then the index arguments in the order of the text, and
last the defaults of arguments left out. Since the arguments end up in declared
order, one with effects that ends up behind a later one is captured, unless the
later one does not mind.

## Main definitions

* `LoweredAddress` — a target's operands, lowered.
* `lowerAddress` — how they are lowered.
* `LoweredAddress.passed` — the operands as an accessor gets them.
-/

namespace AssignmentLowering

/-- An index argument in script, with the type of its parameter. -/
structure IndexValue where
  expr : Script.Expr
  ty : TypeRef
  fresh : Bool

/-- A target's operands in script, the index arguments in declared order. -/
structure LoweredAddress where
  object : Option Script.Expr
  args : List IndexValue

namespace LoweredAddress

/-- The operands as they are. -/
def address (a : LoweredAddress) : Address := ⟨a.object, a.args.map (·.expr)⟩

/-- The operands as an accessor gets them. To run code is to pass arguments, which may
need copies; a native subscript takes its index as it is. -/
def passed (cx : Context) (accessor : Option Accessor) (uses : Nat) (a : LoweredAddress) :
    Address :=
  if accessor.any Accessor.runsCode then
    ⟨a.object, a.args.map fun v => cx.copied v.ty v.fresh uses v.expr⟩
  else a.address

end LoweredAddress

open Sequence

/-- Whether an argument has effects and ends up behind a later one that minds them. -/
def isReorderHazard (md : Metadata) (declared : Nat) (o : Operand)
    (later : List (Nat × Operand)) : Bool :=
  o.hasEffects md &&
    later.any fun (declared', o') => declared' < declared && !o'.expr.isInvariant [o.expr]

/-- Lower the written arguments in the order of the text; each result goes with the
declared index. -/
def lowerCallSite (cx : Context) (reuse : Bool) :
    List (Nat × Operand) → SequenceM (List (Nat × Value))
  | [] => pure []
  | (declared, o) :: later => do
    let v ← next cx ⟨reuse, isReorderHazard cx.metadata declared o later⟩
    let vs ← lowerCallSite cx reuse later
    pure ((declared, v) :: vs)

/-- Lower an operand apart from the sequence, so that it can be used more than once if
need be. -/
def lowerAside (cx : Context) (reuse : Bool) (o : Operand) : SequenceM Value := do
  let v ← aside o
  if reuse && !v.expr.isReusable then
    pure { v with expr := ← capture cx v.expr }
  else
    pure v

/-- The arguments in declared order: those already lowered, the others lowered now. -/
def lowerArgs (cx : Context) (reuse : Bool) (supplied : List (Nat × Value)) :
    Nat → List (IndexArg Operand) → SequenceM (List IndexValue)
  | _, [] => pure []
  | declared, arg :: rest => do
    let v ← match supplied.lookup declared with
      | some v => pure v
      | none => lowerAside cx reuse arg.value
    let vs ← lowerArgs cx reuse supplied (declared + 1) rest
    pure (⟨v.expr, arg.ty, v.fresh⟩ :: vs)

/-- Lower the object of a target, if it has one. -/
def lowerObject (cx : Context) (reuse : Bool) (t : Target Operand) :
    SequenceM (Option Script.Expr) :=
  match t.receiver with
  | some _ => do
    let v ← next cx ⟨reuse, false⟩
    pure (some v.expr)
  | none => pure none

/-- Lower the operands of a target. The sequence must start with them; `reuse` tells
that they are needed more than once. -/
def lowerAddress (cx : Context) (reuse : Bool) (t : Target Operand) :
    SequenceM LoweredAddress := do
  let object ← lowerObject cx reuse t
  let supplied ← lowerCallSite cx reuse t.callSite
  let args ← lowerArgs cx reuse supplied 0 t.args
  pure ⟨object, args⟩

end AssignmentLowering
