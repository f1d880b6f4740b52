import AssignmentLowering.CopyRule
import AssignmentLowering.Expr.Effects
import AssignmentLowering.Target.Classify

/-!
# Lowering, its state and its results

Lowering an expression yields a script expression and the statements that must run
before it. Temporaries are numbered through a whole body, so the one thing carried
from step to step is how many have been handed out. A failed step keeps the numbers
it used; the next one goes on behind them.

## Main definitions

* `Context` — what does not change within a body.
* `Temporary.name` — the names of temporaries.
* `Value`, `Lowered` — a value in script, and with the statements it needs.
* `LowerM` — steps that count temporaries and may fail.
* `Operand` — a subexpression that can be lowered when its turn comes.
-/

namespace AssignmentLowering

namespace Temporary

/-- The name of the `n`-th temporary, counted from one. -/
def name (stem : String) (n : Nat) : String := stem ++ toString n

/-- The names of the first `count` temporaries. -/
def names (stem : String) (count : Nat) : List String :=
  (List.range count).map fun i => name stem (i + 1)

end Temporary

/-- What stays the same while a body is lowered. -/
structure Context where
  metadata : Metadata
  names : RuntimeNames := {}
  enclosing : EnclosingMember
  /-- What the names of temporaries begin with. It is chosen once for a body. -/
  tempStem : String := names.temp

namespace Context

/-- A value of type `ty` as it is stored or passed. -/
def copied (cx : Context) (ty : TypeRef) (fresh : Bool) (uses : Nat) (value : Script.Expr) :
    Script.Expr :=
  AssignmentLowering.copied cx.names (cx.metadata.semantics ty) fresh uses value

/-- `null` where values are shared, the runtime's default of the type where not. -/
def defaultValue (cx : Context) (ty : TypeRef) : Script.Expr :=
  match cx.metadata.semantics ty with
  | .reference => .null
  | .immutable | .mutable _ => .call (.ident cx.names.defaultValue) [.typeHandle ty.name]

end Context

/-- A value in script. It is fresh if it is a new instance nobody else has, and stable
if it is a constant or a temporary, so that nothing can change it any more. -/
structure Value where
  expr : Script.Expr
  fresh : Bool
  stable : Bool
  deriving DecidableEq

/-- A value in script and the statements to run before it is evaluated. -/
structure Lowered extends Value where
  stmts : List Script.Stmt := []
  deriving DecidableEq

/-- Steps that count the temporaries handed out so far and may fail. -/
abbrev LowerM := EStateM LoweringError Nat

/-- A subexpression that is lowered when its turn comes. If it is a place, the operands
of that place are at hand as well. -/
structure Operand where
  expr : Expr
  lower : LowerM Lowered
  place? : Option (Place Operand)

namespace Operand

def ty (o : Operand) : TypeRef := o.expr.ty

def hasEffects (md : Metadata) (o : Operand) : Bool := o.expr.hasEffects md

/-- The target that an operand is. -/
def target (cx : Context) (o : Operand) : Except LoweringError (Target Operand) :=
  Target.classify cx.metadata cx.enclosing Operand.ty o.expr.span o.place?

end Operand

/-- A computation that needs no state, as a step. -/
def liftExcept {σ α : Type} : Except LoweringError α → EStateM LoweringError σ α
  | .ok a => pure a
  | .error e => throw e

/-- Two steps run one after the other, unless the first one fails. -/
theorem bind_apply {ε σ α β : Type} (x : EStateM ε σ α) (f : α → EStateM ε σ β) (s : σ) :
    (x >>= f) s =
      match x s with
      | .ok a s => f a s
      | .error e s => .error e s := by
  change EStateM.bind x f s = _
  delta EStateM.bind
  cases x s <;> rfl

end AssignmentLowering
