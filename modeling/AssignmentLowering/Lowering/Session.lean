import AssignmentLowering.Lowering.Expr

/-!
# Lowering the assignments of a body

The assignments of one body are lowered one after the other. They share the
numbering of temporaries and one collection of diagnostics. An assignment that
cannot be lowered is reported once and leaves nothing behind, so the next one can be
tried all the same.

## Main definitions

* `Session` — what the assignments of a body share.
* `LoweredAssignment` — what one assignment contributes.
* `Session.assign` — lowering one assignment.
-/

namespace AssignmentLowering

/-- What an assignment contributes to the body: statements to run, and an expression for
its value if that is wanted. -/
structure LoweredAssignment where
  statements : List Script.Stmt := []
  result : Option Script.Expr := none

def LoweredAssignment.isEmpty (a : LoweredAssignment) : Bool :=
  a.statements.isEmpty && a.result.isNone

/-- The contribution of a lowered assignment. A value that is not wanted is evaluated all
the same, for its effects. -/
def LoweredAssignment.ofLowered (usage : Usage) (v : Lowered) : LoweredAssignment :=
  match usage with
  | .used => ⟨v.stmts, some v.expr⟩
  | .discarded => ⟨v.stmts ++ [.expr v.expr], none⟩

/-- The count of temporaries and the diagnostics of a body so far. -/
structure Session where
  temps : Nat := 0
  diagnostics : Diagnostics := {}

/-- Lower an assignment; report the error if that fails. -/
def Session.assign (cx : Context) (usage : Usage) (a : Assignment Expr) (span : Span)
    (s : Session) : LoweredAssignment × Session :=
  match lowerAssignment cx usage a span s.temps with
  | .ok v temps => (.ofLowered usage v, { s with temps })
  | .error e temps => ({}, ⟨temps, s.diagnostics.report (.ofError e)⟩)

end AssignmentLowering
