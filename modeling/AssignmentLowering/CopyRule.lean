import AssignmentLowering.Metadata.Basic
import AssignmentLowering.RuntimeNames
import AssignmentLowering.Script.Basic

/-!
# When values are copied

A value of a mutable value type must never be in two places at once. It is copied
when it is stored or passed, unless it is fresh, that is, a new instance nobody
else has, and used only this once.

## Main definitions

* `CopySemantics.tag?` — the conversion for copies, if copies are needed at all.
* `CopySemantics.cloneTag?` — the conversion for this use, if it needs a copy.
* `clone` — the copying call.
-/

namespace AssignmentLowering

namespace CopySemantics

/-- The conversion that makes copies, for types that need them. -/
def tag? : CopySemantics → Option String
  | reference | immutable => none
  | mutable tag => some tag

/-- The conversion that copies a value that will be used `uses` times, if one of the
uses could see a change made through another. -/
def cloneTag? (s : CopySemantics) (fresh : Bool) (uses : Nat) : Option String :=
  if fresh && uses = 1 then none else s.tag?

@[simp] theorem cloneTag?_fresh (s : CopySemantics) : s.cloneTag? true 1 = none := rfl

theorem cloneTag?_of_ne_one {s : CopySemantics} {fresh : Bool} {uses : Nat} (h : uses ≠ 1) :
    s.cloneTag? fresh uses = s.tag? := by simp [cloneTag?, h]

@[simp] theorem cloneTag?_of_not_fresh (s : CopySemantics) (uses : Nat) :
    s.cloneTag? false uses = s.tag? := rfl

end CopySemantics

/-- `helper(value, {tag})` -/
def clone (names : RuntimeNames) (value : Script.Expr) (tag : String) : Script.Expr :=
  .call (.ident names.clone) [value, .typeHandle tag]

/-- The value as it is handed over: copied, if the rule asks for it. -/
def copied (names : RuntimeNames) (s : CopySemantics) (fresh : Bool) (uses : Nat)
    (value : Script.Expr) : Script.Expr :=
  match s.cloneTag? fresh uses with
  | some tag => clone names value tag
  | none => value

end AssignmentLowering
