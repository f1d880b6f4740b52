/-!
# Kinds of assignment targets

What sort of storage a target is. Whether it is read and written natively, by
methods or by templates is a separate matter, told by its storage.

## Main definitions

* `TargetKind` — the kinds; those that are found by name carry it.
* `TargetKind.label` — the name of a kind in error texts.
-/

namespace AssignmentLowering

/-- The sort of storage that a target is. -/
inductive TargetKind where
  | localVar (name : String)
  /-- A by-reference variable; the value is a member of a cell. -/
  | cell (name : String)
  | instanceField
  | staticField
  | instanceProperty
  | staticProperty
  | indexer
  /-- An element of an array with one index. -/
  | element
  /-- An element of an array with several indices. -/
  | multiElement
  | dynamicMember (name : String)
  | dynamicIndex
  /-- The object that the code belongs to, as a value. -/
  | receiver
  deriving DecidableEq, Repr

/-- The name of a kind in error texts. -/
def TargetKind.label : TargetKind → String
  | localVar _ => "Local"
  | cell _ => "RefLocal"
  | instanceField => "InstanceField"
  | staticField => "StaticField"
  | instanceProperty => "InstanceProperty"
  | staticProperty => "StaticProperty"
  | indexer => "InstanceIndexer"
  | element => "NativeArrayElement"
  | multiElement => "MultiDimArrayElement"
  | dynamicMember _ => "DynamicMember"
  | dynamicIndex => "DynamicIndexer"
  | receiver => "ThisOfValueType"

end AssignmentLowering
