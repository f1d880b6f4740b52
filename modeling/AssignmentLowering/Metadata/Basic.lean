import AssignmentLowering.Symbol.Basic

/-!
# How types and members appear in script

Lowering never decides on its own how a type is copied or how a member is
spelled; it asks. The answers come from any four functions, gathered in
`Metadata`. An accessor pair whose halves are both subscripts says the same as a
subscript, and `PropertyBinding.normalized` picks one way of saying it.

## Main definitions

* `CopySemantics` — whether values of a type are shared or copied.
* `Accessor`, `PropertyBinding`, `MethodBinding` — how members are bound to script.
* `Metadata` — the questions that lowering asks.
-/

namespace AssignmentLowering

/-- What assignment does to a value of a type. -/
inductive CopySemantics where
  /-- Instances are shared by reference. -/
  | reference
  /-- A value type whose instances never change, so sharing goes unnoticed. -/
  | immutable
  /-- A value type whose instances change; each place needs its own copy, made with
  the conversion of this name. -/
  | mutable (tag : String)
  deriving DecidableEq, Repr

def CopySemantics.isValueType : CopySemantics → Bool
  | reference => false
  | immutable | mutable _ => true

/-- How one half of a property is bound. -/
inductive Accessor where
  /-- A method of the object. -/
  | method (name : String)
  /-- A template of script text. -/
  | inline (template : String)
  /-- A native subscript of the object. -/
  | subscript
  deriving DecidableEq, Repr

namespace Accessor

def isInline : Accessor → Bool
  | inline _ => true
  | method _ | subscript => false

/-- Whether using the accessor runs script code of its own. -/
def runsCode : Accessor → Bool
  | method _ | inline _ => true
  | subscript => false

end Accessor

/-- How a property or indexer is bound to script. -/
inductive PropertyBinding where
  /-- A script field. -/
  | field (name : String)
  | accessors (getter setter : Accessor)
  /-- A native subscript, for reading and writing. -/
  | subscript
  /-- Nothing in script corresponds to it. -/
  | unusable
  deriving DecidableEq, Repr

namespace PropertyBinding

/-- A pair of subscripts is a subscript. -/
def normalized : PropertyBinding → PropertyBinding
  | accessors .subscript .subscript => subscript
  | binding => binding

@[simp] theorem normalized_normalized (b : PropertyBinding) :
    b.normalized.normalized = b.normalized := by
  cases b with
  | accessors g s => cases g <;> cases s <;> rfl
  | _ => rfl

def isField : PropertyBinding → Bool
  | field _ => true
  | _ => false

end PropertyBinding

/-- How a method is bound to script. -/
inductive MethodBinding where
  | method (name : String)
  /-- A template of script text. -/
  | inline (template : String)
  /-- Nothing in script corresponds to it. -/
  | unusable
  deriving DecidableEq, Repr

/-- Everything that lowering asks about types and members. -/
structure Metadata where
  semantics : TypeRef → CopySemantics
  property : Property → PropertyBinding
  fieldName : Field → String
  method : Method → MethodBinding

namespace Metadata

/-- The binding of a property in normal form. -/
def binding (md : Metadata) (p : Property) : PropertyBinding := (md.property p).normalized

@[simp] theorem normalized_binding (md : Metadata) (p : Property) :
    (md.binding p).normalized = md.binding p := by simp [binding]

/-- Answers about some properties, given as they stand before `md` is asked. Of two
answers about one property the later counts. -/
def overriding (md : Metadata) (answers : List (Property × PropertyBinding)) : Metadata :=
  { md with
    property := fun p =>
      ((answers.reverse.find? fun a => a.1.id = p.id).map (·.2)).getD (md.property p) }

end Metadata
end AssignmentLowering
