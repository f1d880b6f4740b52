import AssignmentLowering.Metadata.Basic

/-!
# Registered answers

The usual source of metadata: what was registered, and naming rules for the rest.
Registrations are kept under the identity of their symbol, the latest first, so a
look-up finds what was registered last. A type that was never registered is a
reference type.

## Main definitions

* `Naming` — the names of members without a registration.
* `Registry` — the registrations, with one `register` function for each kind.
* `Registry.metadata` — the answers.
-/

namespace AssignmentLowering

/-- Names of members without a registration. -/
structure Naming where
  member : String := "$"
  getter : String := "get_"
  setter : String := "set_"
  deriving DecidableEq, Repr

namespace Naming

def memberName (n : Naming) (name : String) : String := n.member ++ name

def getterName (n : Naming) (name : String) : String := n.getter ++ n.memberName name

def setterName (n : Naming) (name : String) : String := n.setter ++ n.memberName name

end Naming

/-- Registrations, the latest first, and names for everything else. -/
structure Registry where
  types : List (SymbolId × CopySemantics) := []
  properties : List (SymbolId × PropertyBinding) := []
  fields : List (SymbolId × String) := []
  methods : List (SymbolId × MethodBinding) := []
  naming : Naming := {}

namespace Registry

/-- Choose other names; registrations stay. -/
def withNaming (r : Registry) (naming : Naming) : Registry := { r with naming }

def registerType (r : Registry) (t : TypeRef) (semantics : CopySemantics) : Registry :=
  { r with types := (t.id, semantics) :: r.types }

/-- Bindings are kept in normal form. -/
def registerProperty (r : Registry) (p : Property) (binding : PropertyBinding) : Registry :=
  { r with properties := (p.id, binding.normalized) :: r.properties }

def registerField (r : Registry) (f : Field) (name : String) : Registry :=
  { r with fields := (f.id, name) :: r.fields }

def registerMethod (r : Registry) (m : Method) (binding : MethodBinding) : Registry :=
  { r with methods := (m.id, binding) :: r.methods }

def semantics (r : Registry) (t : TypeRef) : CopySemantics :=
  (r.types.lookup t.id).getD .reference

def property (r : Registry) (p : Property) : PropertyBinding :=
  (r.properties.lookup p.id).getD
    (.accessors (.method (r.naming.getterName p.name)) (.method (r.naming.setterName p.name)))

def fieldName (r : Registry) (f : Field) : String :=
  (r.fields.lookup f.id).getD (r.naming.memberName f.name)

def method (r : Registry) (m : Method) : MethodBinding :=
  (r.methods.lookup m.id).getD (.method (r.naming.memberName m.name))

/-- The answers of a registry. -/
def metadata (r : Registry) : Metadata where
  semantics := r.semantics
  property := r.property
  fieldName := r.fieldName
  method := r.method

/-- A look-up in a list of registrations, after one more. -/
theorem getD_lookup_cons {κ β : Type} [DecidableEq κ] (k k' : κ) (v d : β)
    (rest : List (κ × β)) :
    (((k, v) :: rest).lookup k').getD d = if k' = k then v else (rest.lookup k').getD d := by
  by_cases h : k' = k
  · simp [h]
  · simp [List.lookup_cons, beq_false_of_ne h, h]

/-- The registration of a type decides about every type of its identity. -/
theorem semantics_registerType (r : Registry) (t u : TypeRef) (s : CopySemantics) :
    (r.registerType t s).semantics u = if u.id = t.id then s else r.semantics u :=
  getD_lookup_cons ..

/-- The registration of a property decides about every property of its identity. -/
theorem property_registerProperty (r : Registry) (p q : Property) (b : PropertyBinding) :
    (r.registerProperty p b).property q = if q.id = p.id then b.normalized else r.property q :=
  getD_lookup_cons ..

/-- The registration of a field decides about every field of its identity. -/
theorem fieldName_registerField (r : Registry) (f g : Field) (name : String) :
    (r.registerField f name).fieldName g = if g.id = f.id then name else r.fieldName g :=
  getD_lookup_cons ..

/-- The registration of a method decides about every method of its identity. -/
theorem method_registerMethod (r : Registry) (m n : Method) (b : MethodBinding) :
    (r.registerMethod m b).method n = if n.id = m.id then b else r.method n :=
  getD_lookup_cons ..

end Registry
end AssignmentLowering
