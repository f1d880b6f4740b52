import AssignmentLowering.Symbol.Identity

/-!
# Symbols

What name resolution leaves behind: types, locals and members as plain data.
Every member knows the type that declares it, and from that, its name and (for
an indexer) its parameter types, its identity is computed.

## Main definitions

* `TypeRef` — a type, by its qualified name.
* `Local`, `Field`, `Property`, `Method` — resolved symbols.
* `Param` — a declared parameter.
-/

namespace AssignmentLowering

/-- A type, by its qualified name. -/
structure TypeRef where
  name : String
  deriving DecidableEq, Repr, Inhabited

namespace TypeRef

/-- The type of everything that is only resolved at run time. -/
def dynamic : TypeRef := ⟨"dynamic"⟩

def isDynamic (t : TypeRef) : Bool := t = dynamic

def id (t : TypeRef) : SymbolId := .ofType t.name

end TypeRef

/-- A local variable or parameter, under the name it has in script. A by-reference
local shares its storage with the caller, so anybody may change it. -/
structure Local where
  name : String
  ty : TypeRef
  byRef : Bool := false
  deriving DecidableEq, Repr

/-- A declared parameter of an indexer or method. -/
structure Param where
  name : String
  ty : TypeRef
  deriving DecidableEq, Repr

/-- A field. -/
structure Field where
  name : String
  owner : TypeRef
  ty : TypeRef
  deriving DecidableEq, Repr

/-- A property, or an indexer with its parameters in declared order. -/
structure Property where
  name : String
  owner : TypeRef
  ty : TypeRef
  params : List Param := []
  isIndexer : Bool := false
  deriving DecidableEq, Repr

/-- A method with its parameters in declared order. -/
structure Method where
  name : String
  owner : TypeRef
  returns : TypeRef
  params : List Param := []
  deriving DecidableEq, Repr

namespace Field

def id (f : Field) : SymbolId := .ofMember f.owner.id f.name

end Field

namespace Property

/-- Indexers are told apart by their parameter types, other properties by name. -/
def id (p : Property) : SymbolId :=
  if p.isIndexer then .ofIndexer p.owner.id (p.params.map (·.ty.id))
  else .ofMember p.owner.id p.name

/-- `Owner.Name`, as errors write it. -/
def qualifiedName (p : Property) : String := p.owner.name ++ "." ++ p.name

end Property

namespace Method

/-- The parameters take no part, so overloads share one identity. -/
def id (m : Method) : SymbolId := .ofMember m.owner.id m.name

/-- `Owner.Name`, as errors write it. -/
def qualifiedName (m : Method) : String := m.owner.name ++ "." ++ m.name

end Method
end AssignmentLowering
