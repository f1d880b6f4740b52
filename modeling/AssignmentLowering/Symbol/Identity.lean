import AssignmentLowering.Symbol.Digest

/-!
# Identities of types and members

Types and members are identified by 64-bit values computed from names alone, so
two parties that never met agree on them. A member mixes the identity of its
owner with the digest of its name. Indexers all carry the member name `Item`;
what tells them apart is the list of parameter types, folded in one by one with
a marker for each position.

## Main definitions

* `SymbolId` — an identity.
* `SymbolId.ofType`, `SymbolId.ofMember`, `SymbolId.ofIndexer` — how one is made.
* `SymbolId.text` — sixteen hexadecimal digits.
-/

namespace AssignmentLowering

/-- The identity of a type or a member. -/
structure SymbolId where
  val : UInt64
  deriving DecidableEq, Repr

namespace SymbolId

/-- Multiplier between the components of an identity; odd, so multiplying by it
loses nothing. -/
def separator : UInt64 := 0x4bc94d6bd06053ad

/-- Sets the identities of types apart. -/
def typeMark : UInt64 := 0x2fac10b63a6cc57c

/-- Sets the identities of members apart. -/
def memberMark : UInt64 := 0x7d3c8b4a92e15f6d

/-- Marker of the first parameter position. -/
def firstMark : UInt64 := 0x9e3779b97f4a7c15

/-- Markers of the first eight parameter positions. -/
def positionMarks : List UInt64 :=
  [firstMark, 0xbf58476d1ce4e5b9, 0x94d049bb133111eb, 0xd6e8feb86659fd93,
   0xe7037ed1a0b428db, 0xc6a4a7935bd1e995, 0x8648dbbc94d49b8d, 0xa2b48b2c69e0d657]

/-- The marker of a parameter position; from the ninth on it is counted up from the
first. -/
def positionMark (i : Nat) : UInt64 :=
  positionMarks[i]?.getD (firstMark + UInt64.ofNat i)

/-- The identity that belongs to no symbol. -/
def empty : SymbolId := ⟨0⟩

def isEmpty (id : SymbolId) : Bool := id = empty

/-- The identity of a type, from its qualified name. -/
def ofType (name : String) : SymbolId := ⟨typeMark ^^^ Digest.ofString name⟩

/-- The identity of a member, from its owner and its name. -/
def ofMember (owner : SymbolId) (name : String) : SymbolId :=
  ⟨memberMark ^^^ owner.val * separator ^^^ Digest.ofString name⟩

/-- Fold in the parameter types from position `i` on. -/
def addParams : Nat → UInt64 → List SymbolId → UInt64
  | _, h, [] => h
  | i, h, p :: ps => addParams (i + 1) (h * separator + (positionMark i ^^^ p.val)) ps

/-- The identity of an indexer, from its owner and its parameter types in order. -/
def ofIndexer (owner : SymbolId) (params : List SymbolId) : SymbolId :=
  ⟨addParams 0 (ofMember owner "Item").val params⟩

/-- All sixteen hexadecimal digits, after `0x`. -/
def text (id : SymbolId) : String :=
  let digits := Nat.toDigits 16 id.val.toNat
  String.ofList ('0' :: 'x' :: (List.replicate (16 - digits.length) '0' ++ digits))

end SymbolId
end AssignmentLowering
