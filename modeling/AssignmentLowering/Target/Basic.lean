import AssignmentLowering.Expr.Basic
import AssignmentLowering.Metadata.Basic
import AssignmentLowering.Target.Kind

/-!
# Assignment targets

A target is a place about which everything is known that reading or writing it
takes: what kind of storage it is, the operands that address it, and how metadata
binds it to script. Index arguments are kept in declared order, each with its
position in the text if it was written there; from these positions the order of
evaluation is recovered.

## Main definitions

* `Storage`, `Dispatch` — how a target is reached in script.
* `IndexArg` — an index argument.
* `Target` — a target.
* `Target.callSite`, `Target.operands` — what is evaluated, in the order of the text.
* `Target.isNative`, `Target.loadIsFresh` — what can be said without emitting script.
-/

namespace AssignmentLowering

/-- How a target is read and written in script. -/
inductive Storage where
  /-- As the language itself does it for this kind of target. -/
  | direct
  | field (name : String)
  | accessors (getter setter : Accessor)
  | subscript
  deriving DecidableEq, Repr

/-- Which implementation of a member is meant. -/
inductive Dispatch where
  /-- That of the object's run-time type. -/
  | dynamic
  /-- That of the given type. -/
  | bound (declaring : TypeRef)
  deriving DecidableEq, Repr

/-- An index argument: its value, the type of its parameter, and where it stands in
the text; nowhere, if it is the default of an argument left out. -/
structure IndexArg (ε : Type) where
  value : ε
  ty : TypeRef
  position : Option Nat

/-- A place with everything that reading or writing it takes. -/
structure Target (ε : Type) where
  kind : TargetKind
  /-- The object that is evaluated first. -/
  receiver : Option ε := none
  /-- The type through which a static member is reached. -/
  staticOwner : Option TypeRef := none
  /-- Index arguments in declared order. -/
  args : List (IndexArg ε) := []
  /-- The parameters' names, by which templates refer to arguments. -/
  paramNames : List String := []
  storage : Storage := .direct
  dispatch : Dispatch := .dynamic
  /-- The type of what is stored. -/
  ty : TypeRef
  span : Span

variable {ε δ : Type}

namespace Storage

def getter? : Storage → Option Accessor
  | accessors getter _ => some getter
  | direct | field _ | subscript => none

def setter? : Storage → Option Accessor
  | accessors _ setter => some setter
  | direct | field _ | subscript => none

end Storage

/-- Write the same arguments in the order given, with their own types. -/
def IndexArg.inOrder (typeOf : ε → TypeRef) (es : List ε) : List (IndexArg ε) :=
  es.zipIdx.map fun (e, i) => ⟨e, typeOf e, some i⟩

def IndexArg.map (f : ε → δ) (a : IndexArg ε) : IndexArg δ := ⟨f a.value, a.ty, a.position⟩

namespace Target

def map (f : ε → δ) (t : Target ε) : Target δ :=
  { t with receiver := t.receiver.map f, args := t.args.map (·.map f) }

def getter? (t : Target ε) : Option Accessor := t.storage.getter?

def setter? (t : Target ε) : Option Accessor := t.storage.setter?

/-- Whether the target may stand on the left of `=` in script. -/
def isNative (t : Target ε) : Bool :=
  match t.kind, t.storage with
  | .multiElement, _ | .receiver, _ => false
  | _, .accessors .. => false
  | _, _ => true

def isReceiver (t : Target ε) : Bool := t.kind = .receiver

def getterIsInline (t : Target ε) : Bool := t.getter?.any Accessor.isInline

def setterIsInline (t : Target ε) : Bool := t.setter?.any Accessor.isInline

/-- Whether reading the target runs code, so that the value is a new instance. -/
def loadIsFresh (t : Target ε) : Bool := t.getter?.any Accessor.runsCode

/-- The argument written at `position` in the text, with its declared index. -/
def argAt? (t : Target ε) (position : Nat) : Option (Nat × ε) :=
  t.args.zipIdx.findSome? fun (a, declared) =>
    if a.position = some position then some (declared, a.value) else none

/-- The written arguments in the order of the text, with their declared indices. -/
def callSite (t : Target ε) : List (Nat × ε) :=
  (List.range t.args.length).filterMap t.argAt?

/-- What is evaluated to find the target, in the order of the text: the receiver,
then the written arguments. -/
def operands (t : Target ε) : List ε := t.receiver.toList ++ t.callSite.map (·.2)

end Target
end AssignmentLowering
