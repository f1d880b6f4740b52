import AssignmentLowering.Diagnostic
import AssignmentLowering.Target.Basic

/-!
# From places to targets

Classification asks metadata how a place is bound to script and puts its operands
in order; it lowers nothing. It works on places with any sort of operand whose type
can be told.

Arguments of an indexer are bound to its parameters as in a call: unnamed ones fill
the parameters from the left, named ones go to the first parameter of that name, and
a parameter that gets none takes its default.

## Main definitions

* `EnclosingMember` — the member whose body is lowered.
* `bindArguments` — arguments bound to parameters, in declared order.
* `Target.classify` — the target that a place is.
-/

namespace AssignmentLowering

/-- The member whose body is lowered: the type of the current object, and whether the
object is still being constructed. -/
structure EnclosingMember where
  ty : TypeRef
  isConstructor : Bool := false
  deriving DecidableEq, Repr

variable {ε : Type}

/-- The storage that a binding amounts to. -/
def PropertyBinding.storage? (b : PropertyBinding) : Option Storage :=
  match b.normalized with
  | field name => some (.field name)
  | accessors getter setter => some (.accessors getter setter)
  | subscript => some .subscript
  | unusable => none

/-- The storage of a property, if it has one. -/
def storageOf (b : PropertyBinding) (p : Property) (span : Span) :
    Except LoweringError Storage :=
  match b.storage? with
  | some storage => .ok storage
  | none => .error (.memberNotUsable p.qualifiedName span)

/-- A parameter on its way to an argument. -/
structure Slot (ε : Type) where
  param : Param
  fallback : Option ε
  arg : Option (IndexArg ε)

namespace Slot

/-- The parameters of a property, all without an argument. -/
def emptyList (params : List Param) (defaults : List (Option ε)) : List (Slot ε) :=
  params.zipIdx.map fun (param, i) => ⟨param, defaults[i]?.join, none⟩

/-- The argument, or else the default. -/
def close (span : Span) (s : Slot ε) : Except LoweringError (IndexArg ε) :=
  match s.arg, s.fallback with
  | some arg, _ => .ok arg
  | none, some e => .ok ⟨e, s.param.ty, none⟩
  | none, none => .error (.internal (.missingArgument s.param.name) span)

end Slot

/-- The declared index of an argument, where the next unnamed one goes to `next`. -/
def declaredIndex (p : Property) (next : Nat) (a : Argument ε) : Except LoweringError Nat :=
  match a.name with
  | none => .ok next
  | some name =>
    match p.params.findIdx? fun q => q.name = name with
    | some declared => .ok declared
    | none => .error (.internal (.unknownParameter name p.qualifiedName) a.span)

/-- Put the argument written at `position` into the slot of its parameter. -/
def fillSlot (p : Property) (declared position : Nat) (a : Argument ε)
    (slots : List (Slot ε)) : Except LoweringError (List (Slot ε)) :=
  match slots[declared]? with
  | none => .error (.internal (.tooManyArguments p.qualifiedName) a.span)
  | some ⟨param, _, some _⟩ => .error (.internal (.parameterTwice param.name) a.span)
  | some ⟨param, fallback, none⟩ =>
    .ok (slots.set declared ⟨param, fallback, some ⟨a.value, param.ty, some position⟩⟩)

/-- Put the arguments from `position` on into the slots of their parameters. -/
def fillSlots (p : Property) :
    (position next : Nat) → List (Argument ε) → List (Slot ε) →
      Except LoweringError (List (Slot ε))
  | _, _, [], slots => .ok slots
  | position, next, a :: rest, slots => do
    let declared ← declaredIndex p next a
    let slots ← fillSlot p declared position a slots
    fillSlots p (position + 1) (if a.name.isNone then next + 1 else next) rest slots

/-- Arguments bound to the parameters of an indexer, in declared order. -/
def bindArguments (p : Property) (defaults : List (Option ε)) (args : List (Argument ε))
    (span : Span) : Except LoweringError (List (IndexArg ε)) := do
  let slots ← fillSlots p 0 0 args (Slot.emptyList p.params defaults)
  slots.mapM (Slot.close span)

/-- Indexers chosen at run time take no named arguments. -/
def rejectNamed (args : List (Argument ε)) (span : Span) : Except LoweringError Unit :=
  if args.any (·.name.isSome) then .error (.namedArguments span) else .ok ()

namespace Target

/-- A target that belongs to no object, read and written directly. -/
def plain (kind : TargetKind) (ty : TypeRef) (span : Span) : Target ε := { kind, ty, span }

/-- Reach the target through a receiver. -/
def through (r : Receiver ε) (t : Target ε) : Target ε :=
  match r with
  | .object e => { t with receiver := some e }
  | .static owner => { t with staticOwner := some owner }
  | .base declaring => { t with dispatch := .bound declaring }

/-- The receiver is assignable where it is a value that may change here. -/
def ofThis (md : Metadata) (enclosing : EnclosingMember) (ty : TypeRef) (span : Span) :
    Except LoweringError (Target ε) :=
  match md.semantics enclosing.ty with
  | .mutable _ => .ok (plain .receiver ty span)
  | .immutable =>
    if enclosing.isConstructor then .ok (plain .receiver ty span)
    else .error (.immutableReceiver enclosing.ty.name span)
  | .reference => .error (.referenceReceiver enclosing.ty.name span)

/-- A plain property; a subscript makes no sense for it. -/
def ofProperty (md : Metadata) (r : Receiver ε) (p : Property) (span : Span) :
    Except LoweringError (Target ε) := do
  let storage ← storageOf (md.property p) p span
  if storage = .subscript then
    .error (.internal (.notIndexer p.qualifiedName) span)
  else
    let kind := if r.isStatic then .staticProperty else .instanceProperty
    .ok { (plain kind p.ty span).through r with storage }

/-- An indexer. Candidates to choose from at run time must agree in how they are bound;
the first then stands for all. -/
def ofIndexer (md : Metadata) (typeOf : ε → TypeRef) (r : Receiver ε)
    (target : IndexerTarget ε) (args : List (Argument ε)) (ty : TypeRef) (span : Span) :
    Except LoweringError (Target ε) :=
  let base := (plain .indexer ty span).through r
  match target with
  | .resolved p defaults => do
    let storage ← storageOf (md.property p) p span
    let args ← bindArguments p defaults args span
    .ok { base with storage, args, paramNames := p.params.map (·.name) }
  | .candidates ps => do
    rejectNamed args span
    match ps with
    | [] => .error (.internal .noCandidates span)
    | p :: others =>
      if others.any fun q => md.property q ≠ md.property p then
        .error (.ambiguousCandidates p.owner.name span)
      else
        let storage ← storageOf (md.property p) p span
        .ok { base with
          storage, args := IndexArg.inOrder typeOf (args.map (·.value)),
          paramNames := p.params.map (·.name) }

/-- An array element; the number of indices is the rank of the array. -/
def ofElement (typeOf : ε → TypeRef) (array : ε) (indices : List ε) (ty : TypeRef)
    (span : Span) : Except LoweringError (Target ε) :=
  let element kind : Target ε :=
    { kind, receiver := some array, args := IndexArg.inOrder typeOf indices, ty, span }
  match indices with
  | [] => .error (.internal .elementWithoutIndices span)
  | [_] => .ok (element .element)
  | _ => .ok (element .multiElement)

/-- A subscript of a dynamic object, with exactly one index. -/
def ofDynamicIndex (typeOf : ε → TypeRef) (object : ε) (args : List (Argument ε))
    (span : Span) : Except LoweringError (Target ε) := do
  rejectNamed args span
  if args.length ≠ 1 then
    .error (.dynamicArity args.length span)
  else
    .ok {
      kind := .dynamicIndex, receiver := some object
      args := IndexArg.inOrder typeOf (args.map (·.value)), ty := .dynamic, span }

/-- The target that a place is. -/
def ofPlace (md : Metadata) (enclosing : EnclosingMember) (typeOf : ε → TypeRef)
    (span : Span) : Place ε → Except LoweringError (Target ε)
  | .localVar l => .ok (plain (if l.byRef then .cell l.name else .localVar l.name) l.ty span)
  | .this ty => ofThis md enclosing ty span
  | .field r f =>
    let kind := if r.isStatic then .staticField else .instanceField
    .ok { (plain kind f.ty span).through r with storage := .field (md.fieldName f) }
  | .property r p => ofProperty md r p span
  | .indexer r target args ty => ofIndexer md typeOf r target args ty span
  | .element array indices ty => ofElement typeOf array indices ty span
  | .dynamicMember object name =>
    .ok { kind := .dynamicMember name, receiver := some object, ty := .dynamic, span }
  | .dynamicIndex object args => ofDynamicIndex typeOf object args span

/-- The target of an assignment; only a place can be one. -/
def classify (md : Metadata) (enclosing : EnclosingMember) (typeOf : ε → TypeRef)
    (span : Span) : Option (Place ε) → Except LoweringError (Target ε)
  | some p => ofPlace md enclosing typeOf span p
  | none => .error (.internal .notAssignable span)

end Target

/-- The target that an expression is. -/
def Expr.target (md : Metadata) (enclosing : EnclosingMember) (e : Expr) :
    Except LoweringError (Target Expr) :=
  Target.classify md enclosing Expr.ty e.span e.form.place?

end AssignmentLowering
