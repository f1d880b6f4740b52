import AssignmentLowering.Operator
import AssignmentLowering.Span
import AssignmentLowering.Target.Kind

/-!
# Errors and diagnostics

A lowering error is a cause and a place. Some causes are limits of the language;
all others mean that the tree breaks a promise of name resolution or that a
template is malformed, and are gathered in `Fault`. What an error says is decided
here and nowhere else. Errors reach the user as diagnostics, kept in the order in
which they were reported.

## Main definitions

* `ErrorCode` — the stable numbers of errors.
* `Fault`, `LoweringError` — causes, with `message`, `code` and `span`.
* `Diagnostic`, `Diagnostics` — what is reported.
-/

namespace AssignmentLowering

/-- The kinds of errors, by the numbers that users see. -/
inductive ErrorCode where
  | memberNotUsable
  | namedArguments
  | dynamicArity
  | ambiguousCandidates
  | referenceReceiver
  | immutableReceiver
  | internal
  deriving DecidableEq, Repr

namespace ErrorCode

def number : ErrorCode → Nat
  | memberNotUsable => 7501
  | namedArguments => 7526
  | dynamicArity => 7528
  | ambiguousCandidates => 7532
  | referenceReceiver => 7537
  | immutableReceiver => 7538
  | internal => 7999

/-- All codes. -/
def all : List ErrorCode :=
  [memberNotUsable, namedArguments, dynamicArity, ambiguousCandidates, referenceReceiver,
   immutableReceiver, internal]

/-- The code with a given number. -/
def ofNumber? (n : Nat) : Option ErrorCode := all.find? (·.number = n)

def text (c : ErrorCode) : String := "SJ" ++ toString c.number

theorem mem_all (c : ErrorCode) : c ∈ all := by cases c <;> decide

@[simp] theorem ofNumber?_number (c : ErrorCode) : ofNumber? c.number = some c := by
  cases c <;> decide

end ErrorCode

/-- Causes that the user cannot be blamed for. -/
inductive Fault where
  /-- The assigned expression is no place. -/
  | notAssignable
  /-- A plain property is bound to a subscript. -/
  | notIndexer (property : String)
  | elementWithoutIndices
  | noCandidates
  /-- A named argument names no parameter. -/
  | unknownParameter (name property : String)
  | tooManyArguments (property : String)
  | parameterTwice (param : String)
  | missingArgument (param : String)
  | operandsExhausted
  /-- The target cannot stand on the left of `=` in script. -/
  | notNative (kind : TargetKind)
  /-- A native subscript with another number of indices than one. -/
  | subscriptArity (count : Nat)
  /-- A compound assignment to the receiver. -/
  | compoundReceiver (op : AssignOp)
  /-- A brace of a template is never closed. -/
  | unterminatedPlaceholder (template : String)
  /-- A brace of a template was never opened. -/
  | unmatchedBrace (template : String)
  | unknownPlaceholder (name template : String)
  | other (text : String)
  deriving DecidableEq, Repr

/-- The wording of each fault. -/
def Fault.message : Fault → String
  | notAssignable => "expression is not assignable"
  | notIndexer property => "property " ++ property ++ " is not an indexer"
  | elementWithoutIndices => "array access without indices"
  | noCandidates => "dynamic indexer access without candidates"
  | unknownParameter name property =>
    "no parameter named '" ++ name ++ "' on " ++ property
  | tooManyArguments property => "too many arguments for " ++ property
  | parameterTwice param => "parameter '" ++ param ++ "' supplied twice"
  | missingArgument param => "missing argument for required parameter '" ++ param ++ "'"
  | operandsExhausted => "operand sequence exhausted"
  | notNative kind => kind.label ++ " target is not natively assignable"
  | subscriptArity count =>
    "native subscript needs exactly one index, got " ++ toString count
  | compoundReceiver op => "compound assignment '" ++ op.token ++ "' to the receiver"
  | unterminatedPlaceholder template =>
    "unterminated placeholder in inline code '" ++ template ++ "'"
  | unmatchedBrace template => "unmatched '\x7d' in inline code '" ++ template ++ "'"
  | unknownPlaceholder name template =>
    "unknown placeholder '\x7b" ++ name ++ "\x7d' in inline code '" ++ template ++ "'"
  | other text => text

/-- Why an assignment could not be lowered, and where. -/
inductive LoweringError where
  /-- The member has no counterpart in script. -/
  | memberNotUsable (member : String) (span : Span)
  /-- Named arguments for an indexer that is chosen at run time. -/
  | namedArguments (span : Span)
  /-- A dynamic receiver takes exactly one index. -/
  | dynamicArity (count : Nat) (span : Span)
  /-- Indexers to choose from at run time need different script. -/
  | ambiguousCandidates (owner : String) (span : Span)
  /-- Assignment to the receiver where it is a reference. -/
  | referenceReceiver (type : String) (span : Span)
  /-- Assignment to an immutable receiver outside its constructor. -/
  | immutableReceiver (type : String) (span : Span)
  | internal (fault : Fault) (span : Span)
  deriving DecidableEq, Repr

namespace LoweringError

def code : LoweringError → ErrorCode
  | memberNotUsable .. => .memberNotUsable
  | namedArguments _ => .namedArguments
  | dynamicArity .. => .dynamicArity
  | ambiguousCandidates .. => .ambiguousCandidates
  | referenceReceiver .. => .referenceReceiver
  | immutableReceiver .. => .immutableReceiver
  | internal .. => .internal

def span : LoweringError → Span
  | memberNotUsable _ s | namedArguments s | dynamicArity _ s | ambiguousCandidates _ s
  | referenceReceiver _ s | immutableReceiver _ s | internal _ s => s

/-- What went wrong, without the place. -/
def cause : LoweringError → String
  | memberNotUsable member _ => "the member " ++ member ++ " can not be used from script"
  | namedArguments _ =>
    "named arguments are not supported for indexers resolved at run time"
  | dynamicArity count _ =>
    "dynamic indexing with " ++ toString count ++
      " arguments is not supported, exactly one is required"
  | ambiguousCandidates owner _ =>
    "the candidate indexers on " ++ owner ++
      " are implemented differently in script and can not be dispatched at run time"
  | referenceReceiver type _ => "cannot assign to 'this' of reference type " ++ type
  | immutableReceiver type _ =>
    "cannot assign to 'this' of immutable value type " ++ type ++ " outside a constructor"
  | internal fault _ => "internal error: " ++ fault.message

/-- The place, then the cause. -/
def message (e : LoweringError) : String := "at " ++ e.span.text ++ ": " ++ e.cause

end LoweringError

inductive Severity where
  | error | warning
  deriving DecidableEq, Repr

/-- A reported finding. -/
structure Diagnostic where
  severity : Severity
  code : ErrorCode
  message : String
  span : Span
  deriving DecidableEq, Repr

namespace Diagnostic

/-- The report of a lowering error. -/
def ofError (e : LoweringError) : Diagnostic := ⟨.error, e.code, e.message, e.span⟩

def text (d : Diagnostic) : String :=
  (match d.severity with
    | .error => "error "
    | .warning => "warning ") ++ d.code.text ++ ": " ++ d.message

end Diagnostic

/-- Findings in the order in which they were reported. -/
structure Diagnostics where
  toList : List Diagnostic := []
  deriving DecidableEq, Repr

namespace Diagnostics

def report (ds : Diagnostics) (d : Diagnostic) : Diagnostics := ⟨ds.toList ++ [d]⟩

def size (ds : Diagnostics) : Nat := ds.toList.length

def isEmpty (ds : Diagnostics) : Bool := ds.toList.isEmpty

/-- Warnings do not count. -/
def hasErrors (ds : Diagnostics) : Bool := ds.toList.any (·.severity = .error)

/-- One finding to a line. -/
def text (ds : Diagnostics) : String := "\n".intercalate (ds.toList.map Diagnostic.text)

@[simp] theorem toList_report (ds : Diagnostics) (d : Diagnostic) :
    (ds.report d).toList = ds.toList ++ [d] := rfl

@[simp] theorem size_report (ds : Diagnostics) (d : Diagnostic) :
    (ds.report d).size = ds.size + 1 := by simp [size]

end Diagnostics
end AssignmentLowering
