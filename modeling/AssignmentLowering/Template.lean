import AssignmentLowering.Diagnostic
import AssignmentLowering.Script.Printer

/-!
# Templates of script text

A template is script text with placeholders in braces. A doubled brace stands for
a brace, and pairs are formed from the left; any other closing brace is an error,
and so is a placeholder that never ends. A placeholder's name is everything up to
the next closing brace.

Filling replaces each placeholder by the text of its operand, in parentheses
unless it is atomic. The text put in is never looked at again. A template may leave
operands out or use them twice, so only operands whose evaluation goes unnoticed
should be handed to one.

## Main definitions

* `Template.parse` — the pieces of a template.
* `Template.fill` — the text of the pieces under a binding of names.
* `Template.substitute` — both, with errors at a place in the source.
* `Template.index?` — which argument a placeholder for arguments means.
-/

namespace AssignmentLowering.Template

/-- What a template consists of. -/
inductive Piece where
  | char (c : Char)
  | placeholder (name : List Char)
  deriving DecidableEq, Repr

/-- Why a text is no template. -/
inductive Malformed where
  | unterminated
  | unmatched
  deriving DecidableEq, Repr

mutual

/-- The pieces of a text. -/
def parse : List Char → Except Malformed (List Piece)
  | [] => .ok []
  | '{' :: '{' :: rest => (parse rest).map (.char '{' :: ·)
  | '}' :: '}' :: rest => (parse rest).map (.char '}' :: ·)
  | '{' :: rest => (parseName rest).map fun (name, pieces) => .placeholder name :: pieces
  | '}' :: _ => .error .unmatched
  | c :: rest => (parse rest).map (.char c :: ·)

/-- The rest of a placeholder's name, and the pieces behind it. -/
def parseName : List Char → Except Malformed (List Char × List Piece)
  | [] => .error .unterminated
  | '}' :: rest => (parse rest).map (([], ·))
  | c :: rest => (parseName rest).map fun (name, pieces) => (c :: name, pieces)

end

/-- The text of the pieces. The first name without an operand is an error. -/
def fill (operand? : String → Option Script.Expr) : List Piece → Except String (List Char)
  | [] => .ok []
  | .char c :: rest => (fill operand? rest).map (c :: ·)
  | .placeholder name :: rest =>
    match operand? (String.ofList name) with
    | some e => (fill operand? rest).map (e.chars Script.postfixLevel ++ ·)
    | none => .error (String.ofList name)

/-- The text of a template. That it is malformed is noticed before a name without an
operand is. -/
def substitute (template : String) (span : Span) (operand? : String → Option Script.Expr) :
    Except LoweringError String :=
  match parse template.toList with
  | .error .unterminated => .error (.internal (.unterminatedPlaceholder template) span)
  | .error .unmatched => .error (.internal (.unmatchedBrace template) span)
  | .ok pieces =>
    match fill operand? pieces with
    | .error name => .error (.internal (.unknownPlaceholder name template) span)
    | .ok text => .ok (String.ofList text)

/-- The value of decimal digits. -/
def digitsValue (digits : List Char) : Nat :=
  digits.foldl (fun n c => 10 * n + (c.toNat - '0'.toNat)) 0

/-- The number that a name spells: decimal digits, maybe after a plus sign, of a
value below 2^64. -/
def number? (name : List Char) : Option Nat :=
  let digits := match name with
    | '+' :: rest => rest
    | _ => name
  if digits ≠ [] ∧ digits.all Char.isDigit ∧ digitsValue digits < UInt64.size then
    some (digitsValue digits)
  else none

/-- The position of the argument that a placeholder means: that of the first parameter
with its name, else the number that it spells. -/
def index? (params : List String) (name : String) : Option Nat :=
  match params.findIdx? (· = name) with
  | some i => some i
  | none => number? name.toList

end AssignmentLowering.Template
