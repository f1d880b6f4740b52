import AssignmentLowering.Number.Shortest
import AssignmentLowering.Script.Basic

/-!
# Printing script

Expressions are printed with the parentheses that precedence asks for and no
others. Every position in an expression has a least precedence; what binds more
loosely is parenthesised there. Text is built as a list of characters, so that
facts about it need nothing but list lemmas.

## Main definitions

* `Script.Expr.precedence`, `Script.Expr.isAtomic` — how tightly a form binds.
* `Script.Expr.chars` — the text in a position of given least precedence.
* `Script.Expr.text`, `Script.Stmt.text`, `Script.render` — finished text.
-/

namespace AssignmentLowering.Script

/-- The loosest level of an expression without commas: assignment. -/
def assignLevel : Nat := 1

/-- Member access, subscripts and calls. -/
def postfixLevel : Nat := 18

/-- Forms without operands. -/
def primaryLevel : Nat := 20

namespace Expr

/-- How tightly the outermost form binds. Nothing is known of inserted text, so it
counts as the loosest. -/
def precedence : Expr → Nat
  | assign .. | compoundAssign .. | verbatim _ => assignLevel
  | binary op .. => op.precedence
  | member .. | index .. | call .. => postfixLevel
  | _ => primaryLevel

/-- Whether a member can be taken of the expression without parentheses. -/
def isAtomic (e : Expr) : Bool := postfixLevel ≤ e.precedence

end Expr

/-- The integer that `m * 2 ^ q` is, if it is one. -/
def integer? (m : Nat) (q : Int) : Option Nat :=
  if 0 ≤ q then some (m * Nat.pow 2 q.toNat)
  else if m % Nat.pow 2 (-q).toNat = 0 then some (m / Nat.pow 2 (-q).toNat)
  else none

/-- A minus sign, where there is one. -/
def signChars (negative : Bool) : List Char := if negative then ['-'] else []

/-- The text of a number. Integers below 10^15 are written in full, zero without a
sign; all other finite numbers by their shortest decimal, never with an exponent. -/
def numberChars (x : Binary64) : List Char :=
  match x.decode with
  | .nan => ['N', 'a', 'N']
  | .infinite negative => signChars negative ++ ['i', 'n', 'f']
  | .finite negative m q =>
    match (integer? m q).filter (· < Nat.pow 10 15) with
    | some n => signChars (negative && 0 < n) ++ Nat.toDigits 10 n
    | none => signChars negative ++ (Decimal.shortest m q).positional

/-- A character as it stands inside single quotes. -/
def escapeChar : Char → List Char
  | '\'' => ['\\', '\'']
  | '\\' => ['\\', '\\']
  | '\n' => ['\\', 'n']
  | '\r' => ['\\', 'r']
  | '\t' => ['\\', 't']
  | c => [c]

/-- A string literal: single quotes around the escaped characters. -/
def quotedChars (s : List Char) : List Char := '\'' :: (s.flatMap escapeChar ++ ['\''])

/-- An operator between blanks. -/
def spaced (token : String) : List Char := ' ' :: (token.toList ++ [' '])

/-- The text of a form of the given precedence in a position that asks for at
least `level`. -/
def atLevel (level precedence : Nat) (text : List Char) : List Char :=
  if precedence < level then '(' :: (text ++ [')']) else text

namespace Expr

mutual

/-- The text of an expression where every precedence is welcome. -/
def bare : Expr → List Char
  | null => ['n', 'u', 'l', 'l']
  | bool true => ['t', 'r', 'u', 'e']
  | bool false => ['f', 'a', 'l', 's', 'e']
  | number x => numberChars x
  | string s => quotedChars s.toList
  | ident name => name.toList
  | this => ['t', 'h', 'i', 's']
  | typeHandle name => '{' :: (name.toList ++ ['}'])
  | member object name =>
    atLevel postfixLevel object.precedence object.bare ++ '.' :: name.toList
  | index object i =>
    atLevel postfixLevel object.precedence object.bare ++
      '[' :: (atLevel assignLevel i.precedence i.bare ++ [']'])
  | call callee args =>
    atLevel postfixLevel callee.precedence callee.bare ++ '(' :: (listChars args ++ [')'])
  | array items => '[' :: (listChars items ++ [']'])
  | assign target value =>
    atLevel postfixLevel target.precedence target.bare ++ spaced "=" ++
      atLevel assignLevel value.precedence value.bare
  | compoundAssign op target value =>
    atLevel postfixLevel target.precedence target.bare ++ spaced (op.token ++ "=") ++
      atLevel assignLevel value.precedence value.bare
  | binary op left right =>
    atLevel op.precedence left.precedence left.bare ++ spaced op.token ++
      atLevel (op.precedence + 1) right.precedence right.bare
  | verbatim text => text.toList

/-- Items between commas. -/
def listChars : List Expr → List Char
  | [] => []
  | [item] => atLevel assignLevel item.precedence item.bare
  | item :: next :: rest =>
    atLevel assignLevel item.precedence item.bare ++ ',' :: ' ' :: listChars (next :: rest)

end

/-- The text of an expression in a position that asks for at least `level`. -/
def chars (level : Nat) (e : Expr) : List Char := atLevel level e.precedence e.bare

/-- Nothing binds more loosely than assignment. -/
theorem assignLevel_le_precedence (e : Expr) : assignLevel ≤ e.precedence := by
  cases e <;> simp only [precedence, assignLevel, postfixLevel, primaryLevel] <;> try omega
  case binary op _ _ =>
    have := op.two_lt_precedence
    omega

/-- So a position open to assignments never asks for parentheses. -/
@[simp] theorem chars_assignLevel (e : Expr) : e.chars assignLevel = e.bare := by
  simp [chars, atLevel, Nat.not_lt.2 e.assignLevel_le_precedence]

@[simp] theorem bare_member (object : Expr) (name : String) :
    (member object name).bare = object.chars postfixLevel ++ '.' :: name.toList := rfl

@[simp] theorem bare_index (object i : Expr) :
    (index object i).bare =
      object.chars postfixLevel ++ '[' :: (i.chars assignLevel ++ [']']) := rfl

@[simp] theorem bare_call (callee : Expr) (args : List Expr) :
    (call callee args).bare =
      callee.chars postfixLevel ++ '(' :: (listChars args ++ [')']) := rfl

@[simp] theorem bare_assign (target value : Expr) :
    (assign target value).bare =
      target.chars postfixLevel ++ spaced "=" ++ value.chars assignLevel := rfl

@[simp] theorem bare_compoundAssign (op : BinaryOp) (target value : Expr) :
    (compoundAssign op target value).bare =
      target.chars postfixLevel ++ spaced (op.token ++ "=") ++ value.chars assignLevel := rfl

@[simp] theorem bare_binary (op : BinaryOp) (left right : Expr) :
    (binary op left right).bare =
      left.chars op.precedence ++ spaced op.token ++ right.chars (op.precedence + 1) := rfl

/-- The text of a whole expression. -/
def text (e : Expr) : String := String.ofList (e.chars assignLevel)

/-- A position for atomic expressions parenthesises just the others. -/
theorem chars_postfixLevel (e : Expr) :
    e.chars postfixLevel = if e.isAtomic then e.bare else '(' :: (e.bare ++ [')']) := by
  by_cases h : postfixLevel ≤ e.precedence
  · simp [chars, atLevel, isAtomic, h, Nat.not_lt.2 h]
  · simp [chars, atLevel, isAtomic, h, Nat.lt_of_not_le h]

end Expr

namespace Stmt

def chars : Stmt → List Char
  | .expr e => e.chars assignLevel ++ [';']
  | .declare name value =>
    ['v', 'a', 'r', ' '] ++ name.toList ++ spaced "=" ++ value.chars assignLevel ++ [';']

def text (s : Stmt) : String := String.ofList s.chars

end Stmt

/-- Statements, one to a line. -/
def render (stmts : List Stmt) : String := "\n".intercalate (stmts.map Stmt.text)

end AssignmentLowering.Script
