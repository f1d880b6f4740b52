/-!
# Operators

Source and script share one set of binary operators, so an operator passes
through lowering unchanged. A compound assignment names the binary operator it
applies to the old value; its token is that operator's token followed by `=`.

## Main definitions

* `BinaryOp` — the operators, with `token` and `precedence`.
* `AssignOp` — plain `=` and the compound forms.
-/

namespace AssignmentLowering

/-- A binary operator. -/
inductive BinaryOp where
  | logicalOr | logicalAnd
  | bitwiseOr | bitwiseXor | bitwiseAnd
  | equal | notEqual
  | less | lessEqual | greater | greaterEqual
  | shiftLeft | shiftRight | shiftRightUnsigned
  | add | sub | mul | div | mod
  deriving DecidableEq, Repr

namespace BinaryOp

/-- How tightly the operator binds in script; a higher level binds tighter. All
levels lie between assignment (1) and member access (18). -/
def precedence : BinaryOp → Nat
  | logicalOr => 3
  | logicalAnd => 4
  | bitwiseOr => 5
  | bitwiseXor => 6
  | bitwiseAnd => 7
  | equal | notEqual => 8
  | less | lessEqual | greater | greaterEqual => 9
  | shiftLeft | shiftRight | shiftRightUnsigned => 10
  | add | sub => 11
  | mul | div | mod => 12

/-- The spelling of the operator in script. -/
def token : BinaryOp → String
  | logicalOr => "||"
  | logicalAnd => "&&"
  | bitwiseOr => "|"
  | bitwiseXor => "^"
  | bitwiseAnd => "&"
  | equal => "==="
  | notEqual => "!=="
  | less => "<"
  | lessEqual => "<="
  | greater => ">"
  | greaterEqual => ">="
  | shiftLeft => "<<"
  | shiftRight => ">>"
  | shiftRightUnsigned => ">>>"
  | add => "+"
  | sub => "-"
  | mul => "*"
  | div => "/"
  | mod => "%"

/-- Whether the right operand is evaluated only for some values of the left. -/
def shortCircuits : BinaryOp → Bool
  | logicalOr | logicalAnd => true
  | _ => false

theorem two_lt_precedence (op : BinaryOp) : 2 < op.precedence := by
  cases op <;> decide

theorem precedence_lt_thirteen (op : BinaryOp) : op.precedence < 13 := by
  cases op <;> decide

end BinaryOp

/-- An assignment operator. -/
inductive AssignOp where
  | assign
  | addAssign | subAssign | mulAssign | divAssign | modAssign
  | andAssign | orAssign | xorAssign
  | shlAssign | shrAssign | ushrAssign
  deriving DecidableEq, Repr

namespace AssignOp

/-- The operator that a compound assignment applies; `none` for plain `=`. -/
def binary? : AssignOp → Option BinaryOp
  | assign => none
  | addAssign => some .add
  | subAssign => some .sub
  | mulAssign => some .mul
  | divAssign => some .div
  | modAssign => some .mod
  | andAssign => some .bitwiseAnd
  | orAssign => some .bitwiseOr
  | xorAssign => some .bitwiseXor
  | shlAssign => some .shiftLeft
  | shrAssign => some .shiftRight
  | ushrAssign => some .shiftRightUnsigned

/-- Whether this is plain `=`. -/
def isSimple (op : AssignOp) : Bool := op.binary?.isNone

/-- The spelling of the operator: that of the operator it applies, then `=`. -/
def token (op : AssignOp) : String :=
  match op.binary? with
  | none => "="
  | some b => b.token ++ "="

theorem isSimple_iff (op : AssignOp) : op.isSimple = true ↔ op = assign := by
  cases op <;> decide

/-- No compound assignment applies an operator that may skip its right operand. -/
theorem shortCircuits_binary? {op : AssignOp} {b : BinaryOp} (h : op.binary? = some b) :
    b.shortCircuits = false := by
  cases op <;> simp [binary?] at h <;> subst h <;> rfl

end AssignOp
end AssignmentLowering
