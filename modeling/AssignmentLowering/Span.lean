/-!
# Positions in the source text

Every expression remembers where it came from, and an error points back there.
A position is written `line:column`; the length is kept for tools that underline
the text and never printed.

## Main definitions

* `Span` — line, column and length.
* `Span.text` — the written form.
-/

namespace AssignmentLowering

/-- A stretch of source text, given by where it starts and how long it is. -/
structure Span where
  line : Nat := 0
  col : Nat := 0
  len : Nat := 0
  deriving DecidableEq, Repr, Inhabited

namespace Span

/-- The empty stretch at a position. -/
def point (line col : Nat) : Span := ⟨line, col, 0⟩

/-- Line and column; the length does not show. -/
def text (s : Span) : String := toString s.line ++ ":" ++ toString s.col

@[simp] theorem len_point (line col : Nat) : (point line col).len = 0 := rfl

/-- A span is a point exactly when it covers nothing. -/
theorem eq_point_iff (s : Span) : s = point s.line s.col ↔ s.len = 0 := by
  cases s
  simp [point]

end Span
end AssignmentLowering
