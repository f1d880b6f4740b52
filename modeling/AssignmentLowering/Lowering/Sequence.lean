import AssignmentLowering.Lowering.Basic

/-!
# Operands from left to right

A sequence holds the operands still to be lowered and the statements collected so
far. Each operand is lowered in its turn. It stays where it is unless something
speaks against that, and then it is captured in a temporary first:

* an operand still to come may change its value;
* it will stand behind an operand that is evaluated later;
* it is needed more than once, and evaluating it again would be noticed.

Constants and temporaries are stable and need no capture for the first two reasons.

## Main definitions

* `Capture` — the reasons known to whoever asks for the operand.
* `Sequence`, `SequenceM` — the operands, the statements, and steps on them.
* `next`, `aside`, `capture`, `push`, `extend` — the steps.
* `sequenced` — lower a list of operands by such steps.
-/

namespace AssignmentLowering

/-- Reasons to capture an operand that do not come from later operands' effects. -/
structure Capture where
  /-- The operand is used more than once. -/
  reuse : Bool := false
  /-- It is put behind an operand that is evaluated later. -/
  reordered : Bool := false
  deriving DecidableEq, Repr

/-- Operands to come and statements so far, with the count of temporaries. -/
structure Sequence where
  temps : Nat
  pending : List Operand
  stmts : List Script.Stmt := []

/-- Steps on a sequence. A failed step leaves a sequence to go on with. -/
abbrev SequenceM := EStateM LoweringError Sequence

namespace Sequence

/-- Whether any operand still to come has effects. -/
def pendingHasEffects (cx : Context) (s : Sequence) : Bool :=
  s.pending.any (·.hasEffects cx.metadata)

/-- Add a statement at the end. -/
def push (stmt : Script.Stmt) : SequenceM Unit :=
  modify fun s => { s with stmts := s.stmts ++ [stmt] }

/-- Add statements at the end. -/
def extend (stmts : List Script.Stmt) : SequenceM Unit :=
  modify fun s => { s with stmts := s.stmts ++ stmts }

/-- Hold the value of an expression in a new temporary and name that instead. -/
def capture (cx : Context) (e : Script.Expr) : SequenceM Script.Expr := fun s =>
  let name := Temporary.name cx.tempStem (s.temps + 1)
  .ok (.ident name)
    { s with temps := s.temps + 1, stmts := s.stmts ++ [.declare name e] }

/-- Lower an operand that is not in the sequence. -/
def aside (o : Operand) : SequenceM Value := fun s =>
  match o.lower s.temps with
  | .ok v temps => .ok v.toValue { s with temps, stmts := s.stmts ++ v.stmts }
  | .error e temps => .error e { s with temps }

/-- Whether an operand, lowered to `v`, has to be captured before `later` are lowered. -/
def mustCapture (cx : Context) (c : Capture) (o : Operand) (later : List Operand)
    (v : Value) : Bool :=
  let endangered :=
    later.any (·.hasEffects cx.metadata) && !o.expr.isInvariant (later.map (·.expr))
  (!v.stable && (endangered || c.reordered)) || (c.reuse && !v.expr.isReusable)

/-- Lower the next operand. If that fails the operand is used up, and the statements
stay as they were. -/
def next (cx : Context) (c : Capture) : SequenceM Value := do
  match (← get).pending with
  | [] => throw (.internal .operandsExhausted {})
  | o :: later =>
    modify fun s => { s with pending := later }
    let v ← aside o
    if mustCapture cx c o later v then
      return ⟨← capture cx v.expr, v.fresh, true⟩
    else
      return v

@[simp] theorem push_apply (stmt : Script.Stmt) (s : Sequence) :
    push stmt s = .ok () { s with stmts := s.stmts ++ [stmt] } := rfl

@[simp] theorem extend_apply (stmts : List Script.Stmt) (s : Sequence) :
    extend stmts s = .ok () { s with stmts := s.stmts ++ stmts } := rfl

/-- Past the end nothing happens but the error. -/
theorem next_apply_nil (cx : Context) (c : Capture) {s : Sequence} (h : s.pending = []) :
    next cx c s = .error (.internal .operandsExhausted {}) s := by
  cases s
  subst h
  rfl

/-- The next operand is used up, lowered, and captured if it must be. -/
theorem next_apply_cons (cx : Context) (c : Capture) {s : Sequence} {o : Operand}
    {later : List Operand} (h : s.pending = o :: later) :
    next cx c s =
      match aside o { s with pending := later } with
      | .error e s => .error e s
      | .ok v s =>
        if mustCapture cx c o later v then
          .ok ⟨.ident (Temporary.name cx.tempStem (s.temps + 1)), v.fresh, true⟩
            { s with
              temps := s.temps + 1
              stmts := s.stmts ++
                [.declare (Temporary.name cx.tempStem (s.temps + 1)) v.expr] }
        else .ok v s := by
  obtain ⟨temps, _, stmts⟩ := s
  subst h
  rw [next, bind_apply]
  change (aside o >>= _) _ = _
  rw [bind_apply]
  cases aside o ⟨temps, later, stmts⟩ with
  | error e s => rfl
  | ok v s =>
    by_cases hc : mustCapture cx c o later v
    · simp only [hc, if_true]
      rfl
    · simp only [hc]
      rfl

end Sequence

/-- Lower a list of operands by the steps of `body`; the statements collected come before
its value. -/
def sequenced (operands : List Operand) (body : SequenceM Value) : LowerM Lowered := fun n =>
  match body { temps := n, pending := operands } with
  | .ok v s => .ok { v with stmts := s.stmts } s.temps
  | .error e s => .error e s.temps

end AssignmentLowering
