import AssignmentLowering.Proofs.Lowering.Steps

/-!
# Whatever is done with a sequence

A sequence can be used in any way: operands are taken, others are lowered in between, values
are captured, statements are added, and after an error one may go on. Through all of this it
behaves like a cursor on its list of operands. How many operands have been asked for tells
which one comes next, and every action adds its statements behind those of the actions before
it.

## Main definitions

* `Action`, `Answer` — what can be done with a sequence, and what comes of it.
* `Action.take`, `Sequence.after` — one action, and the sequence that several leave.
* `Yields` — what an action comes to, by the number of operands asked for before it.

## Main statements

* `Action.take_yields` — one action.
* `Sequence.after_moves` — any number of them.
* `Sequence.after_yields` — every action in a series comes to what `Yields` says.
-/

namespace AssignmentLowering

open Script (Stmt)

/-- Something to do with a sequence of operands. -/
inductive Action where
  | next (c : Capture)
  /-- Lower something that is not in the sequence. -/
  | aside (o : Operand)
  | capture (e : Script.Expr)
  | push (stmt : Stmt)
  | extend (stmts : List Stmt)
  /-- Ask whether an operand still to come has effects. -/
  | ask

/-- What an action comes to if it does not fail. -/
inductive Answer where
  | operand (v : Value)
  | temporary (e : Script.Expr)
  | effects (toCome : Bool)
  | nothing

namespace Action

/-- Whether the action asks for the next operand. -/
def isNext : Action → Bool
  | next _ => true
  | _ => false

/-- The action as a step on a sequence. -/
def step (cx : Context) : Action → SequenceM Answer
  | next c => do return .operand (← Sequence.next cx c)
  | aside o => do return .operand (← Sequence.aside o)
  | capture e => do return .temporary (← Sequence.capture cx e)
  | push stmt => do
    Sequence.push stmt
    return .nothing
  | extend stmts => do
    Sequence.extend stmts
    return .nothing
  | ask => do return .effects ((← get).pendingHasEffects cx)

/-- What an action comes to, and the sequence that it leaves, be it with an error. -/
def take (cx : Context) (a : Action) (s : Sequence) :
    Except LoweringError Answer × Sequence :=
  match a.step cx s with
  | .ok r s' => (.ok r, s')
  | .error e s' => (.error e, s')

end Action

/-- The sequence that actions leave, taken one after the other whether or not they fail. -/
def Sequence.after (cx : Context) (actions : List Action) (s : Sequence) : Sequence :=
  actions.foldl (fun s a => (a.take cx s).2) s

/-- What an action comes to on a sequence of the operands `es` when `i` operands have been
asked for and `n` temporaries are in use: an answer or an error, the statements that it adds,
and how many temporaries are in use then. -/
inductive Yields (cx : Context) (es : List Expr) (i n : Nat) :
    Action → Except LoweringError Answer → List Stmt → Nat → Prop
  /-- The operand of index `i` is lowered, and captured if it must be. One that others may
  change is handed over only if none of those behind it has effects. -/
  | taken {c : Capture} {o : Expr} {v : Value} {added : List Stmt} {n' : Nat}
      (hoperand : es[i]? = some o)
      (htaken : Taken cx c (es.drop (i + 1)) o n v added n')
      (hsafe : v.stable = true ∨ o.isInvariant (es.drop (i + 1)) = true ∨
        ∀ e ∈ es.drop (i + 1), e.hasEffects cx.metadata = false) :
      Yields cx es i n (.next c) (.ok (.operand v)) added n'
  /-- The operand of index `i` cannot be lowered. -/
  | failed {c : Capture} {o : Expr} {e : LoweringError} {n' : Nat}
      (hoperand : es[i]? = some o) (hlower : o.lower cx n = .error e n') :
      Yields cx es i n (.next c) (.error e) [] n'
  | exhausted {c : Capture} (hend : es.length ≤ i) :
      Yields cx es i n (.next c) (.error (.internal .operandsExhausted {})) [] n
  | aside {o : Operand} {w : Lowered} {n' : Nat} (hlower : o.lower n = .ok w n') :
      Yields cx es i n (.aside o) (.ok (.operand w.toValue)) w.stmts n'
  | asideFailed {o : Operand} {e : LoweringError} {n' : Nat} (hlower : o.lower n = .error e n') :
      Yields cx es i n (.aside o) (.error e) [] n'
  | captured {e : Script.Expr} :
      Yields cx es i n (.capture e) (.ok (.temporary (.ident (cx.temp (n + 1)))))
        [.declare (cx.temp (n + 1)) e] (n + 1)
  | pushed {stmt : Stmt} : Yields cx es i n (.push stmt) (.ok .nothing) [stmt] n
  | extended {stmts : List Stmt} : Yields cx es i n (.extend stmts) (.ok .nothing) stmts n
  | asked {toCome : Bool}
      (heffects : toCome = true ↔ ∃ e ∈ es.drop i, e.hasEffects cx.metadata = true) :
      Yields cx es i n .ask (.ok (.effects toCome)) [] n

variable {cx : Context}

/-! ## One action -/

/-- An operand that others may change stays in place only if none of those to come has
effects. -/
theorem Taken.stable_or {c : Capture} {later : List Expr} {o : Expr} {n n' : Nat} {v : Value}
    {stmts : List Stmt} (h : Taken cx c later o n v stmts n') :
    v.stable = true ∨ o.isInvariant later = true ∨
      ∀ e ∈ later, e.hasEffects cx.metadata = false := by
  cases h with
  | @intro w _ _ _ _ _ _ =>
    cases hc : o.mustCapture cx c later w.toValue with
    | true => exact .inl (Bool.or_true _)
    | false =>
      -- Nothing speaks for a capture, the effects of the operands to come included.
      simp only [Expr.mustCapture, Bool.or_eq_false_iff, Bool.and_eq_false_iff,
        Bool.not_eq_false', List.any_eq_false, Bool.not_eq_true] at hc
      obtain hstable | ⟨heffects | hinvariant, -⟩ := hc.1
      · exact .inl (Bool.or_eq_true_iff.2 (.inl hstable))
      · exact .inr (.inr heffects)
      · exact .inr (.inl hinvariant)

theorem aside_apply (o : Operand) (s : Sequence) :
    Sequence.aside o s =
      match o.lower s.temps with
      | .ok v m => .ok v.toValue { s with temps := m, stmts := s.stmts ++ v.stmts }
      | .error e m => .error e { s with temps := m } := rfl

/-- An operand that cannot be lowered is used up and leaves no statements. -/
theorem next_error {c : Capture} {o : Expr} {later : List Expr} {n : Nat} {stmts : List Stmt}
    {e : LoweringError} {s' : Sequence}
    (h : Sequence.next cx c (sequenceOf cx n (o :: later) stmts) = .error e s') :
    ∃ m, o.lower cx n = .error e m ∧ s' = sequenceOf cx m later stmts := by
  have hpending : (sequenceOf cx n (o :: later) stmts).pending =
      o.operand cx :: later.map (Expr.operand cx) := rfl
  rw [Sequence.next_apply_cons cx c hpending, aside_apply, temps_sequenceOf] at h
  cases hlower : (o.operand cx).lower n with
  | error e' m =>
    rw [hlower] at h
    cases h
    exact ⟨m, hlower, rfl⟩
  | ok v m =>
    -- To capture an operand never fails.
    rw [hlower] at h
    dsimp only at h
    split at h <;> cases h

theorem pendingHasEffects_sequenceOf (n : Nat) (es : List Expr) (stmts : List Stmt) :
    (sequenceOf cx n es stmts).pendingHasEffects cx = es.any (·.hasEffects cx.metadata) := by
  simp [Sequence.pendingHasEffects, sequenceOf, Function.comp_def]

namespace Action

variable {es : List Expr} {i n : Nat} {stmts : List Stmt}

/-- Asking for an operand moves on by one. -/
theorem take_next (c : Capture) :
    ∃ r added n', Yields cx es i n (.next c) r added n' ∧
      (next c).take cx (sequenceOf cx n (es.drop i) stmts) =
        (r, sequenceOf cx n' (es.drop (i + 1)) (stmts ++ added)) := by
  rw [take, step, bind_apply]
  cases hget : es[i]? with
  | none =>
    have hend : es.length ≤ i := List.getElem?_eq_none_iff.1 hget
    have hpending : (sequenceOf cx n (es.drop i) stmts).pending = [] := by
      rw [sequenceOf, List.drop_eq_nil_of_le hend, List.map_nil]
    rw [Sequence.next_apply_nil cx c hpending, List.drop_eq_nil_of_le hend,
      List.drop_eq_nil_of_le (Nat.le_succ_of_le hend)]
    exact ⟨_, [], n, .exhausted hend, by rw [List.append_nil]⟩
  | some o =>
    obtain ⟨hlt, hat⟩ := List.getElem?_eq_some_iff.1 hget
    rw [List.drop_eq_getElem_cons hlt, hat]
    cases hnext : Sequence.next cx c (sequenceOf cx n (o :: es.drop (i + 1)) stmts) with
    | ok v s' =>
      obtain ⟨added, n', htaken, rfl⟩ := next_ok hnext
      exact ⟨_, added, n', .taken hget htaken htaken.stable_or, rfl⟩
    | error e s' =>
      obtain ⟨n', hlower, rfl⟩ := next_error hnext
      exact ⟨_, [], n', .failed hget hlower, by rw [List.append_nil]⟩

/-- Lowering something else leaves the operands of the sequence alone. -/
theorem take_aside (o : Operand) :
    ∃ r added n', Yields cx es i n (.aside o) r added n' ∧
      (aside o).take cx (sequenceOf cx n (es.drop i) stmts) =
        (r, sequenceOf cx n' (es.drop i) (stmts ++ added)) := by
  rw [take, step, bind_apply, aside_apply, temps_sequenceOf]
  cases hlower : o.lower n with
  | ok w n' => exact ⟨_, w.stmts, n', .aside hlower, rfl⟩
  | error e n' => exact ⟨_, [], n', .asideFailed hlower, by rw [List.append_nil]; rfl⟩

/-- What one action comes to, and what it leaves. -/
theorem take_yields (cx : Context) (es : List Expr) (i n : Nat) (stmts : List Stmt) (a : Action) :
    ∃ r added n', Yields cx es i n a r added n' ∧
      a.take cx (sequenceOf cx n (es.drop i) stmts) =
        (r, sequenceOf cx n' (es.drop (i + if a.isNext then 1 else 0)) (stmts ++ added)) := by
  cases a with
  | next c => exact take_next c
  | aside o => exact take_aside o
  | capture e => exact ⟨_, _, _, .captured, rfl⟩
  | push stmt => exact ⟨_, _, _, .pushed, rfl⟩
  | extend added => exact ⟨_, _, _, .extended, rfl⟩
  | ask =>
    refine ⟨.ok (.effects ((es.drop i).any (·.hasEffects cx.metadata))), [], n,
      .asked List.any_eq_true, ?_⟩
    rw [List.append_nil, ← pendingHasEffects_sequenceOf n _ stmts]
    rfl

end Action

/-! ## Any number of actions -/

namespace Sequence

theorem after_cons (a : Action) (actions : List Action) (s : Sequence) :
    after cx (a :: actions) s = after cx actions (a.take cx s).2 := rfl

theorem after_append (actions actions' : List Action) (s : Sequence) :
    after cx (actions ++ actions') s = after cx actions' (after cx actions s) :=
  List.foldl_append

/-- Actions move on by as many operands as they ask for, and add statements at the end. -/
theorem after_moves (cx : Context) (es : List Expr) (actions : List Action) :
    ∀ (i n : Nat) (stmts : List Stmt), ∃ n' added,
      after cx actions (sequenceOf cx n (es.drop i) stmts) =
        sequenceOf cx n' (es.drop (i + actions.countP Action.isNext)) (stmts ++ added) := by
  induction actions with
  | nil => exact fun _ n _ => ⟨n, [], by rw [List.append_nil]; rfl⟩
  | cons a actions ih =>
    intro i n stmts
    obtain ⟨r, added, n₁, -, hfirst⟩ := a.take_yields cx es i n stmts
    obtain ⟨n₂, more, hrest⟩ := ih (i + if a.isNext then 1 else 0) n₁ (stmts ++ added)
    refine ⟨n₂, added ++ more, ?_⟩
    rw [after_cons, hfirst, hrest, List.countP_cons, List.append_assoc, Nat.add_assoc,
      Nat.add_comm (actions.countP _)]

/-- **A sequence is a cursor that moves from left to right.** Take any action after any others
on a new sequence of operands. As many operands have been used up as have been asked for; the
action comes to what `Yields` says of the operand of that index; it uses up one operand if it
asks for one, also if it fails; it adds its statements behind those that are there, and no
action taken later puts any in front of them. -/
theorem after_yields (cx : Context) (es : List Expr) (n : Nat) (before : List Action)
    (a : Action) (later : List Action) :
    let s := after cx before (sequenceOf cx n es [])
    let i := before.countP Action.isNext
    s.pending = (es.drop i).map (Expr.operand cx) ∧
      ∃ r added n' more, Yields cx es i s.temps a r added n' ∧
        a.take cx s =
          (r, sequenceOf cx n' (es.drop (i + if a.isNext then 1 else 0)) (s.stmts ++ added)) ∧
        (after cx (before ++ a :: later) (sequenceOf cx n es [])).stmts =
          s.stmts ++ added ++ more := by
  intro s i
  have hbefore : ∃ m stmts, s = sequenceOf cx m (es.drop i) stmts := by
    obtain ⟨m, stmts, hmoved⟩ := after_moves cx es before 0 n []
    rw [Nat.zero_add, List.nil_append] at hmoved
    exact ⟨m, stmts, hmoved⟩
  obtain ⟨m, stmts, hs⟩ := hbefore
  obtain ⟨r, added, n', hyields, htake⟩ := a.take_yields cx es i m stmts
  obtain ⟨_, more, hlater⟩ := after_moves cx es later (i + if a.isNext then 1 else 0) n'
    (stmts ++ added)
  rw [after_append, after_cons]
  change s.pending = _ ∧ ∃ r added n' more, _ ∧ _ ∧ (after cx later (a.take cx s).2).stmts = _
  rw [hs]
  refine ⟨rfl, r, added, n', more, hyields, htake, ?_⟩
  rw [htake, hlater]
  rfl

end Sequence

end AssignmentLowering
