import AssignmentLowering.Proofs.Lowering.Cursor
import AssignmentLowering.Proofs.Lowering.Faults

/-!
# Lowering stays within bounds

Lowering an expression takes exactly the operands it has put in a sequence, looks
arguments up where there are some, and never emits a target that is not assignable as if
it were, nor a call that cannot be made. What has to be checked for this is checked here:
every access to a list goes by index, no operand may be left over at the end of a
sequence, and the binding of a method is looked at again when the call is made. Lowering
with these checks is lowering, and the errors that they would report are reported for no
tree.

## Main definitions

* `Takes` — a step that takes just these operands.
* `Indexed.lower`, `Indexed.lowerAssignment` — lowering with checked access.
* `Fault.isPlanner` — faults that lowering alone could be blamed for.

## Main statements

* `lower_within_bounds` — checks change nothing, and faults of lowering do not occur.
-/

namespace AssignmentLowering

/-! ## Counting operands -/

/-- A step that takes just the operands `os` from a sequence that starts with them. -/
def Takes {α : Type} (os : List Operand) (x : SequenceM α) : Prop :=
  ∀ (s s' : Sequence) (rest : List Operand) (a : α),
    s.pending = os ++ rest → x s = .ok a s' → s'.pending = rest

section

variable {α β : Type} {cx : Context}

theorem takes_pure (a : α) : Takes [] (pure a) := by
  intro s s' rest b hs h
  cases h
  exact hs

theorem takes_liftExcept (x : Except LoweringError α) : Takes [] (liftExcept x) := by
  intro s s' rest b hs h
  obtain ⟨-, rfl⟩ := liftExcept_ok h
  exact hs

theorem Takes.bind {os os' : List Operand} {x : SequenceM α} {f : α → SequenceM β}
    (h : Takes os x) (hf : ∀ a, Takes os' (f a)) : Takes (os ++ os') (x >>= f) := by
  intro s s' rest b hs hrun
  obtain ⟨a, s₁, hx, hrun⟩ := bind_ok hrun
  exact hf a s₁ s' rest b (h s s₁ (os' ++ rest) a (by rwa [List.append_assoc] at hs) hx) hrun

/-- A step that takes no operand, and then those of the next. -/
theorem Takes.bind_of_nil {os : List Operand} {x : SequenceM α} {f : α → SequenceM β}
    (h : Takes [] x) (hf : ∀ a, Takes os (f a)) : Takes os (x >>= f) := h.bind hf

/-- A step that takes all operands, and then none. -/
theorem Takes.bind_nil {os : List Operand} {x : SequenceM α} {f : α → SequenceM β}
    (h : Takes os x) (hf : ∀ a, Takes [] (f a)) : Takes os (x >>= f) := by
  rw [← List.append_nil os]
  exact h.bind hf

theorem Takes.ite {os : List Operand} {c : Prop} [Decidable c] {x y : SequenceM α}
    (h : Takes os x) (h' : Takes os y) : Takes os (if c then x else y) := by
  split
  · exact h
  · exact h'

theorem takes_push (stmt : Script.Stmt) : Takes [] (Sequence.push stmt) := by
  intro s s' rest a hs h
  cases h
  exact hs

theorem takes_capture (e : Script.Expr) : Takes [] (Sequence.capture cx e) := by
  intro s s' rest a hs h
  cases h
  exact hs

theorem takes_aside (o : Operand) : Takes [] (Sequence.aside o) := by
  intro s s' rest a hs h
  unfold Sequence.aside at h
  cases hw : o.lower s.temps with
  | error e n =>
    rw [hw] at h
    cases h
  | ok w n =>
    rw [hw] at h
    cases h
    exact hs

theorem takes_get : Takes [] (get : SequenceM Sequence) := by
  intro s s' rest a hs h
  cases h
  exact hs

theorem takes_next (c : Capture) (o : Operand) : Takes [o] (Sequence.next cx c) := by
  intro s s' rest a hs h
  rw [Sequence.next_apply_cons cx c hs] at h
  split at h
  · cases h
  next v s₁ ha =>
    have hrest : s₁.pending = rest := takes_aside o _ _ rest v rfl ha
    split at h
    · cases h
      exact hrest
    · cases h
      exact hrest

/-- A value that is captured or not, with what follows. -/
theorem takes_held_bind {os : List Operand} {flag : Bool} {e : Script.Expr}
    {f : Script.Expr → SequenceM α} (hf : ∀ x, Takes os (f x)) :
    Takes os (if flag then Sequence.capture cx e >>= f else pure e >>= f) :=
  ((takes_capture e).bind_of_nil hf).ite ((takes_pure e).bind_of_nil hf)

theorem takes_lowerCallSite {reuse : Bool} (site : List (Nat × Operand)) :
    Takes (site.map (·.2)) (lowerCallSite cx reuse site) := by
  induction site with
  | nil => exact takes_pure []
  | cons x site ih => exact (takes_next _ x.2).bind fun v => ih.bind_nil fun vs => takes_pure _

theorem takes_lowerAside (reuse : Bool) (o : Operand) : Takes [] (lowerAside cx reuse o) :=
  (takes_aside o).bind_of_nil fun v =>
    ((takes_capture v.expr).bind_of_nil fun _ => takes_pure _).ite (takes_pure v)

theorem takes_lowerArgs {reuse : Bool} {supplied : List (Nat × Value)}
    (args : List (IndexArg Operand)) :
    ∀ {declared : Nat}, Takes [] (lowerArgs cx reuse supplied declared args) := by
  induction args with
  | nil => intro declared; exact takes_pure []
  | cons a args ih =>
    intro declared
    unfold lowerArgs
    cases supplied.lookup declared with
    | some v => exact (takes_pure v).bind_of_nil fun v => ih.bind_of_nil fun vs => takes_pure _
    | none =>
      exact (takes_lowerAside reuse a.value).bind_of_nil fun v =>
        ih.bind_of_nil fun vs => takes_pure _

theorem takes_lowerObject (reuse : Bool) (t : Target Operand) :
    Takes t.receiver.toList (lowerObject cx reuse t) := by
  unfold lowerObject
  cases t.receiver with
  | none => exact takes_pure none
  | some o => exact (takes_next _ o).bind_nil fun v => takes_pure _

/-- The operands of a target are all that lowering its address takes. -/
theorem takes_lowerAddress (reuse : Bool) (t : Target Operand) :
    Takes t.operands (lowerAddress cx reuse t) :=
  (takes_lowerObject reuse t).bind fun _ =>
    (takes_lowerCallSite t.callSite).bind_nil fun _ =>
      (takes_lowerArgs t.args).bind_of_nil fun _ => takes_pure _

theorem takes_lowerReceiver (c : Capture) (r : Receiver Operand) :
    Takes r.object?.toList (lowerReceiver cx c r) := by
  cases r with
  | object o => exact (takes_next c o).bind_nil fun v => takes_pure _
  | static owner => exact takes_pure _
  | base declaring => exact takes_pure _

theorem takes_lowerCallArgs (c : Capture) (args : List Operand) :
    ∀ {params : List Param}, Takes args (lowerCallArgs cx c params args) := by
  induction args with
  | nil => intro params; exact takes_pure []
  | cons o args ih =>
    intro params
    exact (takes_next c o).bind fun v => ih.bind_nil fun vs => takes_pure _

end

/-! ## Forms with checked access -/

namespace Indexed

/-- What a sequence with operands left over fails with. -/
def leftOver : LoweringError := .internal (.other "operands left over") {}

/-- Lower a list of operands by the steps of `body`, which has to take all of them. -/
def sequenced (operands : List Operand) (body : CursorM Value) : LowerM Lowered := fun n =>
  match body { temps := n, operands } with
  | .ok v c =>
    if c.position < c.operands.length then .error leftOver c.temps
    else .ok { v with stmts := c.stmts } c.temps
  | .error e c => .error e c.temps

variable (cx : Context)

/-- Plain assignment to a target that may stand on the left of `=`. -/
def assignNative (used : Bool) (t : Target Operand) (value : Operand) : LowerM Lowered := do
  let readBack := used && (cx.metadata.semantics t.ty).tag?.isSome
  let addressing ← liftExcept (operands t)
  sequenced (addressing ++ [value]) do
    let a ← lowerAddress cx readBack t
    let v ← next cx {}
    let place ← liftExcept (t.native cx.names a.address)
    let stored := Script.Expr.assign place (cx.copied t.ty v.fresh 1 v.expr)
    if readBack then do
      push (.expr stored)
      pure ⟨place, false, false⟩
    else
      pure ⟨stored, v.fresh, false⟩

/-- Plain assignment by a call. -/
def assignByCall (used : Bool) (t : Target Operand) (value : Operand) : LowerM Lowered := do
  let keep := used && !t.isReceiver
  let addressing ← liftExcept (operands t)
  sequenced (addressing ++ [value]) do
    let a ← lowerAddress cx t.setterIsInline t
    let v ← next cx ⟨keep || t.setterIsInline, false⟩
    let stored := cx.copied t.ty v.fresh (if keep then 2 else 1) v.expr
    let store ← liftExcept (t.store cx.names (a.passed cx t.setter? 1) stored)
    if used then do
      push (.expr store)
      pure (if keep then ⟨v.expr, false, v.stable⟩ else ⟨.this, false, true⟩)
    else
      pure ⟨store, false, false⟩

/-- Compound assignment to a target that may stand on the left of the operator. -/
def compoundNative (op : BinaryOp) (t : Target Operand) (value : Operand) :
    LowerM Lowered := do
  let addressing ← liftExcept (operands t)
  sequenced (addressing ++ [value]) do
    let a ← lowerAddress cx false t
    let v ← next cx {}
    let place ← liftExcept (t.native cx.names a.address)
    pure ⟨.compoundAssign op place v.expr, true, false⟩

/-- Compound assignment by a reading and a writing call. -/
def compoundByCall (used : Bool) (op : BinaryOp) (t : Target Operand) (value : Operand) :
    LowerM Lowered := do
  let addressing ← liftExcept (operands t)
  sequenced (addressing ++ [value]) do
    let a ← lowerAddress cx true t
    let load ← liftExcept (t.load cx.names (a.passed cx t.getter? 2))
    let effects ← remainingHasEffects cx
    let old ← if effects then capture cx load else pure load
    let v ← next cx {}
    let sum := Script.Expr.binary op old v.expr
    let new ← if used || t.setterIsInline then capture cx sum else pure sum
    let stored := cx.copied t.ty true (if used then 2 else 1) new
    let store ← liftExcept (t.store cx.names (a.passed cx t.setter? 2) stored)
    if used then do
      push (.expr store)
      pure ⟨new, false, true⟩
    else
      pure ⟨store, false, false⟩

/-- The target that an operand is. -/
def target (o : Operand) : Except LoweringError (Target Operand) :=
  match o.place? with
  | some p => ofPlace cx.metadata cx.enclosing Operand.ty o.expr.span p
  | none => .error (.internal .notAssignable o.expr.span)

/-- An assignment, with operands that are ready to be lowered. -/
def lowerAssignmentOf (usage : Usage) (a : Assignment Operand) (span : Span) :
    LowerM Lowered := do
  let t ← liftExcept (target cx a.target)
  match a.op.binary? with
  | none =>
    if t.isNative then assignNative cx usage.isUsed t a.value
    else assignByCall cx usage.isUsed t a.value
  | some op =>
    if t.isReceiver then throw (.internal (.compoundReceiver a.op) span)
    else if t.isNative then compoundNative cx op t a.value
    else compoundByCall cx usage.isUsed op t a.value

/-- Read a place. -/
def lowerLoad (p : Place Operand) (span : Span) : LowerM Lowered := do
  let t ← liftExcept (ofPlace cx.metadata cx.enclosing Operand.ty span p)
  let addressing ← liftExcept (operands t)
  sequenced addressing do
    let a ← lowerAddress cx t.getterIsInline t
    let load ← liftExcept (t.load cx.names (a.passed cx t.getter? 1))
    pure ⟨load, t.loadIsFresh, false⟩

/-- What making the call of a method fails with, if the method has turned out to be unusable
only then. -/
def unusableReached (span : Span) : LoweringError :=
  .internal (.other "unusable method reached emission") span

/-- Whether the operands of a call go to a template. -/
def callsTemplate (m : Method) (span : Span) : Except LoweringError Bool :=
  match cx.metadata.method m with
  | .method _ => .ok false
  | .inline _ => .ok true
  | .unusable => .error (.memberNotUsable m.qualifiedName span)

/-- Call a method. Its binding is looked at before the operands are lowered, and again when
the call is made. -/
def lowerCall (r : Receiver Operand) (m : Method) (args : List Operand) (span : Span) :
    LowerM Lowered := do
  let reuse ← liftExcept (callsTemplate cx m span)
  sequenced (r.object?.toList ++ args) do
    let object ← lowerReceiver cx ⟨reuse, false⟩ r
    let args ← lowerCallArgs cx ⟨reuse, false⟩ m.params args.zipIdx
    match cx.metadata.method m with
    | .method name =>
      let call := match r with
        | .base declaring => callBase cx.names declaring name args
        | .object _ | .static _ => .callMethod object name args
      pure ⟨call, true, false⟩
    | .inline template => do
      let text ← liftExcept
        (Template.substitute template span (callOperand? m object args))
      pure ⟨.verbatim text, true, false⟩
    | .unusable => throw (unusableReached span)

/-- Apply a binary operator. -/
def lowerBinary (op : BinaryOp) (left right : Operand) : LowerM Lowered :=
  sequenced [left, right] do
    let l ← next cx {}
    let r ← next cx {}
    pure ⟨.binary op l.expr r.expr, true, false⟩

/-- Lower a form whose operands are ready to be lowered. -/
def lowerForm (form : Form Operand) (span : Span) : LowerM Lowered :=
  match form with
  | .literal .. | .defaultValue _ | .place (.this _) => AssignmentLowering.lowerForm cx form span
  | .place p => lowerLoad cx p span
  | .call r m args => lowerCall cx r m args span
  | .binary op l r _ => lowerBinary cx op l r
  | .assign a => lowerAssignmentOf cx .used a span

/-- An expression as an operand. -/
def operand : Expr → Operand :=
  Expr.fold fun form span =>
    let operands := form.map (·.2)
    { expr := ⟨form.map (·.1), span⟩
      lower := lowerForm cx operands span
      place? := operands.place? }

/-- Lower an expression for its value. -/
def lower (e : Expr) : LowerM Lowered := (operand cx e).lower

/-- Lower an assignment. -/
def lowerAssignment (usage : Usage) (a : Assignment Expr) (span : Span) : LowerM Lowered :=
  lowerAssignmentOf cx usage (a.map (operand cx)) span

end Indexed

/-! ## Checks change nothing -/

section

variable {cx : Context}

/-- A body that takes all operands leaves none over. -/
theorem sequenced_eq {operands : List Operand} {x : CursorM Value} {y : SequenceM Value}
    (h : Tracks x y) (htakes : Takes operands y) :
    Indexed.sequenced operands x = sequenced operands y := by
  funext n
  have hrun := h { temps := n, operands }
  have hstart : Cursor.toSequence { temps := n, operands } = ⟨n, operands, []⟩ := rfl
  unfold Indexed.sequenced sequenced
  rw [← hstart, hrun]
  cases hx : x { temps := n, operands } with
  | error e c => rfl
  | ok v c =>
    rw [hx, hstart] at hrun
    have hnone : c.operands.drop c.position = [] :=
      htakes _ _ [] v (List.append_nil operands).symm hrun
    have hover : ¬ c.position < c.operands.length :=
      Nat.not_lt.2 (List.drop_eq_nil_iff.1 hnone)
    simp only [if_neg hover]
    rfl

theorem assignNative_eq (used : Bool) (t : Target Operand) (value : Operand) :
    Indexed.assignNative cx used t value = assignNative cx used t value := by
  unfold Indexed.assignNative assignNative
  rw [Indexed.operands_eq]
  refine sequenced_eq ?_ ?_
  · exact (tracks_lowerAddress _ t).bind fun a => (tracks_next _).bind fun v =>
      (tracks_liftExcept _).bind fun place =>
        ((tracks_push _).bind fun _ => tracks_pure _).ite (tracks_pure _)
  · exact (takes_lowerAddress _ t).bind fun a => (takes_next _ value).bind_nil fun v =>
      (takes_liftExcept _).bind_of_nil fun place =>
        ((takes_push _).bind_of_nil fun _ => takes_pure _).ite (takes_pure _)

theorem assignByCall_eq (used : Bool) (t : Target Operand) (value : Operand) :
    Indexed.assignByCall cx used t value = assignByCall cx used t value := by
  unfold Indexed.assignByCall assignByCall
  rw [Indexed.operands_eq]
  refine sequenced_eq ?_ ?_
  · exact (tracks_lowerAddress _ t).bind fun a => (tracks_next _).bind fun v =>
      (tracks_liftExcept _).bind fun store =>
        ((tracks_push _).bind fun _ => tracks_pure _).ite (tracks_pure _)
  · exact (takes_lowerAddress _ t).bind fun a => (takes_next _ value).bind_nil fun v =>
      (takes_liftExcept _).bind_of_nil fun store =>
        ((takes_push _).bind_of_nil fun _ => takes_pure _).ite (takes_pure _)

theorem compoundNative_eq (op : BinaryOp) (t : Target Operand) (value : Operand) :
    Indexed.compoundNative cx op t value = compoundNative cx op t value := by
  unfold Indexed.compoundNative compoundNative
  rw [Indexed.operands_eq]
  refine sequenced_eq ?_ ?_
  · exact (tracks_lowerAddress _ t).bind fun a => (tracks_next _).bind fun v =>
      (tracks_liftExcept _).bind fun place => tracks_pure _
  · exact (takes_lowerAddress _ t).bind fun a => (takes_next _ value).bind_nil fun v =>
      (takes_liftExcept _).bind_of_nil fun place => takes_pure _

theorem compoundByCall_eq (used : Bool) (op : BinaryOp) (t : Target Operand)
    (value : Operand) :
    Indexed.compoundByCall cx used op t value = compoundByCall cx used op t value := by
  unfold Indexed.compoundByCall compoundByCall
  rw [Indexed.operands_eq]
  refine sequenced_eq ?_ ?_
  · refine (tracks_lowerAddress _ t).bind fun a => (tracks_liftExcept _).bind fun load =>
      tracks_guarded_bind fun old => (tracks_next _).bind fun v => ?_
    refine tracks_held_bind fun new => (tracks_liftExcept _).bind fun store => ?_
    exact ((tracks_push _).bind fun _ => tracks_pure _).ite (tracks_pure _)
  · refine (takes_lowerAddress _ t).bind fun a => (takes_liftExcept _).bind_of_nil fun load =>
      takes_get.bind_of_nil fun s => ?_
    refine takes_held_bind fun old => (takes_next _ value).bind_nil fun v => ?_
    refine takes_held_bind fun new => (takes_liftExcept _).bind_of_nil fun store => ?_
    exact ((takes_push _).bind_of_nil fun _ => takes_pure _).ite (takes_pure _)

theorem target_eq (o : Operand) : Indexed.target cx o = o.target cx := by
  unfold Indexed.target Operand.target Target.classify
  simp only [Indexed.ofPlace_eq]
  cases o.place? <;> rfl

/-- An assignment does the same with checked access. -/
theorem lowerAssignmentOf_eq (usage : Usage) (a : Assignment Operand) (span : Span) :
    Indexed.lowerAssignmentOf cx usage a span = lowerAssignmentOf cx usage a span := by
  unfold Indexed.lowerAssignmentOf lowerAssignmentOf
  rw [target_eq]
  refine congrArg _ (funext fun t => ?_)
  simp only [assignNative_eq, assignByCall_eq, compoundNative_eq, compoundByCall_eq]
  rfl

theorem lowerLoad_eq (p : Place Operand) (span : Span) :
    Indexed.lowerLoad cx p span = lowerLoad cx p span := by
  unfold Indexed.lowerLoad lowerLoad
  rw [Indexed.ofPlace_eq]
  refine congrArg _ (funext fun t => ?_)
  rw [Indexed.operands_eq]
  refine sequenced_eq ?_ ?_
  · exact (tracks_lowerAddress _ t).bind fun a =>
      (tracks_liftExcept _).bind fun load => tracks_pure _
  · exact (takes_lowerAddress _ t).bind_nil fun a =>
      (takes_liftExcept _).bind_of_nil fun load => takes_pure _

theorem lowerCall_eq (r : Receiver Operand) (m : Method) (args : List Operand) (span : Span) :
    Indexed.lowerCall cx r m args span = lowerCall cx r m args span := by
  unfold Indexed.lowerCall Indexed.callsTemplate lowerCall
  cases cx.metadata.method m with
  | unusable => rfl
  | method name =>
    refine sequenced_eq ?_ ?_
    · exact (tracks_lowerReceiver _ r).bind fun object =>
        (tracks_lowerCallArgs _ args).bind fun args => tracks_pure _
    · exact (takes_lowerReceiver _ r).bind fun object =>
        (takes_lowerCallArgs _ args).bind_nil fun args => takes_pure _
  | inline template =>
    refine sequenced_eq ?_ ?_
    · exact (tracks_lowerReceiver _ r).bind fun object =>
        (tracks_lowerCallArgs _ args).bind fun args =>
          (tracks_liftExcept _).bind fun text => tracks_pure _
    · exact (takes_lowerReceiver _ r).bind fun object =>
        (takes_lowerCallArgs _ args).bind_nil fun args =>
          (takes_liftExcept _).bind_of_nil fun text => takes_pure _

theorem lowerBinary_eq (op : BinaryOp) (left right : Operand) :
    Indexed.lowerBinary cx op left right = lowerBinary cx op left right := by
  refine sequenced_eq ?_ ?_
  · exact (tracks_next _).bind fun l => (tracks_next _).bind fun r => tracks_pure _
  · exact (takes_next _ left).bind fun l => (takes_next _ right).bind_nil fun r => takes_pure _

theorem lowerForm_eq (form : Form Operand) (span : Span) :
    Indexed.lowerForm cx form span = lowerForm cx form span := by
  cases form with
  | place p =>
    cases p with
    | this ty => rfl
    | _ => exact lowerLoad_eq _ span
  | call r m args => exact lowerCall_eq r m args span
  | binary op l r ty => exact lowerBinary_eq op l r
  | assign a => exact lowerAssignmentOf_eq .used a span
  | _ => rfl

theorem operand_indexed_eq : Indexed.operand cx = Expr.operand cx := by
  unfold Indexed.operand Expr.operand
  simp only [lowerForm_eq]

/-- A run fails by the fault of the tree if it fails as the tree says. -/
theorem isPlanner_of_failureAt {x : LowerM Lowered} {e : Expr}
    (h : ∀ n, failureAt x n = e.failure? cx) (n : Nat) (err : LoweringError) (m : Nat)
    (hrun : x n = .error err m) : err.isPlanner = false := by
  refine (e.excused : Excused (e.failure? cx)) err ?_
  rw [← h n, failureAt, hrun]
  rfl

end

/-- **Lowering stays within bounds.** For all trees, metadata, names and enclosing members,
lowering with every access to a list checked, with no operand to be left over at the end of a
sequence, and with the binding of a method checked again when it is called, is lowering; and
no error of lowering is one that only lowering itself could be blamed for, those of the checks
among them. -/
theorem lower_within_bounds (cx : Context) :
    (∀ e : Expr, Indexed.lower cx e = e.lower cx) ∧
    (∀ (usage : Usage) (a : Assignment Expr) (span : Span),
      Indexed.lowerAssignment cx usage a span = lowerAssignment cx usage a span) ∧
    (∀ (e : Expr) (n : Nat) (err : LoweringError) (m : Nat),
      e.lower cx n = .error err m → err.isPlanner = false) ∧
    ∀ (usage : Usage) (a : Assignment Expr) (span : Span) (n : Nat) (err : LoweringError)
      (m : Nat), lowerAssignment cx usage a span n = .error err m → err.isPlanner = false := by
  refine ⟨fun e => ?_, fun usage a span => ?_, fun e => ?_, fun usage a span => ?_⟩
  · rw [Indexed.lower, operand_indexed_eq]
    rfl
  · rw [Indexed.lowerAssignment, lowerAssignmentOf_eq, operand_indexed_eq]
    rfl
  · exact isPlanner_of_failureAt e.failureAt_lower
  · exact isPlanner_of_failureAt fun n => failureAt_lowerAssignment usage a span n

end AssignmentLowering
