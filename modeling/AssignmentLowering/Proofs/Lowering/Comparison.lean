import AssignmentLowering.Proofs.Lowering.Evaluated

/-!
# Two lowerings side by side

One tree is lowered in two contexts that differ in some answers of metadata. Effects have to
be judged alike in both, and the storage of a target and the template of a method have to serve
in one as they do in the other. If that holds of everything that is evaluated for the tree, both
runs come to the same, or they fail alike. Which errors count as alike is left to whoever
compares, and so is whether a first run may be refused that the second one goes on with.

## Main definitions

* `Comparison` — two contexts, and what is overlooked when runs are compared.
* `Comparison.Serves`, `Comparison.Callees` — answers that can stand for each other.
* `Comparison.Runs` — steps that end alike if they start alike.

## Main statements

* `Comparison.Runs.next`, `Comparison.Runs.lowerAddress` — the steps of lowering do.
* `Comparison.alike`, `Comparison.lowerAssignment_settles` — so does lowering.
-/

namespace AssignmentLowering

open Script (Stmt)

/-- Two contexts with the same names and the same types, and what is overlooked when runs in
the one and in the other are compared. -/
structure Comparison where
  cx : Context
  cx' : Context
  names : cx'.names = cx.names
  tempStem : cx'.tempStem = cx.tempStem
  semantics : cx'.metadata.semantics = cx.metadata.semantics
  /-- Errors that pass for the same. -/
  SameError : LoweringError → LoweringError → Prop
  same_refl : ∀ e, SameError e e
  /-- Errors of the first run with which the second one is not compared. -/
  Refusal : LoweringError → Prop

/-- The target with another storage. -/
def Target.stored {ε : Type} (t : Target ε) (s : Storage) : Target ε := { t with storage := s }

section

variable {ε : Type} (t : Target ε) (s : Storage)

@[simp] theorem Target.operands_stored : (t.stored s).operands = t.operands := rfl

@[simp] theorem Target.ty_stored : (t.stored s).ty = t.ty := rfl

@[simp] theorem Target.isReceiver_stored : (t.stored s).isReceiver = t.isReceiver := rfl

end

/-- The place is read where the expression is evaluated, or assigned. -/
inductive Expr.Accesses : Expr → Place Expr → Prop
  | read {p : Place Expr} {span : Span} : Accesses ⟨.place p, span⟩ p
  | assigned {a : Assignment Expr} {p : Place Expr} {span : Span}
      (htarget : a.target.form = .place p) : Accesses ⟨.assign a, span⟩ p

theorem any_congr_of_mem {α : Type} {xs : List α} {f g : α → Bool} (h : ∀ x ∈ xs, f x = g x) :
    xs.any f = xs.any g := by
  induction xs with
  | nil => rfl
  | cons x xs ih =>
    obtain ⟨hx, hxs⟩ := List.forall_mem_cons.1 h
    rw [List.any_cons, List.any_cons, hx, ih hxs]

namespace Comparison

variable {α β : Type}

/-- Results that stand for each other: values that are related, or errors. -/
inductive Matches (k : Comparison) (R : α → β → Prop) :
    Except LoweringError α → Except LoweringError β → Prop
  | ok {a : α} {b : β} (h : R a b) : Matches k R (.ok a) (.ok b)
  | error {e e' : LoweringError} (h : k.SameError e e') : Matches k R (.error e) (.error e')
  | refused {e : LoweringError} {r : Except LoweringError β} (h : k.Refusal e) :
      Matches k R (.error e) r

/-- In the second run the storage `s` serves the target as its own does in the first. -/
structure Serves (k : Comparison) (t : Target Expr) (s : Storage) : Prop where
  isNative : (t.stored s).isNative = t.isNative
  native : ∀ a, (t.stored s).native k.cx.names a = t.native k.cx.names a
  getterIsInline : (t.stored s).getterIsInline = t.getterIsInline
  setterIsInline : (t.stored s).setterIsInline = t.setterIsInline
  getter_runsCode :
    (t.stored s).getter?.any Accessor.runsCode = t.getter?.any Accessor.runsCode
  setter_runsCode :
    (t.stored s).setter?.any Accessor.runsCode = t.setter?.any Accessor.runsCode
  load : ∀ a : Address, a.args.length = t.args.length →
    k.Matches Eq (t.load k.cx.names a) ((t.stored s).load k.cx.names a)
  store : ∀ a : Address, a.args.length = t.args.length → ∀ value,
    k.Matches Eq (t.store k.cx.names a value) ((t.stored s).store k.cx.names a value)

/-- The second target is the first one with a storage that serves it. -/
def Counterparts (k : Comparison) (t t' : Target Expr) : Prop :=
  ∃ s, t' = t.stored s ∧ k.Serves t s

/-- Bindings of a method that can stand for each other. -/
inductive Callees (k : Comparison) (m : Method) : MethodBinding → MethodBinding → Prop
  | same (b : MethodBinding) : Callees k m b b
  | inline {template template' : String}
      (h : ∀ span object args, k.Matches Eq
        (Template.substitute template span (callOperand? m object args))
        (Template.substitute template' span (callOperand? m object args))) :
      Callees k m (.inline template) (.inline template')

/-- The expressions are said to have the same effects in both runs. -/
def SameEffects (k : Comparison) (os : List Expr) : Prop :=
  ∀ o ∈ os, o.hasEffects k.cx'.metadata = o.hasEffects k.cx.metadata

/-- What is asked about the expression itself has answers that can stand for each other. -/
structure Comparable (k : Comparison) (e : Expr) : Prop where
  effects : e.hasEffects k.cx'.metadata = e.hasEffects k.cx.metadata
  place : ∀ p, e.Accesses p → ∀ span, k.Matches k.Counterparts
    (Target.ofPlace k.cx.metadata k.cx.enclosing Expr.ty span p)
    (Target.ofPlace k.cx'.metadata k.cx'.enclosing Expr.ty span p)
  method : ∀ r m args, e.form = .call r m args →
    k.Callees m (k.cx.metadata.method m) (k.cx'.metadata.method m)

/-- How two lowerings end: with the same result or with errors. -/
inductive Settled (k : Comparison) :
    EStateM.Result LoweringError Nat α → EStateM.Result LoweringError Nat α → Prop
  | ok {a : α} {n : Nat} : Settled k (.ok a n) (.ok a n)
  | error {e e' : LoweringError} {n : Nat} (h : k.SameError e e') :
      Settled k (.error e n) (.error e' n)
  | refused {e : LoweringError} {n : Nat} {r : EStateM.Result LoweringError Nat α}
      (h : k.Refusal e) : Settled k (.error e n) r

/-- Lowerings that end alike if they start alike. -/
def Settles (k : Comparison) (x y : LowerM α) : Prop := ∀ n, k.Settled (x n) (y n)

/-- An expression is lowered alike in both runs, and said to have the same effects. -/
structure Alike (k : Comparison) (e : Expr) : Prop where
  effects : e.hasEffects k.cx'.metadata = e.hasEffects k.cx.metadata
  settles : k.Settles (e.lower k.cx) (e.lower k.cx')

/-- How two steps end that run side by side: with the same result and the operands `pending`
to come, which are said to have the same effects, or with errors. -/
inductive Ends (k : Comparison) (pending : List Expr) :
    EStateM.Result LoweringError Sequence α → EStateM.Result LoweringError Sequence α → Prop
  | ok {a : α} {n : Nat} {stmts : List Stmt} (hpending : k.SameEffects pending) :
      Ends k pending (.ok a (sequenceOf k.cx n pending stmts))
        (.ok a (sequenceOf k.cx' n pending stmts))
  | error {e e' : LoweringError} {s s' : Sequence} (h : k.SameError e e')
      (htemps : s'.temps = s.temps) : Ends k pending (.error e s) (.error e' s')
  | refused {e : LoweringError} {s : Sequence} {r : EStateM.Result LoweringError Sequence α}
      (h : k.Refusal e) : Ends k pending (.error e s) r

/-- Steps that end alike if they start alike, with the operands `before` to come at the start
and `after` at the end. -/
def Runs (k : Comparison) (before after : List Expr) (x y : SequenceM α) : Prop :=
  k.SameEffects before → ∀ n stmts, k.Ends after (x (sequenceOf k.cx n before stmts))
    (y (sequenceOf k.cx' n before stmts))

variable {k : Comparison}

theorem Matches.of_refl {R : α → α → Prop} (hR : ∀ a, R a a) (x : Except LoweringError α) :
    k.Matches R x x := by
  cases x with
  | ok a => exact .ok (hR a)
  | error e => exact .error (k.same_refl e)

theorem Matches.refl (x : Except LoweringError α) : k.Matches Eq x x := .of_refl (fun _ => rfl) x

/-- A target serves with the storage that it has. -/
theorem Serves.refl (t : Target Expr) : k.Serves t t.storage where
  isNative := rfl
  native _ := rfl
  getterIsInline := rfl
  setterIsInline := rfl
  getter_runsCode := rfl
  setter_runsCode := rfl
  load _ _ := .refl _
  store _ _ _ := .refl _

theorem Counterparts.refl (t : Target Expr) : k.Counterparts t t := ⟨t.storage, rfl, .refl t⟩

theorem Matches.counterparts (x : Except LoweringError (Target Expr)) :
    k.Matches k.Counterparts x x := .of_refl .refl x

theorem Settles.refl (x : LowerM α) : k.Settles x x := by
  intro n
  cases x n with
  | ok a m => exact .ok
  | error e m => exact .error (k.same_refl e)

theorem Settles.bind {x y : LowerM α} (h : k.Settles x y) {f g : α → LowerM β}
    (hfg : ∀ a, k.Settles (f a) (g a)) : k.Settles (x >>= f) (y >>= g) := by
  intro n
  have hfirst := h n
  rw [bind_apply, bind_apply]
  generalize x n = r, y n = r' at hfirst
  cases hfirst with
  | ok => exact hfg _ _
  | error h => exact .error h
  | refused h => exact .refused h

section

variable (k)

theorem copied_eq : k.cx'.copied = k.cx.copied := by
  funext ty fresh uses value
  simp [Context.copied, k.names, k.semantics]

theorem defaultValue_eq : k.cx'.defaultValue = k.cx.defaultValue := by
  funext ty
  simp [Context.defaultValue, k.names, k.semantics]

/-- The operands passed to an accessor are the same for one that runs code as well. -/
theorem passed_eq {accessor accessor' : Option Accessor}
    (h : accessor'.any Accessor.runsCode = accessor.any Accessor.runsCode) (uses : Nat)
    (a : LoweredAddress) :
    a.passed k.cx' accessor' uses = a.passed k.cx accessor uses := by
  simp [LoweredAddress.passed, k.copied_eq, h]

end

/-! ## Steps -/

namespace Runs

variable {before between after : List Expr}

theorem pure (a : α) : k.Runs before before (pure a) (pure a) := fun h _ _ => .ok h

theorem bind {x y : SequenceM α} {f g : α → SequenceM β} (hx : k.Runs before between x y)
    (hf : ∀ a, k.Runs between after (f a) (g a)) :
    k.Runs before after (x >>= f) (y >>= g) := by
  intro hbefore n stmts
  have hfirst := hx hbefore n stmts
  rw [bind_apply, bind_apply]
  generalize x (sequenceOf k.cx n before stmts) = r at hfirst
  generalize y (sequenceOf k.cx' n before stmts) = r' at hfirst
  cases hfirst with
  | ok h => exact hf _ h _ _
  | error h htemps => exact .error h htemps
  | refused h => exact .refused h

theorem ite {c : Prop} [Decidable c] {x x' y y' : SequenceM α} (hx : k.Runs before after x y)
    (hx' : k.Runs before after x' y') :
    k.Runs before after (if c then x else x') (if c then y else y') := by
  split
  · exact hx
  · exact hx'

theorem liftExcept {x y : Except LoweringError α} (h : k.Matches Eq x y) :
    k.Runs before before (liftExcept x) (liftExcept y) := by
  cases h with
  | ok h =>
    subst h
    exact pure _
  | error h => exact fun _ _ _ => .error h rfl
  | refused h => exact fun _ _ _ => .refused h

theorem push (stmt : Stmt) :
    k.Runs before before (Sequence.push stmt) (Sequence.push stmt) := fun h _ _ => .ok h

theorem capture (e : Script.Expr) :
    k.Runs before before (Sequence.capture k.cx e) (Sequence.capture k.cx' e) := by
  intro h n stmts
  unfold Sequence.capture
  rw [k.tempStem]
  exact .ok (n := n + 1) h

/-- A value that is captured or not, as the same flag says, and what follows. -/
theorem held {flag : Bool} (e : Script.Expr) {f g : Script.Expr → SequenceM α}
    (h : ∀ x, k.Runs before after (f x) (g x)) :
    k.Runs before after (if flag then Sequence.capture k.cx e >>= f else Pure.pure e >>= f)
      (if flag then Sequence.capture k.cx' e >>= g else Pure.pure e >>= g) :=
  ite (bind (capture e) h) (bind (pure e) h)

/-- Whether operands to come have effects is the same in both runs. -/
theorem get {f g : Sequence → SequenceM α}
    (h : ∀ s s', s'.pendingHasEffects k.cx' = s.pendingHasEffects k.cx →
      k.Runs before after (f s) (g s')) :
    k.Runs before after (MonadState.get >>= f) (MonadState.get >>= g) := by
  intro hbefore n stmts
  refine h _ _ ?_ hbefore n stmts
  simpa [Sequence.pendingHasEffects, sequenceOf, Function.comp_def] using
    any_congr_of_mem hbefore

/-- An operand lowered apart from the sequence. -/
theorem aside {o : Expr} (ho : k.Alike o) :
    k.Runs before before (Sequence.aside (o.operand k.cx)) (Sequence.aside (o.operand k.cx')) := by
  intro hbefore n stmts
  have hlower : k.Settled ((o.operand k.cx).lower n) ((o.operand k.cx').lower n) := ho.settles n
  unfold Sequence.aside
  rw [temps_sequenceOf, temps_sequenceOf]
  generalize (o.operand k.cx).lower n = r, (o.operand k.cx').lower n = r' at hlower
  cases hlower with
  | ok => exact .ok hbefore
  | error h => exact .error h rfl
  | refused h => exact .refused h

/-- Whether an operand is captured is decided alike. -/
theorem next {c : Capture} {o : Expr} {later : List Expr} (ho : k.Alike o) :
    k.Runs (o :: later) later (Sequence.next k.cx c) (Sequence.next k.cx' c) := by
  intro hbefore n stmts
  have hlater : k.SameEffects later := fun o' ho' => hbefore o' (List.mem_cons_of_mem _ ho')
  have haside := aside ho hlater n stmts
  have hpending : (sequenceOf k.cx n (o :: later) stmts).pending =
      o.operand k.cx :: later.map (Expr.operand k.cx) := rfl
  have hpending' : (sequenceOf k.cx' n (o :: later) stmts).pending =
      o.operand k.cx' :: later.map (Expr.operand k.cx') := rfl
  rw [Sequence.next_apply_cons k.cx c hpending, Sequence.next_apply_cons k.cx' c hpending']
  unfold sequenceOf at haside ⊢
  dsimp only
  generalize Sequence.aside (o.operand k.cx) _ = r at haside ⊢
  generalize Sequence.aside (o.operand k.cx') _ = r' at haside ⊢
  cases haside with
  | error h htemps => exact .error h htemps
  | refused h => exact .refused h
  | @ok v m more _ =>
    have hcapture : o.mustCapture k.cx' c later v = o.mustCapture k.cx c later v := by
      simp [Expr.mustCapture, any_congr_of_mem hlater]
    dsimp only
    rw [mustCapture_operand, mustCapture_operand, hcapture, k.tempStem]
    split
    · exact .ok (n := m + 1) hlater
    · exact .ok hlater

/-- Written arguments go with the same declared indices. -/
theorem lowerCallSite {reuse : Bool} {rest : List Expr} (written : List (Nat × Expr))
    (hwritten : ∀ o ∈ written.map (·.2), k.Alike o) :
    k.Runs (written.map (·.2) ++ rest) rest
      (lowerCallSite k.cx reuse (written.map (Prod.map id (Expr.operand k.cx))))
      (lowerCallSite k.cx' reuse (written.map (Prod.map id (Expr.operand k.cx')))) := by
  induction written with
  | nil => exact pure []
  | cons x written ih =>
    obtain ⟨declared, o⟩ := x
    obtain ⟨ho, hrest⟩ := List.forall_mem_cons.1 hwritten
    have hhazard : o.isReorderHazard k.cx'.metadata declared written =
        o.isReorderHazard k.cx.metadata declared written := by
      simp [Expr.isReorderHazard, ho.effects]
    simp only [List.map_cons, Prod.map_apply, id_eq, AssignmentLowering.lowerCallSite,
      isReorderHazard_operand, hhazard, List.cons_append]
    exact bind (next ho) fun v => bind (ih hrest) fun vs => pure ((declared, v) :: vs)

theorem lowerAside {reuse : Bool} {o : Expr} (ho : k.Alike o) :
    k.Runs before before (lowerAside k.cx reuse (o.operand k.cx))
      (lowerAside k.cx' reuse (o.operand k.cx')) := by
  refine bind (aside ho) fun v => ?_
  exact ite (bind (capture v.expr) fun e => pure _) (pure v)

/-- Arguments in declared order are taken from those written, or lowered alike. -/
theorem lowerArgs {reuse : Bool} {supplied : List (Nat × Value)} (args : List (IndexArg Expr))
    (hargs : ∀ a ∈ args, k.Alike a.value) :
    ∀ declared, k.Runs before before
      (lowerArgs k.cx reuse supplied declared (args.map (IndexArg.map (Expr.operand k.cx))))
      (lowerArgs k.cx' reuse supplied declared (args.map (IndexArg.map (Expr.operand k.cx')))) := by
  induction args with
  | nil => exact fun declared => pure []
  | cons a args ih =>
    intro declared
    obtain ⟨ha, hrest⟩ := List.forall_mem_cons.1 hargs
    simp only [List.map_cons, AssignmentLowering.lowerArgs, IndexArg.value_map, IndexArg.ty_map]
    cases supplied.lookup declared with
    | some v => exact bind (pure v) fun v => bind (ih hrest (declared + 1)) fun xs => pure _
    | none => exact bind (lowerAside ha) fun v => bind (ih hrest (declared + 1)) fun xs => pure _

theorem lowerObject {reuse : Bool} {rest : List Expr} {t : Target Expr}
    (hreceiver : ∀ o ∈ t.receiver.toList, k.Alike o) :
    k.Runs (t.operands ++ rest) (t.callSite.map (·.2) ++ rest)
      (lowerObject k.cx reuse (t.map (Expr.operand k.cx)))
      (lowerObject k.cx' reuse (t.map (Expr.operand k.cx'))) := by
  simp only [AssignmentLowering.lowerObject, Target.receiver_map, Target.operands]
  cases hr : t.receiver with
  | none => exact pure none
  | some e =>
    have he := hreceiver e (by simp [hr])
    exact bind (next he) fun v => pure (some v.expr)

/-- What addresses a target is lowered alike, whatever its storage is. -/
theorem lowerAddress (reuse : Bool) {rest : List Expr} {t : Target Expr} (s : Storage)
    (hoperands : ∀ o ∈ t.operands, k.Alike o) (hargs : ∀ a ∈ t.args, k.Alike a.value) :
    k.Runs (t.operands ++ rest) rest (lowerAddress k.cx reuse (t.map (Expr.operand k.cx)))
      (lowerAddress k.cx' reuse ((t.stored s).map (Expr.operand k.cx'))) := by
  obtain ⟨hreceiver, hwritten⟩ := List.forall_mem_append.1 hoperands
  refine bind (lowerObject (t := t) hreceiver) fun object => ?_
  rw [Target.callSite_map, Target.callSite_map]
  exact bind (lowerCallSite t.callSite hwritten) fun supplied =>
    bind (lowerArgs t.args hargs 0) fun xs => pure _

/-- The steps behind it are for as many arguments as the target has. -/
theorem addressed {reuse : Bool} {rest : List Expr} {t : Target Expr} {s : Storage}
    (hoperands : ∀ o ∈ t.operands, k.Alike o) (hargs : ∀ a ∈ t.args, k.Alike a.value)
    {f g : LoweredAddress → SequenceM α}
    (hfg : ∀ a, a.args.length = t.args.length → k.Runs rest after (f a) (g a)) :
    k.Runs (t.operands ++ rest) after
      (AssignmentLowering.lowerAddress k.cx reuse (t.map (Expr.operand k.cx)) >>= f)
      (AssignmentLowering.lowerAddress k.cx' reuse ((t.stored s).map (Expr.operand k.cx')) >>=
        g) := by
  intro hbefore n stmts
  have hfirst := lowerAddress reuse s hoperands hargs hbefore n stmts
  have hlength : ∀ {a s'}, AssignmentLowering.lowerAddress k.cx reuse
      (t.map (Expr.operand k.cx)) (sequenceOf k.cx n (t.operands ++ rest) stmts) = .ok a s' →
      a.args.length = t.args.length := fun h => by
    simpa using length_args_of_lowerAddress h
  rw [bind_apply, bind_apply]
  generalize AssignmentLowering.lowerAddress k.cx reuse (t.map _) _ = r at hfirst hlength
  generalize AssignmentLowering.lowerAddress k.cx' reuse ((t.stored s).map _) _ = r' at hfirst
  cases hfirst with
  | ok h => exact hfg _ (hlength rfl) h _ _
  | error h htemps => exact .error h htemps
  | refused h => exact .refused h

end Runs

theorem Settles.sequenced (os : List Expr) {pending pending' : List Operand}
    (hpending : pending = os.map (Expr.operand k.cx))
    (hpending' : pending' = os.map (Expr.operand k.cx')) (hos : k.SameEffects os)
    {body body' : SequenceM Value} (h : k.Runs os [] body body') :
    k.Settles (sequenced pending body) (sequenced pending' body') := by
  subst hpending hpending'
  intro n
  have hbody := h hos n []
  unfold sequenceOf at hbody
  unfold AssignmentLowering.sequenced
  generalize body _ = r at hbody ⊢
  generalize body' _ = r' at hbody ⊢
  cases hbody with
  | ok => exact .ok
  | @error e e' s s' h htemps =>
    simp only [htemps]
    exact .error h
  | refused h => exact .refused h

/-! ## Assignments -/

section

variable {t : Target Expr} {s : Storage} {value : Expr} (hs : k.Serves t s)
  (hoperands : ∀ o ∈ t.operands, k.Alike o) (hargs : ∀ a ∈ t.args, k.Alike a.value)

include hoperands in
theorem sameEffects_operands (hvalue : k.Alike value) : k.SameEffects (t.operands ++ [value]) := by
  refine List.forall_mem_append.2 ⟨fun o ho => (hoperands o ho).effects, ?_⟩
  exact List.forall_mem_singleton.2 hvalue.effects

include hs hoperands hargs

theorem readTarget_settles :
    k.Settles (readTarget k.cx (t.map (Expr.operand k.cx)))
      (readTarget k.cx' ((t.stored s).map (Expr.operand k.cx'))) := by
  have hknown : k.SameEffects (t.operands ++ []) := fun o ho =>
    (hoperands o (by simpa using ho)).effects
  have hfresh : (t.stored s).loadIsFresh = t.loadIsFresh := hs.getter_runsCode
  simp only [readTarget, Target.load_map, Target.getter?_map, Target.getterIsInline_map,
    Target.loadIsFresh_map, k.names, k.passed_eq hs.getter_runsCode, hs.getterIsInline, hfresh]
  refine .sequenced (t.operands ++ []) (by simp) (by simp) hknown ?_
  refine .addressed hoperands hargs fun a ha => ?_
  exact .bind (.liftExcept (hs.load _ ((length_passed ..).trans ha))) fun load => .pure _

variable (hvalue : k.Alike value)

include hvalue

theorem assignNative_settles (used : Bool) :
    k.Settles (assignNative k.cx used (t.map (Expr.operand k.cx)) (value.operand k.cx))
      (assignNative k.cx' used ((t.stored s).map (Expr.operand k.cx'))
        (value.operand k.cx')) := by
  simp only [assignNative, Target.native_map, Target.ty_map, Target.ty_stored, k.names,
    k.semantics, k.copied_eq, hs.native]
  refine .sequenced (t.operands ++ [value]) (by simp) (by simp)
    (sameEffects_operands hoperands hvalue) ?_
  refine .addressed hoperands hargs fun a ha => ?_
  refine .bind (.next hvalue) fun v => ?_
  refine .bind (.liftExcept (.refl _)) fun place => ?_
  exact .ite (.bind (.push _) fun _ => .pure _) (.pure _)

theorem assignByCall_settles (used : Bool) :
    k.Settles (assignByCall k.cx used (t.map (Expr.operand k.cx)) (value.operand k.cx))
      (assignByCall k.cx' used ((t.stored s).map (Expr.operand k.cx'))
        (value.operand k.cx')) := by
  simp only [assignByCall, Target.store_map, Target.ty_map, Target.ty_stored,
    Target.setter?_map, Target.setterIsInline_map, Target.isReceiver_map,
    Target.isReceiver_stored, k.names, k.copied_eq, hs.setterIsInline,
    k.passed_eq hs.setter_runsCode]
  refine .sequenced (t.operands ++ [value]) (by simp) (by simp)
    (sameEffects_operands hoperands hvalue) ?_
  refine .addressed hoperands hargs fun a ha => ?_
  refine .bind (.next hvalue) fun v => ?_
  refine .bind (.liftExcept (hs.store _ ((length_passed ..).trans ha) _)) fun store => ?_
  exact .ite (.bind (.push _) fun _ => .pure _) (.pure _)

theorem compoundNative_settles (op : BinaryOp) :
    k.Settles (compoundNative k.cx op (t.map (Expr.operand k.cx)) (value.operand k.cx))
      (compoundNative k.cx' op ((t.stored s).map (Expr.operand k.cx'))
        (value.operand k.cx')) := by
  simp only [compoundNative, Target.native_map, k.names, hs.native]
  refine .sequenced (t.operands ++ [value]) (by simp) (by simp)
    (sameEffects_operands hoperands hvalue) ?_
  refine .addressed hoperands hargs fun a ha => ?_
  refine .bind (.next hvalue) fun v => ?_
  exact .bind (.liftExcept (.refl _)) fun place => .pure _

theorem compoundByCall_settles (used : Bool) (op : BinaryOp) :
    k.Settles (compoundByCall k.cx used op (t.map (Expr.operand k.cx)) (value.operand k.cx))
      (compoundByCall k.cx' used op ((t.stored s).map (Expr.operand k.cx'))
        (value.operand k.cx')) := by
  simp only [compoundByCall, Target.load_map, Target.store_map, Target.ty_map, Target.ty_stored,
    Target.getter?_map, Target.setter?_map, Target.setterIsInline_map, k.names, k.copied_eq,
    hs.setterIsInline, k.passed_eq hs.getter_runsCode, k.passed_eq hs.setter_runsCode]
  refine .sequenced (t.operands ++ [value]) (by simp) (by simp)
    (sameEffects_operands hoperands hvalue) ?_
  refine .addressed hoperands hargs fun a ha => ?_
  refine .bind (.liftExcept (hs.load _ ((length_passed ..).trans ha))) fun load => ?_
  refine .get fun seq seq' hpending => ?_
  rw [hpending]
  refine .held load fun old => ?_
  refine .bind (.next hvalue) fun v => ?_
  refine .held (.binary op old v.expr) fun new => ?_
  refine .bind (.liftExcept (hs.store _ ((length_passed ..).trans ha) _)) fun store => ?_
  exact .ite (.bind (.push _) fun _ => .pure _) (.pure _)

theorem assignSimple_settles (used : Bool) :
    k.Settles (assignSimple k.cx used (t.map (Expr.operand k.cx)) (value.operand k.cx))
      (assignSimple k.cx' used ((t.stored s).map (Expr.operand k.cx'))
        (value.operand k.cx')) := by
  unfold assignSimple
  rw [Target.isNative_map, Target.isNative_map, hs.isNative]
  cases t.isNative with
  | true => exact assignNative_settles hs hoperands hargs hvalue used
  | false => exact assignByCall_settles hs hoperands hargs hvalue used

theorem assignCompound_settles (used : Bool) (assignOp : AssignOp) (op : BinaryOp)
    (span : Span) :
    k.Settles
      (assignCompound k.cx used assignOp op (t.map (Expr.operand k.cx)) (value.operand k.cx) span)
      (assignCompound k.cx' used assignOp op ((t.stored s).map (Expr.operand k.cx'))
        (value.operand k.cx') span) := by
  unfold assignCompound
  rw [Target.isReceiver_map, Target.isReceiver_map, Target.isNative_map, Target.isNative_map,
    Target.isReceiver_stored, hs.isNative]
  cases t.isReceiver with
  | true => exact .refl _
  | false =>
    cases t.isNative with
    | true => exact compoundNative_settles hs hoperands hargs hvalue op
    | false => exact compoundByCall_settles hs hoperands hargs hvalue used op

end

/-! ## Expressions -/

theorem Runs.lowerReceiver {c : Capture} {r : Receiver Expr} {args : List Expr}
    (hobject : ∀ o ∈ r.object?.toList, k.Alike o) :
    k.Runs (r.object?.toList ++ args) args (lowerReceiver k.cx c (r.map (Expr.operand k.cx)))
      (lowerReceiver k.cx' c (r.map (Expr.operand k.cx'))) := by
  cases r with
  | object e =>
    exact .bind (.next (hobject e (List.mem_singleton_self e))) fun v => .pure v.expr
  | static owner => exact .pure _
  | base declaring => exact .pure _

theorem Runs.lowerCallArgs {c : Capture} (args : List Expr) (hargs : ∀ o ∈ args, k.Alike o) :
    ∀ params, k.Runs args [] (lowerCallArgs k.cx c params (args.map (Expr.operand k.cx)))
      (lowerCallArgs k.cx' c params (args.map (Expr.operand k.cx'))) := by
  induction args with
  | nil => exact fun params => .pure []
  | cons o args ih =>
    intro params
    obtain ⟨ho, hrest⟩ := List.forall_mem_cons.1 hargs
    simp only [List.map_cons, AssignmentLowering.lowerCallArgs, ty_operand, k.copied_eq]
    exact .bind (.next ho) fun v => .bind (ih hrest params.tail) fun xs => .pure _

theorem lowerCall_settles {r : Receiver Expr} {m : Method} {args : List Expr} {span : Span}
    (hcallees : k.Callees m (k.cx.metadata.method m) (k.cx'.metadata.method m))
    (hparts : ∀ o ∈ r.object?.toList ++ args, k.Alike o) :
    k.Settles (lowerCall k.cx (r.map (Expr.operand k.cx)) m (args.map (Expr.operand k.cx)) span)
      (lowerCall k.cx' (r.map (Expr.operand k.cx')) m (args.map (Expr.operand k.cx')) span) := by
  obtain ⟨hobject, hargs⟩ := List.forall_mem_append.1 hparts
  have hknown : k.SameEffects (r.object?.toList ++ args) := fun o ho => (hparts o ho).effects
  have hoperands : ∀ f : Expr → Operand,
      (r.map f).object?.toList ++ args.map f = (r.object?.toList ++ args).map f := by
    simp [Option.toList_map]
  simp only [lowerCall, k.names]
  generalize k.cx.metadata.method m = b, k.cx'.metadata.method m = b' at hcallees
  cases hcallees with
  | same b =>
    cases b with
    | unusable => exact .refl _
    | method name =>
      refine .sequenced _ (hoperands _) (hoperands _) hknown ?_
      refine .bind (.lowerReceiver hobject) fun object => ?_
      refine .bind (.lowerCallArgs args hargs m.params) fun xs => ?_
      cases r <;> exact .pure _
    | inline template =>
      refine .sequenced _ (hoperands _) (hoperands _) hknown ?_
      refine .bind (.lowerReceiver hobject) fun object => ?_
      refine .bind (.lowerCallArgs args hargs m.params) fun xs => ?_
      exact .bind (.liftExcept (.refl _)) fun text => .pure _
  | inline h =>
    refine .sequenced _ (hoperands _) (hoperands _) hknown ?_
    refine .bind (.lowerReceiver hobject) fun object => ?_
    refine .bind (.lowerCallArgs args hargs m.params) fun xs => ?_
    exact .bind (.liftExcept (h span object xs)) fun text => .pure _

theorem lowerBinary_settles {op : BinaryOp} {l r : Expr} (hparts : ∀ o ∈ [l, r], k.Alike o) :
    k.Settles (lowerBinary k.cx op (l.operand k.cx) (r.operand k.cx))
      (lowerBinary k.cx' op (l.operand k.cx') (r.operand k.cx')) := by
  obtain ⟨hl, hr⟩ := List.forall_mem_cons.1 hparts
  refine .sequenced [l, r] rfl rfl (fun o ho => (hparts o ho).effects) ?_
  refine .bind (.next hl) fun v => ?_
  exact .bind (.next (hr r (List.mem_singleton_self r))) fun w => .pure _

/-- An argument of a target is evaluated in its turn, or it is a default. -/
theorem mem_evaluated_of_mem_args {md : Metadata} {enclosing : EnclosingMember} {p : Place Expr}
    {span : Span} {t : Target Expr} (ht : Target.ofPlace md enclosing Expr.ty span p = .ok t)
    {a : IndexArg Expr} (ha : a ∈ t.args) : a.value ∈ t.operands ++ t.omitted := by
  rw [List.mem_append]
  cases hposition : a.position with
  | none => exact .inr (List.mem_map_of_mem (List.mem_filter.2 ⟨ha, by simp [hposition]⟩))
  | some i =>
    left
    have hvalue := (Target.ofPlace_arranges ht).2.value_eq a ha i hposition
    rw [Target.operands_ofPlace ht]
    exact List.mem_append_right _ (List.mem_of_getElem? hvalue)

/-- What is done with the target of a place is done alike in both runs if what addresses it
is. -/
theorem Settles.ofPlace {p : Place Expr} {span : Span}
    (hparts : ∀ o ∈ Expr.addressing k.cx ⟨.place p, span⟩, k.Alike o)
    (hplace : k.Matches k.Counterparts
      (Target.ofPlace k.cx.metadata k.cx.enclosing Expr.ty span p)
      (Target.ofPlace k.cx'.metadata k.cx'.enclosing Expr.ty span p))
    {f g : Target Operand → LowerM Lowered}
    (hf : ∀ (t : Target Expr) (s : Storage), k.Serves t s → (∀ o ∈ t.operands, k.Alike o) →
      (∀ a ∈ t.args, k.Alike a.value) →
      k.Settles (f (t.map (Expr.operand k.cx))) (g ((t.stored s).map (Expr.operand k.cx')))) :
    k.Settles
      (AssignmentLowering.liftExcept
        ((Target.ofPlace k.cx.metadata k.cx.enclosing Expr.ty span p).map
          (Target.map (Expr.operand k.cx))) >>= f)
      (AssignmentLowering.liftExcept
        ((Target.ofPlace k.cx'.metadata k.cx'.enclosing Expr.ty span p).map
          (Target.map (Expr.operand k.cx'))) >>= g) := by
  generalize Target.ofPlace k.cx'.metadata k.cx'.enclosing Expr.ty span p = r' at hplace ⊢
  cases ht : Target.ofPlace k.cx.metadata k.cx.enclosing Expr.ty span p with
  | error e =>
    rw [ht] at hplace
    cases hplace with
    | error h => exact fun n => .error h
    | refused h => exact fun n => .refused h
  | ok t =>
    have haddressing : Expr.addressing k.cx ⟨.place p, span⟩ = t.operands ++ t.omitted :=
      Expr.addressing_of_target ht
    rw [haddressing] at hparts
    rw [ht] at hplace
    cases hplace with
    | ok h =>
      obtain ⟨s, rfl, hs⟩ := h
      exact hf t s hs (fun o ho => hparts o (List.mem_append_left _ ho))
        fun a ha => hparts _ (mem_evaluated_of_mem_args ht ha)

theorem lowerLoad_settles {p : Place Expr} {span : Span}
    (hparts : ∀ o ∈ Expr.addressing k.cx ⟨.place p, span⟩, k.Alike o)
    (hplace : k.Matches k.Counterparts
      (Target.ofPlace k.cx.metadata k.cx.enclosing Expr.ty span p)
      (Target.ofPlace k.cx'.metadata k.cx'.enclosing Expr.ty span p)) :
    k.Settles (lowerLoad k.cx (p.map (Expr.operand k.cx)) span)
      (lowerLoad k.cx' (p.map (Expr.operand k.cx')) span) := by
  rw [lowerLoad_operand, lowerLoad_operand]
  exact .ofPlace hparts hplace fun t s hs hoperands hargs =>
    readTarget_settles hs hoperands hargs

/-- An assignment is lowered alike in both runs if what is evaluated in its course is. -/
theorem lowerAssignment_settles_of_parts {usage : Usage} {a : Assignment Expr} {span : Span}
    (hparts : ∀ o ∈ Expr.evaluated k.cx ⟨.assign a, span⟩, k.Alike o)
    (hcomparable : k.Comparable ⟨.assign a, span⟩) :
    k.Settles (lowerAssignment k.cx usage a span) (lowerAssignment k.cx' usage a span) := by
  obtain ⟨haddressing, hvalue⟩ := List.forall_mem_append.1 hparts
  have hvalue := hvalue _ (List.mem_singleton_self _)
  unfold lowerAssignment lowerAssignmentOf
  simp only [Assignment.map, target_operand]
  cases hp : a.target.form with
  | place p =>
    have hplace := hcomparable.place p (.assigned hp) a.target.span
    rw [Expr.eq_of_place hp] at haddressing ⊢
    refine .ofPlace haddressing hplace fun t s hs hoperands hargs => ?_
    cases a.op.binary? with
    | none => exact assignSimple_settles hs hoperands hargs hvalue usage.isUsed
    | some op =>
      exact assignCompound_settles hs hoperands hargs hvalue usage.isUsed a.op op span
  | _ =>
    have hnone : a.target.form.place? = none := by rw [hp]; rfl
    simp only [Expr.target, hnone, Target.classify]
    exact fun n => .error (k.same_refl _)

/-- An expression is lowered alike in both runs if the answers about all that is evaluated for
it can stand for each other. -/
theorem alike {e : Expr} (h : ∀ d, e.Evaluates k.cx d → k.Comparable d) : k.Alike e := by
  induction e using Expr.inductParts with
  | step e ih =>
    have hparts : ∀ c ∈ e.evaluated k.cx, k.Alike c := fun c hc =>
      ih c (e.evaluated_subset_parts hc) fun d hd => h d (.step hc hd)
    have he := h e .refl
    refine ⟨he.effects, ?_⟩
    obtain ⟨form, span⟩ := e
    rw [Expr.lower_eq, Expr.lower_eq]
    cases form with
    | literal value ty => exact .refl _
    | defaultValue ty =>
      simp only [Form.map, lowerForm, k.defaultValue_eq]
      exact .refl _
    | place p =>
      cases p with
      | this ty => exact .refl _
      | _ => exact lowerLoad_settles hparts (he.place _ .read span)
    | call r m args => exact lowerCall_settles (he.method r m args rfl) hparts
    | binary op l r ty => exact lowerBinary_settles hparts
    | assign a => exact lowerAssignment_settles_of_parts hparts he

/-- So is an assignment. -/
theorem lowerAssignment_settles {usage : Usage} {a : Assignment Expr} {span : Span}
    (h : ∀ d, Expr.Evaluates k.cx ⟨.assign a, span⟩ d → k.Comparable d) :
    k.Settles (lowerAssignment k.cx usage a span) (lowerAssignment k.cx' usage a span) :=
  lowerAssignment_settles_of_parts (fun _ hc => alike fun d hd => h d (.step hc hd)) (h _ .refl)

end Comparison
end AssignmentLowering
