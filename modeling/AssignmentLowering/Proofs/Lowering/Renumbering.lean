import AssignmentLowering.Proofs.Expr.Annotate
import AssignmentLowering.Proofs.Script.Rename
import AssignmentLowering.Proofs.Target.Failure

/-!
# Two numberings of temporaries side by side

What lowering decides it decides by looking at the tree, at flags, and at whether script
can be evaluated again unnoticed. None of this is told by the name of a temporary. So two
runs that number their temporaries differently take the same decisions: they take as many
temporaries, emit as many statements, and fail at the same check. Where no text of a
template stands between, what they emit is the same up to the names of temporaries.

## Main definitions

* `Renumbering` — another numbering, and the renaming that leads to it.
* `Renumbering.Alike` — what the two runs make, side by side.
* `Renumbering.Runs` — steps that end alike if they start alike.

## Main statements

* `Renumbering.Runs.next`, `Renumbering.Runs.lowerAddress` — the steps of lowering do.
* `Renumbering.lower_alike`, `Renumbering.lowerAssignment_alike` — so does lowering.
-/

namespace AssignmentLowering

open Script (Stmt)
open Sequence (next capture push)

/-! ## What is renamed -/

/-- A value with the identifiers in its expression renamed. -/
def Value.rename (f : String → String) (v : Value) : Value := { v with expr := v.expr.rename f }

/-- A lowered expression with identifiers renamed, those of its statements included. -/
def Lowered.rename (f : String → String) (v : Lowered) : Lowered :=
  { v with expr := v.expr.rename f, stmts := v.stmts.map (Stmt.rename f) }

def IndexValue.rename (f : String → String) (x : IndexValue) : IndexValue :=
  { x with expr := x.expr.rename f }

def LoweredAddress.rename (f : String → String) (a : LoweredAddress) : LoweredAddress :=
  ⟨a.object.map (Script.Expr.rename f), a.args.map (IndexValue.rename f)⟩

@[simp] theorem LoweredAddress.address_rename (f : String → String) (a : LoweredAddress) :
    (a.rename f).address = a.address.rename f := by
  simp [address, rename, Address.rename, IndexValue.rename, Function.comp_def]

@[simp] theorem LoweredAddress.passed_rename (f : String → String) (cx : Context)
    (accessor : Option Accessor) (uses : Nat) (a : LoweredAddress) :
    (a.rename f).passed cx accessor uses = (a.passed cx accessor uses).rename f := by
  unfold passed
  split
  · simp [rename, Address.rename, IndexValue.rename, Context.copied, Function.comp_def]
  · exact a.address_rename f

theorem LoweredAddress.length_args_passed (cx : Context) (accessor : Option Accessor)
    (uses : Nat) (a : LoweredAddress) :
    (a.passed cx accessor uses).args.length = a.args.length := by
  unfold passed
  split <;> simp [address]

/-- What an expression brings along of its own is not renamed: local variables, and no text
of a template. -/
structure Expr.KeepsNames (cx : Context) (f : String → String) (e : Expr) : Prop where
  target : ∀ t, e.target cx.metadata cx.enclosing = .ok t → t.Keeps f
  method : ∀ r m args, e.form = .call r m args →
    ∀ template, cx.metadata.method m ≠ .inline template

/-! ## Side by side -/

/-- A numbering of temporaries besides that of `cx`, with other names and another count to
start at, and a renaming that leads to it from that of `cx`. -/
structure Renumbering (cx : Context) where
  stem : String
  /-- The count that the numbering of `cx` starts at. -/
  first : Nat
  /-- The count that the other numbering starts at. -/
  second : Nat
  rename : String → String
  renames : ∀ k, rename (cx.temp (first + k + 1)) = Temporary.name stem (second + k + 1)
  /-- Whether what is emitted is compared, name by name. -/
  comparable : Prop

namespace Renumbering

variable {cx : Context} (R : Renumbering cx)

/-- The context of the second run. -/
def other : Context := { cx with tempStem := R.stem }

@[simp] theorem temp_other (m : Nat) : R.other.temp m = Temporary.name R.stem m := rfl

@[simp] theorem metadata_other : R.other.metadata = cx.metadata := rfl

@[simp] theorem names_other : R.other.names = cx.names := rfl

@[simp] theorem copied_other (ty : TypeRef) (fresh : Bool) (uses : Nat) (e : Script.Expr) :
    R.other.copied ty fresh uses e = cx.copied ty fresh uses e := rfl

@[simp] theorem passed_other (a : LoweredAddress) (accessor : Option Accessor) (uses : Nat) :
    a.passed R.other accessor uses = a.passed cx accessor uses := rfl

/-- What the two runs make is of the same shape and, where it is compared, the same up to
renaming. -/
structure Alike {α β : Type} (shape : α → β) (rename : α → α) (x x' : α) : Prop where
  shape : shape x = shape x'
  renamed : R.comparable → x' = rename x

abbrev Exprs := R.Alike Script.Expr.isReusable (Script.Expr.rename R.rename)

abbrev ExprLists := R.Alike List.length (List.map (Script.Expr.rename R.rename))

abbrev Statements := R.Alike List.length (List.map (Stmt.rename R.rename))

abbrev Values :=
  R.Alike (fun v : Value => (v.expr.isReusable, v.fresh, v.stable)) (Value.rename R.rename)

/-- Arguments that were written, with their declared indices. -/
abbrev Supplied :=
  List.Forall₂ fun x y : Nat × Value => x.1 = y.1 ∧ R.Values x.2 y.2

abbrev Arguments := R.Alike List.length (List.map (IndexValue.rename R.rename))

abbrev Addresses :=
  R.Alike (fun a : LoweredAddress => a.args.length) (LoweredAddress.rename R.rename)

variable {R}

theorem Statements.append {stmts stmts' more more' : List Stmt} (h : R.Statements stmts stmts')
    (h' : R.Statements more more') : R.Statements (stmts ++ more) (stmts' ++ more') :=
  ⟨by simp [h.shape, h'.shape], fun hc => by simp [h.renamed hc, h'.renamed hc]⟩

theorem Exprs.statement {e e' : Script.Expr} (h : R.Exprs e e') :
    R.Statements [.expr e] [.expr e'] :=
  ⟨rfl, fun hc => by simp [h.renamed hc, Stmt.rename]⟩

theorem Exprs.declare {e e' : Script.Expr} (h : R.Exprs e e') (k : Nat) :
    R.Statements [.declare (cx.temp (R.first + k + 1)) e]
      [.declare (R.other.temp (R.second + k + 1)) e'] :=
  ⟨rfl, fun hc => by simp [h.renamed hc, Stmt.rename, R.renames]⟩

/-- The `k`-th temporaries of the two runs. -/
theorem Exprs.temp (k : Nat) :
    R.Exprs (.ident (cx.temp (R.first + k + 1))) (.ident (R.other.temp (R.second + k + 1))) :=
  ⟨rfl, fun _ => by simp [Script.Expr.rename, R.renames]⟩

theorem Values.expr {v v' : Value} (h : R.Values v v') : R.Exprs v.expr v'.expr :=
  ⟨congrArg (·.1) h.shape, fun hc => by simp [h.renamed hc, Value.rename]⟩

theorem Values.fresh {v v' : Value} (h : R.Values v v') : v.fresh = v'.fresh :=
  congrArg (·.2.1) h.shape

theorem Values.stable {v v' : Value} (h : R.Values v v') : v.stable = v'.stable :=
  congrArg (·.2.2) h.shape

theorem Exprs.value {e e' : Script.Expr} (h : R.Exprs e e') {fresh fresh' stable stable' : Bool}
    (hfresh : fresh = fresh') (hstable : stable = stable') :
    R.Values ⟨e, fresh, stable⟩ ⟨e', fresh', stable'⟩ :=
  ⟨by simp [h.shape, hfresh, hstable], fun hc => by
    simp [h.renamed hc, Value.rename, hfresh, hstable]⟩

theorem Values.ite {c : Prop} [Decidable c] {v v' w w' : Value} (h : R.Values v v')
    (h' : R.Values w w') : R.Values (if c then v else w) (if c then v' else w') := by
  split
  · exact h
  · exact h'

/-- What cannot be evaluated again unnoticed, in either run. -/
theorem Exprs.of_renamed {e e' : Script.Expr} (h : e.isReusable = false)
    (h' : e'.isReusable = false) (hrenamed : R.comparable → e' = e.rename R.rename) :
    R.Exprs e e' := ⟨h.trans h'.symm, hrenamed⟩

theorem Exprs.assign {e e' v v' : Script.Expr} (h : R.Exprs e e') (hv : R.Exprs v v') :
    R.Exprs (.assign e v) (.assign e' v') :=
  .of_renamed rfl rfl fun hc => by simp [Script.Expr.rename, h.renamed hc, hv.renamed hc]

theorem Exprs.compoundAssign (op : BinaryOp) {e e' v v' : Script.Expr} (h : R.Exprs e e')
    (hv : R.Exprs v v') : R.Exprs (.compoundAssign op e v) (.compoundAssign op e' v') :=
  .of_renamed rfl rfl fun hc => by simp [Script.Expr.rename, h.renamed hc, hv.renamed hc]

theorem Exprs.binary (op : BinaryOp) {l l' r r' : Script.Expr} (h : R.Exprs l l')
    (hr : R.Exprs r r') : R.Exprs (.binary op l r) (.binary op l' r') :=
  .of_renamed rfl rfl fun hc => by simp [Script.Expr.rename, h.renamed hc, hr.renamed hc]

theorem Exprs.copied {e e' : Script.Expr} (h : R.Exprs e e') (ty : TypeRef)
    {fresh fresh' : Bool} (hfresh : fresh = fresh') (uses : Nat) :
    R.Exprs (cx.copied ty fresh uses e) (cx.copied ty fresh' uses e') := by
  subst hfresh
  refine ⟨?_, fun hc => by simp [h.renamed hc, Context.copied]⟩
  unfold Context.copied AssignmentLowering.copied
  cases (cx.metadata.semantics ty).cloneTag? fresh uses with
  | none => exact h.shape
  | some tag => rfl

theorem Supplied.lookup {supplied supplied' : List (Nat × Value)}
    (h : R.Supplied supplied supplied') (declared : Nat) :
    Option.Rel R.Values (supplied.lookup declared) (supplied'.lookup declared) := by
  induction h with
  | nil => exact .none
  | @cons x y _ _ hhead _ ih =>
    obtain ⟨d, v⟩ := x
    obtain ⟨d', v'⟩ := y
    obtain ⟨rfl, hv⟩ : d = d' ∧ R.Values v v' := hhead
    rw [List.lookup_cons, List.lookup_cons]
    split
    · exact .some hv
    · exact ih

variable (R)

/-- Two computations that fail with the same error, or give results that `Q` relates. -/
inductive Agree {α β : Type} (Q : α → β → Prop) :
    Except LoweringError α → Except LoweringError β → Prop
  | ok {a : α} {b : β} (h : Q a b) : Agree Q (.ok a) (.ok b)
  | error {e : LoweringError} : Agree Q (.error e) (.error e)

/-- How two steps end that run side by side: with the same error, or with results that `Q`
relates, after as many temporaries, with the operands `pending` to come. -/
inductive Ends {α β : Type} (Q : α → β → Prop) (pending : List Expr) :
    EStateM.Result LoweringError Sequence α → EStateM.Result LoweringError Sequence β → Prop
  | ok {a : α} {b : β} {k : Nat} {stmts stmts' : List Stmt} (h : Q a b)
      (hstmts : R.Statements stmts stmts') :
      Ends Q pending (.ok a (sequenceOf cx (R.first + k) pending stmts))
        (.ok b (sequenceOf R.other (R.second + k) pending stmts'))
  | error {e : LoweringError} {s s' : Sequence} : Ends Q pending (.error e s) (.error e s')

/-- Steps that end alike if they start alike, with the operands `before` to come at the start
and `after` at the end. -/
def Runs {α β : Type} (Q : α → β → Prop) (before after : List Expr) (x : SequenceM α)
    (y : SequenceM β) : Prop :=
  ∀ k stmts stmts', R.Statements stmts stmts' →
    R.Ends Q after (x (sequenceOf cx (R.first + k) before stmts))
      (y (sequenceOf R.other (R.second + k) before stmts'))

/-- How two lowerings end that run side by side. -/
inductive LowerEnds : EStateM.Result LoweringError Nat Lowered →
    EStateM.Result LoweringError Nat Lowered → Prop
  | ok {v v' : Lowered} {k : Nat} (h : R.Values v.toValue v'.toValue)
      (hstmts : R.Statements v.stmts v'.stmts) :
      LowerEnds (.ok v (R.first + k)) (.ok v' (R.second + k))
  | error {e : LoweringError} {m m' : Nat} : LowerEnds (.error e m) (.error e m')

/-- Lowerings that end alike if they start alike. -/
def Lowers (x y : LowerM Lowered) : Prop :=
  ∀ k, R.LowerEnds (x (R.first + k)) (y (R.second + k))

/-- An expression that is lowered alike by the two runs. -/
def LowersAlike (e : Expr) : Prop := R.Lowers (e.lower cx) (e.lower R.other)

variable {R} {α β γ δ : Type} {Q : α → β → Prop} {S : γ → δ → Prop}
  {before between after : List Expr}

/-! ## Steps -/

namespace Runs

theorem pure {a : α} {b : β} (h : Q a b) : R.Runs Q before before (pure a) (pure b) :=
  fun _ _ _ hstmts => .ok h hstmts

theorem bind {x : SequenceM α} {y : SequenceM β} {f : α → SequenceM γ} {g : β → SequenceM δ}
    (hx : R.Runs Q before between x y)
    (hf : ∀ a b, Q a b → R.Runs S between after (f a) (g b)) :
    R.Runs S before after (x >>= f) (y >>= g) := by
  intro k stmts stmts' hstmts
  have hfirst := hx k stmts stmts' hstmts
  rw [bind_apply, bind_apply]
  generalize x (sequenceOf cx (R.first + k) before stmts) = r at hfirst
  generalize y (sequenceOf R.other (R.second + k) before stmts') = r' at hfirst
  cases hfirst with
  | ok h hstmts => exact hf _ _ h _ _ _ hstmts
  | error => exact .error

theorem liftExcept {x : Except LoweringError α} {y : Except LoweringError β} (h : Agree Q x y) :
    R.Runs Q before before (liftExcept x) (liftExcept y) := by
  intro k stmts stmts' hstmts
  cases h with
  | ok h => exact .ok h hstmts
  | error => exact .error

theorem ite {c : Prop} [Decidable c] {x x' : SequenceM α} {y y' : SequenceM β}
    (hx : R.Runs Q before after x y) (hx' : R.Runs Q before after x' y') :
    R.Runs Q before after (if c then x else x') (if c then y else y') := by
  split
  · exact hx
  · exact hx'

theorem push {e e' : Script.Expr} (h : R.Exprs e e') :
    R.Runs (fun _ _ => True) before before (push (.expr e)) (push (.expr e')) :=
  fun _ _ _ hstmts => .ok trivial (hstmts.append h.statement)

theorem capture {e e' : Script.Expr} (h : R.Exprs e e') :
    R.Runs R.Exprs before before (capture cx e) (capture R.other e') :=
  fun k _ _ hstmts => .ok (k := k + 1) (Exprs.temp k) (hstmts.append (h.declare k))

/-- A value that is captured or not, as the same flag says, and what follows. -/
theorem held {flag : Bool} {e e' : Script.Expr} (he : R.Exprs e e')
    {f : Script.Expr → SequenceM α} {g : Script.Expr → SequenceM β}
    (h : ∀ x x', R.Exprs x x' → R.Runs Q before after (f x) (g x')) :
    R.Runs Q before after (if flag then Sequence.capture cx e >>= f else Pure.pure e >>= f)
      (if flag then Sequence.capture R.other e' >>= g else Pure.pure e' >>= g) :=
  ite (bind (capture he) h) (bind (pure he) h)

/-- Whether operands to come have effects is the same. -/
theorem get :
    R.Runs (fun s s' => s.pendingHasEffects cx = s'.pendingHasEffects R.other) before before
      MonadState.get MonadState.get :=
  fun _ _ _ hstmts =>
    .ok (by simp [Sequence.pendingHasEffects, sequenceOf, Function.comp_def]) hstmts

/-- An operand lowered apart from the sequence. -/
theorem aside (before : List Expr) {o : Expr} (ho : R.LowersAlike o) :
    R.Runs R.Values before before (Sequence.aside (o.operand cx))
      (Sequence.aside (o.operand R.other)) := by
  intro k stmts stmts' hstmts
  have hlower := ho k
  change R.LowerEnds ((o.operand cx).lower (R.first + k))
    ((o.operand R.other).lower (R.second + k)) at hlower
  unfold Sequence.aside
  rw [temps_sequenceOf, temps_sequenceOf]
  generalize (o.operand cx).lower (R.first + k) = r at hlower
  generalize (o.operand R.other).lower (R.second + k) = r' at hlower
  cases hlower with
  | ok h hmore => exact .ok h (hstmts.append hmore)
  | error => exact .error

/-- Whether an operand is captured is decided alike. -/
theorem next {c : Capture} {o : Expr} {later : List Expr} (ho : R.LowersAlike o) :
    R.Runs R.Values (o :: later) later (next cx c) (next R.other c) := by
  intro k stmts stmts' hstmts
  have haside := aside later ho k stmts stmts' hstmts
  have hpending : (sequenceOf cx (R.first + k) (o :: later) stmts).pending =
      o.operand cx :: later.map (Expr.operand cx) := rfl
  have hpending' : (sequenceOf R.other (R.second + k) (o :: later) stmts').pending =
      o.operand R.other :: later.map (Expr.operand R.other) := rfl
  rw [Sequence.next_apply_cons cx c hpending, Sequence.next_apply_cons R.other c hpending']
  unfold sequenceOf at haside ⊢
  dsimp only
  generalize Sequence.aside (o.operand cx) _ = r at haside ⊢
  generalize Sequence.aside (o.operand R.other) _ = r' at haside ⊢
  cases haside with
  | error => exact .error
  | @ok v v' k' _ _ h hmore =>
    have hcapture : Sequence.mustCapture R.other c (o.operand R.other)
        (later.map (Expr.operand R.other)) v' =
        Sequence.mustCapture cx c (o.operand cx) (later.map (Expr.operand cx)) v := by
      rw [mustCapture_operand, mustCapture_operand]
      simp [Expr.mustCapture, h.stable, h.expr.shape, other]
    dsimp only
    rw [hcapture]
    split
    · exact .ok (k := k' + 1) ((Exprs.temp k').value h.fresh rfl)
        (hmore.append (h.expr.declare k'))
    · exact .ok h hmore

/-- Written arguments, lowered alike, go with the same declared indices. -/
theorem lowerCallSite {reuse : Bool} {rest : List Expr} (written : List (Nat × Expr))
    (hwritten : ∀ o ∈ written.map (·.2), R.LowersAlike o) :
    R.Runs R.Supplied (written.map (·.2) ++ rest) rest
      (lowerCallSite cx reuse (written.map (Prod.map id (Expr.operand cx))))
      (lowerCallSite R.other reuse (written.map (Prod.map id (Expr.operand R.other)))) := by
  induction written with
  | nil => exact pure .nil
  | cons x written ih =>
    obtain ⟨declared, o⟩ := x
    obtain ⟨ho, hrest⟩ := List.forall_mem_cons.1 hwritten
    simp only [List.map_cons, Prod.map_apply, id_eq, AssignmentLowering.lowerCallSite,
      isReorderHazard_operand, List.cons_append]
    exact bind (next ho) fun v v' hv => bind (ih hrest) fun vs vs' hvs =>
      pure (.cons ⟨rfl, hv⟩ hvs)

theorem lowerAside {reuse : Bool} {o : Expr} (ho : R.LowersAlike o) :
    R.Runs R.Values before before (lowerAside cx reuse (o.operand cx))
      (lowerAside R.other reuse (o.operand R.other)) := by
  refine bind (aside _ ho) fun v v' hv => ?_
  rw [← hv.expr.shape]
  exact ite (bind (capture hv.expr) fun e e' he => pure (he.value hv.fresh hv.stable)) (pure hv)

/-- Arguments in declared order are taken alike from those written, or lowered alike. -/
theorem lowerArgs {reuse : Bool} {supplied supplied' : List (Nat × Value)}
    (hsupplied : R.Supplied supplied supplied') (args : List (IndexArg Expr))
    (hargs : ∀ a ∈ args, R.LowersAlike a.value) :
    ∀ declared, R.Runs R.Arguments before before
      (lowerArgs cx reuse supplied declared (args.map (IndexArg.map (Expr.operand cx))))
      (lowerArgs R.other reuse supplied' declared
        (args.map (IndexArg.map (Expr.operand R.other)))) := by
  induction args with
  | nil => exact fun declared => pure ⟨rfl, fun _ => rfl⟩
  | cons a args ih =>
    intro declared
    obtain ⟨ha, hrest⟩ := List.forall_mem_cons.1 hargs
    have htail : ∀ v v' : Value, R.Values v v' → R.Runs R.Arguments before before
        (do
          let xs ← AssignmentLowering.lowerArgs cx reuse supplied (declared + 1)
            (args.map (IndexArg.map (Expr.operand cx)))
          Pure.pure (⟨v.expr, a.ty, v.fresh⟩ :: xs))
        (do
          let xs ← AssignmentLowering.lowerArgs R.other reuse supplied' (declared + 1)
            (args.map (IndexArg.map (Expr.operand R.other)))
          Pure.pure (⟨v'.expr, a.ty, v'.fresh⟩ :: xs)) := fun v v' hv =>
      bind (ih hrest (declared + 1)) fun xs xs' hxs => pure
        ⟨by simpa using hxs.shape, fun hc => by
          simp [hxs.renamed hc, hv.renamed hc, IndexValue.rename, Value.rename]⟩
    have hlookup := hsupplied.lookup declared
    simp only [List.map_cons, AssignmentLowering.lowerArgs, IndexArg.value_map,
      IndexArg.ty_map]
    generalize supplied.lookup declared = found at hlookup
    generalize supplied'.lookup declared = found' at hlookup
    cases hlookup with
    | some hv => exact bind (pure hv) htail
    | none => exact bind (lowerAside ha) htail

theorem lowerObject {reuse : Bool} {rest : List Expr} {t : Target Expr}
    (hreceiver : ∀ o ∈ t.receiver.toList, R.LowersAlike o) :
    R.Runs (Option.Rel R.Exprs) (t.operands ++ rest) (t.callSite.map (·.2) ++ rest)
      (lowerObject cx reuse (t.map (Expr.operand cx)))
      (lowerObject R.other reuse (t.map (Expr.operand R.other))) := by
  simp only [AssignmentLowering.lowerObject, Target.receiver_map, Target.operands]
  cases hr : t.receiver with
  | none => exact pure .none
  | some e =>
    have he := hreceiver e (by simp [hr])
    exact bind (next he) fun v v' hv => pure (.some hv.expr)

/-- What addresses a target is lowered alike. -/
theorem lowerAddress {reuse : Bool} {rest : List Expr} {t : Target Expr}
    (hoperands : ∀ o ∈ t.operands, R.LowersAlike o)
    (hargs : ∀ a ∈ t.args, R.LowersAlike a.value) :
    R.Runs R.Addresses (t.operands ++ rest) rest
      (lowerAddress cx reuse (t.map (Expr.operand cx)))
      (lowerAddress R.other reuse (t.map (Expr.operand R.other))) := by
  obtain ⟨hreceiver, hwritten⟩ := List.forall_mem_append.1 hoperands
  refine bind (lowerObject hreceiver) fun object object' hobject => ?_
  rw [Target.callSite_map, Target.callSite_map]
  refine bind (lowerCallSite t.callSite hwritten) fun supplied supplied' hsupplied => ?_
  refine bind (lowerArgs hsupplied t.args hargs 0) fun xs xs' hxs => pure ⟨hxs.shape, fun hc => ?_⟩
  cases hobject with
  | none => simp [LoweredAddress.rename, hxs.renamed hc]
  | some he => simp [LoweredAddress.rename, hxs.renamed hc, he.renamed hc]

end Runs

/-! ## Access -/

section

variable {ε : Type} {t : Target ε} {a a' : LoweredAddress}

theorem Agree.of_failureOf {x : Except LoweringError α} {y : Except LoweringError β}
    (hfailure : failureOf x = failureOf y) (h : ∀ a b, x = .ok a → y = .ok b → Q a b) :
    Agree Q x y := by
  cases x with
  | ok a =>
    cases y with
    | ok b => exact .ok (h a b rfl rfl)
    | error e => cases hfailure
  | error e =>
    cases y with
    | ok b => cases hfailure
    | error e' => cases hfailure; exact .error

theorem Addresses.length_passed (h : R.Addresses a a') (accessor : Option Accessor)
    (uses : Nat) :
    (a.passed cx accessor uses).args.length = (a'.passed cx accessor uses).args.length := by
  rw [LoweredAddress.length_args_passed, LoweredAddress.length_args_passed, h.shape]

theorem Addresses.load (h : R.Addresses a a') (ht : R.comparable → t.Keeps R.rename)
    (accessor : Option Accessor) (uses : Nat) :
    Agree R.Exprs (t.load cx.names (a.passed cx accessor uses))
      (t.load cx.names (a'.passed cx accessor uses)) := by
  refine .of_failureOf (t.failureOf_load_congr cx.names (h.length_passed accessor uses))
    fun e e' he he' => ⟨?_, fun hc => ?_⟩
  · obtain ⟨b, hb⟩ := t.exists_isReusable_load cx.names
    exact (hb _ _ he).trans (hb _ _ he').symm
  · rw [h.renamed hc, LoweredAddress.passed_rename, Target.load_rename _ _ (ht hc), he] at he'
    cases he'
    rfl

theorem Addresses.store (h : R.Addresses a a') (ht : R.comparable → t.Keeps R.rename)
    (accessor : Option Accessor) (uses : Nat) {v v' : Script.Expr} (hv : R.Exprs v v') :
    Agree R.Exprs (t.store cx.names (a.passed cx accessor uses) v)
      (t.store cx.names (a'.passed cx accessor uses) v') := by
  refine .of_failureOf (t.failureOf_store_congr cx.names (h.length_passed accessor uses) v v')
    fun e e' he he' => .of_renamed (Target.isReusable_store he) (Target.isReusable_store he')
      fun hc => ?_
  rw [h.renamed hc, hv.renamed hc, LoweredAddress.passed_rename,
    Target.store_rename _ _ (ht hc), he] at he'
  cases he'
  rfl

theorem Addresses.native (h : R.Addresses a a') (ht : R.comparable → t.Keeps R.rename) :
    Agree R.Exprs (t.native cx.names a.address) (t.native cx.names a'.address) := by
  have hlength : a.address.args.length = a'.address.args.length := by
    simpa [LoweredAddress.address] using h.shape
  refine .of_failureOf (t.failureOf_native cx.names hlength) fun e e' he he' =>
    ⟨(Target.isReusable_native he).trans (Target.isReusable_native he').symm, fun hc => ?_⟩
  rw [h.renamed hc, LoweredAddress.address_rename, Target.native_rename _ _ (ht hc), he] at he'
  cases he'
  rfl

end

/-! ## Assignments -/

theorem Lowers.sequenced (os : List Expr) {pending pending' : List Operand}
    (hpending : pending = os.map (Expr.operand cx))
    (hpending' : pending' = os.map (Expr.operand R.other)) {body body' : SequenceM Value}
    (h : R.Runs R.Values os [] body body') :
    R.Lowers (sequenced pending body) (sequenced pending' body') := by
  subst hpending hpending'
  intro k
  have hbody := h k [] [] ⟨rfl, fun _ => rfl⟩
  unfold sequenceOf at hbody
  unfold AssignmentLowering.sequenced
  generalize body _ = r at hbody ⊢
  generalize body' _ = r' at hbody ⊢
  cases hbody with
  | ok h hstmts => exact .ok h hstmts
  | error => exact .error

section

variable {t : Target Expr} {value : Expr} (ht : R.comparable → t.Keeps R.rename)
  (hoperands : ∀ o ∈ t.operands, R.LowersAlike o) (hargs : ∀ a ∈ t.args, R.LowersAlike a.value)
  (hvalue : R.LowersAlike value)

include ht hoperands hargs hvalue

theorem assignNative_alike (used : Bool) :
    R.Lowers (assignNative cx used (t.map (Expr.operand cx)) (value.operand cx))
      (assignNative R.other used (t.map (Expr.operand R.other)) (value.operand R.other)) := by
  simp only [assignNative, Target.native_map, names_other, copied_other]
  rw [metadata_other, Target.ty_map, Target.ty_map]
  refine .sequenced (t.operands ++ [value]) (by simp) (by simp) ?_
  refine .bind (.lowerAddress hoperands hargs) fun a a' ha => ?_
  refine .bind (.next hvalue) fun v v' hv => ?_
  refine .bind (.liftExcept (ha.native ht)) fun place place' hplace => ?_
  have hstored := hplace.assign (hv.expr.copied t.ty hv.fresh 1)
  exact .ite (.bind (.push hstored) fun _ _ _ => .pure (hplace.value rfl rfl))
    (.pure (hstored.value hv.fresh rfl))

theorem assignByCall_alike (used : Bool) :
    R.Lowers (assignByCall cx used (t.map (Expr.operand cx)) (value.operand cx))
      (assignByCall R.other used (t.map (Expr.operand R.other)) (value.operand R.other)) := by
  simp only [assignByCall, Target.store_map, Target.ty_map, Target.setter?_map,
    Target.setterIsInline_map, names_other, copied_other, passed_other]
  rw [Target.isReceiver_map, Target.isReceiver_map]
  refine .sequenced (t.operands ++ [value]) (by simp) (by simp) ?_
  refine .bind (.lowerAddress hoperands hargs) fun a a' ha => ?_
  refine .bind (.next hvalue) fun v v' hv => ?_
  refine .bind (.liftExcept (ha.store ht _ _ (hv.expr.copied t.ty hv.fresh _)))
    fun store store' hstore => ?_
  refine .ite (.bind (.push hstore) fun _ _ _ => .pure ?_) (.pure (hstore.value rfl rfl))
  exact .ite (hv.expr.value rfl hv.stable) ⟨rfl, fun _ => rfl⟩

theorem compoundNative_alike (op : BinaryOp) :
    R.Lowers (compoundNative cx op (t.map (Expr.operand cx)) (value.operand cx))
      (compoundNative R.other op (t.map (Expr.operand R.other)) (value.operand R.other)) := by
  simp only [compoundNative, Target.native_map, names_other]
  refine .sequenced (t.operands ++ [value]) (by simp) (by simp) ?_
  refine .bind (.lowerAddress hoperands hargs) fun a a' ha => ?_
  refine .bind (.next hvalue) fun v v' hv => ?_
  refine .bind (.liftExcept (ha.native ht)) fun place place' hplace => ?_
  exact .pure ((hplace.compoundAssign op hv.expr).value rfl rfl)

theorem compoundByCall_alike (used : Bool) (op : BinaryOp) :
    R.Lowers (compoundByCall cx used op (t.map (Expr.operand cx)) (value.operand cx))
      (compoundByCall R.other used op (t.map (Expr.operand R.other))
        (value.operand R.other)) := by
  simp only [compoundByCall, Target.load_map, Target.store_map, Target.ty_map,
    Target.getter?_map, Target.setter?_map, Target.setterIsInline_map, names_other,
    copied_other, passed_other]
  refine .sequenced (t.operands ++ [value]) (by simp) (by simp) ?_
  refine .bind (.lowerAddress hoperands hargs) fun a a' ha => ?_
  refine .bind (.liftExcept (ha.load ht _ _)) fun load load' hload => ?_
  refine .bind .get fun s s' hs => ?_
  rw [← hs]
  refine .held hload fun old old' hold => ?_
  refine .bind (.next hvalue) fun v v' hv => ?_
  refine .held (hold.binary op hv.expr) fun new new' hnew => ?_
  refine .bind (.liftExcept (ha.store ht _ _ (hnew.copied t.ty rfl _)))
    fun store store' hstore => ?_
  exact .ite (.bind (.push hstore) fun _ _ _ => .pure (hnew.value rfl rfl))
    (.pure (hstore.value rfl rfl))

theorem assignSimple_alike (used : Bool) :
    R.Lowers (assignSimple cx used (t.map (Expr.operand cx)) (value.operand cx))
      (assignSimple R.other used (t.map (Expr.operand R.other)) (value.operand R.other)) := by
  unfold assignSimple
  rw [Target.isNative_map, Target.isNative_map]
  cases t.isNative with
  | true => exact assignNative_alike ht hoperands hargs hvalue used
  | false => exact assignByCall_alike ht hoperands hargs hvalue used

theorem assignCompound_alike (used : Bool) (assignOp : AssignOp) (op : BinaryOp) (span : Span) :
    R.Lowers
      (assignCompound cx used assignOp op (t.map (Expr.operand cx)) (value.operand cx) span)
      (assignCompound R.other used assignOp op (t.map (Expr.operand R.other))
        (value.operand R.other) span) := by
  unfold assignCompound
  rw [Target.isReceiver_map, Target.isReceiver_map, Target.isNative_map, Target.isNative_map]
  cases t.isReceiver with
  | true => exact fun k => .error
  | false =>
    cases t.isNative with
    | true => exact compoundNative_alike ht hoperands hargs hvalue op
    | false => exact compoundByCall_alike ht hoperands hargs hvalue used op

end

/-! ## Expressions -/

theorem Runs.lowerReceiver {c : Capture} {r : Receiver Expr} {args : List Expr}
    (hobject : ∀ o ∈ r.object?.toList, R.LowersAlike o) :
    R.Runs R.Exprs (r.object?.toList ++ args) args
      (lowerReceiver cx c (r.map (Expr.operand cx)))
      (lowerReceiver R.other c (r.map (Expr.operand R.other))) := by
  cases r with
  | object e =>
    exact .bind (.next (hobject e (List.mem_singleton_self e))) fun v v' hv => .pure hv.expr
  | static owner => exact .pure ⟨rfl, fun _ => rfl⟩
  | base declaring => exact .pure ⟨rfl, fun _ => rfl⟩

theorem Runs.lowerCallArgs {c : Capture} (args : List Expr)
    (hargs : ∀ o ∈ args, R.LowersAlike o) :
    ∀ params, R.Runs R.ExprLists args []
      (lowerCallArgs cx c params (args.map (Expr.operand cx)))
      (lowerCallArgs R.other c params (args.map (Expr.operand R.other))) := by
  induction args with
  | nil => exact fun params => .pure ⟨rfl, fun _ => rfl⟩
  | cons o args ih =>
    intro params
    obtain ⟨ho, hrest⟩ := List.forall_mem_cons.1 hargs
    simp only [List.map_cons, AssignmentLowering.lowerCallArgs, ty_operand, copied_other]
    refine .bind (.next ho) fun v v' hv => .bind (ih hrest params.tail) fun xs xs' hxs => .pure ?_
    have hx := hv.expr.copied ((params.head?.map (·.ty)).getD o.ty) hv.fresh 1
    exact ⟨by simpa using hxs.shape, fun hc => by simp [hx.renamed hc, hxs.renamed hc]⟩

theorem lowerCall_alike {r : Receiver Expr} {m : Method} {args : List Expr} {span : Span}
    (hmethod : R.comparable → ∀ template, cx.metadata.method m ≠ .inline template)
    (hparts : ∀ o ∈ r.object?.toList ++ args, R.LowersAlike o) :
    R.Lowers (lowerCall cx (r.map (Expr.operand cx)) m (args.map (Expr.operand cx)) span)
      (lowerCall R.other (r.map (Expr.operand R.other)) m (args.map (Expr.operand R.other))
        span) := by
  obtain ⟨hobject, hargs⟩ := List.forall_mem_append.1 hparts
  simp only [lowerCall, metadata_other, names_other]
  cases hm : cx.metadata.method m with
  | unusable => exact fun k => .error
  | method name =>
    refine .sequenced (r.object?.toList ++ args) (by simp [Option.toList_map])
      (by simp [Option.toList_map]) ?_
    refine .bind (.lowerReceiver hobject) fun object object' ho => ?_
    refine .bind (.lowerCallArgs args hargs m.params) fun xs xs' hxs => ?_
    refine .pure (Exprs.value ?_ rfl rfl)
    cases r with
    | base declaring => exact .of_renamed rfl rfl fun hc => by simp [Receiver.map, hxs.renamed hc]
    | object e | static owner =>
      exact .of_renamed rfl rfl fun hc => by simp [Receiver.map, ho.renamed hc, hxs.renamed hc]
  | inline template =>
    refine .sequenced (r.object?.toList ++ args) (by simp [Option.toList_map])
      (by simp [Option.toList_map]) ?_
    refine .bind (.lowerReceiver hobject) fun object object' ho => ?_
    refine .bind (.lowerCallArgs args hargs m.params) fun xs xs' hxs => ?_
    have htext : Agree (fun _ _ => True)
        (Template.substitute template span (callOperand? m object xs))
        (Template.substitute template span (callOperand? m object' xs')) :=
      .of_failureOf (Template.failureOf_substitute (isSome_callOperand? hxs.shape) template span)
        fun _ _ _ _ => trivial
    exact .bind (.liftExcept htext) fun text text' _ =>
      .pure (Exprs.value (.of_renamed rfl rfl fun hc => absurd hm (hmethod hc template)) rfl rfl)

theorem lowerBinary_alike {op : BinaryOp} {l r : Expr}
    (hparts : ∀ o ∈ [l, r], R.LowersAlike o) :
    R.Lowers (lowerBinary cx op (l.operand cx) (r.operand cx))
      (lowerBinary R.other op (l.operand R.other) (r.operand R.other)) := by
  obtain ⟨hl, hr⟩ := List.forall_mem_cons.1 hparts
  refine .sequenced [l, r] rfl rfl ?_
  refine .bind (.next hl) fun v v' hv => ?_
  refine .bind (.next (hr r (List.mem_singleton_self r))) fun w w' hw => ?_
  exact .pure ((hv.expr.binary op hw.expr).value rfl rfl)

/-- The operands and arguments of a target are lowered alike if what addresses the place
is. -/
theorem alike_of_ofPlace {p : Place Expr} {span : Span} {t : Target Expr}
    (ht : Target.ofPlace cx.metadata cx.enclosing Expr.ty span p = .ok t)
    (hparts : ∀ o ∈ p.operands ++ p.defaults, R.LowersAlike o) :
    (∀ o ∈ t.operands, R.LowersAlike o) ∧ ∀ a ∈ t.args, R.LowersAlike a.value := by
  obtain ⟨hoperands, hdefaults⟩ := List.forall_mem_append.1 hparts
  refine ⟨fun o ho => hoperands o (Target.operands_ofPlace ht ▸ ho), fun a ha => ?_⟩
  cases hposition : a.position with
  | none => exact hdefaults _ (Target.omitted_mem_defaults ht ha hposition)
  | some i =>
    have hvalue := (Target.ofPlace_arranges ht).2.value_eq a ha i hposition
    exact hoperands _ (List.mem_append_right _ (List.mem_of_getElem? hvalue))

theorem liftExcept_ok_bind {ε : Type} (x : ε) (f : ε → LowerM Lowered) :
    (liftExcept (.ok x) >>= f) = f x := rfl

theorem lowerLoad_alike {p : Place Expr} {span : Span}
    (hkeeps : R.comparable → (⟨.place p, span⟩ : Expr).KeepsNames cx R.rename)
    (hparts : ∀ o ∈ p.operands ++ p.defaults, R.LowersAlike o) :
    R.Lowers (lowerLoad cx (p.map (Expr.operand cx)) span)
      (lowerLoad R.other (p.map (Expr.operand R.other)) span) := by
  have hclassify := Target.ofPlace_map (Expr.operand cx) (fun e => ty_operand e) cx.metadata
    cx.enclosing span p
  have hclassify' := Target.ofPlace_map (Expr.operand R.other) (fun e => ty_operand e)
    cx.metadata cx.enclosing span p
  unfold lowerLoad
  change R.Lowers (liftExcept (Target.ofPlace cx.metadata cx.enclosing Operand.ty span _) >>= _)
    (liftExcept (Target.ofPlace cx.metadata cx.enclosing Operand.ty span _) >>= _)
  rw [hclassify, hclassify']
  cases hp : Target.ofPlace cx.metadata cx.enclosing Expr.ty span p with
  | error e => exact fun k => .error
  | ok t =>
    have ht : R.comparable → t.Keeps R.rename := fun hc => (hkeeps hc).target t hp
    obtain ⟨hoperands, hargs⟩ := alike_of_ofPlace hp hparts
    simp only [Except.map, liftExcept_ok_bind, Target.load_map, Target.getter?_map,
      Target.getterIsInline_map, Target.loadIsFresh_map, names_other, passed_other]
    refine .sequenced (t.operands ++ []) (by simp) (by simp) ?_
    refine .bind (.lowerAddress hoperands hargs) fun a a' ha => ?_
    refine .bind (.liftExcept (ha.load ht _ _)) fun load load' hload => ?_
    exact .pure (hload.value rfl rfl)

/-- An assignment is lowered alike if what is evaluated in its course is. -/
theorem lowerAssignment_alike_of_parts {usage : Usage} {a : Assignment Expr} {span : Span}
    (hkeeps : R.comparable → a.target.KeepsNames cx R.rename)
    (hparts : ∀ e ∈ (⟨.assign a, span⟩ : Expr).parts, R.LowersAlike e) :
    R.Lowers (lowerAssignment cx usage a span) (lowerAssignment R.other usage a span) := by
  have hvalue := hparts _ (Expr.value_mem_parts a span)
  unfold lowerAssignment lowerAssignmentOf
  simp only [Assignment.map, target_operand]
  change R.Lowers (liftExcept ((a.target.target cx.metadata cx.enclosing).map _) >>= _)
    (liftExcept ((a.target.target cx.metadata cx.enclosing).map _) >>= _)
  cases htarget : a.target.target cx.metadata cx.enclosing with
  | error e => exact fun k => .error
  | ok t =>
    obtain ⟨p, hp, hplace⟩ := Expr.target_arranges htarget
    have ht : R.comparable → t.Keeps R.rename := fun hc => (hkeeps hc).target t htarget
    obtain ⟨hoperands, hargs⟩ := alike_of_ofPlace hplace fun o ho =>
      hparts o (Expr.place_mem_parts (Expr.place?_of_place hp) span ho)
    cases a.op.binary? with
    | none => exact assignSimple_alike ht hoperands hargs hvalue usage.isUsed
    | some op => exact assignCompound_alike ht hoperands hargs hvalue usage.isUsed a.op op span

/-- **An expression is lowered alike by both runs.** -/
theorem lower_alike (e : Expr) (hkeeps : R.comparable → e.Everywhere (·.KeepsNames cx R.rename)) :
    R.LowersAlike e := by
  induction e using Expr.inductParts with
  | step e ih =>
    have hparts : ∀ c ∈ e.parts, R.LowersAlike c :=
      fun c hc => ih c hc fun hcomparable => (hkeeps hcomparable).part c hc
    obtain ⟨form, span⟩ := e
    unfold LowersAlike
    rw [Expr.lower_eq, Expr.lower_eq]
    cases form with
    | literal value ty =>
      exact fun k => .ok ⟨rfl, fun _ => by simp [Value.rename]⟩ ⟨rfl, fun _ => rfl⟩
    | defaultValue ty =>
      exact fun k => .ok ⟨rfl, fun _ => by simp [Value.rename]; rfl⟩ ⟨rfl, fun _ => rfl⟩
    | place p =>
      cases p with
      | this ty => exact fun k => .ok ⟨rfl, fun _ => rfl⟩ ⟨rfl, fun _ => rfl⟩
      | _ => exact lowerLoad_alike (fun hc => (hkeeps hc).here) hparts
    | call r m args =>
      exact lowerCall_alike (fun hc => (hkeeps hc).here.method r m args rfl) hparts
    | binary op l r ty => exact lowerBinary_alike hparts
    | assign a =>
      have hused : R.Lowers (lowerAssignment cx .used a span)
          (lowerAssignment R.other .used a span) :=
        lowerAssignment_alike_of_parts (fun hc => (hkeeps hc).target.here) hparts
      exact hused

/-- **An assignment is lowered alike by both runs.** -/
theorem lowerAssignment_alike (usage : Usage) (a : Assignment Expr) (span : Span)
    (hkeeps : R.comparable →
      Expr.Everywhere (·.KeepsNames cx R.rename) ⟨.assign a, span⟩) :
    R.Lowers (lowerAssignment cx usage a span) (lowerAssignment R.other usage a span) :=
  lowerAssignment_alike_of_parts (fun hc => (hkeeps hc).target.here) fun e he =>
    lower_alike e fun hc => (hkeeps hc).part e he

end Renumbering
end AssignmentLowering
