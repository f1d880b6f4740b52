import AssignmentLowering.Proofs.Expr.Annotate
import AssignmentLowering.Proofs.Target.CallSite
import AssignmentLowering.Lowering.Expr

/-!
# The count of temporaries never goes back

A step that fails keeps the temporaries it took, and so does everything that is made of
such steps. What is lowered later can therefore never hand out a number twice, whatever
failed before.

## Main definitions

* `stateAfter` — where a step ends, whether or not it succeeds.
* `Operand.Advances`, `Advances` — steps that give no temporary back.

## Main statements

* `Expr.operand_advances`, `lowerAssignment_advances` — lowering is such a step.
-/

namespace AssignmentLowering

open Sequence (next capture push aside)

/-- The state that a step ends in, whether or not it succeeds. -/
def stateAfter {ε σ α : Type} (x : EStateM ε σ α) (s : σ) : σ :=
  match x s with
  | .ok _ s' | .error _ s' => s'

theorem stateAfter_bind {ε σ α β : Type} (x : EStateM ε σ α) (f : α → EStateM ε σ β) (s : σ) :
    stateAfter (x >>= f) s =
      match x s with
      | .ok a s' => stateAfter (f a) s'
      | .error _ s' => s' := by
  rw [stateAfter, bind_apply]
  cases x s <;> rfl

@[simp] theorem stateAfter_liftExcept {σ α : Type} (x : Except LoweringError α) (s : σ) :
    stateAfter (liftExcept x) s = s := by
  cases x <;> rfl

/-- An operand whose lowering gives no temporary back. -/
def Operand.Advances (o : Operand) : Prop := ∀ n, n ≤ stateAfter o.lower n

/-- The sequence `s'` comes after `s`: no temporary is given back, and no operand is new. -/
structure Sequence.Precedes (s s' : Sequence) : Prop where
  temps : s.temps ≤ s'.temps
  pending : s'.pending ⊆ s.pending

theorem Sequence.Precedes.refl (s : Sequence) : s.Precedes s := ⟨le_rfl, List.Subset.refl _⟩

theorem Sequence.Precedes.trans {s s' s'' : Sequence} (h : s.Precedes s') (h' : s'.Precedes s'') :
    s.Precedes s'' := ⟨h.temps.trans h'.temps, fun _ ho => h.pending (h'.pending ho)⟩

/-- A step that gives no temporary back if the operands to come do not. -/
def Advances {α : Type} (x : SequenceM α) : Prop :=
  ∀ s : Sequence, (∀ o ∈ s.pending, o.Advances) → s.Precedes (stateAfter x s)

namespace Advances

variable {cx : Context} {α β : Type}

theorem pure (a : α) : Advances (Pure.pure a) := fun s _ => .refl s

theorem get : Advances (MonadState.get : SequenceM Sequence) := fun s _ => .refl s

theorem liftExcept (x : Except LoweringError α) :
    Advances (AssignmentLowering.liftExcept x) := by
  intro s _
  rw [stateAfter_liftExcept]
  exact .refl s

theorem bind {x : SequenceM α} {f : α → SequenceM β} (hx : Advances x)
    (hf : ∀ a, Advances (f a)) : Advances (x >>= f) := by
  intro s hs
  have hfirst := hx s hs
  rw [stateAfter_bind]
  rw [stateAfter] at hfirst
  cases h : x s with
  | ok a s' =>
    rw [h] at hfirst
    exact hfirst.trans (hf a s' fun o ho => hs o (hfirst.pending ho))
  | error e s' =>
    rw [h] at hfirst
    exact hfirst

theorem ite {c : Prop} [Decidable c] {x y : SequenceM α} (hx : Advances x) (hy : Advances y) :
    Advances (if c then x else y) := by
  by_cases hc : c
  · rwa [if_pos hc]
  · rwa [if_neg hc]

theorem push (stmt : Script.Stmt) : Advances (Sequence.push stmt) :=
  fun _ _ => ⟨le_rfl, List.Subset.refl _⟩

theorem capture (e : Script.Expr) : Advances (Sequence.capture cx e) :=
  fun _ _ => ⟨Nat.le_succ _, List.Subset.refl _⟩

theorem aside {o : Operand} (ho : o.Advances) : Advances (Sequence.aside o) := by
  intro s _
  have hle := ho s.temps
  unfold stateAfter Sequence.aside
  unfold stateAfter at hle
  cases h : o.lower s.temps with
  | ok v n =>
    rw [h] at hle
    exact ⟨hle, List.Subset.refl _⟩
  | error e n =>
    rw [h] at hle
    exact ⟨hle, List.Subset.refl _⟩

theorem next (c : Capture) : Advances (Sequence.next cx c) := by
  intro s hs
  cases hpending : s.pending with
  | nil =>
    rw [stateAfter, Sequence.next_apply_nil cx c hpending]
    exact .refl s
  | cons o later =>
    rw [hpending] at hs
    have hdrop : s.Precedes { s with pending := later } :=
      ⟨le_rfl, hpending ▸ List.subset_cons_self o later⟩
    have haside := aside (hs o List.mem_cons_self) { s with pending := later }
      fun o' ho' => hs o' (List.mem_cons_of_mem o ho')
    rw [stateAfter, Sequence.next_apply_cons cx c hpending]
    rw [stateAfter] at haside
    cases h : Sequence.aside o { s with pending := later } with
    | error e s' =>
      rw [h] at haside
      exact hdrop.trans haside
    | ok v s' =>
      rw [h] at haside
      have hsum : s.Precedes s' := hdrop.trans haside
      dsimp only
      by_cases hc : Sequence.mustCapture cx c o later v
      · rw [if_pos hc]
        exact ⟨hsum.temps.trans (Nat.le_succ _), hsum.pending⟩
      · rw [if_neg hc]
        exact hsum

theorem lowerCallSite {reuse : Bool} (written : List (Nat × Operand)) :
    Advances (AssignmentLowering.lowerCallSite cx reuse written) := by
  induction written with
  | nil => exact pure []
  | cons x written ih => exact bind (next _) fun v => bind ih fun vs => pure _

theorem lowerAside {reuse : Bool} {o : Operand} (ho : o.Advances) :
    Advances (AssignmentLowering.lowerAside cx reuse o) :=
  bind (aside ho) fun v => ite (bind (capture v.expr) fun _ => pure _) (pure v)

theorem lowerArgs {reuse : Bool} {supplied : List (Nat × Value)} {args : List (IndexArg Operand)}
    (hargs : ∀ a ∈ args, a.value.Advances) :
    ∀ declared, Advances (AssignmentLowering.lowerArgs cx reuse supplied declared args) := by
  induction args with
  | nil => exact fun declared => pure []
  | cons a args ih =>
    intro declared
    obtain ⟨ha, hrest⟩ := List.forall_mem_cons.1 hargs
    have htail : ∀ v : Value, Advances (do
        let vs ← AssignmentLowering.lowerArgs cx reuse supplied (declared + 1) args
        Pure.pure (⟨v.expr, a.ty, v.fresh⟩ :: vs)) :=
      fun v => bind (ih hrest (declared + 1)) fun vs => pure _
    unfold AssignmentLowering.lowerArgs
    split
    · exact bind (pure _) htail
    · exact bind (lowerAside ha) htail

theorem lowerAddress {reuse : Bool} {t : Target Operand}
    (hargs : ∀ a ∈ t.args, a.value.Advances) :
    Advances (AssignmentLowering.lowerAddress cx reuse t) := by
  refine bind ?_ fun object => bind (lowerCallSite t.callSite) fun supplied =>
    bind (lowerArgs hargs 0) fun xs => pure _
  unfold lowerObject
  split
  · exact bind (next _) fun v => pure _
  · exact pure none

theorem lowerReceiver {c : Capture} (r : Receiver Operand) :
    Advances (AssignmentLowering.lowerReceiver cx c r) := by
  cases r with
  | object e => exact bind (next c) fun v => pure _
  | static owner => exact pure _
  | base declaring => exact pure _

theorem lowerCallArgs {c : Capture} (args : List Operand) :
    ∀ params, Advances (AssignmentLowering.lowerCallArgs cx c params args) := by
  induction args with
  | nil => exact fun params => pure []
  | cons o args ih => exact fun params => bind (next c) fun v => bind (ih _) fun vs => pure _

end Advances

/-! ## Whole forms -/

variable {cx : Context}

theorem sequenced_advances {operands : List Operand} {body : SequenceM Value}
    (hoperands : ∀ o ∈ operands, o.Advances) (hbody : Advances body) (n : Nat) :
    n ≤ stateAfter (sequenced operands body) n := by
  have h := (hbody { temps := n, pending := operands } hoperands).temps
  unfold stateAfter sequenced
  unfold stateAfter at h
  cases hb : body { temps := n, pending := operands } <;> simpa [hb] using h

/-- Behind a computation that needs no state, a step advances if it does. -/
theorem le_stateAfter_liftExcept_bind {α β : Type} {x : Except LoweringError α}
    {f : α → LowerM β} {n : Nat} (h : ∀ a, x = .ok a → n ≤ stateAfter (f a) n) :
    n ≤ stateAfter (liftExcept x >>= f) n := by
  rw [stateAfter_bind]
  cases x with
  | ok a => exact h a rfl
  | error e => exact le_rfl

/-- The operands of a target, and the defaults of arguments left out, are those of the
place. -/
theorem Target.advances_of_ofPlace {p : Place Operand} {span : Span} {t : Target Operand}
    (ht : ofPlace cx.metadata cx.enclosing Operand.ty span p = .ok t)
    (hp : ∀ o ∈ p.operands ++ p.defaults, o.Advances) :
    (∀ o ∈ t.operands, o.Advances) ∧ ∀ a ∈ t.args, a.value.Advances := by
  obtain ⟨hoperands, hdefaults⟩ := List.forall_mem_append.1 hp
  refine ⟨fun o ho => hoperands o (operands_ofPlace ht ▸ ho), fun a ha => ?_⟩
  cases hposition : a.position with
  | none => exact hdefaults _ (omitted_mem_defaults ht ha hposition)
  | some i =>
    have hvalue := (ofPlace_arranges ht).2.value_eq a ha i hposition
    exact hoperands _ (List.mem_append_right _ (List.mem_of_getElem? hvalue))

section

variable {t : Target Operand} {value : Operand} (hoperands : ∀ o ∈ t.operands, o.Advances)
  (hargs : ∀ a ∈ t.args, a.value.Advances) (hvalue : value.Advances)

include hoperands hvalue in
theorem Target.advances_operands_value : ∀ o ∈ t.operands ++ [value], o.Advances :=
  List.forall_mem_append.2 ⟨hoperands, List.forall_mem_singleton.2 hvalue⟩

include hoperands hargs hvalue

theorem assignNative_advances (used : Bool) (n : Nat) :
    n ≤ stateAfter (assignNative cx used t value) n :=
  sequenced_advances (t.advances_operands_value hoperands hvalue)
    (.bind (.lowerAddress hargs) fun _ => .bind (.next _) fun _ => .bind (.liftExcept _) fun _ =>
      .ite (.bind (.push _) fun _ => .pure _) (.pure _)) n

theorem assignByCall_advances (used : Bool) (n : Nat) :
    n ≤ stateAfter (assignByCall cx used t value) n :=
  sequenced_advances (t.advances_operands_value hoperands hvalue)
    (.bind (.lowerAddress hargs) fun _ => .bind (.next _) fun _ => .bind (.liftExcept _) fun _ =>
      .ite (.bind (.push _) fun _ => .pure _) (.pure _)) n

theorem compoundNative_advances (op : BinaryOp) (n : Nat) :
    n ≤ stateAfter (compoundNative cx op t value) n :=
  sequenced_advances (t.advances_operands_value hoperands hvalue)
    (.bind (.lowerAddress hargs) fun _ => .bind (.next _) fun _ => .bind (.liftExcept _) fun _ =>
      .pure _) n

theorem compoundByCall_advances (used : Bool) (op : BinaryOp) (n : Nat) :
    n ≤ stateAfter (compoundByCall cx used op t value) n := by
  -- The new value may be captured, and so may the old one; what follows is the same.
  have hstore : ∀ (a : LoweredAddress) (new : Script.Expr), Advances (do
      let store ← liftExcept (t.store cx.names (a.passed cx t.setter? 2)
        (cx.copied t.ty true (if used then 2 else 1) new))
      if used then do
        push (.expr store)
        pure ⟨new, false, true⟩
      else
        pure (⟨store, false, false⟩ : Value)) := fun a new =>
    .bind (.liftExcept _) fun _ => .ite (.bind (.push _) fun _ => .pure _) (.pure _)
  have hright : ∀ (a : LoweredAddress) (old : Script.Expr), Advances (do
      let v ← next cx {}
      let sum := Script.Expr.binary op old v.expr
      let new ← if used || t.setterIsInline then capture cx sum else pure sum
      let store ← liftExcept (t.store cx.names (a.passed cx t.setter? 2)
        (cx.copied t.ty true (if used then 2 else 1) new))
      if used then do
        push (.expr store)
        pure ⟨new, false, true⟩
      else
        pure (⟨store, false, false⟩ : Value)) := fun a old =>
    .bind (.next _) fun _ =>
      .ite (.bind (.capture _) (hstore a)) (.bind (.pure _) (hstore a))
  exact sequenced_advances (t.advances_operands_value hoperands hvalue)
    (.bind (.lowerAddress hargs) fun a => .bind (.liftExcept _) fun _ => .bind .get fun _ =>
      .ite (.bind (.capture _) (hright a)) (.bind (.pure _) (hright a))) n

theorem assignSimple_advances (used : Bool) (n : Nat) :
    n ≤ stateAfter (assignSimple cx used t value) n := by
  unfold assignSimple
  split
  · exact assignNative_advances hoperands hargs hvalue used n
  · exact assignByCall_advances hoperands hargs hvalue used n

theorem assignCompound_advances (used : Bool) (assignOp : AssignOp) (op : BinaryOp) (span : Span)
    (n : Nat) : n ≤ stateAfter (assignCompound cx used assignOp op t value span) n := by
  unfold assignCompound
  split
  · exact le_rfl
  · split
    · exact compoundNative_advances hoperands hargs hvalue op n
    · exact compoundByCall_advances hoperands hargs hvalue used op n

end

theorem lowerLoad_advances {p : Place Operand} {span : Span}
    (hp : ∀ o ∈ p.operands ++ p.defaults, o.Advances) (n : Nat) :
    n ≤ stateAfter (lowerLoad cx p span) n := by
  refine le_stateAfter_liftExcept_bind fun t ht => ?_
  obtain ⟨hoperands, hargs⟩ := Target.advances_of_ofPlace ht hp
  exact sequenced_advances hoperands
    (.bind (.lowerAddress hargs) fun a => .bind (.liftExcept _) fun load => .pure _) n

theorem lowerCall_advances {r : Receiver Operand} {m : Method} {args : List Operand} {span : Span}
    (hparts : ∀ o ∈ r.object?.toList ++ args, o.Advances) (n : Nat) :
    n ≤ stateAfter (lowerCall cx r m args span) n := by
  unfold lowerCall
  split
  · exact le_rfl
  · exact sequenced_advances hparts
      (.bind (.lowerReceiver r) fun object => .bind (.lowerCallArgs args _) fun xs => .pure _) n
  · exact sequenced_advances hparts
      (.bind (.lowerReceiver r) fun object => .bind (.lowerCallArgs args _) fun xs =>
        .bind (.liftExcept _) fun text => .pure _) n

theorem lowerBinary_advances {op : BinaryOp} {left right : Operand}
    (hparts : ∀ o ∈ [left, right], o.Advances) (n : Nat) :
    n ≤ stateAfter (lowerBinary cx op left right) n :=
  sequenced_advances hparts (.bind (.next _) fun _ => .bind (.next _) fun _ => .pure _) n

theorem lowerAssignmentOf_advances {usage : Usage} {a : Assignment Operand} {span : Span}
    (hvalue : a.value.Advances)
    (htarget : ∀ p, a.target.place? = some p → ∀ o ∈ p.operands ++ p.defaults, o.Advances)
    (n : Nat) : n ≤ stateAfter (lowerAssignmentOf cx usage a span) n := by
  refine le_stateAfter_liftExcept_bind fun t ht => ?_
  unfold Operand.target Target.classify at ht
  cases hp : a.target.place? with
  | none => simp [hp] at ht
  | some p =>
    rw [hp] at ht
    obtain ⟨hoperands, hargs⟩ := Target.advances_of_ofPlace ht (htarget p hp)
    cases a.op.binary? with
    | none => exact assignSimple_advances hoperands hargs hvalue _ n
    | some op => exact assignCompound_advances hoperands hargs hvalue _ _ op span n

/-! ## Expressions -/

theorem Place.defaults_map {ε δ : Type} (f : ε → δ) (p : Place ε) :
    (p.map f).defaults = p.defaults.map f := by
  cases p with
  | indexer r target args ty =>
    cases target with
    | resolved q ds =>
      simp only [Place.map, Place.defaults, IndexerTarget.map, List.filterMap_map,
        List.map_filterMap]
      rfl
    | candidates qs => rfl
  | _ => rfl

/-- Operands made from expressions are such steps if they are made from such. -/
theorem Place.advances_map {p : Place Expr}
    (hp : ∀ e ∈ p.operands ++ p.defaults, (e.operand cx).Advances) :
    ∀ o ∈ (p.map (Expr.operand cx)).operands ++ (p.map (Expr.operand cx)).defaults,
      o.Advances := by
  intro o ho
  rw [Place.operands_map, Place.defaults_map, ← List.map_append] at ho
  obtain ⟨e, he, rfl⟩ := List.mem_map.1 ho
  exact hp e he

theorem lowerAssignment_advances_of_parts {usage : Usage} {a : Assignment Expr} {span : Span}
    (hparts : ∀ e ∈ (⟨.assign a, span⟩ : Expr).parts, (e.operand cx).Advances) (n : Nat) :
    n ≤ stateAfter (lowerAssignment cx usage a span) n := by
  refine lowerAssignmentOf_advances (hparts _ (Expr.value_mem_parts a span)) (fun p hp => ?_) n
  have hplace : a.target.place?.map (Place.map (Expr.operand cx)) = some p := by
    rw [← hp, Assignment.map, Expr.operand_eq, Form.place?_map]
    rfl
  obtain ⟨q, hq, rfl⟩ := Option.map_eq_some_iff.1 hplace
  exact Place.advances_map fun e he => hparts e (Expr.place_mem_parts hq span he)

/-- Lowering an expression gives no temporary back, even if it fails. -/
theorem Expr.operand_advances (e : Expr) : (e.operand cx).Advances := by
  induction e using Expr.inductParts with
  | step e ih =>
    obtain ⟨form, span⟩ := e
    intro n
    change n ≤ stateAfter (Expr.lower cx ⟨form, span⟩) n
    rw [Expr.lower_eq]
    cases form with
    | literal value ty => exact le_rfl
    | defaultValue ty => exact le_rfl
    | place p =>
      cases p with
      | this ty => exact le_rfl
      | _ => exact lowerLoad_advances (Place.advances_map ih) n
    | call r m args =>
      refine lowerCall_advances (fun o ho => ?_) n
      rw [Receiver.object?_map, Option.toList_map, ← List.map_append] at ho
      obtain ⟨e, he, rfl⟩ := List.mem_map.1 ho
      exact ih e he
    | binary op l r ty =>
      refine lowerBinary_advances (fun o ho => ?_) n
      have hmap : o ∈ List.map (Expr.operand cx) [l, r] := ho
      obtain ⟨e, he, rfl⟩ := List.mem_map.1 hmap
      exact ih e he
    | assign a =>
      have hused : n ≤ stateAfter (lowerAssignment cx .used a span) n :=
        lowerAssignment_advances_of_parts ih n
      exact hused

/-- Lowering an assignment gives no temporary back, even if it fails. -/
theorem lowerAssignment_advances (usage : Usage) (a : Assignment Expr) (span : Span) (n : Nat) :
    n ≤ stateAfter (lowerAssignment cx usage a span) n :=
  lowerAssignment_advances_of_parts (fun e _ => e.operand_advances) n

end AssignmentLowering
