import AssignmentLowering.Proofs.Expr.Annotate
import AssignmentLowering.Proofs.Lowering.Forms
import AssignmentLowering.Proofs.Target.Failure

/-!
# The error of a failed lowering

Everything that can go wrong is checked in an order that the tree gives: the target of a
place first, then its operands and the defaults it takes, then the script of the access.
Whether the value of an assignment is wanted decides what is captured, and the count of
temporaries how it is called, but neither decides what is checked. So the error, if there
is one, is a function of the tree.

## Main definitions

* `failureAt` — the error that a step fails with.
* `Form.failure?`, `Expr.failure?` — the first error that a form or an expression meets.

## Main statements

* `Expr.failureAt_lower` — lowering an expression fails with this error or not at all.
* `failureAt_lowerAssignment` — so does lowering an assignment, for every usage.
-/

namespace AssignmentLowering

open Sequence (next capture push)

/-- The error that a step fails with, if it fails. -/
def failureAt {ε σ α : Type} (x : EStateM ε σ α) (s : σ) : Option ε :=
  match x s with
  | .ok .. => none
  | .error e _ => some e

/-! ## The first error of an expression -/

/-- An expression with the error that its lowering fails with, if it fails. -/
abbrev Checked := Annotated (Option LoweringError)

/-- The first error of operands that are lowered one after the other. -/
def firstFailure (os : List Checked) : Option LoweringError := os.findSome? (·.value)

namespace Target

/-- The first error of what addresses a target. -/
def operandsFailure? (t : Target Checked) : Option LoweringError :=
  firstFailure (t.operands ++ t.omitted)

/-- The first error of an assignment to a target, where `value` is that of the right
operand. -/
def assignFailure? (names : RuntimeNames) (op : AssignOp) (span : Span) (t : Target Checked)
    (value : Option LoweringError) : Option LoweringError :=
  match op.binary? with
  | none => t.operandsFailure?.or (value.or (t.storeFailure? names))
  | some _ =>
    if t.isReceiver then some (.internal (.compoundReceiver op) span)
    else if t.isNative then t.operandsFailure?.or (value.or (t.storeFailure? names))
    else t.operandsFailure?.or ((t.loadFailure? names).or (value.or (t.storeFailure? names)))

end Target

/-- The first error that lowering a form meets. -/
def Form.failure? (cx : Context) (form : Form Checked) (span : Span) : Option LoweringError :=
  match form with
  | .literal .. | .defaultValue _ | .place (.this _) => none
  | .place p =>
    match Target.ofPlace cx.metadata cx.enclosing Annotated.ty span p with
    | .error e => some e
    | .ok t => t.operandsFailure?.or (t.loadFailure? cx.names)
  | .call r m args =>
    match cx.metadata.method m with
    | .unusable => some (.memberNotUsable m.qualifiedName span)
    | .method _ => firstFailure (r.object?.toList ++ args)
    | .inline template =>
      (firstFailure (r.object?.toList ++ args)).or <| failureOf <|
        Template.substitute template span (callOperand? m .null (args.map fun _ => .null))
  | .binary _ l r _ => firstFailure [l, r]
  | .assign a =>
    match Target.classify cx.metadata cx.enclosing Annotated.ty a.target.expr.span
      a.target.place? with
    | .error e => some e
    | .ok t => t.assignFailure? cx.names a.op span a.value.value

/-- The first error that lowering an expression meets. -/
def Expr.failure? (cx : Context) (e : Expr) : Option LoweringError :=
  (e.annotate (Form.failure? cx)).value

/-! ## Steps -/

section

variable {ε σ α β : Type} {s : σ}

@[simp] theorem failureAt_pure (a : α) : failureAt (pure a : EStateM ε σ α) s = none := rfl

@[simp] theorem failureAt_liftExcept (x : Except LoweringError α) :
    failureAt (liftExcept x) s = failureOf x := by
  cases x <;> rfl

/-- Steps in turn fail as the first does, and else as the second does. -/
theorem failureAt_bind {x : EStateM ε σ α} {f : α → EStateM ε σ β} (err : Option ε)
    (h : ∀ a s', x s = .ok a s' → failureAt (f a) s' = err) :
    failureAt (x >>= f) s = (failureAt x s).or err := by
  unfold failureAt
  rw [bind_apply]
  cases hx : x s with
  | error e s' => rfl
  | ok a s' => exact h a s' hx

/-- A step that only changes the value of another fails as that does. -/
theorem failureAt_bind_pure {x : EStateM ε σ α} (f : α → β) :
    failureAt (x >>= fun a => pure (f a)) s = failureAt x s := by
  rw [failureAt_bind none fun a s' _ => failureAt_pure (f a), Option.or_none]

theorem failureAt_ite {c : Prop} [Decidable c] {x y : EStateM ε σ α} {err : Option ε}
    (hx : failureAt x s = err) (hy : failureAt y s = err) :
    failureAt (if c then x else y) s = err := by
  split
  · exact hx
  · exact hy

end

variable {cx : Context}

/-- Lowering the expression fails with its first error, whatever the count of
temporaries. -/
def Expr.FailsFirst (cx : Context) (e : Expr) : Prop :=
  ∀ n, failureAt (e.lower cx) n = e.failure? cx

theorem failureAt_sequenced (operands : List Operand) (body : SequenceM Value) (n : Nat) :
    failureAt (sequenced operands body) n =
      failureAt body { temps := n, pending := operands } := by
  unfold failureAt sequenced
  cases body { temps := n, pending := operands } <;> rfl

theorem failureAt_aside (cx : Context) (o : Expr) (s : Sequence) :
    failureAt (Sequence.aside (o.operand cx)) s = failureAt (o.lower cx) s.temps := by
  unfold failureAt Sequence.aside Expr.lower
  cases (o.operand cx).lower s.temps <;> rfl

/-- Taking an operand fails as lowering it does; to capture it never fails. -/
theorem failureAt_next {c : Capture} {o : Expr} {later : List Expr} {n : Nat}
    {stmts : List Script.Stmt} :
    failureAt (next cx c) (sequenceOf cx n (o :: later) stmts) = failureAt (o.lower cx) n := by
  have hpending : (sequenceOf cx n (o :: later) stmts).pending =
      o.operand cx :: later.map (Expr.operand cx) := rfl
  have haside := failureAt_aside cx o
    { sequenceOf cx n (o :: later) stmts with pending := later.map (Expr.operand cx) }
  refine Eq.trans ?_ haside
  unfold failureAt
  rw [Sequence.next_apply_cons cx c hpending]
  cases Sequence.aside (o.operand cx)
      { sequenceOf cx n (o :: later) stmts with pending := later.map (Expr.operand cx) } with
  | error e s => rfl
  | ok v s =>
    dsimp only
    cases Sequence.mustCapture cx c (o.operand cx) (later.map (Expr.operand cx)) v <;> rfl

theorem failureAt_lowerAside {reuse : Bool} (o : Expr) (s : Sequence) :
    failureAt (lowerAside cx reuse (o.operand cx)) s = failureAt (o.lower cx) s.temps := by
  unfold lowerAside
  rw [failureAt_bind none fun v s' _ => failureAt_ite rfl rfl, failureAt_aside, Option.or_none]

/-- Written arguments fail as the first of them that fails. -/
theorem failureAt_lowerCallSite {reuse : Bool} {rest : List Expr} (written : List (Nat × Expr)) :
    ∀ {n : Nat} {stmts : List Script.Stmt},
      (∀ o ∈ written.map (·.2), o.FailsFirst cx) →
      failureAt (lowerCallSite cx reuse (written.map (Prod.map id (Expr.operand cx))))
          (sequenceOf cx n (written.map (·.2) ++ rest) stmts) =
        (written.map (·.2)).findSome? (Expr.failure? cx) := by
  induction written with
  | nil => intro n stmts _; rfl
  | cons x written ih =>
    obtain ⟨declared, o⟩ := x
    intro n stmts hfails
    obtain ⟨ho, hrest⟩ := List.forall_mem_cons.1 hfails
    have hlater : ∀ v s', next cx ⟨reuse, o.isReorderHazard cx.metadata declared written⟩
          (sequenceOf cx n (o :: (written.map (·.2) ++ rest)) stmts) = .ok v s' →
        failureAt (do
          let vs ← lowerCallSite cx reuse (written.map (Prod.map id (Expr.operand cx)))
          pure ((declared, v) :: vs)) s' =
            (written.map (·.2)).findSome? (Expr.failure? cx) := by
      intro v s' hnext
      obtain ⟨stmts', n', -, rfl⟩ := next_ok hnext
      exact (failureAt_bind_pure _).trans (ih hrest)
    simp only [List.map_cons, Prod.map_apply, id_eq, lowerCallSite, isReorderHazard_operand,
      List.cons_append]
    rw [failureAt_bind _ hlater, failureAt_next, ho n, List.findSome?_cons]
    cases o.failure? cx <;> rfl

/-- Arguments in declared order fail as the first default among them that fails; those
written have been lowered before. -/
theorem failureAt_lowerArgs {reuse : Bool} {supplied : List (Nat × Value)}
    (args : List (IndexArg Expr)) :
    ∀ {declared : Nat} {s : Sequence},
      (∀ j a, args[j]? = some a →
        (supplied.lookup (declared + j)).isSome = a.position.isSome) →
      (∀ o ∈ omittedOf args, o.FailsFirst cx) →
      failureAt
          (lowerArgs cx reuse supplied declared (args.map (IndexArg.map (Expr.operand cx)))) s =
        (omittedOf args).findSome? (Expr.failure? cx) := by
  induction args with
  | nil => intro declared s _ _; rfl
  | cons a args ih =>
    intro declared s hlookup hfails
    have hhead := hlookup 0 a rfl
    have hlookup' : ∀ j a', args[j]? = some a' →
        (supplied.lookup (declared + 1 + j)).isSome = a'.position.isSome := by
      intro j a' ha'
      have := hlookup (j + 1) a' (by simpa using ha')
      rwa [← Nat.add_assoc, Nat.add_right_comm] at this
    rw [Nat.add_zero] at hhead
    simp only [List.map_cons, lowerArgs, IndexArg.value_map]
    cases hp : a.position with
    | some i =>
      have homitted : omittedOf (a :: args) = omittedOf args := by simp [omittedOf, hp]
      rw [homitted] at hfails ⊢
      rw [hp, Option.isSome_some, Option.isSome_iff_exists] at hhead
      obtain ⟨v, hv⟩ := hhead
      rw [hv]
      exact failureAt_bind _ fun v s' _ => (failureAt_bind_pure _).trans (ih hlookup' hfails)
    | none =>
      have homitted : omittedOf (a :: args) = a.value :: omittedOf args := by simp [omittedOf, hp]
      rw [homitted] at hfails ⊢
      obtain ⟨ha, hrest⟩ := List.forall_mem_cons.1 hfails
      rw [hp, Option.isSome_none, Option.isSome_eq_false_iff, Option.isNone_iff_eq_none] at hhead
      rw [hhead]
      dsimp only
      rw [failureAt_bind _ fun v s' _ => (failureAt_bind_pure _).trans (ih hlookup' hrest),
        failureAt_lowerAside, ha, List.findSome?_cons]
      cases a.value.failure? cx <;> rfl

theorem failureAt_lowerObject {reuse : Bool} {rest : List Expr} {t : Target Expr} {n : Nat}
    {stmts : List Script.Stmt} (hfails : ∀ o ∈ t.receiver.toList, o.FailsFirst cx) :
    failureAt (lowerObject cx reuse (t.map (Expr.operand cx)))
        (sequenceOf cx n (t.operands ++ rest) stmts) =
      t.receiver.toList.findSome? (Expr.failure? cx) := by
  simp only [lowerObject, Target.receiver_map]
  cases hr : t.receiver with
  | none => rfl
  | some e =>
    have he := hfails e (by simp [hr])
    simp only [Target.operands, hr, Option.map_some, Option.toList_some, List.cons_append]
    rw [failureAt_bind_pure, failureAt_next, he n]
    cases h : e.failure? cx <;> simp [h]

/-- What addresses a target fails as the first that fails of its operands and of the defaults
it takes. -/
theorem failureAt_lowerAddress {reuse : Bool} {rest : List Expr} {t : Target Expr}
    {indices : List Expr} (ht : Arranges t.args indices)
    (hfails : ∀ o ∈ t.operands ++ t.omitted, o.FailsFirst cx) {n : Nat}
    {stmts : List Script.Stmt} :
    failureAt (lowerAddress cx reuse (t.map (Expr.operand cx)))
        (sequenceOf cx n (t.operands ++ rest) stmts) =
      (t.operands ++ t.omitted).findSome? (Expr.failure? cx) := by
  obtain ⟨hoperands, homitted⟩ := List.forall_mem_append.1 hfails
  obtain ⟨hobject, hwritten⟩ := List.forall_mem_append.1 hoperands
  have hsplit : (t.operands ++ t.omitted).findSome? (Expr.failure? cx) =
      (t.receiver.toList.findSome? (Expr.failure? cx)).or
        (((t.callSite.map (·.2)).findSome? (Expr.failure? cx)).or
          (t.omitted.findSome? (Expr.failure? cx))) := by
    simp only [Target.operands, List.findSome?_append, Option.or_assoc]
  have hfirst : failureAt (lowerObject cx reuse (t.map (Expr.operand cx)))
        (sequenceOf cx n (t.operands ++ rest) stmts) =
      t.receiver.toList.findSome? (Expr.failure? cx) := failureAt_lowerObject hobject
  rw [hsplit, ← hfirst]
  refine failureAt_bind _ fun object s₁ hrun => ?_
  obtain ⟨objects, stmts₁, n₁, -, -, -, rfl⟩ := lowerObject_ok hrun
  have hsecond : failureAt
        (lowerCallSite cx reuse (t.callSite.map (Prod.map id (Expr.operand cx))))
        (sequenceOf cx n₁ (t.callSite.map (·.2) ++ rest) (stmts ++ stmts₁)) =
      (t.callSite.map (·.2)).findSome? (Expr.failure? cx) :=
    failureAt_lowerCallSite t.callSite hwritten
  rw [Target.callSite_map, ← hsecond]
  refine failureAt_bind _ fun supplied s₂ hsupplied => ?_
  obtain ⟨vs, stmts₂, n₂, hvs, rfl, rfl⟩ := lowerCallSite_ok t.callSite hsupplied
  have hlen := hvs.length_callSite ht
  refine (failureAt_bind_pure _).trans (failureAt_lowerArgs t.args (fun j a ha => ?_) homitted)
  rw [Nat.zero_add, ht.lookup_zip hlen ha]
  cases hp : a.position with
  | none => rfl
  | some i =>
    have hi := ht.position_lt (List.mem_of_getElem? ha) hp
    rw [Option.bind_some, List.getElem?_eq_getElem (hlen ▸ hi)]
    rfl

/-! ## Steps with what follows them -/

section

variable {α : Type} {n : Nat} {stmts : List Script.Stmt} (err : Option LoweringError)

theorem failureAt_liftExcept_bind {σ β : Type} {s : σ} {x : Except LoweringError α}
    {f : α → EStateM LoweringError σ β} (h : ∀ a, failureAt (f a) s = err) :
    failureAt (liftExcept x >>= f) s = (failureOf x).or err := by
  rw [failureAt_bind err fun a s' hrun => ?_, failureAt_liftExcept]
  obtain ⟨-, rfl⟩ := liftExcept_ok hrun
  exact h a

theorem failureAt_next_bind {c : Capture} {o : Expr} {later : List Expr}
    {f : Value → SequenceM α} (ho : o.FailsFirst cx)
    (h : ∀ v n' stmts', failureAt (f v) (sequenceOf cx n' later stmts') = err) :
    failureAt (next cx c >>= f) (sequenceOf cx n (o :: later) stmts) =
      (o.failure? cx).or err := by
  rw [failureAt_bind err fun v s' hrun => ?_, failureAt_next, ho n]
  obtain ⟨stmts', n', -, rfl⟩ := next_ok hrun
  exact h v n' _

theorem failureAt_get_bind {f : Sequence → SequenceM α} {s : Sequence} :
    failureAt (get >>= f) s = failureAt (f s) s := rfl

/-- Whether a value is captured decides how it is called, not what is checked next. -/
theorem failureAt_held_bind {flag : Bool} {e : Script.Expr} {pending : List Expr}
    {f : Script.Expr → SequenceM α}
    (h : ∀ x n' stmts', failureAt (f x) (sequenceOf cx n' pending stmts') = err) :
    failureAt (if flag then capture cx e >>= f else pure e >>= f)
      (sequenceOf cx n pending stmts) = err := by
  cases flag with
  | true => exact h _ (n + 1) _
  | false => exact h e n stmts

theorem failureAt_lowerAddress_bind (rest : List Expr) {reuse : Bool} {t : Target Expr}
    {indices : List Expr} (ht : Arranges t.args indices)
    (hfails : ∀ o ∈ t.operands ++ t.omitted, o.FailsFirst cx) {pending : List Operand}
    (hpending : pending = (t.operands ++ rest).map (Expr.operand cx))
    {f : LoweredAddress → SequenceM α}
    (h : ∀ a n' stmts', (∀ accessor uses, (a.passed cx accessor uses).Fits t) →
      a.address.Fits t → failureAt (f a) (sequenceOf cx n' rest stmts') = err) :
    failureAt (lowerAddress cx reuse (t.map (Expr.operand cx)) >>= f) { temps := n, pending } =
      ((t.operands ++ t.omitted).findSome? (Expr.failure? cx)).or err := by
  subst hpending
  have haddress : failureAt (lowerAddress cx reuse (t.map (Expr.operand cx)))
        (sequenceOf cx n (t.operands ++ rest) []) =
      (t.operands ++ t.omitted).findSome? (Expr.failure? cx) :=
    failureAt_lowerAddress ht hfails
  rw [← haddress]
  refine failureAt_bind err fun a s' hrun => ?_
  obtain ⟨stmts', n', haddr, rfl⟩ := lowerAddress_start_ok rest ht rfl hrun
  exact h a n' _ haddr.fits_passed haddr.fits

end

/-! ## Forms -/

section

variable {t : Target Expr} {value : Expr} {indices : List Expr} (ht : Arranges t.args indices)
  (hfails : ∀ o ∈ t.operands ++ t.omitted, o.FailsFirst cx) (hvalue : value.FailsFirst cx)

include ht hfails hvalue

theorem failureAt_assignNative (hnative : t.isNative = true) (used : Bool) (n : Nat) :
    failureAt (assignNative cx used (t.map (Expr.operand cx)) (value.operand cx)) n =
      ((t.operands ++ t.omitted).findSome? (Expr.failure? cx)).or
        ((value.failure? cx).or (t.storeFailure? cx.names)) := by
  refine (failureAt_sequenced _ _ n).trans ?_
  refine failureAt_lowerAddress_bind _ [value] ht hfails (by simp) fun a n₁ stmts₁ _ hfits => ?_
  refine failureAt_next_bind _ hvalue fun v n₂ stmts₂ => ?_
  rw [failureAt_liftExcept_bind none fun place => failureAt_ite rfl rfl, Option.or_none,
    Target.native_map, Target.failureOf_native_eq cx.names hnative hfits]

theorem failureAt_assignByCall (used : Bool) (n : Nat) :
    failureAt (assignByCall cx used (t.map (Expr.operand cx)) (value.operand cx)) n =
      ((t.operands ++ t.omitted).findSome? (Expr.failure? cx)).or
        ((value.failure? cx).or (t.storeFailure? cx.names)) := by
  refine (failureAt_sequenced _ _ n).trans ?_
  refine failureAt_lowerAddress_bind _ [value] ht hfails (by simp) fun a n₁ stmts₁ hfits _ => ?_
  refine failureAt_next_bind _ hvalue fun v n₂ stmts₂ => ?_
  rw [failureAt_liftExcept_bind none fun place => failureAt_ite rfl rfl, Option.or_none,
    Target.store_map, Target.failureOf_store cx.names (hfits _ _)]

theorem failureAt_compoundNative (hnative : t.isNative = true) (op : BinaryOp) (n : Nat) :
    failureAt (compoundNative cx op (t.map (Expr.operand cx)) (value.operand cx)) n =
      ((t.operands ++ t.omitted).findSome? (Expr.failure? cx)).or
        ((value.failure? cx).or (t.storeFailure? cx.names)) := by
  refine (failureAt_sequenced _ _ n).trans ?_
  refine failureAt_lowerAddress_bind _ [value] ht hfails (by simp) fun a n₁ stmts₁ _ hfits => ?_
  refine failureAt_next_bind _ hvalue fun v n₂ stmts₂ => ?_
  rw [failureAt_liftExcept_bind none fun place => rfl, Option.or_none,
    Target.native_map, Target.failureOf_native_eq cx.names hnative hfits]

theorem failureAt_compoundByCall (used : Bool) (op : BinaryOp) (n : Nat) :
    failureAt (compoundByCall cx used op (t.map (Expr.operand cx)) (value.operand cx)) n =
      ((t.operands ++ t.omitted).findSome? (Expr.failure? cx)).or
        ((t.loadFailure? cx.names).or
          ((value.failure? cx).or (t.storeFailure? cx.names))) := by
  refine (failureAt_sequenced _ _ n).trans ?_
  refine failureAt_lowerAddress_bind _ [value] ht hfails (by simp) fun a n₁ stmts₁ hfits _ => ?_
  rw [← Target.failureOf_load cx.names (hfits t.getter? 2)]
  refine failureAt_liftExcept_bind _ fun load => ?_
  rw [failureAt_get_bind]
  refine failureAt_held_bind _ fun old n₂ stmts₂ => ?_
  refine failureAt_next_bind _ hvalue fun v n₃ stmts₃ => ?_
  refine failureAt_held_bind _ fun new n₄ stmts₄ => ?_
  rw [failureAt_liftExcept_bind none fun place => failureAt_ite rfl rfl, Option.or_none,
    Target.store_map, Target.failureOf_store cx.names (hfits _ _)]

end

/-- Lowering a form takes the errors of its operands and of its own checks in the order in
which they are met. -/
theorem Expr.failure?_eq (e : Expr) :
    e.failure? cx = (e.form.map (annotate (Form.failure? cx))).failure? cx e.span := by
  unfold Expr.failure?
  rw [annotate_eq]

@[simp] theorem firstFailure_annotate (es : List Expr) :
    firstFailure (es.map (Expr.annotate (Form.failure? cx))) =
      es.findSome? (Expr.failure? cx) := by
  rw [firstFailure, List.findSome?_map]
  rfl

@[simp] theorem Target.operandsFailure?_annotate (t : Target Expr) :
    (t.map (Expr.annotate (Form.failure? cx))).operandsFailure? =
      (t.operands ++ t.omitted).findSome? (Expr.failure? cx) := by
  rw [Target.operandsFailure?, Target.operands_map, Target.omitted_map, ← List.map_append,
    firstFailure_annotate]

theorem Target.mem_of_ofPlace {p : Place Expr} {span : Span} {t : Target Expr}
    (ht : ofPlace cx.metadata cx.enclosing Expr.ty span p = .ok t) :
    ∀ o ∈ t.operands ++ t.omitted, o ∈ p.operands ++ p.defaults := by
  intro o ho
  obtain ho | ho := List.mem_append.1 ho
  · exact List.mem_append_left _ (operands_ofPlace ht ▸ ho)
  · exact List.mem_append_right _ (mem_defaults_of_mem_omitted ht ho)

/-- Reading a place fails where it is no target, then as its operands do, then as the access
does. -/
theorem Expr.failure?_place {p : Place Expr} {span : Span} (hthis : ∀ ty, p ≠ .this ty) :
    Expr.failure? cx ⟨.place p, span⟩ =
      match Target.ofPlace cx.metadata cx.enclosing Expr.ty span p with
      | .error e => some e
      | .ok t => ((t.operands ++ t.omitted).findSome? (Expr.failure? cx)).or
          (t.loadFailure? cx.names) := by
  have hform : Expr.failure? cx ⟨.place p, span⟩ =
      match Target.ofPlace cx.metadata cx.enclosing Annotated.ty span
        (p.map (Expr.annotate (Form.failure? cx))) with
      | .error e => some e
      | .ok t => t.operandsFailure?.or (t.loadFailure? cx.names) := by
    rw [Expr.failure?_eq]
    cases p with
    | this ty => exact absurd rfl (hthis ty)
    | _ => rfl
  rw [hform, Target.ofPlace_map _ fun e => Expr.ty_annotate _ e]
  cases Target.ofPlace cx.metadata cx.enclosing Expr.ty span p with
  | error e => rfl
  | ok t => simp only [Except.map, Target.operandsFailure?_annotate, Target.loadFailure?_map]

/-- An assignment fails where there is no target, and else as the target says. -/
theorem Expr.failure?_assign {a : Assignment Expr} {span : Span} :
    Expr.failure? cx ⟨.assign a, span⟩ =
      match (a.target.target cx.metadata cx.enclosing).map
        (Target.map (Expr.annotate (Form.failure? cx))) with
      | .error e => some e
      | .ok t => t.assignFailure? cx.names a.op span (a.value.failure? cx) := by
  rw [Expr.failure?_eq, Expr.target, ← Target.classify_map _ fun e => Expr.ty_annotate _ e,
    ← Expr.place?_annotate]
  simp only [Form.map, Form.failure?, Assignment.map, Expr.expr_annotate]
  rfl

theorem failureAt_lowerLoad {p : Place Expr} {span : Span} (hthis : ∀ ty, p ≠ .this ty)
    (hparts : ∀ e ∈ p.operands ++ p.defaults, e.FailsFirst cx) (n : Nat) :
    failureAt (lowerLoad cx (p.map (Expr.operand cx)) span) n =
      Expr.failure? cx ⟨.place p, span⟩ := by
  rw [Expr.failure?_place hthis]
  unfold lowerLoad
  rw [Target.ofPlace_map _ fun e => ty_operand e]
  cases ht : Target.ofPlace cx.metadata cx.enclosing Expr.ty span p with
  | error e => rfl
  | ok t =>
    refine (failureAt_sequenced _ _ n).trans ?_
    have hfails : ∀ o ∈ t.operands ++ t.omitted, o.FailsFirst cx :=
      fun o ho => hparts o (Target.mem_of_ofPlace ht o ho)
    dsimp only
    refine failureAt_lowerAddress_bind _ [] (Target.ofPlace_arranges ht).2 hfails (by simp)
      fun a n₁ stmts₁ hfits _ => ?_
    rw [failureAt_liftExcept_bind none fun load => rfl, Option.or_none, Target.load_map,
      Target.failureOf_load cx.names (hfits _ _)]

theorem failureAt_lowerReceiver {c : Capture} {r : Receiver Expr} {args : List Expr} {n : Nat}
    (hfails : ∀ o ∈ r.object?.toList, o.FailsFirst cx) :
    failureAt (lowerReceiver cx c (r.map (Expr.operand cx)))
        (sequenceOf cx n (r.object?.toList ++ args) []) =
      r.object?.toList.findSome? (Expr.failure? cx) := by
  cases r with
  | object e =>
    refine (failureAt_bind_pure _).trans (failureAt_next.trans ((hfails e ?_ n).trans ?_))
    · exact List.mem_singleton_self e
    · simp only [Receiver.object?, Option.toList_some, List.findSome?_singleton]
  | static owner => rfl
  | base declaring => rfl

theorem failureAt_lowerCallArgs {c : Capture} (args : List Expr) :
    ∀ {params : List Param} {n : Nat} {stmts : List Script.Stmt},
      (∀ o ∈ args, o.FailsFirst cx) →
      failureAt (lowerCallArgs cx c params (args.map (Expr.operand cx)))
          (sequenceOf cx n args stmts) =
        args.findSome? (Expr.failure? cx) := by
  induction args with
  | nil => intro params n stmts _; rfl
  | cons o args ih =>
    intro params n stmts hfails
    obtain ⟨ho, hrest⟩ := List.forall_mem_cons.1 hfails
    refine (failureAt_next_bind _ ho fun v n' stmts' =>
      (failureAt_bind_pure _).trans (ih hrest)).trans ?_
    rw [List.findSome?_cons]
    cases o.failure? cx <;> rfl

/-- The operands of a call, and then what is made of them. -/
theorem failureAt_lowerCall_operands {c : Capture} {r : Receiver Expr} {params : List Param}
    {args : List Expr} (hparts : ∀ e ∈ r.object?.toList ++ args, e.FailsFirst cx) {α : Type}
    {f : Script.Expr → List Script.Expr → SequenceM α} (err : Option LoweringError)
    (h : ∀ object xs s, xs.length = args.length → failureAt (f object xs) s = err) (n : Nat) :
    failureAt (do
        let object ← lowerReceiver cx c (r.map (Expr.operand cx))
        let xs ← lowerCallArgs cx c params (args.map (Expr.operand cx))
        f object xs) (sequenceOf cx n (r.object?.toList ++ args) []) =
      ((r.object?.toList ++ args).findSome? (Expr.failure? cx)).or err := by
  obtain ⟨hobject, hargs⟩ := List.forall_mem_append.1 hparts
  have hfirst : failureAt (lowerReceiver cx c (r.map (Expr.operand cx)))
        (sequenceOf cx n (r.object?.toList ++ args) []) =
      r.object?.toList.findSome? (Expr.failure? cx) := failureAt_lowerReceiver hobject
  rw [List.findSome?_append, Option.or_assoc, ← hfirst]
  refine failureAt_bind _ fun object s₁ hrun => ?_
  obtain ⟨objects, stmts, n₁, -, -, -, rfl⟩ := lowerReceiver_ok hrun
  have hsecond : failureAt (lowerCallArgs cx c params (args.map (Expr.operand cx)))
        (sequenceOf cx n₁ args stmts) = args.findSome? (Expr.failure? cx) :=
    failureAt_lowerCallArgs args hargs
  rw [← hsecond]
  refine failureAt_bind _ fun xs s₂ hrun' => ?_
  obtain ⟨vs, stmts', n₂, htaken, rfl, -⟩ := lowerCallArgs_ok args hrun'
  refine h object _ s₂ ?_
  rw [Context.handed, List.length_zipWith, length_argTypes, htaken.length_eq, List.length_map,
    Nat.min_self]

/-- A call fails where the method is unusable, and else as its operands do and then as its
template does. -/
theorem Expr.failure?_call {r : Receiver Expr} {m : Method} {args : List Expr} {span : Span} :
    Expr.failure? cx ⟨.call r m args, span⟩ =
      match cx.metadata.method m with
      | .unusable => some (.memberNotUsable m.qualifiedName span)
      | .method _ => (r.object?.toList ++ args).findSome? (Expr.failure? cx)
      | .inline template =>
        ((r.object?.toList ++ args).findSome? (Expr.failure? cx)).or <| failureOf <|
          Template.substitute template span (callOperand? m .null (args.map fun _ => .null)) := by
  have hoperands : firstFailure ((r.map (Expr.annotate (Form.failure? cx))).object?.toList ++
      args.map (Expr.annotate (Form.failure? cx))) =
        (r.object?.toList ++ args).findSome? (Expr.failure? cx) := by
    rw [Receiver.object?_map, Option.toList_map, ← List.map_append, firstFailure_annotate]
  rw [Expr.failure?_eq]
  simp only [Form.map, Form.failure?, hoperands, List.map_map, Function.comp_def]

theorem failureAt_lowerCall {r : Receiver Expr} {m : Method} {args : List Expr} {span : Span}
    (hparts : ∀ e ∈ r.object?.toList ++ args, e.FailsFirst cx) (n : Nat) :
    failureAt (lowerCall cx (r.map (Expr.operand cx)) m (args.map (Expr.operand cx)) span) n =
      Expr.failure? cx ⟨.call r m args, span⟩ := by
  have hpending : (r.map (Expr.operand cx)).object?.toList ++ args.map (Expr.operand cx) =
      (r.object?.toList ++ args).map (Expr.operand cx) := by
    simp [Option.toList_map]
  rw [Expr.failure?_call]
  unfold lowerCall
  simp only [hpending]
  cases cx.metadata.method m with
  | unusable => rfl
  | method name =>
    refine (failureAt_sequenced _ _ n).trans ?_
    refine (failureAt_lowerCall_operands hparts none (fun object xs s _ => rfl) n).trans ?_
    rw [Option.or_none]
  | inline template =>
    refine (failureAt_sequenced _ _ n).trans ?_
    refine failureAt_lowerCall_operands hparts _ (fun object xs s hlen => ?_) n
    rw [failureAt_liftExcept_bind none fun text => rfl, Option.or_none]
    exact Template.failureOf_substitute (isSome_callOperand? (by simpa using hlen)) template span

theorem Expr.failure?_binary {op : BinaryOp} {l r : Expr} {ty : TypeRef} {span : Span} :
    Expr.failure? cx ⟨.binary op l r ty, span⟩ = [l, r].findSome? (Expr.failure? cx) := by
  rw [Expr.failure?_eq, ← firstFailure_annotate]
  rfl

theorem failureAt_lowerBinary {op : BinaryOp} {l r : Expr} {ty : TypeRef} {span : Span}
    (hparts : ∀ e ∈ [l, r], e.FailsFirst cx) (n : Nat) :
    failureAt (lowerBinary cx op (l.operand cx) (r.operand cx)) n =
      Expr.failure? cx ⟨.binary op l r ty, span⟩ := by
  obtain ⟨hl, hr⟩ := List.forall_mem_cons.1 hparts
  refine (failureAt_sequenced _ _ n).trans ?_
  have hboth : failureAt (do
        let v ← next cx {}
        let w ← next cx {}
        pure (⟨.binary op v.expr w.expr, true, false⟩ : Value)) (sequenceOf cx n [l, r] []) =
      (l.failure? cx).or ((r.failure? cx).or none) :=
    failureAt_next_bind _ hl fun v n₁ stmts₁ =>
      failureAt_next_bind none (hr r (List.mem_singleton_self r)) fun w n₂ stmts₂ => rfl
  refine hboth.trans ?_
  rw [Expr.failure?_binary, Option.or_none]
  cases h : l.failure? cx <;> simp [h]

/-- Lowering an assignment fails with its first error for every usage, if that is so for
what is evaluated in its course. -/
theorem failureAt_lowerAssignment_of_parts {usage : Usage} {a : Assignment Expr} {span : Span}
    (hparts : ∀ e ∈ (⟨.assign a, span⟩ : Expr).parts, e.FailsFirst cx) (n : Nat) :
    failureAt (lowerAssignment cx usage a span) n = Expr.failure? cx ⟨.assign a, span⟩ := by
  have hvalue := hparts _ (Expr.value_mem_parts a span)
  unfold lowerAssignment lowerAssignmentOf
  rw [Expr.failure?_assign]
  simp only [Assignment.map, target_operand]
  cases htarget : a.target.target cx.metadata cx.enclosing with
  | error e => rfl
  | ok t =>
    obtain ⟨p, hp, hplace⟩ := Expr.target_arranges htarget
    have ht := (Target.ofPlace_arranges hplace).2
    have hfails : ∀ o ∈ t.operands ++ t.omitted, o.FailsFirst cx := fun o ho =>
      hparts o (Expr.place_mem_parts (Expr.place?_of_place hp) span
        (Target.mem_of_ofPlace hplace o ho))
    simp only [Except.map, Target.assignFailure?, Target.operandsFailure?_annotate,
      Target.loadFailure?_map, Target.storeFailure?_map, Target.isReceiver_map,
      Target.isNative_map]
    change failureAt (match a.op.binary? with
      | none => assignSimple cx usage.isUsed (t.map (Expr.operand cx)) (a.value.operand cx)
      | some op => assignCompound cx usage.isUsed a.op op (t.map (Expr.operand cx))
          (a.value.operand cx) span) n = _
    cases a.op.binary? with
    | none =>
      dsimp only
      unfold assignSimple
      rw [Target.isNative_map]
      split
      · next hnative => exact failureAt_assignNative ht hfails hvalue hnative usage.isUsed n
      · exact failureAt_assignByCall ht hfails hvalue usage.isUsed n
    | some op =>
      dsimp only
      unfold assignCompound
      rw [Target.isReceiver_map, Target.isNative_map]
      split
      · rfl
      · split
        · next hnative => exact failureAt_compoundNative ht hfails hvalue hnative op n
        · exact failureAt_compoundByCall ht hfails hvalue usage.isUsed op n

/-- **The error of an expression.** Whatever the count of temporaries, lowering an expression
fails with the first error that the tree meets, or not at all. -/
theorem Expr.failureAt_lower (e : Expr) (n : Nat) :
    failureAt (e.lower cx) n = e.failure? cx := by
  induction e using Expr.inductParts generalizing n with
  | step e ih =>
    obtain ⟨form, span⟩ := e
    rw [Expr.lower_eq]
    cases form with
    | literal value ty => rfl
    | defaultValue ty => rfl
    | place p =>
      cases p with
      | this ty => rfl
      | _ => exact failureAt_lowerLoad (fun ty hp => by cases hp) ih n
    | call r m args => exact failureAt_lowerCall ih n
    | binary op l r ty => exact failureAt_lowerBinary ih n
    | assign a =>
      have hused : failureAt (lowerAssignment cx .used a span) n =
          Expr.failure? cx ⟨.assign a, span⟩ := failureAt_lowerAssignment_of_parts ih n
      exact hused

/-- **The error of an assignment.** It is the same whether or not the value is wanted, and
whatever the count of temporaries. -/
theorem failureAt_lowerAssignment (usage : Usage) (a : Assignment Expr) (span : Span) (n : Nat) :
    failureAt (lowerAssignment cx usage a span) n = Expr.failure? cx ⟨.assign a, span⟩ :=
  failureAt_lowerAssignment_of_parts (fun e _ => e.failureAt_lower) n

end AssignmentLowering
