import AssignmentLowering.Proofs.Lowering.Failure
import AssignmentLowering.Proofs.Target.Binding

/-!
# Faults that only lowering could make

Most errors tell of the tree or of what metadata says about it. Some would tell of
lowering itself: that it asks for an operand where none is left, or puts a target on the
left of `=` that may not stand there. Classification ties the storage of a target to its
kind, and with that no such error comes up.

## Main definitions

* `Fault.isPlanner` — faults that only lowering could make.
* `Excused` — an error, if there is one, that is no such fault.

## Main statements

* `Expr.excused` — so is the error of every expression.
-/

namespace AssignmentLowering

/-- Faults that no tree and no metadata can be blamed for. -/
def Fault.isPlanner : Fault → Bool
  | operandsExhausted | notNative _ | other _ => true
  | _ => false

/-- Errors that no tree and no metadata can be blamed for. -/
def LoweringError.isPlanner : LoweringError → Bool
  | internal fault _ => fault.isPlanner
  | _ => false

/-- An error, if there is one, that the tree or its metadata is to blame for. -/
def Excused (err : Option LoweringError) : Prop := ∀ e ∈ err, e.isPlanner = false

theorem excused_none : Excused none := by
  intro e he
  cases he

theorem excused_some {e : LoweringError} (h : e.isPlanner = false) : Excused (some e) := by
  intro e' he
  cases he
  exact h

theorem Excused.or {err err' : Option LoweringError} (h : Excused err) (h' : Excused err') :
    Excused (err.or err') := by
  cases err with
  | none => exact h'
  | some e => exact h

theorem excused_findSome? {ε : Type} {f : ε → Option LoweringError} {l : List ε}
    (h : ∀ x ∈ l, Excused (f x)) : Excused (l.findSome? f) := by
  intro e he
  obtain ⟨x, hx, hfx⟩ := List.exists_of_findSome?_eq_some he
  exact h x hx e hfx

theorem excused_substitute (template : String) (span : Span)
    (operand? : String → Option Script.Expr) :
    Excused (failureOf (Template.substitute template span operand?)) := by
  unfold Template.substitute
  split
  · exact excused_some rfl
  · exact excused_some rfl
  · split
    · exact excused_some rfl
    · exact excused_none

/-! ## Targets -/

section

variable {ε : Type} {md : Metadata} {typeOf : ε → TypeRef} {span : Span}

theorem storageOf_excused (b : PropertyBinding) (p : Property) :
    Excused (failureOf (storageOf b p span)) := by
  unfold storageOf
  cases b.storage? with
  | none => exact excused_some rfl
  | some storage => exact excused_none

theorem bindArguments_excused (p : Property) (defaults : List (Option ε))
    (args : List (Argument ε)) : Excused (failureOf (bindArguments p defaults args span)) := by
  rcases bindArguments_cases p defaults args span with
    ⟨bound, hok, -, -⟩ | ⟨fault, s, herror, hblames⟩
  · rw [hok]
    exact excused_none
  · rw [herror]
    cases hblames <;> exact excused_some rfl

theorem excused_bind {α β : Type} {x : Except LoweringError α}
    {f : α → Except LoweringError β} (h : Excused (failureOf x))
    (hf : ∀ a, Excused (failureOf (f a))) : Excused (failureOf (x >>= f)) := by
  cases x with
  | error e => exact h
  | ok a => exact hf a

theorem rejectNamed_excused (args : List (Argument ε)) :
    Excused (failureOf (rejectNamed args span)) := by
  unfold rejectNamed
  split
  · exact excused_some rfl
  · exact excused_none

/-- That a place is no target is the fault of the place, or of its metadata. -/
theorem ofPlace_excused (enclosing : EnclosingMember) (p : Place ε) :
    Excused (failureOf (Target.ofPlace md enclosing typeOf span p)) := by
  cases p with
  | localVar l | field r f | dynamicMember object name => exact excused_none
  | this ty =>
    simp only [Target.ofPlace, Target.ofThis]
    split
    · exact excused_none
    · split
      · exact excused_none
      · exact excused_some rfl
    · exact excused_some rfl
  | property r p =>
    refine excused_bind (storageOf_excused _ _) fun storage => ?_
    by_cases hsubscript : storage = .subscript
    · rw [if_pos hsubscript]
      exact excused_some rfl
    · rw [if_neg hsubscript]
      exact excused_none
  | indexer r target args ty =>
    cases target with
    | resolved p defaults =>
      exact excused_bind (storageOf_excused _ _) fun storage =>
        excused_bind (bindArguments_excused p defaults args) fun args => excused_none
    | candidates ps =>
      refine excused_bind (rejectNamed_excused args) fun _ => ?_
      cases ps with
      | nil => exact excused_some rfl
      | cons p others =>
        dsimp only
        split
        · exact excused_some rfl
        · exact excused_bind (storageOf_excused _ _) fun storage => excused_none
  | element array indices ty =>
    rcases indices with _ | ⟨first, _ | ⟨second, rest⟩⟩
    · exact excused_some rfl
    · exact excused_none
    · exact excused_none
  | dynamicIndex object args =>
    refine excused_bind (rejectNamed_excused args) fun _ => ?_
    by_cases hone : args.length ≠ 1
    · rw [if_pos hone]
      exact excused_some rfl
    · rw [if_neg hone]
      exact excused_none

theorem target_excused (md : Metadata) (enclosing : EnclosingMember) (e : Expr) :
    Excused (failureOf (e.target md enclosing)) := by
  unfold Expr.target
  cases e.form.place? with
  | none => exact excused_some rfl
  | some p => exact ofPlace_excused enclosing p

theorem subscript_excused (t : Target ε) (a : Address) : Excused (failureOf (t.subscript a)) := by
  unfold Target.subscript
  split
  · exact excused_none
  · exact excused_some rfl

/-- Members are reached through their storage; without a binding they have none. -/
theorem native_excused_of_storage {t : Target ε} {b : PropertyBinding}
    (hstorage : b.storage? = some t.storage) (haccessors : t.getter? = none)
    (hkind : t.kind = .instanceProperty ∨ t.kind = .staticProperty ∨ t.kind = .indexer)
    (names : RuntimeNames) (a : Address) : Excused (failureOf (t.native names a)) := by
  unfold Target.getter? at haccessors
  unfold Target.native
  cases hs : t.storage with
  | direct => exact absurd (hs ▸ hstorage) b.storage?_ne_direct
  | field name =>
    obtain hk | hk | hk := hkind <;> rw [hk] <;> exact excused_none
  | accessors getter setter =>
    rw [hs] at haccessors
    cases haccessors
  | subscript =>
    obtain hk | hk | hk := hkind <;> rw [hk] <;> exact subscript_excused t a

/-- A target with neither accessors nor a call of its own stands on the left of `=`; no more
can go wrong than the number of its indices. -/
theorem native_excused {p : Place ε} {t : Target ε} (h : Classified md typeOf span p t)
    (hreceiver : t.kind ≠ .receiver) (hmulti : t.kind ≠ .multiElement)
    (haccessors : t.getter? = none) (names : RuntimeNames) (a : Address) :
    Excused (failureOf (t.native names a)) := by
  cases h with
  | @localVar l =>
    unfold Target.native Target.plain
    cases l.byRef <;> exact excused_none
  | this => exact absurd rfl hreceiver
  | @field r f => cases r <;> exact excused_none
  | @property r p storage hstorage =>
    refine native_excused_of_storage hstorage haccessors ?_ names a
    cases r <;> simp [Target.plain, Target.through, Receiver.isStatic]
  | @resolved r _ _ _ _ _ _ hstorage =>
    refine native_excused_of_storage hstorage haccessors ?_ names a
    cases r <;> simp [Target.plain, Target.through]
  | @candidates r _ _ _ _ _ hstorage =>
    refine native_excused_of_storage hstorage haccessors ?_ names a
    cases r <;> simp [Target.plain, Target.through]
  | element | dynamicIndex => exact subscript_excused _ a
  | multiElement => exact absurd rfl hmulti
  | dynamicMember => exact excused_none

theorem useAccessor_excused (names : RuntimeNames) (t : Target ε) (a : Address)
    (value : Option Script.Expr) (accessor : Accessor) :
    Excused (failureOf (t.useAccessor names a value accessor)) := by
  cases accessor with
  | method name =>
    unfold Target.useAccessor
    cases t.dispatch <;> exact excused_none
  | inline template =>
    rw [Target.useAccessor, failureOf_map]
    exact excused_substitute template t.span _
  | subscript =>
    rw [Target.useAccessor, failureOf_map]
    exact subscript_excused t a

/-- What classification accepts can be read, but for its templates and indices. -/
theorem loadFailure?_excused {p : Place ε} {t : Target ε} (h : Classified md typeOf span p t)
    (names : RuntimeNames) : Excused (t.loadFailure? names) := by
  unfold Target.loadFailure? Target.load
  split
  · exact excused_none
  · exact excused_none
  next hreceiver hmulti =>
    cases hgetter : t.getter? with
    | some getter => exact useAccessor_excused names t _ _ getter
    | none => exact native_excused h hreceiver hmulti hgetter names _

/-- What classification accepts can be written, but for its templates and indices. -/
theorem storeFailure?_excused {p : Place ε} {t : Target ε} (h : Classified md typeOf span p t)
    (names : RuntimeNames) : Excused (t.storeFailure? names) := by
  unfold Target.storeFailure? Target.store
  split
  · exact excused_none
  · exact excused_none
  next hreceiver hmulti =>
    cases hsetter : t.setter? with
    | some setter => exact useAccessor_excused names t _ _ setter
    | none =>
      dsimp only
      rw [failureOf_map]
      exact native_excused h hreceiver hmulti (Target.getter?_eq_none_iff.2 hsetter) names _

end

/-! ## Expressions -/

variable {cx : Context}

/-- An assignment to a target fails by the fault of the tree, if its operands do. -/
theorem assignFailure?_excused {p : Place Expr} {t : Target Expr} {span span' : Span}
    (ht : Classified cx.metadata Expr.ty span p t) (op : AssignOp) {value : Option LoweringError}
    (hoperands : ∀ o ∈ t.operands ++ t.omitted, Excused (o.failure? cx)) (hvalue : Excused value) :
    Excused
      ((t.map (Expr.annotate (Form.failure? cx))).assignFailure? cx.names op span' value) := by
  have haddress := excused_findSome? hoperands
  have hload := loadFailure?_excused ht cx.names
  have hstore := storeFailure?_excused ht cx.names
  simp only [Target.assignFailure?, Target.operandsFailure?_annotate, Target.loadFailure?_map,
    Target.storeFailure?_map, Target.isReceiver_map, Target.isNative_map]
  cases op.binary? with
  | none => exact haddress.or (hvalue.or hstore)
  | some op' =>
    dsimp only
    split
    · exact excused_some rfl
    · split
      · exact haddress.or (hvalue.or hstore)
      · exact haddress.or (hload.or (hvalue.or hstore))

/-- **Whatever stops lowering, it is the fault of the tree or of its metadata.** -/
theorem Expr.excused (e : Expr) : Excused (e.failure? cx) := by
  induction e using Expr.inductParts with
  | step e ih =>
    obtain ⟨form, span⟩ := e
    cases form with
    | literal value ty | defaultValue ty =>
      rw [Expr.failure?_eq]
      exact excused_none
    | place p =>
      by_cases hthis : ∃ ty, p = .this ty
      · obtain ⟨ty, rfl⟩ := hthis
        rw [Expr.failure?_eq]
        exact excused_none
      · rw [Expr.failure?_place fun ty hty => hthis ⟨ty, hty⟩]
        cases ht : Target.ofPlace cx.metadata cx.enclosing Expr.ty span p with
        | error e =>
          have herror : Excused (failureOf
              (Target.ofPlace cx.metadata cx.enclosing Expr.ty span p)) :=
            ofPlace_excused cx.enclosing p
          rw [ht] at herror
          exact herror
        | ok t =>
          have hoperands : ∀ o ∈ t.operands ++ t.omitted, Excused (o.failure? cx) :=
            fun o ho => ih o (Target.mem_of_ofPlace ht o ho)
          exact (excused_findSome? hoperands).or
            (loadFailure?_excused (Classified.of_ofPlace ht) cx.names)
    | call r m args =>
      rw [Expr.failure?_call]
      have hoperands := excused_findSome? ih
      cases cx.metadata.method m with
      | unusable => exact excused_some rfl
      | method name => exact hoperands
      | inline template => exact hoperands.or (excused_substitute template span _)
    | binary op l r ty =>
      rw [Expr.failure?_binary]
      exact excused_findSome? ih
    | assign a =>
      rw [Expr.failure?_assign]
      have hvalue := ih _ (Expr.value_mem_parts a span)
      cases htarget : a.target.target cx.metadata cx.enclosing with
      | error e =>
        have herror := target_excused cx.metadata cx.enclosing a.target
        rw [htarget] at herror
        exact herror
      | ok t =>
        obtain ⟨p, hp, hplace⟩ := Expr.target_arranges htarget
        refine assignFailure?_excused (Classified.of_ofPlace hplace) a.op (fun o ho => ?_) hvalue
        exact ih o (Expr.place_mem_parts (Expr.place?_of_place hp) span
          (Target.mem_of_ofPlace hplace o ho))

end AssignmentLowering
