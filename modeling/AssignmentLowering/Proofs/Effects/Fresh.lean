import AssignmentLowering.Proofs.Effects.Covering

/-!
# The mark of fresh values

The rule about copies works with a mark: a value that lowering calls fresh is stored
without a copy if it is used only once. Here the mark is shown to tell the truth
wherever it matters. At a type whose values change, a fresh value is new script, or a
temporary that new script was put in; and where a value is used twice, a copy is made.

The rule goes by static types, so it can only hold if they are right: what is stored or
handed over must have the type of its slot or parameter. What text made from a template
does with its operands cannot be told, and an operator that may skip its right operand
yields an operand as it is. So does a compound operator of script, in a sense: it stores
the value that it yields, which is therefore not to be used.

## Main definitions

* `Expr.WellTyped` — what is asked of every expression.
* `FreshIn` — a value whose mark tells the truth.
* `LowersOwning` — an expression that is lowered to script with owned operands.

## Main statements

* `Owned.copied_once`, `Owned.copied_again` — what the rule about copies leaves is owned.
* `Lowers.isNew` — what is marked as fresh is new.
* `TakenAll.owning`, `Asides.owning` — operands, one after the other.
-/

namespace AssignmentLowering

open Script (Stmt)

/-! ## What is asked of source -/

/-- Whether a target is read and written without templates, with arguments of the types of
their parameters. -/
structure Target.WellTyped (t : Target Expr) : Prop where
  getter : t.getterIsInline = false
  setter : t.setterIsInline = false
  args : ∀ a ∈ t.args, a.value.ty = a.ty

/-- Whether an expression is a compound assignment that script has an operator for. -/
def Expr.IsNativeCompound (cx : Context) (e : Expr) : Prop :=
  ∃ a t, e.form = .assign a ∧ a.op.binary?.isSome = true ∧
    a.target.target cx.metadata cx.enclosing = .ok t ∧ t.isNative = true

/-- What the rule about copies asks of one expression: no templates, no operator that may
skip an operand, no value of a compound operator of script used, and types that agree. -/
structure Expr.WellTyped (cx : Context) (e : Expr) : Prop where
  parts : ∀ c ∈ e.parts, ¬c.IsNativeCompound cx
  place : ∀ p t, e.form = .place p →
    Target.ofPlace cx.metadata cx.enclosing Expr.ty e.span p = .ok t → t.WellTyped
  call : ∀ r m args, e.form = .call r m args →
    (∀ template, cx.metadata.method m ≠ .inline template) ∧
      argTypes m.params args = args.map Expr.ty
  binary : ∀ op l r ty, e.form = .binary op l r ty → op.shortCircuits = false
  assign : ∀ a, e.form = .assign a → a.op.binary? = none → a.value.ty = a.target.ty

variable {cx : Context}

/-! ## The mark of fresh values -/

/-- If `e` is marked as fresh and its values may change, it is new. -/
def FreshIn (cx : Context) (stmts : List Stmt) (es : List Script.Expr) (ty : TypeRef)
    (fresh : Bool) (e : Script.Expr) : Prop :=
  fresh = true → ∀ tag, cx.metadata.semantics ty = .mutable tag → NewIn cx stmts es e

section

variable {n n' n'' : Nat} {stmts stmts' : List Stmt} {es es' es₁ es₂ : List Script.Expr}
  {ty : TypeRef} {fresh : Bool} {e : Script.Expr}

theorem FreshIn.append_left (h : FreshIn cx stmts es ty fresh e)
    (hc : Confined cx n n' stmts es) (hc' : Confined cx n' n'' stmts' es') :
    FreshIn cx (stmts ++ stmts') (es ++ es') ty fresh e :=
  fun hfresh tag htag => (h hfresh tag htag).append_left hc hc'

theorem FreshIn.append_right (h : FreshIn cx stmts' es' ty fresh e)
    (hc : Confined cx n n' stmts es) (hc' : Confined cx n' n'' stmts' es') :
    FreshIn cx (stmts ++ stmts') (es ++ es') ty fresh e :=
  fun hfresh tag htag => (h hfresh tag htag).append_right hc hc'

theorem FreshIn.exprs_perm (h : FreshIn cx stmts es ty fresh e) (hes : es.Perm es') :
    FreshIn cx stmts es' ty fresh e := by
  intro hfresh tag htag
  refine (h hfresh tag htag).imp (fun s hs => hs) fun k y _ _ hle => ?_
  have hm : Script.mentionsAll (cx.temp k) es = Script.mentionsAll (cx.temp k) es' :=
    (hes.map _).sum_eq
  rwa [← hm]

theorem FreshIn.build (h : FreshIn cx stmts (es₁ ++ es₂) ty fresh e) (he : e ∈ es₁) (c : Nat)
    (hm : ∀ k, Script.mentionsAll (cx.temp k) es' ≤
      Script.mentionsAll (cx.temp k) es₁ + c * Script.mentionsAll (cx.temp k) es₂) :
    FreshIn cx stmts es' ty fresh e :=
  fun hfresh tag htag => (h hfresh tag htag).build he c hm

/-- A value used once is copied if it is not fresh. -/
theorem Owned.copied_once (h : FreshIn cx stmts es ty fresh e) :
    Owned cx stmts es ty (cx.copied ty fresh 1 e) := by
  intro tag htag
  cases fresh with
  | true => exact .inr (h rfl tag htag)
  | false => exact .inl ⟨e, by simp [Context.copied, copied, htag, CopySemantics.tag?]⟩

/-- A value used more than once is copied. -/
theorem Owned.copied_again {uses : Nat} (huses : uses ≠ 1) :
    Owned cx stmts es ty (cx.copied ty fresh uses e) := by
  intro tag htag
  exact .inl ⟨e, by
    simp [Context.copied, copied, CopySemantics.cloneTag?_of_ne_one huses, htag,
      CopySemantics.tag?]⟩

end

/-- Operands of source lowered to values, all events of which have owned operands. -/
structure OwningValues (cx : Context) (n n' : Nat) (stmts : List Stmt) (os : List Expr)
    (vs : List Value) : Prop where
  owning : Owning cx n n' stmts (vs.map (·.expr)) (os.flatMap (Expr.events cx))
  fresh : List.Forall₂ (fun o v => FreshIn cx stmts (vs.map (·.expr)) o.ty v.fresh v.expr) os vs

theorem OwningValues.nil {n : Nat} : OwningValues cx n n [] [] [] := ⟨.nil, .nil⟩

theorem OwningValues.append {n n' n'' : Nat} {stmts stmts' : List Stmt} {os os' : List Expr}
    {vs vs' : List Value} (h : OwningValues cx n n' stmts os vs)
    (h' : OwningValues cx n' n'' stmts' os' vs') :
    OwningValues cx n n'' (stmts ++ stmts') (os ++ os') (vs ++ vs') := by
  constructor
  · rw [List.map_append, List.flatMap_append]
    exact h.owning.append h'.owning
  · rw [List.map_append]
    exact List.rel_append
      (h.fresh.imp fun _ _ hv => hv.append_left h.owning.confined h'.owning.confined)
      (h'.fresh.imp fun _ _ hv => hv.append_right h.owning.confined h'.owning.confined)

/-- An expression that is lowered to script all of whose events have owned operands, and
that is marked as fresh only if it is new. -/
structure LowersOwning (cx : Context) (e : Expr) : Prop where
  owning : ∀ {n n' : Nat} {w : Lowered}, e.lower cx n = .ok w n' →
    Owning cx n n' w.stmts [w.expr] (e.events cx)
  isNew : ∀ {n n' : Nat} {w : Lowered}, e.lower cx n = .ok w n' → w.fresh = true →
    ∀ tag, cx.metadata.semantics e.ty = .mutable tag → w.expr.isNew cx.names = true

theorem LowersOwning.confined {e : Expr} (h : LowersOwning cx e) : LowersConfined cx e :=
  fun hlower => (h.owning hlower).confined

/-! ## Fresh values of source -/

theorem Expr.ty_of_target {e : Expr} {t : Target Expr}
    (h : e.target cx.metadata cx.enclosing = .ok t) : t.ty = e.ty := by
  obtain ⟨p, hp, hplace⟩ := Expr.target_arranges h
  rw [(Classified.of_ofPlace hplace).ty_eq, Expr.ty_of_place hp]

/-- Reading a target by an accessor without a template makes something new. -/
theorem Target.isNew_load {ε : Type} {names : RuntimeNames} {t : Target ε} {a : Address}
    {e : Script.Expr} (hkind : t.kind = .receiver ∨ t.kind = .multiElement → t.getter? = none)
    (hinline : t.getterIsInline = false) (hfresh : t.loadIsFresh = true)
    (h : t.load names a = .ok e) : e.isNew names = true := by
  unfold Target.getterIsInline at hinline
  unfold Target.loadIsFresh at hfresh
  cases hg : t.getter? with
  | none => simp [hg] at hfresh
  | some getter =>
    have hload : t.load names a = t.useAccessor names a none getter := by
      unfold Target.load
      cases hk : t.kind <;> simp_all
    rw [hload] at h
    cases getter with
    | method name =>
      simp only [Target.useAccessor] at h
      cases hd : t.dispatch with
      | dynamic =>
        simp only [hd, Except.ok.injEq] at h
        subst h
        rfl
      | bound declaring =>
        simp only [hd, Except.ok.injEq] at h
        subst h
        simp [callBase, Script.Expr.isNew]
    | inline template => simp [hg, Accessor.isInline] at hinline
    | subscript => simp [hg, Accessor.runsCode] at hfresh

/-- What is marked as fresh is new, where values may change. -/
theorem Lowers.isNew {e : Expr} {n n' : Nat} {w : Lowered}
    (htyped : e.Everywhere (·.WellTyped cx)) (hcompound : ¬e.IsNativeCompound cx)
    (h : Lowers cx e n w n') (hfresh : w.fresh = true) {tag : String}
    (htag : cx.metadata.semantics e.ty = .mutable tag) : w.expr.isNew cx.names = true := by
  cases h with
  | @literal value => cases value <;> rfl
  | @defaultValue ty =>
    unfold Context.defaultValue
    cases cx.metadata.semantics ty <;> simp [Script.Expr.isNew]
  | this => cases hfresh
  | @load p span _ _ t addr load stmts hthis htarget haddr hload =>
    have ht := htyped.here.place p t rfl htarget
    exact Target.isNew_load (Classified.of_ofPlace htarget).getter?_of_kind ht.getter hfresh hload
  | @call r m args span _ _ name objects vs stmts hmethod htaken hobjects =>
    cases r <;> simp [callScript, callBase, Script.Expr.callMethod, Script.Expr.isNew]
  | @callInline r m args span _ _ template text objects vs stmts hmethod =>
    exact absurd hmethod ((htyped.here.call r m args rfl).1 template)
  | @binary op left right ty span =>
    simp [Script.Expr.isNew, htyped.here.binary op left right ty rfl]
  | @assign a span _ _ _ h =>
    cases h with
    | @native t addr v place stmts stmts' _ _ htarget hop hnative hshared =>
      -- A chain of values that may change is not nested in one expression.
      have hmutable : cx.metadata.semantics t.ty = .mutable tag :=
        Expr.ty_of_target htarget ▸ htag
      simp [Usage.isUsed, hmutable, CopySemantics.tag?] at hshared
    | readBack => cases hfresh
    | @byCall t =>
      cases hr : t.isReceiver <;> simp [Usage.finish, hr] at hfresh
    | compoundNative htarget hop hnative =>
      exact absurd ⟨a, _, rfl, by rw [hop]; rfl, htarget, hnative⟩ hcompound
    | compoundByCall => cases hfresh

/-! ## Operands -/

section

variable {c : Capture} {later rest : List Expr} {o : Expr} {n n' : Nat} {v : Value}
  {stmts : List Stmt}

theorem Taken.owning (ho : LowersOwning cx o) (h : Taken cx c later o n v stmts n') :
    OwningValues cx n n' stmts [o] [v] := by
  cases h with
  | @intro w m _ e stmts hlower hheld =>
    have howning := ho.owning hlower
    have hnew := ho.isNew hlower
    generalize o.mustCapture cx c later w.toValue = captured at hheld
    refine ⟨by simpa using howning.held hheld, .cons (fun hfresh tag htag => ?_) .nil⟩
    cases hheld with
    | inline => exact .inl (hnew hfresh tag htag)
    | captured =>
      -- The temporary is new, so nothing so far mentions it.
      refine .inr ⟨m + 1, w.expr, rfl, by simp, hnew hfresh tag htag, ?_⟩
      have hstmts := howning.confined.stmts (m + 1) (by omega)
      have hexpr := howning.confined.exprs (m + 1) (by omega)
      rw [Script.mentionsAll_singleton] at hexpr
      simp [hstmts, hexpr, Script.Expr.mentions]

theorem TakenAll.owning {items : List (Capture × Expr)} {vs : List Value}
    (hitems : ∀ e ∈ items.map (·.2), LowersOwning cx e)
    (h : TakenAll cx rest items n vs stmts n') :
    OwningValues cx n n' stmts (items.map (·.2)) vs := by
  induction h with
  | nil => exact .nil
  | cons hhead _ ih =>
    exact (hhead.owning (hitems _ List.mem_cons_self)).append
      (ih fun e he => hitems e (List.mem_cons_of_mem _ he))

theorem Asides.owning {reuse : Bool} {os : List Expr} {ds : List Value}
    (hos : ∀ e ∈ os, LowersOwning cx e) (h : Asides cx reuse os n ds stmts n') :
    OwningValues cx n n' stmts os ds := by
  induction h with
  | nil => exact .nil
  | cons hhead _ ih =>
    exact (hhead.owning (hos _ List.mem_cons_self)).append
      (ih fun e he => hos e (List.mem_cons_of_mem _ he))

end

end AssignmentLowering
