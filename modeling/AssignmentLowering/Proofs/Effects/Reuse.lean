import AssignmentLowering.Proofs.Effects.Order
import AssignmentLowering.Proofs.Lowering.Evaluated

/-!
# Operands that are used in any way

A template may drop an operand, repeat it, or have it before another. A target that is read
and then written is addressed twice, and a value that is stored may be wanted as well. What
is used in such a way is settled first: each operand comes down to a constant, a name or the
current object, and whatever evaluating it does is done in the statements, in the order of
evaluation. Then it does not matter what becomes of the operands. Any other operand stands
in one place.

## Main definitions

* `Script.Expr.IsTrivial` — an expression that may be used in any way, or a copy of one.
* `Passes` — operands lowered one after the other, each passed on or kept in a temporary.
* `Settled` — operands that may be used in any way.
* `Target.PassedAt` — the operands of a target, and where they stand in an address.
* `Expr.UsesOperands` — what an expression is lowered to, and which operands are settled.

## Main statements

* `Passes.settled` — nothing that settled operands do depends on how they are used.
* `Task.usesOperands` — operands that are used in any way are settled, in all that is lowered.
-/

namespace AssignmentLowering

open Script (Stmt)

/-! ## Settled operands -/

namespace Script.Expr

/-- The expression `y` is `x`, or a copy of it. -/
def CopyOf (names : RuntimeNames) (x y : Expr) : Prop := y = x ∨ ∃ tag, y = clone names x tag

/-- A literal, a name, the current object or a type, or a copy of one of them. -/
def IsTrivial (names : RuntimeNames) (y : Expr) : Prop :=
  ∃ x : Expr, x.isReusable = true ∧ x.CopyOf names y

end Script.Expr

/-- Operands lowered one after the other, each to an expression that is passed on as it is, or
to one that is kept in a temporary. -/
inductive Passes (cx : Context) : List Expr → List Script.Expr → List Stmt → Prop
  | nil : Passes cx [] [] []
  | inline {e : Expr} {es : List Expr} {w : Lowered} {m m' : Nat} {xs : List Script.Expr}
      {stmts : List Stmt} (hlower : e.lower cx m = .ok w m') (hrest : Passes cx es xs stmts) :
      Passes cx (e :: es) (w.expr :: xs) (w.stmts ++ stmts)
  | captured {e : Expr} {es : List Expr} {w : Lowered} {m m' : Nat} {xs : List Script.Expr}
      {stmts : List Stmt} {k : Nat} (hlower : e.lower cx m = .ok w m')
      (hrest : Passes cx es xs stmts) :
      Passes cx (e :: es) (.ident (cx.temp k) :: xs)
        (w.stmts ++ .declare (cx.temp k) w.expr :: stmts)

/-- Operands that have been lowered to `xs` by `stmts` and may be used in any way. -/
structure Settled (cx : Context) (es : List Expr) (xs : List Script.Expr) (stmts : List Stmt) :
    Prop where
  passes : Passes cx es xs stmts
  reusable : ∀ x ∈ xs, x.isReusable = true
  /-- However they are picked, repeated and ordered, evaluating them does nothing. -/
  silent : ∀ ys : List Script.Expr, (∀ y ∈ ys, ∃ x ∈ xs, x.CopyOf cx.names y) →
    ys.flatMap (Script.Expr.events cx.names) = []
  /-- All that lowering the operands comes to is done in the statements, in their order. -/
  done : ∃ ws : List Lowered, List.Forall₂ (fun e w => ∃ m m', e.lower cx m = .ok w m') es ws ∧
    Script.events cx.names stmts =
      ws.flatMap fun w => Script.events cx.names w.stmts ++ w.expr.events cx.names
  /-- If lowering keeps to the order of source, these are the effects of source. -/
  follows : (∀ e ∈ es, InOrder cx e) →
    Follows (es.flatMap (Expr.events cx)) (Script.events cx.names stmts)

section

variable {names : RuntimeNames} {x y : Script.Expr}

theorem Script.Expr.CopyOf.refl (names : RuntimeNames) (x : Script.Expr) : x.CopyOf names x :=
  .inl rfl

theorem Script.Expr.IsTrivial.of_isReusable (h : x.isReusable = true) : x.IsTrivial names :=
  ⟨x, h, .refl names x⟩

/-- A copy of something has its events. -/
theorem Script.Expr.CopyOf.events (h : x.CopyOf names y) : y.events names = x.events names := by
  obtain rfl | ⟨tag, rfl⟩ := h
  · rfl
  · exact Script.Expr.events_clone ..

variable {cx : Context}

theorem Context.copyOf_copied (ty : TypeRef) (fresh : Bool) (uses : Nat) (x : Script.Expr) :
    x.CopyOf cx.names (cx.copied ty fresh uses x) := cx.copied_eq ty fresh uses x

end

section

variable {cx : Context} {es es' : List Expr} {xs xs' : List Script.Expr}
  {stmts stmts' : List Stmt} {n n' : Nat}

namespace Passes

theorem append (h : Passes cx es xs stmts) (h' : Passes cx es' xs' stmts') :
    Passes cx (es ++ es') (xs ++ xs') (stmts ++ stmts') := by
  induction h with
  | nil => exact h'
  | inline hlower _ ih =>
    rw [List.append_assoc]
    exact .inline hlower ih
  | captured hlower _ ih =>
    rw [List.append_assoc]
    exact .captured hlower ih

/-- If evaluating the results does nothing, the statements come to all that the operands come
to when they are lowered. -/
theorem exists_events (h : Passes cx es xs stmts) (hxs : ∀ x ∈ xs, x.isReusable = true) :
    ∃ ws : List Lowered, List.Forall₂ (fun e w => ∃ m m', e.lower cx m = .ok w m') es ws ∧
      Script.events cx.names stmts =
        ws.flatMap fun w => Script.events cx.names w.stmts ++ w.expr.events cx.names := by
  induction h with
  | nil => exact ⟨[], .nil, rfl⟩
  | @inline _ _ w m m' _ _ hlower _ ih =>
    obtain ⟨hfirst, hrest⟩ := List.forall_mem_cons.1 hxs
    obtain ⟨ws, hws, hevents⟩ := ih hrest
    refine ⟨w :: ws, .cons ⟨m, m', hlower⟩ hws, ?_⟩
    rw [Script.events_append, hevents, List.flatMap_cons, Script.Expr.events_of_isReusable _ hfirst,
      List.append_nil]
  | @captured _ _ w m m' _ stmts k hlower _ ih =>
    obtain ⟨ws, hws, hevents⟩ := ih (List.forall_mem_cons.1 hxs).2
    refine ⟨w :: ws, .cons ⟨m, m', hlower⟩ hws, ?_⟩
    rw [← List.singleton_append, Script.events_append, Script.events_append,
      Script.events_declare, hevents, List.flatMap_cons, List.append_assoc]

/-- Operands that come down to constants and names do the same however they are used. -/
theorem settled (h : Passes cx es xs stmts) (hxs : ∀ x ∈ xs, x.isReusable = true) :
    Settled cx es xs stmts where
  passes := h
  reusable := hxs
  silent ys hys := by
    rw [List.flatMap_eq_nil_iff]
    intro y hy
    obtain ⟨x, hx, hcopy⟩ := hys y hy
    rw [hcopy.events, Script.Expr.events_of_isReusable _ (hxs x hx)]
  done := h.exists_events hxs
  follows horder := by
    obtain ⟨ws, hws, hevents⟩ := h.exists_events hxs
    rw [hevents]
    clear hevents h
    induction hws with
    | nil => exact .nil
    | cons hhead _ ih =>
      obtain ⟨m, m', hlower⟩ := hhead
      obtain ⟨hfirst, hrest⟩ := List.forall_mem_cons.1 horder
      exact (hfirst.follows hlower).append (ih hrest)

end Passes

theorem Taken.passes {c : Capture} {later : List Expr} {o : Expr} {v : Value}
    (h : Taken cx c later o n v stmts n') : Passes cx [o] [v.expr] stmts := by
  cases h with
  | @intro w m _ _ _ hlower hheld =>
    generalize o.mustCapture cx c later w.toValue = captured at hheld
    cases hheld with
    | inline => exact .inline hlower .nil
    | captured => exact .captured hlower .nil

theorem TakenAll.passes {rest : List Expr} {items : List (Capture × Expr)} {vs : List Value}
    (h : TakenAll cx rest items n vs stmts n') :
    Passes cx (items.map (·.2)) (vs.map (·.expr)) stmts := by
  induction h with
  | nil => exact .nil
  | cons hhead _ ih => exact hhead.passes.append ih

theorem Asides.passes {reuse : Bool} {os : List Expr} {ds : List Value}
    (h : Asides cx reuse os n ds stmts n') : Passes cx os (ds.map (·.expr)) stmts := by
  induction h with
  | nil => exact .nil
  | cons hhead _ ih => exact hhead.passes.append ih

/-- An operand that is needed more than once is settled. -/
theorem Taken.settled {c : Capture} {later : List Expr} {o : Expr} {v : Value}
    (h : Taken cx c later o n v stmts n') (hc : c.reuse = true) :
    Settled cx [o] [v.expr] stmts :=
  h.passes.settled fun x hx => by
    obtain rfl := List.mem_singleton.1 hx
    exact h.isReusable hc

end

/-! ## Targets -/

/-- The operands of a target have been lowered to `xs` and stand in the address `a`: the object
is the receiver's, and each argument that of its own parameter, maybe as a copy. -/
structure Target.PassedAt (cx : Context) (t : Target Expr) (stmts : List Stmt)
    (xs : List Script.Expr) (a : Address) : Prop where
  passes : Passes cx (t.operands ++ t.omitted) xs stmts
  object : List.Forall₂ (fun e y => (e, y) ∈ (t.operands ++ t.omitted).zip xs)
    t.receiver.toList a.object.toList
  args : List.Forall₂ (fun arg y => ∃ x, (arg.value, x) ∈ (t.operands ++ t.omitted).zip xs ∧
    x.CopyOf cx.names y) t.args a.args

section

variable {cx : Context} {t : Target Expr} {stmts : List Stmt} {n n' : Nat}

/-- An accessor is passed the object as it is. -/
theorem LoweredAddress.object_passed (addr : LoweredAddress) (accessor : Option Accessor)
    (uses : Nat) : (addr.passed cx accessor uses).object = addr.object := by
  unfold passed
  split <;> rfl

/-- The operands of a target stand in every address that is made of them. If they are needed
more than once, they come down to constants and names. -/
theorem Addressed.exists_passedAt {reuse : Bool} {rest : List Expr} {addr : LoweredAddress}
    {indices : List Expr} (ht : Arranges t.args indices)
    (h : Addressed cx reuse rest t n addr stmts n') :
    ∃ xs, (reuse = true → ∀ x ∈ xs, x.isReusable = true) ∧
      ∀ accessor uses, t.PassedAt cx stmts xs (addr.passed cx accessor uses) := by
  obtain ⟨vs, ds, stmts₁, stmts₂, m, htaken, hasides, rfl, -, hobject, hargs⟩ := h.split ht
  have hlen : t.operands.length = (vs.map (·.expr)).length := by
    rw [List.length_map, htaken.length_operands]
  have hpasses := htaken.passes.append hasides.passes
  rw [Target.map_snd_captures] at hpasses
  have hzip : (t.operands ++ t.omitted).zip (vs.map (·.expr) ++ ds.map (·.expr)) =
      (t.operands.zip vs).map (Prod.map id (·.expr)) ++
        (t.omitted.zip ds).map (Prod.map id (·.expr)) := by
    rw [List.zip_append hlen, List.zip_map_right, List.zip_map_right]
  refine ⟨vs.map (·.expr) ++ ds.map (·.expr), ?_, fun accessor uses => ⟨hpasses, ?_, ?_⟩⟩
  · rintro rfl x hx
    obtain hx | hx := List.mem_append.1 hx <;> obtain ⟨v, hv, rfl⟩ := List.mem_map.1 hx
    · exact htaken.isReusable (fun c hc => Target.reuse_of_mem_captures hc) v hv
    · exact hasides.isReusable v hv
  · rw [addr.object_passed, hzip]
    refine hobject.imp ?_
    rintro e _ ⟨v, rfl, hv⟩
    exact List.mem_append_left _ (List.mem_map_of_mem hv)
  · obtain ⟨f, hf, hcopy⟩ := addr.exists_args_passed accessor uses
    rw [hf, hzip, List.forall₂_map_right_iff]
    refine hargs.imp ?_
    rintro arg _ ⟨v, rfl, hv⟩
    refine ⟨v.expr, List.mem_append.2 (hv.imp ?_ ?_), hcopy _⟩ <;>
      exact fun hmem => List.mem_map_of_mem hmem

/-- Where the operands of a target are constants and names, those of its templates are
trivial. -/
theorem Target.PassedAt.isTrivial {xs : List Script.Expr} {a : Address}
    (h : t.PassedAt cx stmts xs a) (hxs : ∀ x ∈ xs, x.isReusable = true)
    {value : Option Script.Expr} (hvalue : ∀ v ∈ value, v.IsTrivial cx.names) {name : String}
    {y : Script.Expr} (hy : t.operand? a value name = some y) : y.IsTrivial cx.names := by
  unfold operand? at hy
  split at hy
  · cases hy
    unfold Target.object
    cases hobject : a.object with
    | some x =>
      obtain ⟨e, -, hx⟩ := exists_of_forall₂ h.object (Option.mem_toList.2 hobject)
      exact .of_isReusable (hxs x (List.of_mem_zip hx).2)
    | none => cases t.staticOwner <;> exact .of_isReusable rfl
  · split at hy
    · exact hvalue y hy
    · obtain ⟨i, -, hi⟩ := Option.bind_eq_some_iff.1 hy
      obtain ⟨arg, -, x, hx, hcopy⟩ := exists_of_forall₂ h.args (List.mem_of_getElem? hi)
      exact ⟨x, hxs x (List.of_mem_zip hx).2, hcopy⟩

end

/-! ## What operands are used for -/

/-- Text made from a template whose operands are all trivial. -/
structure FilledTrivially (names : RuntimeNames) (template : String) (span : Span)
    (operand? : String → Option Script.Expr) (e : Script.Expr) : Prop where
  text : ∃ text, Template.substitute template span operand? = .ok text ∧ e = .verbatim text
  trivial : ∀ name y, operand? name = some y → y.IsTrivial names

section

variable (cx : Context)

/-- The target is read in one place. If a template reads it, its operands are settled. -/
inductive Target.Reads (t : Target Expr) (w : Lowered) : Prop
  | intro {xs : List Script.Expr} {a : Address} (haddress : t.PassedAt cx w.stmts xs a)
      (hload : t.load cx.names a = .ok w.expr)
      (htemplate : ∀ template, t.getter? = some (.inline template) →
        Settled cx (t.operands ++ t.omitted) xs w.stmts ∧
          FilledTrivially cx.names template t.span (t.operand? a none) w.expr)

/-- What an assignment makes of the operands of its target and of its value. -/
inductive Target.Assigns (t : Target Expr) (usage : Usage) (a : Assignment Expr) : Lowered → Prop
  /-- The target and the value stand in one place. -/
  | native {xs : List Script.Expr} {b : Address} {place x stored : Script.Expr} {fresh : Bool}
      {stmts stmts' : List Stmt} (haddress : t.PassedAt cx stmts xs b)
      (hvalue : Passes cx [a.value] [x] stmts') (hplace : t.native cx.names b = .ok place)
      (hcopy : x.CopyOf cx.names stored) :
      Assigns t usage a
        { expr := .assign place stored, fresh, stable := false, stmts := stmts ++ stmts' }
  /-- The target is assigned and read back, so its operands are settled. -/
  | readBack {xs : List Script.Expr} {b : Address} {place x stored : Script.Expr}
      {stmts stmts' : List Stmt} (haddress : t.PassedAt cx stmts xs b)
      (hsettled : Settled cx (t.operands ++ t.omitted) xs stmts)
      (hvalue : Passes cx [a.value] [x] stmts') (hplace : t.native cx.names b = .ok place)
      (hcopy : x.CopyOf cx.names stored) :
      Assigns t usage a
        { expr := place, fresh := false, stable := false,
          stmts := stmts ++ stmts' ++ [.expr (.assign place stored)] }
  /-- The value is settled if it is the result as well. If a template writes the target, all
  the operands are settled. -/
  | byCall {xs : List Script.Expr} {b : Address} {x stored store : Script.Expr} {result : Value}
      {stmts stmts' : List Stmt} (haddress : t.PassedAt cx stmts xs b)
      (hvalue : Passes cx [a.value] [x] stmts') (hstore : t.store cx.names b stored = .ok store)
      (hcopy : x.CopyOf cx.names stored)
      (hresult : result.expr = if t.isReceiver then .this else x)
      (hused : usage = .used → t.isReceiver = false → Settled cx [a.value] [x] stmts')
      (htemplate : ∀ template, t.setter? = some (.inline template) →
        Settled cx (t.operands ++ t.omitted) xs stmts ∧ Settled cx [a.value] [x] stmts' ∧
          FilledTrivially cx.names template t.span (t.operand? b (some stored)) store) :
      Assigns t usage a (usage.finish store result (stmts ++ stmts'))
  /-- The target and the value stand in one place, which is read and written. -/
  | compoundNative {op : BinaryOp} {xs : List Script.Expr} {b : Address} {place x : Script.Expr}
      {stmts stmts' : List Stmt} (hop : a.op.binary? = some op)
      (haddress : t.PassedAt cx stmts xs b) (hvalue : Passes cx [a.value] [x] stmts')
      (hplace : t.native cx.names b = .ok place) :
      Assigns t usage a
        { expr := .compoundAssign op place x, fresh := true, stable := false,
          stmts := stmts ++ stmts' }
  /-- The target is read by one call and written by another, so its operands are settled. The
  sum is put into a temporary if it is the result as well, or if a template writes it. -/
  | compoundByCall {op : BinaryOp} {xs : List Script.Expr} {b b' : Address}
      {load old x new stored store : Script.Expr} {stmts stmts₁ stmts₂ stmts₃ : List Stmt}
      {n₁ n₂ n₃ n₄ : Nat} (hop : a.op.binary? = some op)
      (hsettled : Settled cx (t.operands ++ t.omitted) xs stmts)
      (hread : t.PassedAt cx stmts xs b) (hload : t.load cx.names b = .ok load)
      (hold : Held cx load n₁ (a.value.hasEffects cx.metadata) old stmts₁ n₂)
      (hvalue : Passes cx [a.value] [x] stmts₂)
      (hnew : Held cx (.binary op old x) n₃ (usage.isUsed || t.setterIsInline) new stmts₃ n₄)
      (hwrite : t.PassedAt cx stmts xs b') (hstore : t.store cx.names b' stored = .ok store)
      (hcopy : new.CopyOf cx.names stored) (hused : usage = .used → new.isReusable = true)
      (hgetter : ∀ template, t.getter? = some (.inline template) →
        FilledTrivially cx.names template t.span (t.operand? b none) load)
      (hsetter : ∀ template, t.setter? = some (.inline template) → new.isReusable = true ∧
        FilledTrivially cx.names template t.span (t.operand? b' (some stored)) store) :
      Assigns t usage a
        (usage.finish store ⟨new, false, true⟩ (stmts ++ stmts₁ ++ stmts₂ ++ stmts₃))

/-- A method is called with the object and the arguments in one place each. If it is a
template, they are settled. -/
inductive Calls (r : Receiver Expr) (m : Method) (args : List Expr) (span : Span) (w : Lowered) :
    Prop
  | intro {object : Script.Expr} {xs ys : List Script.Expr}
      (hpasses : Passes cx (r.object?.toList ++ args)
        ((r.object?.map fun _ => object).toList ++ xs) w.stmts)
      (hcopies : List.Forall₂ (Script.Expr.CopyOf cx.names) xs ys)
      (hmethod : ∀ name, cx.metadata.method m = .method name →
        w.expr = callScript cx.names r name object ys)
      (htemplate : ∀ template, cx.metadata.method m = .inline template →
        Settled cx (r.object?.toList ++ args) ((r.object?.map fun _ => object).toList ++ xs)
            w.stmts ∧
          FilledTrivially cx.names template span (callOperand? m object ys) w.expr)

/-- What the expression makes of its operands where it is lowered to `w`: each stands in one
place, except for those that are settled. -/
def Expr.UsesOperands (usage : Usage) (e : Expr) (w : Lowered) : Prop :=
  match e.form with
  | .literal .. | .defaultValue _ => w.stmts = []
  | .place p => ∀ t, Target.ofPlace cx.metadata cx.enclosing Expr.ty e.span p = .ok t →
      t.Reads cx w
  | .call r m args => Calls cx r m args e.span w
  | .binary op l r _ => ∃ x y, Passes cx [l, r] [x, y] w.stmts ∧ w.expr = .binary op x y
  | .assign a => ∀ t, a.target.target cx.metadata cx.enclosing = .ok t → t.Assigns cx usage a w

end

/-! ## Templates -/

section

variable {cx : Context} {t : Target Expr} {p : Place Expr} {span : Span} {a : Address}
  {template : String} {value access : Script.Expr}

theorem Target.text_of_useAccessor {value : Option Script.Expr}
    (h : t.useAccessor cx.names a value (.inline template) = .ok access) :
    ∃ text, Template.substitute template t.span (t.operand? a value) = .ok text ∧
      access = .verbatim text := by
  simp only [useAccessor] at h
  cases htext : Template.substitute template t.span (t.operand? a value) with
  | error err => simp [htext, Except.map] at h
  | ok text =>
    simp only [htext, Except.map, Except.ok.injEq] at h
    exact ⟨text, rfl, h.symm⟩

/-- What is read by a template is its text. -/
theorem Classified.text_of_load {md : Metadata} (h : Classified md Expr.ty span p t)
    (hgetter : t.getter? = some (.inline template)) (hload : t.load cx.names a = .ok access) :
    ∃ text, Template.substitute template t.span (t.operand? a none) = .ok text ∧
      access = .verbatim text := by
  unfold Target.load at hload
  split at hload
  case h_1 hkind => cases hgetter.symm.trans (h.getter?_of_kind (.inl hkind))
  case h_2 hkind => cases hgetter.symm.trans (h.getter?_of_kind (.inr hkind))
  case h_3 =>
    rw [hgetter] at hload
    exact Target.text_of_useAccessor hload

/-- What is written by a template is its text. -/
theorem Classified.text_of_store {md : Metadata} (h : Classified md Expr.ty span p t)
    (hsetter : t.setter? = some (.inline template))
    (hstore : t.store cx.names a value = .ok access) :
    ∃ text, Template.substitute template t.span (t.operand? a (some value)) = .ok text ∧
      access = .verbatim text := by
  unfold Target.store at hstore
  split at hstore
  case h_1 hkind =>
    cases hsetter.symm.trans (Target.getter?_eq_none_iff.1 (h.getter?_of_kind (.inl hkind)))
  case h_2 hkind =>
    cases hsetter.symm.trans (Target.getter?_eq_none_iff.1 (h.getter?_of_kind (.inr hkind)))
  case h_3 =>
    rw [hsetter] at hstore
    exact Target.text_of_useAccessor hstore

end

/-! ## Lowering -/

section

variable {cx : Context}

/-- What is handed over are the values, or copies of them. -/
theorem Context.copyOf_handed (cx : Context) : ∀ {tys : List TypeRef} {vs : List Value},
    vs.length = tys.length →
      List.Forall₂ (Script.Expr.CopyOf cx.names) (vs.map (·.expr)) (cx.handed tys vs)
  | [], [], _ => .nil
  | ty :: _, v :: _, hlen =>
    .cons (cx.copyOf_copied ty v.fresh 1 v.expr) (cx.copyOf_handed (Nat.succ.inj hlen))

variable {r : Receiver Expr} {m : Method} {args : List Expr} {objects vs : List Value}

/-- The object of a call is the value of the receiver, where there is one. -/
theorem Receiver.script_of_length (hobjects : objects.length = r.object?.toList.length) :
    (r.object?.map fun _ => r.script objects).toList = objects.map (·.expr) := by
  cases r with
  | object e =>
    obtain ⟨v, rfl⟩ := List.length_eq_one_iff.1 hobjects
    rfl
  | static _ | base _ =>
    obtain rfl := List.length_eq_zero_iff.1 hobjects
    rfl

/-- If the operands of a call are constants and names, those of its template are trivial. -/
theorem isTrivial_of_callOperand {object y : Script.Expr} {xs ys : List Script.Expr}
    {name : String} (hobject : object.isReusable = true) (hxs : ∀ x ∈ xs, x.isReusable = true)
    (hcopies : List.Forall₂ (Script.Expr.CopyOf cx.names) xs ys)
    (hy : callOperand? m object ys name = some y) : y.IsTrivial cx.names := by
  unfold callOperand? at hy
  split at hy
  · cases hy
    exact .of_isReusable hobject
  · obtain ⟨i, -, hi⟩ := Option.bind_eq_some_iff.1 hy
    obtain ⟨x, hx, hcopy⟩ := exists_of_forall₂ hcopies (List.mem_of_getElem? hi)
    exact ⟨x, hxs x hx, hcopy⟩

variable {c : Capture} {stmts : List Stmt} {n n' : Nat}

/-- The operands of a call are passed on. -/
theorem TakenAll.passes_call
    (h : TakenAll cx [] ((r.object?.toList ++ args).map (c, ·)) n (objects ++ vs) stmts n')
    (hobjects : objects.length = r.object?.toList.length) :
    Passes cx (r.object?.toList ++ args)
      ((r.object?.map fun _ => r.script objects).toList ++ vs.map (·.expr)) stmts := by
  have hpasses := h.passes
  rwa [map_snd_map_capture, List.map_append, ← Receiver.script_of_length hobjects] at hpasses

/-- If the operands of a call are needed more than once, they come down to constants and
names, and so does its object in any case. -/
theorem TakenAll.isReusable_call
    (h : TakenAll cx [] ((r.object?.toList ++ args).map (⟨true, false⟩, ·)) n (objects ++ vs)
      stmts n') (hobjects : objects.length = r.object?.toList.length) :
    (∀ x ∈ (r.object?.map fun _ => r.script objects).toList ++ vs.map (·.expr),
      x.isReusable = true) ∧ (r.script objects).isReusable = true := by
  have hall : ∀ x ∈ (r.object?.map fun _ => r.script objects).toList ++ vs.map (·.expr),
      x.isReusable = true := by
    rw [Receiver.script_of_length hobjects, ← List.map_append]
    intro x hx
    obtain ⟨v, hv, rfl⟩ := List.mem_map.1 hx
    exact h.isReusable_of_reuse v hv
  refine ⟨hall, ?_⟩
  cases r with
  | object e => exact hall _ (by simp [Receiver.object?])
  | static _ | base _ => rfl

end

section

variable {cx : Context} {n n' n'' : Nat} {usage : Usage} {a : Assignment Expr} {t : Target Expr}
  {addr : LoweredAddress} {v : Value} {stmts : List Stmt} {p : Place Expr} {span : Span}
  (hplace : Target.ofPlace cx.metadata cx.enclosing Expr.ty span p = .ok t)

include hplace

theorem Addressed.reads {w : Lowered}
    (haddr : Addressed cx t.getterIsInline [] t n addr w.stmts n')
    (hload : t.load cx.names (addr.passed cx t.getter? 1) = .ok w.expr) : t.Reads cx w := by
  obtain ⟨xs, hxs, haddress⟩ := haddr.exists_passedAt (Target.ofPlace_arranges hplace).2
  refine .intro (haddress _ _) hload fun template hgetter => ?_
  have hreusable := hxs (by simp [Target.getterIsInline, hgetter, Accessor.isInline])
  exact ⟨(haddress none 1).passes.settled hreusable,
    (Classified.of_ofPlace hplace).text_of_load hgetter hload,
    fun name y hy => (haddress _ _).isTrivial hreusable (by simp) hy⟩

theorem Addressed.assigns_byCall {store : Script.Expr} {stmts' : List Stmt}
    (haddr : Addressed cx t.setterIsInline [a.value] t n addr stmts n')
    (hvalue : Taken cx ⟨(usage.isUsed && !t.isReceiver) || t.setterIsInline, false⟩ []
      a.value n' v stmts' n'')
    (hstore : t.store cx.names (addr.passed cx t.setter? 1)
      (cx.copied t.ty v.fresh (if usage.isUsed && !t.isReceiver then 2 else 1) v.expr) =
        .ok store) :
    t.Assigns cx usage a
      (usage.finish store (if t.isReceiver then ⟨.this, false, true⟩ else ⟨v.expr, false, v.stable⟩)
        (stmts ++ stmts')) := by
  obtain ⟨xs, hxs, haddress⟩ := haddr.exists_passedAt (Target.ofPlace_arranges hplace).2
  refine .byCall (haddress _ _) hvalue.passes hstore (cx.copyOf_copied ..) (by split <;> rfl)
    (fun husage hreceiver => hvalue.settled (by simp [husage, hreceiver, Usage.isUsed]))
    fun template hsetter => ?_
  have hinline : t.setterIsInline = true := by
    simp [Target.setterIsInline, hsetter, Accessor.isInline]
  have hreusable := hxs hinline
  have hsettled := hvalue.settled (by rw [hinline, Bool.or_true])
  refine ⟨(haddress none 1).passes.settled hreusable, hsettled,
    (Classified.of_ofPlace hplace).text_of_store hsetter hstore, fun name y hy => ?_⟩
  refine (haddress _ _).isTrivial hreusable (fun x hx => ?_) hy
  obtain rfl := Option.some.inj hx
  exact ⟨v.expr, hsettled.reusable _ (List.mem_singleton_self _), cx.copyOf_copied ..⟩

theorem Addressed.assigns_compoundByCall {op : BinaryOp} {load old new store : Script.Expr}
    {stmts₁ stmts₂ stmts₃ : List Stmt} {n₁ n₂ n₃ n₄ : Nat} (hop : a.op.binary? = some op)
    (haddr : Addressed cx true [a.value] t n addr stmts n₁)
    (hload : t.load cx.names (addr.passed cx t.getter? 2) = .ok load)
    (hold : Held cx load n₁ (a.value.hasEffects cx.metadata) old stmts₁ n₂)
    (hvalue : Taken cx {} [] a.value n₂ v stmts₂ n₃)
    (hnew : Held cx (.binary op old v.expr) n₃ (usage.isUsed || t.setterIsInline) new stmts₃ n₄)
    (hstore : t.store cx.names (addr.passed cx t.setter? 2)
      (cx.copied t.ty true (if usage.isUsed then 2 else 1) new) = .ok store) :
    t.Assigns cx usage a
      (usage.finish store ⟨new, false, true⟩ (stmts ++ stmts₁ ++ stmts₂ ++ stmts₃)) := by
  have hclass := Classified.of_ofPlace hplace
  obtain ⟨xs, hxs, haddress⟩ := haddr.exists_passedAt (Target.ofPlace_arranges hplace).2
  have hreusable := hxs rfl
  have hheld (huse : (usage.isUsed || t.setterIsInline) = true) : new.isReusable = true := by
    rw [huse] at hnew
    cases hnew
    rfl
  refine .compoundByCall hop ((haddress none 1).passes.settled hreusable) (haddress _ _) hload hold
    hvalue.passes hnew (haddress _ _) hstore (cx.copyOf_copied ..)
    (fun husage => hheld (by rw [husage]; rfl)) (fun template hgetter => ?_)
    fun template hsetter => ?_
  · exact ⟨hclass.text_of_load hgetter hload,
      fun name y hy => (haddress _ _).isTrivial hreusable (by simp) hy⟩
  · have hnewReusable := hheld (by simp [Target.setterIsInline, hsetter, Accessor.isInline])
    refine ⟨hnewReusable, hclass.text_of_store hsetter hstore, fun name y hy => ?_⟩
    refine (haddress _ _).isTrivial hreusable (fun x hx => ?_) hy
    obtain rfl := Option.some.inj hx
    exact ⟨new, hnewReusable, cx.copyOf_copied ..⟩

end

section

variable {cx : Context} {n n' : Nat} {w : Lowered}

/-- What an assignment uses more than once, or hands to a template, is settled. -/
theorem LowersAssign.assigns {usage : Usage} {a : Assignment Expr} {t : Target Expr}
    (htarget : a.target.target cx.metadata cx.enclosing = .ok t)
    (h : LowersAssign cx usage a n w n') : t.Assigns cx usage a w := by
  obtain ⟨p, -, hplace⟩ := Expr.target_arranges htarget
  have ht := (Target.ofPlace_arranges hplace).2
  cases h with
  | native htarget' _ _ _ haddr hvalue hnative =>
    cases htarget.symm.trans htarget'
    obtain ⟨xs, -, haddress⟩ := haddr.exists_passedAt ht
    exact .native (haddress none 1) hvalue.passes hnative (cx.copyOf_copied ..)
  | readBack htarget' _ _ _ haddr hvalue hnative =>
    cases htarget.symm.trans htarget'
    obtain ⟨xs, hxs, haddress⟩ := haddr.exists_passedAt ht
    exact .readBack (haddress none 1) ((haddress none 1).passes.settled (hxs rfl)) hvalue.passes
      hnative (cx.copyOf_copied ..)
  | byCall htarget' _ _ haddr hvalue hstore =>
    cases htarget.symm.trans htarget'
    exact haddr.assigns_byCall hplace hvalue hstore
  | compoundNative htarget' hop _ haddr hvalue hnative =>
    cases htarget.symm.trans htarget'
    obtain ⟨xs, -, haddress⟩ := haddr.exists_passedAt ht
    exact .compoundNative hop (haddress none 1) hvalue.passes hnative
  | compoundByCall htarget' hop _ _ haddr hload hold hvalue hnew hstore =>
    cases htarget.symm.trans htarget'
    exact haddr.assigns_compoundByCall hplace hop hload hold hvalue hnew hstore

/-- What an expression uses more than once, or hands to a template, is settled. -/
theorem Lowers.uses {e : Expr} (h : Lowers cx e n w n') :
    e.UsesOperands cx .used w := by
  cases h with
  | literal | defaultValue => rfl
  | this =>
    intro t ht
    cases Classified.of_ofPlace ht
    refine @Target.Reads.intro _ _ _ [] {} ⟨.nil, .nil, .nil⟩ rfl fun template hgetter => ?_
    cases hgetter
  | load _ htarget haddr hload =>
    intro t ht
    cases ht.symm.trans htarget
    exact haddr.reads htarget hload
  | @call r m args _ _ _ _ _ _ _ hmethod htaken hobjects =>
    have hcopies := cx.copyOf_handed (htaken.length_handed m.params hobjects)
    refine .intro (htaken.passes_call hobjects) hcopies (fun name hname => ?_)
      fun template htemplate => ?_
    · cases hmethod.symm.trans hname
      rfl
    · cases hmethod.symm.trans htemplate
  | @callInline r m args _ _ _ _ text _ _ _ hmethod htaken hobjects htext =>
    have hcopies := cx.copyOf_handed (htaken.length_handed m.params hobjects)
    have hpasses := htaken.passes_call hobjects
    obtain ⟨hall, hobject⟩ := htaken.isReusable_call hobjects
    refine .intro hpasses hcopies (fun name hname => ?_) fun template htemplate => ?_
    · cases hmethod.symm.trans hname
    · cases hmethod.symm.trans htemplate
      exact ⟨hpasses.settled hall, ⟨text, htext, rfl⟩, fun name y hy =>
        isTrivial_of_callOperand hobject (fun x hx => hall x (List.mem_append_right _ hx))
          hcopies hy⟩
  | binary htaken => exact ⟨_, _, htaken.passes, rfl⟩
  | assign h => exact fun t ht => h.assigns ht

end

/-- **Operands that are used more than once, or by a template.** Whatever is lowered, and
whatever is evaluated for it at any depth, settles the operands that it uses more than once
or hands to a template: each is a constant, a name, the current object or a copy of one of
these, and all that its evaluation does is done by statements of the output. -/
theorem Task.usesOperands {t : Task} {n n' : Nat} {out : LoweredAssignment}
    (h : t.lower n = .ok out n') :
    (∃ w, out = .ofLowered t.usage w ∧ t.expr.UsesOperands t.cx t.usage w) ∧
      ∀ c ∈ t.expr.evaluated t.cx, ∀ d, c.Evaluates t.cx d →
        LowersWithin t.cx d out.statements ∧
          ∀ m w m', d.lower t.cx m = .ok w m' → d.UsesOperands t.cx .used w := by
  refine ⟨?_, fun c hc d hd => ⟨?_, fun m w m' hlower => (Lowers.of_lower hlower).uses⟩⟩
  · cases t with
    | assignment cx usage a span =>
      obtain ⟨w, m, hlower, hpure⟩ := bind_ok h
      obtain ⟨rfl, rfl⟩ := pure_ok hpure
      exact ⟨w, rfl, fun t ht => (LowersAssign.of_lowerAssignment hlower).assigns ht⟩
    | expression cx e =>
      obtain ⟨w, m, hlower, hpure⟩ := bind_ok h
      obtain ⟨rfl, rfl⟩ := pure_ok hpure
      exact ⟨w, rfl, (Lowers.of_lower hlower).uses⟩
  · obtain ⟨m, w, m', hlower, hinfix⟩ := Task.within_of_evaluated h c hc
    exact (hd.within hlower).mono hinfix

namespace Sample

/-- A property is written by a template that has the value twice. -/
def twice : Context :=
  { context .reference with
    metadata := { metadata .reference with
      property _ := .accessors (.inline "get({this})") (.inline "set({value}, {value})") } }

/-- `this.P = F()`, for its value. -/
def twiceTask : Task :=
  .assignment twice .used ⟨property "P", .assign, call "F" []⟩ {}

end Sample

open Sample in
/-- The call is made once, for a temporary, which the template has twice. -/
theorem Task.usesOperands_twice :
    ∃ out, twiceTask.lower 0 = .ok out 1 ∧
      out.statements = [.declare (twice.temp 1) (.callMethod .this "F" []),
        .expr (.verbatim "set($tmp1, $tmp1)")] ∧
      (∃ w, out = .ofLowered .used w ∧ twiceTask.expr.UsesOperands twice .used w) ∧
      ∀ c ∈ twiceTask.expr.evaluated twice, ∀ d, c.Evaluates twice d →
        LowersWithin twice d out.statements ∧
          ∀ m w m', d.lower twice m = .ok w m' → d.UsesOperands twice .used w := by
  have hlower : twiceTask.lower 0 = .ok
      ⟨[.declare (twice.temp 1) (.callMethod .this "F" []),
        .expr (.verbatim "set($tmp1, $tmp1)")], some (.ident (twice.temp 1))⟩ 1 := by rfl
  exact ⟨_, hlower, rfl, Task.usesOperands hlower⟩

end AssignmentLowering
