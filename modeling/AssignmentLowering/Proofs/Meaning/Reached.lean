import AssignmentLowering.Proofs.Lowering.Numbering
import AssignmentLowering.Proofs.Meaning.Targets

/-!
# A target and then a value

The operands of a target and then a value are lowered one after the other. If the value
has effects, the operands have their values for good before its statements run. If not,
it has no statements, and the operands may keep their effects in place. There is one
exception: a value that is used twice is put into a temporary even if it has no effects,
and so ahead of the effects that an operand has kept in place.

## Main definitions

* `Target.Shared`, `Target.Placed` — what is known about a target that is read or assigned.
* `Target.Yields` — a value that is used twice takes its turn all the same.
* `Reached` — a target found, and then a value.

## Main statements

* `Addressed.reached` — operands of a target and then a value keep their meaning.
-/

namespace AssignmentLowering

open Script (Stmt)

variable {I : Interpretation} {cx : Context} {byRef : String → Bool}

/-! ## Values that are shared -/

/-- A target whose parts are all handed over as they are, by accessors that have a name. -/
structure Target.Shared {ε : Type} (md : Metadata) (t : Target ε) : Prop where
  ty : (md.semantics t.ty).tag? = none
  args : ∀ a ∈ t.args, (md.semantics a.ty).tag? = none
  getter : t.getterIsInline = false
  setter : t.setterIsInline = false

theorem Addressed.passed_of_shared {reuse : Bool} {rest : List Expr} {t : Target Expr} {n n' : Nat}
    {a : LoweredAddress} {stmts : List Stmt} (ht : t.Shared cx.metadata)
    (h : Addressed cx reuse rest t n a stmts n') (accessor : Option Accessor) (uses : Nat) :
    a.passed cx accessor uses = a.address := by
  have hargs : ∀ v ∈ a.args, cx.copied v.ty v.fresh uses v.expr = v.expr := by
    intro v hv
    have hmem : v.ty ∈ t.args.map (·.ty) := h.map_ty ▸ List.mem_map_of_mem hv
    obtain ⟨arg, harg, hty⟩ := List.mem_map.1 hmem
    exact cx.copied_of_shared (hty ▸ ht.args arg harg) ..
  unfold LoweredAddress.passed LoweredAddress.address
  split
  · rw [List.map_congr_left hargs]
  · rfl

/-! ## Targets -/

/-- What is known about a target when it is read or assigned. -/
structure Target.Placed (cx : Context) (I : Interpretation) (byRef : String → Bool)
    (t : Target Expr) : Prop extends t.Simulates cx I byRef where
  shared : t.Shared cx.metadata
  avoids : t.AvoidsTemps cx
  isReceiver : t.isReceiver = false
  localVar : ∀ name, t.kind = .localVar name →
    cx.IsLocal name ∧ byRef name = false ∧ t.isNative = true
  cell : ∀ name, t.kind = .cell name →
    cx.IsLocal name ∧ byRef name = true ∧ t.isNative = true

/-- A variable that is a target is one of the program, and no temporary. -/
theorem Target.Placed.isLocal {t : Target Expr} (ht : t.Placed cx I byRef) {name : String}
    (h : t.kind = .localVar name ∨ t.kind = .cell name) : cx.IsLocal name :=
  h.elim (fun h => (ht.localVar name h).1) fun h => (ht.cell name h).1

/-- The current object cannot be assigned where values of its type are shared. -/
theorem Target.isReceiver_of_reference {ε : Type} {md : Metadata} {enclosing : EnclosingMember}
    {typeOf : ε → TypeRef} {span : Span} {p : Place ε} {t : Target ε}
    (h : md.semantics enclosing.ty = .reference)
    (ht : Target.ofPlace md enclosing typeOf span p = .ok t) : t.isReceiver = false := by
  cases Classified.of_ofPlace ht with
  | this => simp [Target.ofPlace, Target.ofThis, h] at ht
  | @localVar l => cases l.byRef <;> simp [Target.plain, Target.isReceiver]
  | @field r | @property r | @resolved r | @candidates r =>
    cases r <;> simp [Target.plain, Target.through, Receiver.isStatic, Target.isReceiver]
  | _ => rfl

theorem Target.Placed.of_ofPlace {p : Place Expr} {span : Span} {t : Target Expr}
    (henclosing : cx.metadata.semantics cx.enclosing.ty = .reference)
    (ht : Target.ofPlace cx.metadata cx.enclosing Expr.ty span p = .ok t)
    (hkeeps : (⟨.place p, span⟩ : Expr).keepsOrder cx.metadata = true)
    (havoids : (⟨.place p, span⟩ : Expr).avoidsTemps cx)
    (hbyRef : ∀ l, p = .localVar l → l.byRef = byRef l.name) (hshared : t.Shared cx.metadata)
    (hparts : ∀ e ∈ p.operands ++ p.defaults, AssignmentLowering.Simulates cx I byRef e) :
    t.Placed cx I byRef := by
  have horder := Target.InOrder.of_ofPlace ht hkeeps fun e he => (hparts e he).order
  have havoidsTarget : t.AvoidsTemps cx :=
    .of_ofPlace ht havoids fun e he => (hparts e he).confined
  have hvariable : ∀ name, t.kind = .localVar name ∨ t.kind = .cell name →
      ∃ l, p = .localVar l ∧ l.name = name :=
    fun _ hname => (Classified.of_ofPlace ht).exists_localVar hname
  refine
    { wellFormed := horder.wellFormed, arranges := horder.arranges, room := horder.room
      operands := fun e he => hparts e (List.mem_append_left _ (Target.operands_ofPlace ht ▸ he))
      omitted := fun e he => ?_, shared := hshared, avoids := havoidsTarget
      isReceiver := Target.isReceiver_of_reference henclosing ht
      localVar := fun name hname => ?_, cell := fun name hname => ?_ }
  · simp only [Expr.keepsOrder, Bool.and_eq_true, List.all_eq_true] at hkeeps
    exact hkeeps.1 _ (Target.mem_defaults_of_mem_omitted ht he)
  · obtain ⟨l, rfl, rfl⟩ := hvariable name (.inl hname)
    cases ht
    cases hl : l.byRef with
    | false => exact ⟨havoids l rfl, hbyRef l rfl ▸ hl, by simp [Target.plain, Target.isNative]⟩
    | true => simp [Target.plain, hl] at hname
  · obtain ⟨l, rfl, rfl⟩ := hvariable name (.inr hname)
    cases ht
    cases hl : l.byRef with
    | true => exact ⟨havoids l rfl, hbyRef l rfl ▸ hl, by simp [Target.plain, Target.isNative]⟩
    | false => simp [Target.plain, hl] at hname

/-! ## A target and then a value -/

/-- Whether a value that is used twice still takes its turn behind the operands of a target: it
needs no temporary if it can be evaluated again, the operands have kept nothing in place
if it has effects, or they have nothing to keep. -/
def Target.Yields (cx : Context) (t : Target Expr) (value : Expr) : Prop :=
  value.hasEffects cx.metadata = true ∨
    (∀ {n n' : Nat} {w : Lowered}, value.lower cx n = .ok w n' → w.expr.isReusable = true) ∨
    ∀ {n n' : Nat} {a : LoweredAddress} {stmts : List Stmt},
      Addressed cx false [value] t n a stmts n' → a.address.events cx.names = []

/-- A target found, and then a value. The source is at `u`, at `u₁` when the target is found,
and at `u₂` in the end; the script is at `s`, at `s₁` when the statements have run, at
`s₂` when the target is found, and at `s₃` in the end. -/
structure Reached (cx : Context) (I : Interpretation) (byRef : String → Bool) (t : Target Expr)
    (value : Expr) (c : Capture) (n : Nat) (a : LoweredAddress) (v : Value)
    (stmts stmts' : List Stmt) (n' : Nat) (s u : State I) (l : Location I) (x : I.Value)
    (u₁ u₂ s₁ s₂ s₃ : State I) : Prop where
  locate : t.locate (Expr.eval cx I) u = some (l, u₁)
  source : value.eval cx I u₁ = some (x, u₂)
  run : Script.run I cx.names (stmts ++ stmts') s = some s₁
  finds : a.address.Finds cx.names l s₁ s₂
  expr : v.expr.eval I cx.names s₂ = some (x, s₃)
  agree : s₃.Agree cx.IsLocal u₂
  keeps_run : Keeps cx byRef n (t.operands ++ [value]) s s₁
  keeps_finds : ∀ m, Keeps cx byRef m t.operands s₁ s₂
  keeps_expr : ∀ m, Keeps cx byRef m [value] s₂ s₃
  /-- The value has changed nothing yet if its statements have not. -/
  old : Script.events cx.names stmts' = [] → s₂.Agree cx.IsLocal u₁
  hold : c.reuse = true → ∀ s', Keeps cx byRef n' [] s₂ s' →
    v.expr.eval I cx.names s' = some (x, s')
  stable : v.stable = true → ∀ s' : State I,
    (∀ k, k ≤ n' → s'.vars (cx.temp k) = s₁.vars (cx.temp k)) →
      v.expr.eval I cx.names s' = some (x, s')

section

variable {c : Capture} {o : Expr} {n n' n'' : Nat} {v : Value} {stmts stmts' : List Stmt}
  {s s' u : State I}

/-- Statements without events change no variable of the program. -/
theorem Numbered.agree_of_quiet (h : Numbered cx n stmts n')
    (hquiet : Script.events cx.names stmts = [])
    (hrun : Script.run I cx.names stmts s = some s') : s'.Agree cx.IsLocal s := by
  obtain ⟨hheap, hvars⟩ := Script.run_quiet hquiet hrun
  refine ⟨hheap, fun y hy => hvars y fun e he => ?_⟩
  have hdeclared : y ∈ Script.declared stmts := List.mem_filterMap.2 ⟨_, he, rfl⟩
  obtain ⟨k, hk, -⟩ := h.exists_temp hdeclared
  exact hy k hk

/-- A last operand without effects has statements only if it is captured to be used again. -/
theorem Taken.cases_of_quiet (ho : Simulates cx I byRef o) (h : Taken cx c [] o n v stmts n')
    (hquiet : o.hasEffects cx.metadata = false) (hc : c.reordered = false) :
    (stmts = [] ∧ n' = n) ∨
      ∃ w : Lowered, o.lower cx n = .ok w n ∧ w.expr.isReusable = false ∧ c.reuse = true ∧
        stmts = [.declare (cx.temp (n + 1)) w.expr] ∧ w.expr.events cx.names = [] := by
  cases h with
  | @intro w m _ _ _ hlower hheld =>
    obtain ⟨hstmts, rfl⟩ := ho.quiet hquiet hlower
    have hevents := ho.order.quiet hquiet ▸ ho.order.follows hlower
    rw [Follows.nil_iff, List.append_eq_nil_iff] at hevents
    cases hcapture : o.mustCapture cx c [] w.toValue with
    | false =>
      rw [hcapture] at hheld
      cases hheld
      exact .inl ⟨by simp [hstmts], rfl⟩
    | true =>
      rw [hcapture] at hheld
      cases hheld
      simp only [Expr.mustCapture, List.any_nil, hc, Bool.false_and, Bool.or_self, Bool.and_false,
        Bool.false_or, Bool.and_eq_true, Bool.not_eq_true'] at hcapture
      exact .inr ⟨w, hlower, hcapture.2, hcapture.1, by simp [hstmts], hevents.2⟩

theorem Located.eq_of_settled {rest : List Expr} {reuse : Bool} {t : Target Expr}
    {a : LoweredAddress} {l : Location I} {u' s₁ s₂ : State I}
    (h : Located cx I byRef rest reuse t n a stmts n' s u l u' s₁ s₂)
    (hneeded : reuse = true ∨ rest.any (·.hasEffects cx.metadata) = true) : s₂ = s₁ := by
  have hboth := (h.settled hneeded s₁ (.refl s₁)).values.symm.trans h.finds.values
  simp only [Option.some.injEq, Prod.mk.injEq, true_and] at hboth
  exact hboth.symm

/-- Operands without events are found without changing anything. -/
theorem Address.Finds.eq_of_quiet {a : Address} {l : Location I} (h : a.Finds cx.names l s s')
    (hquiet : a.events cx.names = []) : s' = s := by
  refine Script.Expr.evalAll_quiet _ ?_ h.values
  rw [Script.Expr.allEvents_eq, ← hquiet, Address.events_eq]

/-- A temporary that operands do not mention does not matter to them. -/
theorem Address.Finds.set {a : Address} {l : Location I} (h : a.Finds cx.names l s s')
    {y : String} (hy : a.mentions y = 0) (w : I.Value) :
    a.Finds cx.names l (s.set y w) (s'.set y w) := by
  refine ⟨Script.Expr.evalAll_set y w _ ?_ h.values, h.object⟩
  rw [Script.Expr.allMentions_eq, ← hy, Address.mentions_eq, Script.mentionsAll]

section

variable {reuse : Bool} {t : Target Expr} {a : LoweredAddress} {l : Location I}
  {u₁ s₁ s₂ : State I}

/-- A value with effects comes when the operands have their values for good. -/
theorem Located.reached_of_effects
    (hloc : Located cx I byRef [o] reuse t n a stmts n' s u l u₁ s₁ s₂)
    (ho : Simulates cx I byRef o) (hn : n ≤ n') (htaken : Taken cx c [] o n' v stmts' n'')
    (heffects : o.hasEffects cx.metadata = true) :
    ∃ x u₂ sv s₃, Reached cx I byRef t o c n a v stmts stmts' n'' s u l x u₁ u₂ sv sv s₃ := by
  have hneeded : reuse = true ∨ [o].any (·.hasEffects cx.metadata) = true :=
    .inr (by simp [heffects])
  obtain rfl := hloc.eq_of_settled hneeded
  obtain ⟨x, u₂, sv, s₃, hv, hhold⟩ := htaken.simulated ho hloc.agree
  have hnumbered := (htaken.confined ho.confined).numbered
  exact ⟨x, u₂, sv, s₃,
    { locate := hloc.source, source := hv.source
      run := (Script.run_append hloc.run).trans hv.run
      finds := hloc.settled hneeded sv hv.keeps_run, expr := hv.expr, agree := hv.agree
      keeps_run := (hloc.keeps_run.of_subset le_rfl (List.subset_append_left ..)).trans
        (hv.keeps_run.of_subset hn (List.subset_append_right ..))
      keeps_finds := fun _ => .refl sv, keeps_expr := hv.keeps_expr
      old := fun hquiet => (hnumbered.agree_of_quiet hquiet hv.run).trans hloc.agree
      hold := fun hr => hhold (.inl hr), stable := hv.stable }⟩

/-- A value that stands in place comes behind the operands. -/
theorem Located.reached_of_inline
    (hloc : Located cx I byRef [o] reuse t n a stmts n' s u l u₁ s₁ s₂)
    (ho : Simulates cx I byRef o) (htaken : Taken cx c [] o n' v [] n') :
    ∃ x u₂ s₃, Reached cx I byRef t o c n a v stmts [] n' s u l x u₁ u₂ s₁ s₂ s₃ := by
  obtain ⟨x, u₂, sv, s₃, hv, hhold⟩ := htaken.simulated ho hloc.agree
  cases hv.run
  refine ⟨x, u₂, s₃,
    { locate := hloc.source, source := hv.source, run := by simpa using hloc.run
      finds := hloc.finds, expr := hv.expr, agree := hv.agree
      keeps_run := hloc.keeps_run.of_subset le_rfl (List.subset_append_left ..)
      keeps_finds := hloc.keeps_expr, keeps_expr := hv.keeps_expr
      old := fun _ => hloc.agree, hold := fun hr => hhold (.inl hr)
      stable := fun hstable s' hs' => hv.stable hstable s' fun k hk => ?_ }⟩
  rw [hs' k hk, ((hloc.keeps_expr k).temps k le_rfl)]

/-- A value without effects may be put into a temporary if the operands have kept nothing in
place. -/
theorem Located.reached_of_captured {w : Lowered}
    (hloc : Located cx I byRef [o] reuse t n a stmts n' s u l u₁ s₁ s₂)
    (ho : Simulates cx I byRef o) (hn : n ≤ n')
    (htaken : Taken cx c [] o n' v [.declare (cx.temp (n' + 1)) w.expr] n'')
    (hevents : w.expr.events cx.names = []) (hquiet : a.address.events cx.names = [])
    (hmentions : a.address.mentions (cx.temp (n' + 1)) = 0) :
    ∃ x u₂ sv s₃, Reached cx I byRef t o c n a v stmts [.declare (cx.temp (n' + 1)) w.expr] n''
      s u l x u₁ u₂ sv sv s₃ := by
  obtain rfl := hloc.finds.eq_of_quiet hquiet
  obtain ⟨x, u₂, sv, s₃, hv, hhold⟩ := htaken.simulated ho hloc.agree
  have hrun := hv.run
  simp only [Script.run, Option.bind_eq_bind, Option.bind_eq_some_iff, Option.some.injEq]
    at hrun
  obtain ⟨⟨y, sw⟩, heval, rfl⟩ := hrun
  obtain rfl := Script.Expr.eval_quiet _ hevents heval
  exact ⟨x, u₂, _, s₃,
    { locate := hloc.source, source := hv.source
      run := (Script.run_append hloc.run).trans hv.run
      finds := hloc.finds.set hmentions y, expr := hv.expr, agree := hv.agree
      keeps_run := (hloc.keeps_run.of_subset le_rfl (List.subset_append_left ..)).set
        (by omega) y
      keeps_finds := fun _ => .refl _, keeps_expr := hv.keeps_expr
      old := fun _ => hloc.agree.set_left (fun hlocal => hlocal _ rfl) y
      hold := fun hr => hhold (.inl hr), stable := hv.stable }⟩

/-- The operands of a target and then a value, lowered, find the location and then come to the
value. A value that is used again must not be put into a temporary ahead of its turn. -/
theorem Addressed.reached (ht : t.Placed cx I byRef) (ho : Simulates cx I byRef o)
    (haddr : Addressed cx reuse [o] t n a stmts n') (htaken : Taken cx c [] o n' v stmts' n'')
    (hc : c.reordered = false)
    (hturn : c.reuse = true → o.hasEffects cx.metadata = true ∨
      (∀ {n n' : Nat} {w : Lowered}, o.lower cx n = .ok w n' → w.expr.isReusable = true) ∨
      a.address.events cx.names = [])
    (hagree : s.Agree cx.IsLocal u) :
    ∃ l x u₁ u₂ s₁ s₂ s₃,
      Reached cx I byRef t o c n a v stmts stmts' n'' s u l x u₁ u₂ s₁ s₂ s₃ := by
  obtain ⟨l, u₁, s₁, s₂, hloc⟩ := haddr.located ht.toSimulates hagree
  have hconfined := haddr.confined ht.avoids
  cases heffects : o.hasEffects cx.metadata with
  | true =>
    obtain ⟨x, u₂, sv, s₃, hr⟩ := hloc.reached_of_effects ho hconfined.le htaken heffects
    exact ⟨l, x, u₁, u₂, sv, sv, s₃, hr⟩
  | false =>
    obtain ⟨rfl, rfl⟩ | ⟨w, hlower, hreusable, hreuse, rfl, hevents⟩ :=
      htaken.cases_of_quiet ho heffects hc
    · obtain ⟨x, u₂, s₃, hr⟩ := hloc.reached_of_inline ho htaken
      exact ⟨l, x, u₁, u₂, s₁, s₂, s₃, hr⟩
    · have hquiet : a.address.events cx.names = [] := by
        obtain h | h | h := hturn hreuse
        · simp [heffects] at h
        · simp [h hlower] at hreusable
        · exact h
      have hmentions : a.address.mentions (cx.temp (n' + 1)) = 0 := by
        rw [Address.mentions_eq]
        exact hconfined.exprs _ (by omega)
      obtain ⟨x, u₂, sv, s₃, hr⟩ :=
        hloc.reached_of_captured ho hconfined.le htaken hevents hquiet hmentions
      exact ⟨l, x, u₁, u₂, sv, sv, s₃, hr⟩

end

end

end AssignmentLowering
