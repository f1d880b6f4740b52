import AssignmentLowering.Proofs.Effects.Access
import AssignmentLowering.Proofs.Lowering.Sample

/-!
# Effects happen once and in source order

What is emitted for an assignment comes to the events of the assignment, each once and
in the order of the source. The reason is the same in every form: of operands that are
lowered one after the other, only the last one with effects may keep its effects in
place; all before it are left without events. So the operands may be put in any order,
used again where they were made reusable, and placed behind the statements of those
that follow.

An operator that may skip its right operand counts as evaluating it. A default of a
parameter must be constant, since it is evaluated behind all written arguments; and an
indexer must not be bound to a field, which has no place for arguments.

## Main definitions

* `Expr.keepsOrder` — the two conditions, for one expression.
* `Follows` — events in script that are those of source, in their order.
* `InOrder` — an expression whose lowering is in order.

## Main statements

* `lowerAssignment_follows` — what is emitted has the events of the source.
-/

namespace AssignmentLowering

open Script (Stmt)

/-- Whether an expression is a literal or a default value. -/
def Expr.isConstant (e : Expr) : Bool :=
  match e.form with
  | .literal .. | .defaultValue _ => true
  | _ => false

/-- Whether the arguments of an indexer are evaluated in the order of the text, with
constants for those left out, and all of them handed on. -/
def Expr.keepsOrder (md : Metadata) (e : Expr) : Bool :=
  match e.form with
  | .place p => p.defaults.all Expr.isConstant && !p.isFieldIndexer md
  | _ => true

/-- The events in script are those of source, in their order. -/
def Follows (source : List (Event TypeRef)) (script : List (Event Script.Expr)) : Prop :=
  List.Forall₂ (Event.Renders fun _ _ => True) source script

namespace Follows

variable {source source' : List (Event TypeRef)} {script script' : List (Event Script.Expr)}

theorem append (h : Follows source script) (h' : Follows source' script') :
    Follows (source ++ source') (script ++ script') := List.rel_append h h'

@[simp] theorem nil_iff : Follows [] script ↔ script = [] := by
  unfold Follows
  exact List.forall₂_nil_left_iff

end Follows

theorem forall₂_true {α β : Type} :
    ∀ {l : List α} {l' : List β}, l'.length = l.length → List.Forall₂ (fun _ _ => True) l l'
  | [], [], _ => .nil
  | _ :: _, _ :: _, h => .cons trivial (forall₂_true (by simpa using h))

/-- Lists with at most one part that is not empty may be joined in any order. -/
theorem flatMap_eq_of_perm {α β : Type} {f : α → List β} {l l' : List α} (h : l.Perm l')
    (hl : l.Pairwise fun a b => f a = [] ∨ f b = []) : l.flatMap f = l'.flatMap f := by
  induction h with
  | nil => rfl
  | cons a _ ih => rw [List.flatMap_cons, List.flatMap_cons, ih (List.pairwise_cons.1 hl).2]
  | swap a b l =>
    obtain h | h := (List.pairwise_cons.1 hl).1 a List.mem_cons_self <;> simp [h]
  | trans h₁ _ ih₁ ih₂ => exact (ih₁ hl).trans (ih₂ (h₁.pairwise hl fun h => h.symm))

variable {cx : Context}

/-- An expression whose lowering comes to its events, with the marks that lowering puts
on values telling the truth. -/
structure InOrder (cx : Context) (e : Expr) : Prop where
  quiet : e.hasEffects cx.metadata = false → e.events cx = []
  follows : ∀ {n n' : Nat} {w : Lowered}, e.lower cx n = .ok w n' →
    Follows (e.events cx) (Script.events cx.names w.stmts ++ w.expr.events cx.names)
  stable : ∀ {n n' : Nat} {w : Lowered}, e.lower cx n = .ok w n' → w.stable = true →
    w.expr.events cx.names = []

/-! ## Operands one after the other -/

theorem Expr.events_of_isConstant {e : Expr} (h : e.isConstant = true) : e.events cx = [] := by
  obtain ⟨form, span⟩ := e
  cases form <;> simp [Expr.isConstant] at h <;> simp

/-- What has the same value at any time has no events. -/
theorem Expr.events_of_isInvariant {later : List Expr} {e : Expr}
    (h : e.isInvariant later = true) : e.events cx = [] := by
  obtain ⟨form, span⟩ := e
  cases form with
  | literal | defaultValue => simp
  | place p =>
    cases p with
    | this => simp
    | localVar l =>
      rw [Expr.events_load (t := Target.plain _ l.ty span) (fun ty hty => by cases hty) rfl]
      cases hl : l.byRef <;>
        simp [Target.plain, Target.operands, Target.callSite, Target.omitted, omittedOf,
          Target.readEvents, Target.getter?, Storage.getter?]
    | _ => simp [Expr.isInvariant] at h
  | _ => simp [Expr.isInvariant] at h

section

variable {c : Capture} {later rest : List Expr} {o : Expr} {n n' : Nat} {v : Value}
  {stmts : List Stmt}

theorem Taken.follows (ho : InOrder cx o) (h : Taken cx c later o n v stmts n') :
    Follows (o.events cx) (Script.events cx.names stmts ++ v.expr.events cx.names) := by
  cases h with
  | intro hlower hheld =>
    have hfollows := ho.follows hlower
    generalize Expr.mustCapture _ _ _ _ _ = captured at hheld
    cases hheld with
    | inline => simpa using hfollows
    | captured => simpa [Script.Expr.events] using hfollows

/-- An operand keeps no event in place if it is stable, used again, or followed by
operands with effects. -/
theorem Taken.quiet (ho : InOrder cx o) (h : Taken cx c later o n v stmts n')
    (hquiet : v.stable = true ∨ c.reuse = true ∨
      later.any (·.hasEffects cx.metadata) = true) : v.expr.events cx.names = [] := by
  cases h with
  | @intro w _ _ _ _ hlower hheld =>
    have hstable := ho.stable hlower
    have hfollows := ho.follows hlower
    cases hc : o.mustCapture cx c later w.toValue with
    | true =>
      rw [hc] at hheld
      cases hheld
      rfl
    | false =>
      rw [hc] at hheld hquiet
      cases hheld
      rw [Bool.or_false] at hquiet
      unfold Expr.mustCapture at hc
      rw [Bool.or_eq_false_iff] at hc
      obtain hs | hr | hl := hquiet
      · exact hstable hs
      · exact Script.Expr.events_of_isReusable _ (by simpa [hr] using hc.2)
      · cases hs : w.stable with
        | true => exact hstable hs
        | false =>
          have hinv : o.isInvariant later = true ∧ c.reordered = false := by
            simpa [hs, hl] using hc.1
          rw [Expr.events_of_isInvariant hinv.1, Follows.nil_iff] at hfollows
          exact (List.append_eq_nil_iff.1 hfollows).2

end

section

variable {rest : List Expr} {items : List (Capture × Expr)} {n n' : Nat} {vs : List Value}
  {stmts : List Stmt}

theorem events_eq_nil_of_any {es : List Expr} (hes : ∀ e ∈ es, InOrder cx e)
    (h : ¬es.any (·.hasEffects cx.metadata) = true) : es.flatMap (Expr.events cx) = [] := by
  rw [List.flatMap_eq_nil_iff]
  intro e he
  refine (hes e he).quiet ?_
  simp only [List.any_eq_true, not_exists, not_and, Bool.not_eq_true] at h
  exact h e he

/-- Operands come to their events in their order: those of the statements first, and then
those that are left in the values. -/
theorem TakenAll.follows (h : TakenAll cx rest items n vs stmts n')
    (hitems : ∀ e ∈ items.map (·.2), InOrder cx e) :
    Follows ((items.map (·.2)).flatMap (Expr.events cx))
      (Script.events cx.names stmts ++ vs.flatMap (·.expr.events cx.names)) := by
  induction h with
  | nil => exact .nil
  | @cons c o items _ _ _ v vs stmts stmts' hhead htail ih =>
    have hrest : ∀ e ∈ items.map (·.2), InOrder cx e :=
      fun e he => hitems e (List.mem_cons_of_mem _ he)
    have ho := hitems o List.mem_cons_self
    have hfirst := hhead.follows ho
    have hlast := ih hrest
    simp only [List.map_cons, List.flatMap_cons, Script.events_append]
    by_cases hl : (items.map (·.2)).any (·.hasEffects cx.metadata) = true
    · -- The head has moved its events into its statements.
      have hv := hhead.quiet ho (.inr (.inr (by simp [hl])))
      rw [hv, List.append_nil] at hfirst
      rw [hv, List.nil_append, List.append_assoc]
      exact hfirst.append hlast
    · -- Nothing that follows has events.
      rw [events_eq_nil_of_any hrest hl] at hlast ⊢
      obtain ⟨hstmts, hvs⟩ := List.append_eq_nil_iff.1 (Follows.nil_iff.1 hlast)
      simpa [hstmts, hvs] using hfirst

/-- Before an operand with effects nothing keeps its events in place. -/
theorem TakenAll.quiet_of_rest (h : TakenAll cx rest items n vs stmts n')
    (hitems : ∀ e ∈ items.map (·.2), InOrder cx e)
    (hrest : rest.any (·.hasEffects cx.metadata) = true) :
    ∀ v ∈ vs, v.expr.events cx.names = [] := by
  induction h with
  | nil => simp
  | cons hhead htail ih =>
    intro v hv
    obtain rfl | hv := List.mem_cons.1 hv
    · refine hhead.quiet (hitems _ List.mem_cons_self) (.inr (.inr ?_))
      rw [List.any_append, hrest, Bool.or_true]
    · exact ih (fun e he => hitems e (List.mem_cons_of_mem _ he)) v hv

/-- At most one of the values keeps events in place. -/
theorem TakenAll.pairwise (h : TakenAll cx rest items n vs stmts n')
    (hitems : ∀ e ∈ items.map (·.2), InOrder cx e) :
    vs.Pairwise fun v v' => v.expr.events cx.names = [] ∨ v'.expr.events cx.names = [] := by
  induction h with
  | nil => exact .nil
  | @cons c o items _ _ _ v vs stmts stmts' hhead htail ih =>
    have hrest : ∀ e ∈ items.map (·.2), InOrder cx e :=
      fun e he => hitems e (List.mem_cons_of_mem _ he)
    refine List.pairwise_cons.2 ⟨fun v' hv' => ?_, ih hrest⟩
    by_cases hl : (items.map (·.2)).any (·.hasEffects cx.metadata) = true
    · exact .inl (hhead.quiet (hitems o List.mem_cons_self) (.inr (.inr (by simp [hl]))))
    · have hlast := htail.follows hrest
      rw [events_eq_nil_of_any hrest hl, Follows.nil_iff] at hlast
      exact .inr (List.flatMap_eq_nil_iff.1 (List.append_eq_nil_iff.1 hlast).2 v' hv')

end

/-! ## Targets -/

section

variable {reuse : Bool} {rest : List Expr} {t : Target Expr} {n n' : Nat} {a : LoweredAddress}
  {stmts : List Stmt}

/-- Constants that stand in for arguments left out have no events. -/
theorem Asides.quiet {os : List Expr} {ds : List Value} (h : Asides cx reuse os n ds stmts n')
    (hos : ∀ e ∈ os, InOrder cx e ∧ e.events cx = []) :
    Script.events cx.names stmts = [] ∧ ∀ v ∈ ds, v.expr.events cx.names = [] := by
  induction h with
  | nil => simp
  | cons hhead _ ih =>
    obtain ⟨horder, hevents⟩ := hos _ List.mem_cons_self
    obtain ⟨hstmts, hds⟩ := ih fun e he => hos e (List.mem_cons_of_mem _ he)
    have hfollows := hhead.follows horder
    rw [hevents, Follows.nil_iff, List.append_eq_nil_iff] at hfollows
    refine ⟨by simp [hfollows.1, hstmts], fun v hv => ?_⟩
    obtain rfl | hv := List.mem_cons.1 hv
    · exact hfollows.2
    · exact hds v hv

/-- What is known about the operands of a target when it is lowered. -/
structure Target.InOrder (cx : Context) (t : Target Expr) : Prop where
  wellFormed : t.WellFormed
  arranges : ∃ indices, Arranges t.args indices
  room : t.HasRoom
  operands : ∀ e ∈ t.operands, AssignmentLowering.InOrder cx e
  omitted : ∀ e ∈ t.omitted, AssignmentLowering.InOrder cx e ∧ e.events cx = []

theorem Target.InOrder.omitted_eq_nil (ht : t.InOrder cx) :
    t.omitted.flatMap (Expr.events cx) = [] :=
  List.flatMap_eq_nil_iff.2 fun e he => (ht.omitted e he).2

/-- The operands of a target come to their events, wherever they end up. -/
theorem Addressed.follows (ht : t.InOrder cx) (h : Addressed cx reuse rest t n a stmts n') :
    Follows (t.operands.flatMap (Expr.events cx))
      (Script.events cx.names stmts ++ a.address.events cx.names) := by
  obtain ⟨indices, harr⟩ := ht.arranges
  obtain ⟨vs, ds, stmts₁, stmts₂, m, htaken, hasides, rfl, hperm, -⟩ := h.split harr
  have hitems : ∀ e ∈ (t.captures cx.metadata reuse).map (·.2),
      AssignmentLowering.InOrder cx e := by
    simpa using ht.operands
  obtain ⟨hstmts, hds⟩ := hasides.quiet ht.omitted
  have hpair : (vs.map (·.expr) ++ ds.map (·.expr)).Pairwise fun e e' =>
      e.events cx.names = [] ∨ e'.events cx.names = [] := by
    rw [List.pairwise_append]
    refine ⟨List.pairwise_map.2 (htaken.pairwise hitems), ?_, ?_⟩
    · exact List.pairwise_map.2 (List.pairwise_of_forall_mem_list fun v hv _ _ => .inl (hds v hv))
    · intro e _ e' he'
      obtain ⟨d, hd, rfl⟩ := List.mem_map.1 he'
      exact .inr (hds d hd)
  have hdefaults : (ds.map (·.expr)).flatMap (Script.Expr.events cx.names) = [] := by
    rw [List.flatMap_map, List.flatMap_eq_nil_iff]
    exact hds
  rw [Address.events_eq, ← flatMap_eq_of_perm hperm.symm hpair, List.flatMap_append, hdefaults,
    List.append_nil, List.flatMap_map, Script.events_append, hstmts, List.append_nil]
  simpa using htaken.follows hitems

/-- The operands keep no events in place if they are used again, or if something with
effects follows. -/
theorem Addressed.quiet (ht : t.InOrder cx) (h : Addressed cx reuse rest t n a stmts n')
    (hquiet : reuse = true ∨ rest.any (·.hasEffects cx.metadata) = true) :
    a.address.events cx.names = [] := by
  obtain ⟨indices, harr⟩ := ht.arranges
  obtain ⟨vs, ds, stmts₁, stmts₂, m, htaken, hasides, rfl, hperm, -⟩ := h.split harr
  have hitems : ∀ e ∈ (t.captures cx.metadata reuse).map (·.2),
      AssignmentLowering.InOrder cx e := by
    simpa using ht.operands
  have hvs : ∀ v ∈ vs, v.expr.events cx.names = [] := by
    obtain hr | hr := hquiet
    · intro v hv
      exact Script.Expr.events_of_isReusable _ (htaken.isReusable
        (fun x hx => (Target.reuse_of_mem_captures hx).trans hr) v hv)
    · exact htaken.quiet_of_rest hitems hr
  rw [Address.events_eq, List.flatMap_eq_nil_iff]
  intro e he
  obtain he | he := List.mem_append.1 (hperm.mem_iff.1 he)
  · obtain ⟨v, hv, rfl⟩ := List.mem_map.1 he
    exact hvs v hv
  · obtain ⟨d, hd, rfl⟩ := List.mem_map.1 he
    exact (hasides.quiet ht.omitted).2 d hd

/-- The operands of a target and then a value come to their events, wherever the operands
end up. -/
theorem Addressed.follows_value {value : Expr} {c : Capture} {v : Value} {stmts' : List Stmt}
    {n'' : Nat} (ht : t.InOrder cx) (hvalue : AssignmentLowering.InOrder cx value)
    (h : Addressed cx reuse [value] t n a stmts n')
    (htaken : Taken cx c [] value n' v stmts' n'') :
    Follows (t.operands.flatMap (Expr.events cx) ++ value.events cx)
      (Script.events cx.names stmts ++ Script.events cx.names stmts' ++
        (a.address.events cx.names ++ v.expr.events cx.names)) := by
  have haddress := h.follows ht
  have hlast := htaken.follows hvalue
  cases hl : value.hasEffects cx.metadata with
  | true =>
    rw [h.quiet ht (.inr (by simp [hl])), List.append_nil] at haddress
    simpa [h.quiet ht (.inr (by simp [hl]))] using haddress.append hlast
  | false =>
    rw [hvalue.quiet hl, Follows.nil_iff] at hlast
    obtain ⟨hstmts, hv⟩ := List.append_eq_nil_iff.1 hlast
    simpa [hstmts, hv, hvalue.quiet hl] using haddress

end

/-! ## Forms -/

/-- A store comes to its events behind the statements before it. -/
theorem Usage.events_finish {usage : Usage} {store : Script.Expr} {result : Value}
    {stmts : List Stmt} (hresult : usage = .used → result.expr.events cx.names = []) :
    Script.events cx.names (usage.finish store result stmts).stmts ++
        (usage.finish store result stmts).expr.events cx.names =
      Script.events cx.names stmts ++ store.events cx.names := by
  cases usage with
  | used => simp [Usage.finish, hresult rfl]
  | discarded => rfl

section

variable {t : Target Expr} {addr : LoweredAddress} {value : Expr} {v : Value}
  {load old store : Script.Expr} {stmts stmts₁ stmts₂ : List Stmt} {n n₁ n₂ n₃ : Nat}

/-- A value is written by a call behind all that its target and its own evaluation do. -/
theorem Addressed.follows_store (hnames : cx.names.Separated) (ht : t.InOrder cx)
    (hvalue : InOrder cx value) {reordered : Bool} {usage : Usage} {uses : Nat}
    (haddr : Addressed cx t.setterIsInline [value] t n addr stmts n₁)
    (htaken : Taken cx ⟨(usage.isUsed && !t.isReceiver) || t.setterIsInline, reordered⟩ [] value
      n₁ v stmts₁ n₂)
    (hstore : t.store cx.names (addr.passed cx t.setter? 1)
      (cx.copied t.ty v.fresh uses v.expr) = .ok store) :
    Follows (t.operands.flatMap (Expr.events cx) ++ value.events cx ++ t.writeEvents cx.names)
      (Script.events cx.names (stmts ++ stmts₁) ++ store.events cx.names) := by
  have hall := haddr.follows_value ht hvalue htaken
  have hfits := haddr.fits_passed t.setter? 1
  obtain ⟨before, evs, hevs, -, hroom, hrenders⟩ := Target.events_store (R := fun _ _ => True)
    hnames ht.wellFormed hfits
    (fun hi => ⟨by rw [addr.events_passed]; exact haddr.quiet ht (.inl hi),
      by simpa using htaken.quiet hvalue (.inr (.inl (by simp [hi])))⟩)
    (fun _ => forall₂_true (by simpa using hfits.args)) trivial hstore
  rw [hevs, hroom ht.room, addr.events_passed]
  simpa using hall.append hrenders

/-- The old value of a target is read by a call before anything that the right operand does. -/
theorem Addressed.follows_combined (hnames : cx.names.Separated) (ht : t.InOrder cx)
    (hvalue : InOrder cx value) (haddr : Addressed cx true [value] t n addr stmts n₁)
    (hload : t.load cx.names (addr.passed cx t.getter? 2) = .ok load)
    (hold : Held cx load n₁ (value.hasEffects cx.metadata) old stmts₁ n₂)
    (htaken : Taken cx {} [] value n₂ v stmts₂ n₃) :
    Follows (t.operands.flatMap (Expr.events cx) ++ (t.readEvents ++ value.events cx))
      (Script.events cx.names (stmts ++ stmts₁ ++ stmts₂) ++
        (old.events cx.names ++ v.expr.events cx.names)) := by
  have hquiet := haddr.quiet ht (.inl rfl)
  have haddress := haddr.follows ht
  rw [hquiet, List.append_nil] at haddress
  have hlast := htaken.follows hvalue
  have hfits := haddr.fits_passed t.getter? 2
  obtain ⟨before, reads, hreads, -, hroom, hrenders⟩ := Target.events_load (R := fun _ _ => True)
    hnames ht.wellFormed hfits (fun _ => by rw [addr.events_passed, hquiet])
    (fun _ => forall₂_true (by simpa using hfits.args)) hload
  rw [hroom ht.room, addr.events_passed, hquiet, List.nil_append] at hreads
  obtain ⟨holdEvents, holdQuiet⟩ := hold.events
  rw [hreads] at holdEvents
  rw [Script.events_append, Script.events_append, List.append_assoc, List.append_assoc]
  refine haddress.append ?_
  cases hl : value.hasEffects cx.metadata with
  | true =>
    rw [holdQuiet hl, List.append_nil] at holdEvents
    rw [holdEvents, holdQuiet hl, List.nil_append]
    exact Follows.append hrenders hlast
  | false =>
    rw [hvalue.quiet hl, Follows.nil_iff] at hlast
    obtain ⟨hstmts, hv⟩ := List.append_eq_nil_iff.1 hlast
    rw [hstmts, hv, List.nil_append, List.append_nil, holdEvents, hvalue.quiet hl,
      List.append_nil]
    exact hrenders

/-- What the operator comes to is written by another call. -/
theorem Addressed.follows_compoundByCall (hnames : cx.names.Separated) (ht : t.InOrder cx)
    (hvalue : InOrder cx value) {op : BinaryOp} {held fresh : Bool} {uses : Nat}
    {new : Script.Expr} {stmts₃ : List Stmt} {n₄ : Nat}
    (haddr : Addressed cx true [value] t n addr stmts n₁)
    (hload : t.load cx.names (addr.passed cx t.getter? 2) = .ok load)
    (hold : Held cx load n₁ (value.hasEffects cx.metadata) old stmts₁ n₂)
    (htaken : Taken cx {} [] value n₂ v stmts₂ n₃)
    (hnew : Held cx (.binary op old v.expr) n₃ (held || t.setterIsInline) new stmts₃ n₄)
    (hstore : t.store cx.names (addr.passed cx t.setter? 2) (cx.copied t.ty fresh uses new) =
      .ok store) :
    Follows (t.operands.flatMap (Expr.events cx) ++ (t.readEvents ++ value.events cx) ++
        t.writeEvents cx.names)
      (Script.events cx.names (stmts ++ stmts₁ ++ stmts₂ ++ stmts₃) ++
        store.events cx.names) := by
  have hquiet := haddr.quiet ht (.inl rfl)
  have hfits := haddr.fits_passed t.setter? 2
  obtain ⟨hnewEvents, hnewQuiet⟩ := hnew.events
  obtain ⟨before, writes, hwrites, -, hroom, hrenders⟩ := Target.events_store
    (R := fun _ _ => True) hnames ht.wellFormed hfits
    (fun hi => ⟨by rw [addr.events_passed, hquiet],
      by simpa using hnewQuiet (by simp [hi])⟩)
    (fun _ => forall₂_true (by simpa using hfits.args)) trivial hstore
  rw [hroom ht.room, addr.events_passed, hquiet, List.nil_append] at hwrites
  simp only [Script.Expr.events] at hnewEvents
  have hcombined := haddr.follows_combined hnames ht hvalue hload hold htaken
  rw [← hnewEvents] at hcombined
  rw [hwrites, Script.events_append]
  simpa using hcombined.append hrenders

end

section

variable {usage : Usage} {a : Assignment Expr} {n n' : Nat} {w : Lowered}

/-- What an assignment is lowered to comes to the events of the assignment. -/
theorem LowersAssign.follows (hnames : cx.names.Separated) (hvalue : InOrder cx a.value)
    (htargets : ∀ t, a.target.target cx.metadata cx.enclosing = .ok t → t.InOrder cx)
    (h : LowersAssign cx usage a n w n') (span : Span) :
    Follows ((⟨.assign a, span⟩ : Expr).events cx)
      (Script.events cx.names w.stmts ++ w.expr.events cx.names) := by
  have hsource : ∀ t, a.target.target cx.metadata cx.enclosing = .ok t →
      (⟨.assign a, span⟩ : Expr).events cx =
        t.operands.flatMap (Expr.events cx) ++
          storeEvents cx.names a.op t (a.value.events cx) := by
    intro t ht
    rw [Expr.events_assign ht, (htargets t ht).omitted_eq_nil, List.append_nil]
  have hone : ∀ {l : Label} {ty : TypeRef} {e : Script.Expr}, l.Renders l →
      Follows [⟨l, [ty]⟩] [⟨l, [e]⟩] := fun hl => .cons ⟨hl, forall₂_true rfl⟩ .nil
  cases h with
  | @native t addr v place stmts stmts' _ _ htarget hop hnative hshared haddr htaken hplace =>
    have ht := htargets t htarget
    have hall := haddr.follows_value ht hvalue htaken
    obtain ⟨-, hroom, hwritten⟩ := Target.events_native ht.wellFormed haddr.fits hplace
    have hevents := hroom ht.room
    rw [hsource t htarget, storeEvents, hop, Target.writeEvents_of_isNative hnative]
    simpa [Script.Expr.events, hevents, hwritten] using
      hall.append (hone (l := .assign (t.written cx.names)) rfl)
  | @readBack t addr v place stmts stmts' _ _ htarget hop hnative hshared haddr htaken hplace =>
    have ht := htargets t htarget
    have hall := haddr.follows_value ht hvalue htaken
    have hquiet := haddr.quiet ht (.inl rfl)
    obtain ⟨-, hroom, hwritten⟩ := Target.events_native ht.wellFormed haddr.fits hplace
    have hevents := hroom ht.room
    rw [hsource t htarget, storeEvents, hop, Target.writeEvents_of_isNative hnative]
    simpa [Script.Expr.events, hevents, hquiet, hwritten] using
      hall.append (hone (l := .assign (t.written cx.names)) rfl)
  | @byCall t addr v store stmts stmts' _ _ htarget hop hnative haddr htaken hstore =>
    have ht := htargets t htarget
    have hresult : usage = .used →
        (if t.isReceiver then (⟨.this, false, true⟩ : Value) else
          ⟨v.expr, false, v.stable⟩).expr.events cx.names = [] := by
      rintro rfl
      cases hr : t.isReceiver with
      | true => rfl
      | false => simpa using htaken.quiet hvalue (.inr (.inl (by simp [hr, Usage.isUsed])))
    rw [hsource t htarget, Usage.events_finish hresult, storeEvents, hop, ← List.append_assoc]
    exact haddr.follows_store hnames ht hvalue htaken hstore
  | @compoundNative t op addr v place stmts stmts' _ _ htarget hop hnative haddr htaken hplace =>
    have ht := htargets t htarget
    have hall := haddr.follows_value ht hvalue htaken
    obtain ⟨-, hroom, hwritten⟩ := Target.events_native ht.wellFormed haddr.fits hplace
    have hevents := hroom ht.room
    have hlast : Follows [⟨.compoundAssign op (t.written cx.names), []⟩]
        [⟨.compoundAssign op (t.written cx.names), []⟩] := .cons ⟨rfl, .nil⟩ .nil
    rw [hsource t htarget, storeEvents, hop]
    simpa [hnative, Script.Expr.events, hevents, hwritten] using hall.append hlast
  | @compoundByCall t _ _ _ _ _ _ _ _ _ _ _ _ _ _ _ htarget hop hnative _ haddr hload hold
      htaken hnew hstore =>
    rw [hsource t htarget, Usage.events_finish fun hu => hnew.events.2 (by simp [hu, Usage.isUsed]),
      storeEvents, hop]
    simp only [hnative, Bool.false_eq_true, if_false]
    rw [← List.append_assoc]
    exact haddr.follows_compoundByCall hnames (htargets t htarget) hvalue hload hold htaken hnew
      hstore

/-- A stable result of an assignment has no events. -/
theorem LowersAssign.quiet_of_stable (hvalue : InOrder cx a.value)
    (h : LowersAssign cx .used a n w n') (hstable : w.stable = true) :
    w.expr.events cx.names = [] := by
  cases h with
  | native | readBack | compoundNative => cases hstable
  | @byCall t _ v _ _ _ _ _ _ _ _ _ htaken _ =>
    cases hr : t.isReceiver with
    | true => rfl
    | false =>
      simpa [Usage.finish, hr] using
        htaken.quiet hvalue (.inr (.inl (by simp [hr, Usage.isUsed])))
  | compoundByCall _ _ _ _ _ _ _ _ hnew _ => exact hnew.events.2 rfl

end

/-- The operands of a target are in order if those of its place are. -/
theorem Target.InOrder.of_ofPlace {p : Place Expr} {span : Span} {t : Target Expr}
    (ht : Target.ofPlace cx.metadata cx.enclosing Expr.ty span p = .ok t)
    (hkeeps : (⟨.place p, span⟩ : Expr).keepsOrder cx.metadata = true)
    (hparts : ∀ e ∈ p.operands ++ p.defaults, AssignmentLowering.InOrder cx e) :
    t.InOrder cx where
  wellFormed := (Classified.of_ofPlace ht).wellFormed
  arranges := ⟨_, (Target.ofPlace_arranges ht).2⟩
  room name hname := by
    simp only [Expr.keepsOrder, Bool.and_eq_true, Bool.not_eq_true'] at hkeeps
    exact (Classified.of_ofPlace ht).args_eq_nil hkeeps.2 hname
  operands e he := hparts e (List.mem_append_left _ (Target.operands_ofPlace ht ▸ he))
  omitted e he := by
    have hmem := Target.mem_defaults_of_mem_omitted ht he
    simp only [Expr.keepsOrder, Bool.and_eq_true, List.all_eq_true] at hkeeps
    exact ⟨hparts _ (List.mem_append_right _ hmem),
      Expr.events_of_isConstant (hkeeps.1 _ hmem)⟩

theorem Target.InOrder.of_assign {a : Assignment Expr} {span : Span} {t : Target Expr}
    (hkeeps : Expr.Everywhere (·.keepsOrder cx.metadata = true) ⟨.assign a, span⟩)
    (hparts : ∀ e ∈ (⟨.assign a, span⟩ : Expr).parts, AssignmentLowering.InOrder cx e)
    (ht : a.target.target cx.metadata cx.enclosing = .ok t) : t.InOrder cx := by
  obtain ⟨p, hp, hplace⟩ := Expr.target_arranges ht
  exact .of_ofPlace hplace (Expr.eq_of_place hp ▸ hkeeps.target.here)
    fun e he => hparts e (Expr.place_mem_parts (Expr.place?_of_place hp) span he)

theorem Expr.quiet_of_parts {e : Expr} (hkeeps : e.keepsOrder cx.metadata = true)
    (hparts : ∀ c ∈ e.parts, InOrder cx c) (h : e.hasEffects cx.metadata = false) :
    e.events cx = [] := by
  rw [Expr.hasEffects_eq] at h
  obtain ⟨form, span⟩ := e
  cases form with
  | literal | defaultValue => simp
  | call | assign => cases h
  | binary op l r ty =>
    simp only [Form.hasEffects, Bool.or_eq_false_iff] at h
    rw [Expr.events_binary,
      (hparts l (by simp [Expr.parts, Form.children, Form.operands])).quiet h.1,
      (hparts r (by simp [Expr.parts, Form.children, Form.operands])).quiet h.2]
    rfl
  | place p =>
    by_cases hthis : ∃ ty, p = .this ty
    · obtain ⟨ty, rfl⟩ := hthis
      simp
    · rw [not_exists] at hthis
      cases ht : Target.ofPlace cx.metadata cx.enclosing Expr.ty span p with
      | error err => exact Expr.events_of_error hthis ht
      | ok t =>
        simp only [Form.hasEffects, Bool.or_eq_false_iff, List.any_eq_false] at h
        have horder := Target.InOrder.of_ofPlace ht hkeeps hparts
        have hread : t.readEvents = [] := by
          unfold Target.readEvents
          rw [(Classified.of_ofPlace ht).getter?_eq_none h.1]
          cases t.kind <;> rfl
        have hoperands : t.operands.flatMap (Expr.events cx) = [] := by
          rw [List.flatMap_eq_nil_iff]
          intro e he
          exact (horder.operands e he).quiet
            (by simpa using h.2 e (Target.operands_ofPlace ht ▸ he))
        rw [Expr.events_load hthis ht, hoperands, horder.omitted_eq_nil, hread]
        rfl

/-- A call of a method that is bound to a name comes to its event. -/
theorem follows_callEvents {r : Receiver Expr} {m : Method} {args : List Expr} {name : String}
    {vs : List Value} (hmethod : cx.metadata.method m = .method name)
    (hlen : vs.length = (argTypes m.params args).length) :
    Follows (callEvents cx.metadata r m args)
      [⟨r.callLabel name, cx.handed (argTypes m.params args) vs⟩] := by
  have hhanded : List.Forall₂ (fun _ _ => True) (argTypes m.params args)
      (cx.handed (argTypes m.params args) vs) := forall₂_true (by simp [Context.handed, hlen])
  unfold callEvents
  rw [hmethod]
  refine .cons ⟨?_, hhanded⟩ .nil
  cases r <;> rfl

/-- A call of a method that is bound to a template comes to the text. -/
theorem follows_callEvents_inline {r : Receiver Expr} {m : Method} {args : List Expr}
    {template text : String} {span : Span} {operand? : String → Option Script.Expr}
    (hmethod : cx.metadata.method m = .inline template)
    (htext : Template.substitute template span operand? = .ok text) :
    Follows (callEvents cx.metadata r m args) [⟨.code text, []⟩] := by
  unfold callEvents
  rw [hmethod]
  exact .cons ⟨⟨_, _, htext⟩, .nil⟩ .nil

/-- What an expression is lowered to comes to the events of the expression, if what its
parts are lowered to does. -/
theorem Lowers.follows (hnames : cx.names.Separated) {e : Expr} {n n' : Nat} {w : Lowered}
    (hkeeps : e.Everywhere (·.keepsOrder cx.metadata = true))
    (hparts : ∀ c ∈ e.parts, InOrder cx c) (h : Lowers cx e n w n') :
    Follows (e.events cx) (Script.events cx.names w.stmts ++ w.expr.events cx.names) := by
  cases h with
  | @literal value => cases value <;> simp [Literal.script, Script.Expr.events]
  | @defaultValue ty =>
    unfold Context.defaultValue
    cases cx.metadata.semantics ty <;>
      simp [Script.Expr.events, Script.callEvents, Script.helperEvents, RuntimeNames.silent]
  | this => simp [Script.Expr.events]
  | @load p span _ _ t addr load stmts hthis htarget haddr hload =>
    have ht := Target.InOrder.of_ofPlace htarget hkeeps.here (by simpa using hparts)
    have hfits := haddr.fits_passed t.getter? 1
    obtain ⟨before, reads, hreads, -, hroom, hrenders⟩ := Target.events_load
      (R := fun _ _ => True) hnames ht.wellFormed hfits
      (fun hi => by rw [addr.events_passed]; exact haddr.quiet ht (.inl hi))
      (fun _ => forall₂_true (by simpa using hfits.args)) hload
    rw [Expr.events_load hthis htarget, ht.omitted_eq_nil, List.append_nil, hreads,
      hroom ht.room, addr.events_passed, ← List.append_assoc]
    exact (haddr.follows ht).append hrenders
  | @call _ m _ _ _ _ _ _ vs _ hmethod htaken hobjects =>
    have hlen := htaken.length_handed m.params hobjects
    have hall := htaken.follows (by rwa [map_snd_map_capture])
    rw [map_snd_map_capture] at hall
    rw [Expr.events_call, events_callScript hnames hobjects, Context.events_handed vs hlen,
      ← List.flatMap_append, ← List.append_assoc]
    exact hall.append (follows_callEvents hmethod hlen)
  | @callInline r m args span _ _ template text objects vs stmts hmethod htaken _ htext =>
    have hitems : ∀ e ∈ ((r.object?.toList ++ args).map
        ((⟨true, false⟩, ·) : Expr → Capture × Expr)).map (·.2), InOrder cx e := by
      rwa [map_snd_map_capture]
    have hall := htaken.follows hitems
    rw [htaken.events_eq_nil_of_reuse, List.append_nil, map_snd_map_capture] at hall
    rw [Expr.events_call]
    exact hall.append (follows_callEvents_inline hmethod htext)
  | binary htaken =>
    rw [Expr.events_binary]
    simpa [Script.Expr.events] using htaken.follows (by simpa using hparts)
  | @assign a span _ _ _ h =>
    exact h.follows hnames (hparts _ (Expr.value_mem_parts a span))
      (fun t ht => .of_assign hkeeps hparts ht) span

/-- Where arguments are evaluated in the order of the text, lowering is in order. -/
theorem InOrder.of_everywhere (hnames : cx.names.Separated) (e : Expr)
    (hkeeps : e.Everywhere (·.keepsOrder cx.metadata = true)) : InOrder cx e := by
  induction e using Expr.inductParts with
  | step e ih =>
    have hparts : ∀ c ∈ e.parts, InOrder cx c := fun c hc => ih c hc (hkeeps.part c hc)
    refine ⟨Expr.quiet_of_parts hkeeps.here hparts,
      fun h => (Lowers.of_lower h).follows hnames hkeeps hparts, fun h hstable => ?_⟩
    cases Lowers.of_lower h with
    | @literal value => cases value <;> rfl
    | this => rfl
    | assign h => exact h.quiet_of_stable (hparts _ (Expr.value_mem_parts _ _)) hstable
    | _ => cases hstable

/-- **Effects happen once and in source order.** For every assignment, with its value
wanted or not: if it can be lowered, then the events of what is emitted, its statements
first and then its result, are those of the assignment, each once and in their order. -/
theorem lowerAssignment_follows (hnames : cx.names.Separated) {usage : Usage}
    {a : Assignment Expr} {span : Span}
    (hkeeps : Expr.Everywhere (·.keepsOrder cx.metadata = true) ⟨.assign a, span⟩)
    {n n' : Nat} {v : Lowered} (h : lowerAssignment cx usage a span n = .ok v n') :
    Follows ((⟨.assign a, span⟩ : Expr).events cx)
      ((LoweredAssignment.ofLowered usage v).events cx.names) := by
  have hvalue := InOrder.of_everywhere hnames a.value
    (hkeeps.part _ (Expr.value_mem_parts a span))
  have htargets : ∀ t, a.target.target cx.metadata cx.enclosing = .ok t → t.InOrder cx :=
    fun t ht => Target.InOrder.of_assign hkeeps (fun c hc => .of_everywhere hnames c
      (hkeeps.part c hc)) ht
  have hall := (LowersAssign.of_lowerAssignment h).follows hnames hvalue htargets span
  cases usage with
  | used => simpa [LoweredAssignment.ofLowered, LoweredAssignment.events] using hall
  | discarded => simpa [LoweredAssignment.ofLowered, LoweredAssignment.events] using hall

open Sample in
theorem lowerAssignment_follows_chain : ∃ v,
    lowerAssignment (context .reference) .used
      ⟨field "f", .assign, assign (property "P") .assign (call "F" [])⟩ {} 0 = .ok v 1 ∧
      Follows
        ((assign (field "f") .assign (assign (property "P") .assign (call "F" []))).events
          (context .reference))
        ((LoweredAssignment.ofLowered .used v).events (context .reference).names) := by
  have hkeeps : Expr.Everywhere (·.keepsOrder (context .reference).metadata = true)
      (assign (field "f") .assign (assign (property "P") .assign (call "F" []))) :=
    everywhere_assign rfl (everywhere_field rfl rfl)
      (everywhere_assign rfl (everywhere_property rfl rfl) (everywhere_call rfl rfl (by simp)))
  exact ⟨_, rfl, lowerAssignment_follows (by decide) hkeeps rfl⟩

end AssignmentLowering
