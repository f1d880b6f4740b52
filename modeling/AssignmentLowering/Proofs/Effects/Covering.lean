import AssignmentLowering.Proofs.Effects.Access
import AssignmentLowering.Proofs.Lowering.Temporaries
import Mathlib.Algebra.Order.Group.Nat
import Mathlib.Data.List.Forall2
import Mathlib.Data.List.Perm.Subperm

/-!
# Who owns the operands of events

A value of a mutable value type that is stored or handed over must belong to nobody
else. In script that can be seen: it is a copy, or it is new, or it is a temporary that
was given something new and is not mentioned again. Whether a temporary is mentioned
again is a question about everything that is emitted, so the facts below are about
statements together with the expressions that are evaluated behind them, and each step
of lowering says how these grow.

## Main definitions

* `Script.Expr.isNew` — an expression whose value nobody else has.
* `NewIn`, `Owned` — what may be stored and handed over.
* `Covers` — events in script that are some of those of source.
* `Owning` — script all of whose events have operands that are owned.

## Main statements

* `Owning.append`, `Owning.build`, `Owning.push`, `Owning.capture` — how script grows.
-/

namespace AssignmentLowering

open Script (Stmt)

/-- A value that is newly made: a literal, a default, what a method returns or an operator
yields. An operator that may skip its right operand makes nothing. -/
def Script.Expr.isNew (names : RuntimeNames) : Script.Expr → Bool
  | .null | .bool _ | .number _ | .string _ | .call (.member ..) _ => true
  | .call (.ident helper) _ => helper = names.defaultValue || helper = names.callBase
  | .binary op .. => !op.shortCircuits
  | _ => false

variable {cx : Context}

/-- An expression that is new, or a temporary given something new, mentioned at most once in
the statements and in the expressions behind them. -/
def NewIn (cx : Context) (stmts : List Stmt) (es : List Script.Expr) (e : Script.Expr) : Prop :=
  e.isNew cx.names = true ∨
    ∃ k y, e = .ident (cx.temp k) ∧ Stmt.declare (cx.temp k) y ∈ stmts ∧
      y.isNew cx.names = true ∧
      Script.mentions (cx.temp k) stmts + Script.mentionsAll (cx.temp k) es ≤ 1

/-- What may be stored in a slot of the type `ty`, or handed over for a parameter of it: if
its values are mutable, a copy or something new. -/
def Owned (cx : Context) (stmts : List Stmt) (es : List Script.Expr) (ty : TypeRef)
    (e : Script.Expr) : Prop :=
  ∀ tag, cx.metadata.semantics ty = .mutable tag →
    (∃ y, e = clone cx.names y tag) ∨ NewIn cx stmts es e

/-! ## Events of script that are some of those of source -/

/-- The events in script are some of those of source, each at most once, in any order. -/
def Covers (R : TypeRef → Script.Expr → Prop) (source : List (Event TypeRef))
    (script : List (Event Script.Expr)) : Prop :=
  ∃ s, s.Subperm source ∧ List.Forall₂ (Event.Renders R) s script

namespace Covers

variable {R R' : TypeRef → Script.Expr → Prop} {source source' : List (Event TypeRef)}
  {script script' : List (Event Script.Expr)}

theorem nil : Covers R [] [] := ⟨[], .refl _, .nil⟩

theorem of_renders (h : List.Forall₂ (Event.Renders R) source script) :
    Covers R source script := ⟨source, .refl _, h⟩

theorem append (h : Covers R source script) (h' : Covers R source' script') :
    Covers R (source ++ source') (script ++ script') := by
  obtain ⟨s, hs, hrenders⟩ := h
  obtain ⟨s', hs', hrenders'⟩ := h'
  exact ⟨s ++ s', List.Subperm.append hs hs', List.rel_append hrenders hrenders'⟩

theorem script_perm (h : Covers R source script) (hscript : script.Perm script') :
    Covers R source script' := by
  obtain ⟨s, hs, hrenders⟩ := h
  obtain ⟨s', hrenders', hperm⟩ :=
    List.perm_comp_forall₂ hscript.symm (List.Forall₂.flip hrenders)
  exact ⟨s', hperm.subperm.trans hs, List.Forall₂.flip hrenders'⟩

theorem script_sublist (h : Covers R source script) (hscript : script'.Sublist script) :
    Covers R source script' := by
  obtain ⟨s, hs, hrenders⟩ := h
  have hsub : ∃ s', s'.Sublist s ∧ List.Forall₂ (Event.Renders R) s' script' := by
    clear hs
    induction hscript generalizing s with
    | slnil => exact ⟨[], List.nil_sublist _, .nil⟩
    | cons _ _ ih =>
      cases hrenders with
      | cons _ htail =>
        obtain ⟨s', hs', hrenders'⟩ := ih _ htail
        exact ⟨s', hs'.cons _, hrenders'⟩
    | cons_cons _ _ ih =>
      cases hrenders with
      | cons hhead htail =>
        obtain ⟨s', hs', hrenders'⟩ := ih _ htail
        exact ⟨_ :: s', hs'.cons_cons _, .cons hhead hrenders'⟩
  obtain ⟨s', hs', hrenders'⟩ := hsub
  exact ⟨s', hs'.subperm.trans hs, hrenders'⟩

/-- The operands of events may be related in another way. -/
theorem mono (h : Covers R source script)
    (hR : ∀ ty, ∀ o ∈ script, ∀ x ∈ o.operands, R ty x → R' ty x) : Covers R' source script := by
  obtain ⟨s, hs, hrenders⟩ := h
  refine ⟨s, hs, ?_⟩
  clear hs
  induction hrenders with
  | nil => exact .nil
  | @cons a b _ _ hhead _ ih =>
    refine .cons ⟨hhead.1, ?_⟩ (ih fun ty o ho => hR ty o (List.mem_cons_of_mem _ ho))
    have hoperands : ∀ {tys : List TypeRef} {xs : List Script.Expr}, List.Forall₂ R tys xs →
        (∀ x ∈ xs, x ∈ b.operands) → List.Forall₂ R' tys xs := by
      intro tys xs hxs
      induction hxs with
      | nil => intro _; exact .nil
      | cons hx _ ih =>
        intro hmem
        exact .cons (hR _ b List.mem_cons_self _ (hmem _ List.mem_cons_self) hx)
          (ih fun x hx => hmem x (List.mem_cons_of_mem _ hx))
    exact hoperands hhead.2 fun x hx => hx

end Covers

/-! ## Operands of events are mentioned -/

namespace Script

variable (names : RuntimeNames) (y : String)

theorem mentions_le_of_mem_helperEvents {helper : String} {args : List Expr} :
    ∀ ev ∈ helperEvents names helper args, ∀ x ∈ ev.operands,
      x.mentions y ≤ mentionsAll y args := by
  intro ev hev x hx
  have hmem : ∀ l : List Expr, x ∈ l → x.mentions y ≤ mentionsAll y l := fun l hl =>
    List.le_sum_of_mem (List.mem_map_of_mem hl)
  unfold helperEvents at hev
  split at hev
  · cases hev
  split at hev
  · obtain rfl := List.mem_singleton.1 hev
    exact hmem args (List.mem_of_mem_head? (by simpa using hx))
  split at hev
  · obtain rfl := List.mem_singleton.1 hev
    exact hmem args (List.mem_of_mem_getLast? (by simpa using hx))
  split at hev
  · split at hev
    · obtain rfl := List.mem_singleton.1 hev
      have := hmem _ hx
      simp only [mentionsAll, List.map_cons, List.map_nil, List.sum_cons, List.sum_nil,
        Expr.mentions, Expr.allMentions_eq] at this ⊢
      omega
    · obtain rfl := List.mem_singleton.1 hev
      cases hx
  · obtain rfl := List.mem_singleton.1 hev
    cases hx

mutual

/-- What an event hands over or stores is mentioned where the event is. -/
theorem Expr.mentions_le_of_mem_events : ∀ e : Expr, ∀ ev ∈ e.events names,
    ∀ x ∈ ev.operands, x.mentions y ≤ e.mentions y
  | .null | .bool _ | .number _ | .string _ | .ident _ | .this | .typeHandle _ => by
    intro ev hev
    cases hev
  | .verbatim text => by
    intro ev hev x hx
    obtain rfl := List.mem_singleton.1 hev
    cases hx
  | .member object _ => Expr.mentions_le_of_mem_events object
  | .index object i => by
    intro ev hev x hx
    have h := Expr.mentions_le_of_mem_events object ev
    have h' := Expr.mentions_le_of_mem_events i ev
    simp only [Expr.events, Expr.mentions, List.mem_append] at hev ⊢
    obtain hev | hev := hev
    · have := h hev x hx
      omega
    · have := h' hev x hx
      omega
  | .array items => by
    intro ev hev x hx
    exact Expr.mentions_le_of_mem_allEvents items ev hev x hx
  | .binary _ left right => by
    intro ev hev x hx
    have h := Expr.mentions_le_of_mem_events left ev
    have h' := Expr.mentions_le_of_mem_events right ev
    simp only [Expr.events, Expr.mentions, List.mem_append] at hev ⊢
    obtain hev | hev := hev
    · have := h hev x hx
      omega
    · have := h' hev x hx
      omega
  | .assign target value => by
    intro ev hev x hx
    have h := Expr.mentions_le_of_mem_events target ev
    have h' := Expr.mentions_le_of_mem_events value ev
    simp only [Expr.events, Expr.mentions, List.mem_append, List.mem_singleton] at hev ⊢
    obtain (hev | hev) | rfl := hev
    · have := h hev x hx
      omega
    · have := h' hev x hx
      omega
    · obtain rfl := List.mem_singleton.1 hx
      omega
  | .compoundAssign _ target value => by
    intro ev hev x hx
    have h := Expr.mentions_le_of_mem_events target ev
    have h' := Expr.mentions_le_of_mem_events value ev
    simp only [Expr.events, Expr.mentions, List.mem_append, List.mem_singleton] at hev ⊢
    obtain (hev | hev) | rfl := hev
    · have := h hev x hx
      omega
    · have := h' hev x hx
      omega
    · cases hx
  | .call callee args => by
    intro ev hev x hx
    have h := Expr.mentions_le_of_mem_events callee ev
    have h' := Expr.mentions_le_of_mem_allEvents args ev
    have hle : Expr.allMentions y args ≤ (Expr.call callee args).mentions y := by
      cases callee <;> simp [Expr.mentions]
    simp only [Expr.events, List.mem_append] at hev
    obtain (hev | hev) | hev := hev
    · cases callee with
      | ident => cases hev
      | _ =>
        have := h hev x hx
        simp only [Expr.mentions] at this ⊢
        omega
    · exact (h' hev x hx).trans hle
    · rw [Expr.allMentions_eq] at hle
      refine le_trans ?_ hle
      cases callee with
      | member object name =>
        obtain rfl := List.mem_singleton.1 hev
        exact List.le_sum_of_mem (List.mem_map_of_mem hx)
      | ident helper => exact mentions_le_of_mem_helperEvents names y ev hev x hx
      | _ =>
        obtain rfl := List.mem_singleton.1 hev
        cases hx

theorem Expr.mentions_le_of_mem_allEvents : ∀ es : List Expr, ∀ ev ∈ Expr.allEvents names es,
    ∀ x ∈ ev.operands, x.mentions y ≤ Expr.allMentions y es
  | [] => by
    intro ev hev
    cases hev
  | e :: rest => by
    intro ev hev x hx
    have h := Expr.mentions_le_of_mem_events e ev
    have h' := Expr.mentions_le_of_mem_allEvents rest ev
    simp only [Expr.allEvents, Expr.allMentions, List.mem_append] at hev ⊢
    obtain hev | hev := hev
    · have := h hev x hx
      omega
    · have := h' hev x hx
      omega

end

theorem mentions_le_of_mem_events (stmts : List Stmt) : ∀ ev ∈ events names stmts,
    ∀ x ∈ ev.operands, x.mentions y ≤ mentions y stmts := by
  intro ev hev x hx
  obtain ⟨s, hs, hev⟩ := List.mem_flatMap.1 hev
  exact (Expr.mentions_le_of_mem_events names y _ ev hev x hx).trans
    (List.le_sum_of_mem (List.mem_map_of_mem hs))

theorem mentions_le_of_mem_flatMap (es : List Expr) :
    ∀ ev ∈ es.flatMap (Expr.events names), ∀ x ∈ ev.operands,
      x.mentions y ≤ mentionsAll y es := by
  intro ev hev x hx
  obtain ⟨e, he, hev⟩ := List.mem_flatMap.1 hev
  exact (Expr.mentions_le_of_mem_events names y _ ev hev x hx).trans
    (List.le_sum_of_mem (List.mem_map_of_mem he))

end Script
/-! ## Script that grows -/

section

variable {n n' n'' : Nat} {stmts stmts' : List Stmt} {es es' : List Script.Expr}
  {source source' : List (Event TypeRef)} {e : Script.Expr}

theorem NewIn.imp (h : NewIn cx stmts es e) (hstmts : ∀ s ∈ stmts, s ∈ stmts')
    (hm : ∀ k y, e = .ident (cx.temp k) → Stmt.declare (cx.temp k) y ∈ stmts →
      Script.mentions (cx.temp k) stmts + Script.mentionsAll (cx.temp k) es ≤ 1 →
      Script.mentions (cx.temp k) stmts' + Script.mentionsAll (cx.temp k) es' ≤ 1) :
    NewIn cx stmts' es' e := by
  obtain h | ⟨k, y, he, hdeclare, hy, hle⟩ := h
  · exact .inl h
  · exact .inr ⟨k, y, he, hstmts _ hdeclare, hy, hm k y he hdeclare hle⟩

theorem Owned.imp {ty : TypeRef} (h : Owned cx stmts es ty e) (hstmts : ∀ s ∈ stmts, s ∈ stmts')
    (hm : ∀ k y, e = .ident (cx.temp k) → Stmt.declare (cx.temp k) y ∈ stmts →
      Script.mentions (cx.temp k) stmts + Script.mentionsAll (cx.temp k) es ≤ 1 →
      Script.mentions (cx.temp k) stmts' + Script.mentionsAll (cx.temp k) es' ≤ 1) :
    Owned cx stmts' es' ty e :=
  fun tag htag => (h tag htag).imp id fun hnew => hnew.imp hstmts hm

/-- Nothing is mentioned more often in what comes before or behind. -/
theorem NewIn.append_left (h : NewIn cx stmts es e) (hc : Confined cx n n' stmts es)
    (hc' : Confined cx n' n'' stmts' es') : NewIn cx (stmts ++ stmts') (es ++ es') e := by
  refine h.imp (fun s hs => List.mem_append_left _ hs) fun k y _ hk hle => ?_
  have hrange := hc.numbered.mem hk
  have h₁ := hc'.stmts k (by omega)
  have h₂ := hc'.exprs k (by omega)
  rw [Script.mentions_append, Script.mentionsAll_append]
  omega

theorem NewIn.append_right (h : NewIn cx stmts' es' e) (hc : Confined cx n n' stmts es)
    (hc' : Confined cx n' n'' stmts' es') : NewIn cx (stmts ++ stmts') (es ++ es') e := by
  refine h.imp (fun s hs => List.mem_append_right _ hs) fun k y _ hk hle => ?_
  have hrange := hc'.numbered.mem hk
  have h₁ := hc.stmts k (by omega)
  have h₂ := hc.exprs k (by omega)
  rw [Script.mentions_append, Script.mentionsAll_append]
  omega

/-- Statements, and expressions evaluated behind them, all of whose events have operands
that are owned; the events are some of those of source. -/
structure Owning (cx : Context) (n n' : Nat) (stmts : List Stmt) (es : List Script.Expr)
    (source : List (Event TypeRef)) : Prop where
  confined : Confined cx n n' stmts es
  covers : Covers (Owned cx stmts es) source
    (Script.events cx.names stmts ++ es.flatMap (Script.Expr.events cx.names))

namespace Owning

theorem nil : Owning cx n n [] [] [] := ⟨.nil, .nil⟩

theorem append (h : Owning cx n n' stmts es source) (h' : Owning cx n' n'' stmts' es' source') :
    Owning cx n n'' (stmts ++ stmts') (es ++ es') (source ++ source') := by
  refine ⟨h.confined.append h'.confined, ?_⟩
  have hfirst : Covers (Owned cx (stmts ++ stmts') (es ++ es')) source _ := h.covers.mono
    fun ty o _ x _ hx tag htag => (hx tag htag).imp id fun hnew =>
      hnew.append_left h.confined h'.confined
  have hlast : Covers (Owned cx (stmts ++ stmts') (es ++ es')) source' _ := h'.covers.mono
    fun ty o _ x _ hx tag htag => (hx tag htag).imp id fun hnew =>
      hnew.append_right h.confined h'.confined
  refine (hfirst.append hlast).script_perm ?_
  rw [Script.events_append, List.flatMap_append, List.append_assoc, List.append_assoc]
  exact (List.perm_append_comm_assoc ..).append_left _

/-- The order of the expressions does not matter. -/
theorem exprs_perm (h : Owning cx n n' stmts es source) (hes : es.Perm es') :
    Owning cx n n' stmts es' source := by
  have hm : ∀ x, Script.mentionsAll x es = Script.mentionsAll x es' := fun x =>
    (hes.map _).sum_eq
  refine ⟨h.confined.of_le fun k _ => (hm _).ge, ?_⟩
  refine (h.covers.script_perm ((hes.flatMap_right _).append_left _)).mono
    fun ty o _ x _ hx => hx.imp (fun s hs => hs) fun k y _ _ hle => ?_
  rwa [← hm]

/-- New expressions made of those at hand: of `es₁` each is used at most once, those in `es₂`
have no events and may be used any number of times. The new expressions come to some of
the events of the old ones and to `evs`. -/
theorem build {es₁ es₂ : List Script.Expr} {new : List (Event TypeRef)}
    (h : Owning cx n n' stmts (es₁ ++ es₂) source) (c : Nat)
    (kept evs : List (Event Script.Expr))
    (hquiet : es₂.flatMap (Script.Expr.events cx.names) = [])
    (hm : ∀ k, Script.mentionsAll (cx.temp k) es' ≤
      Script.mentionsAll (cx.temp k) es₁ + c * Script.mentionsAll (cx.temp k) es₂)
    (hkept : kept.Sublist (es₁.flatMap (Script.Expr.events cx.names)))
    (hevents : (es'.flatMap (Script.Expr.events cx.names)).Perm (kept ++ evs))
    (hnew : List.Forall₂ (Event.Renders (Owned cx stmts es')) new evs) :
    Owning cx n n' stmts es' (source ++ new) := by
  have hconfined : Confined cx n n' stmts es' := by
    refine h.confined.of_le fun k hk => ?_
    have hzero := h.confined.exprs k hk
    rw [Script.mentionsAll_append, Nat.add_eq_zero_iff] at hzero
    have hle := hm k
    rw [hzero.1, hzero.2] at hle
    rw [Script.mentionsAll_append]
    omega
  have hold : Covers (Owned cx stmts (es₁ ++ es₂)) source
      (Script.events cx.names stmts ++ kept) := by
    refine h.covers.script_sublist ?_
    rw [List.flatMap_append, hquiet, List.append_nil]
    exact hkept.append_left _
  refine ⟨hconfined, ((hold.mono fun ty o ho x hx howned => ?_).append
    (Covers.of_renders hnew)).script_perm ?_⟩
  · refine howned.imp (fun s hs => hs) fun k y hident _ hle => ?_
    have hone : x.mentions (cx.temp k) = 1 := by simp [hident, Script.Expr.mentions]
    rw [Script.mentionsAll_append] at hle
    have hk := hm k
    -- The operand is mentioned where its event is, so it is mentioned nowhere else.
    obtain ho | ho := List.mem_append.1 ho
    · have := Script.mentions_le_of_mem_events cx.names (cx.temp k) stmts o ho x hx
      have h₁ : Script.mentionsAll (cx.temp k) es₁ = 0 := by omega
      have h₂ : Script.mentionsAll (cx.temp k) es₂ = 0 := by omega
      rw [h₁, h₂] at hk
      omega
    · have := Script.mentions_le_of_mem_flatMap cx.names (cx.temp k) es₁ o (hkept.subset ho) x hx
      have h₂ : Script.mentionsAll (cx.temp k) es₂ = 0 := by omega
      rw [h₂] at hk
      omega
  · rw [List.append_assoc]
    exact hevents.symm.append_left _

/-- An expression evaluated by a statement. -/
theorem push (h : Owning cx n n' stmts (e :: es) source) :
    Owning cx n n' (stmts ++ [.expr e]) es source := by
  refine ⟨h.confined.push, ?_⟩
  have hevents : Script.events cx.names (stmts ++ [.expr e]) ++
      es.flatMap (Script.Expr.events cx.names) =
        Script.events cx.names stmts ++ (e :: es).flatMap (Script.Expr.events cx.names) := by
    simp
  rw [hevents]
  refine h.covers.mono fun ty o _ x _ hx =>
    hx.imp (fun s hs => List.mem_append_left _ hs) fun k y _ _ hle => ?_
  rw [← List.singleton_append, Script.mentionsAll_append, Script.mentionsAll_singleton] at hle
  rw [Script.mentions_append, Script.mentions_expr]
  omega

/-- An expression held in the next temporary. -/
theorem capture (h : Owning cx n n' stmts (e :: es) source) :
    Owning cx n (n' + 1) (stmts ++ [.declare (cx.temp (n' + 1)) e])
      (.ident (cx.temp (n' + 1)) :: es) source := by
  refine ⟨h.confined.capture, ?_⟩
  have hevents : Script.events cx.names (stmts ++ [.declare (cx.temp (n' + 1)) e]) ++
      (Script.Expr.ident (cx.temp (n' + 1)) :: es).flatMap (Script.Expr.events cx.names) =
        Script.events cx.names stmts ++ (e :: es).flatMap (Script.Expr.events cx.names) := by
    simp [Script.Expr.events]
  rw [hevents]
  refine h.covers.mono fun ty o _ x _ hx =>
    hx.imp (fun s hs => List.mem_append_left _ hs) fun k y _ hk hle => ?_
  have hrange := h.confined.numbered.mem hk
  have hne : cx.temp (n' + 1) ≠ cx.temp k := fun hname => by
    have := cx.temp_injective hname
    omega
  have hident : Script.mentionsAll (cx.temp k) (.ident (cx.temp (n' + 1)) :: es) =
      Script.mentionsAll (cx.temp k) es := by
    rw [← List.singleton_append, Script.mentionsAll_append, Script.mentionsAll_singleton,
      Script.Expr.mentions, if_neg hne, Nat.zero_add]
  rw [← List.singleton_append, Script.mentionsAll_append, Script.mentionsAll_singleton] at hle
  rw [hident, Script.mentions_append, Script.mentions_declare]
  omega

theorem held {x : Script.Expr} {flag : Bool} (h : Owning cx n n' stmts (e :: es) source)
    (hheld : Held cx e n' flag x stmts' n'') :
    Owning cx n n'' (stmts ++ stmts') (x :: es) source := by
  cases hheld with
  | inline => simpa using h
  | captured => exact h.capture

end Owning

/-- What is new stays new when it is used once. -/
theorem NewIn.build {es₁ es₂ : List Script.Expr} (h : NewIn cx stmts (es₁ ++ es₂) e)
    (he : e ∈ es₁) (c : Nat)
    (hm : ∀ k, Script.mentionsAll (cx.temp k) es' ≤
      Script.mentionsAll (cx.temp k) es₁ + c * Script.mentionsAll (cx.temp k) es₂) :
    NewIn cx stmts es' e := by
  refine h.imp (fun s hs => hs) fun k y hident _ hle => ?_
  have hone : e.mentions (cx.temp k) = 1 := by simp [hident, Script.Expr.mentions]
  have hmem : e.mentions (cx.temp k) ≤ Script.mentionsAll (cx.temp k) es₁ :=
    List.le_sum_of_mem (List.mem_map_of_mem he)
  have hk := hm k
  rw [Script.mentionsAll_append] at hle
  have h₂ : Script.mentionsAll (cx.temp k) es₂ = 0 := by omega
  rw [h₂] at hk
  omega

end

end AssignmentLowering
