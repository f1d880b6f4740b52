import AssignmentLowering.Proofs.Effects.Order
import Mathlib.Data.List.Perm.Subperm

/-!
# Effects happen once

Whatever the order, what is emitted comes to every event of the source once. No condition
on the order of arguments is needed for this, only that arguments have a place: an indexer
that is bound to a field has none for its arguments, and of the events of these only those
in statements are left.

## Main definitions

* `Matches` — events in script that are those of source, in any order.
* `Conserves` — an expression whose lowering comes to its events.
* `Target.Retains` — the events of a target, with those of defaults maybe left out.

## Main statements

* `LowersAssign.retains`, `Lowers.retains` — for an assignment and for reading a place.
* `Conserves.of_everywhere` — for every expression in which arguments have their place.
-/

namespace AssignmentLowering

open Script (Stmt)

/-- The events in script are those of source, each once. -/
def Matches (source : List (Event TypeRef)) (script : List (Event Script.Expr)) : Prop :=
  ∃ source', source'.Perm source ∧ Follows source' script

theorem Follows.matches {source : List (Event TypeRef)} {script : List (Event Script.Expr)}
    (h : Follows source script) : Matches source script := ⟨source, .refl _, h⟩

namespace Matches

variable {source source' : List (Event TypeRef)} {script script' : List (Event Script.Expr)}

theorem append (h : Matches source script) (h' : Matches source' script') :
    Matches (source ++ source') (script ++ script') := by
  obtain ⟨s, hs, hfollows⟩ := h
  obtain ⟨s', hs', hfollows'⟩ := h'
  exact ⟨s ++ s', hs.append hs', hfollows.append hfollows'⟩

theorem perm (h : Matches source script) (hp : script.Perm script') : Matches source script' := by
  obtain ⟨s, hs, hfollows⟩ := h
  obtain ⟨s', hfollows', hs'⟩ := List.perm_comp_forall₂ hp.symm (List.Forall₂.flip hfollows)
  exact ⟨s', hs'.trans hs, List.Forall₂.flip hfollows'⟩

/-- Of what comes to some events, a part comes to some of these. -/
theorem left_of_append (h : Matches source (script ++ script')) :
    ∃ kept, kept.Subperm source ∧ Matches kept script := by
  obtain ⟨s, hs, hfollows⟩ := h
  exact ⟨s.take script.length, ((List.take_sublist _ _).subperm).trans hs.subperm,
    Follows.matches (List.forall₂_take_append _ _ _ hfollows)⟩

end Matches

/-- Two lists of two parts each, part by part. -/
theorem perm_append_append {α : Type} (a b c d : List α) :
    ((a ++ b) ++ (c ++ d)).Perm ((a ++ c) ++ (b ++ d)) := by
  simpa using (List.perm_append_comm_assoc b c d).append_left a

/-- Lowering the expression comes to its events. -/
def Conserves (cx : Context) (e : Expr) : Prop :=
  ∀ {n n' : Nat} {w : Lowered}, e.lower cx n = .ok w n' →
    Matches (e.events cx) (Script.events cx.names w.stmts ++ w.expr.events cx.names)

variable {cx : Context}

/-! ## Operands one after the other -/

section

variable {reuse : Bool} {rest os : List Expr} {n n' : Nat} {vs : List Value} {stmts : List Stmt}

theorem Taken.conserves {c : Capture} {o : Expr} {v : Value} (ho : Conserves cx o)
    (h : Taken cx c rest o n v stmts n') :
    Matches (o.events cx) (Script.events cx.names stmts ++ v.expr.events cx.names) := by
  cases h with
  | intro hlower hheld =>
    have hmatches := ho hlower
    rw [← hheld.events.1] at hmatches
    simpa using hmatches

theorem TakenAll.conserves {items : List (Capture × Expr)}
    (hitems : ∀ e ∈ items.map (·.2), Conserves cx e) (h : TakenAll cx rest items n vs stmts n') :
    Matches ((items.map (·.2)).flatMap (Expr.events cx))
      (Script.events cx.names stmts ++ vs.flatMap (·.expr.events cx.names)) := by
  induction h with
  | nil => exact Follows.matches .nil
  | cons hhead _ ih =>
    have hfirst := hhead.conserves (hitems _ List.mem_cons_self)
    have hrest := ih fun e he => hitems e (List.mem_cons_of_mem _ he)
    simp only [List.map_cons, List.flatMap_cons, Script.events_append]
    exact (hfirst.append hrest).perm (perm_append_append ..)

theorem Asides.conserves (hos : ∀ e ∈ os, Conserves cx e)
    (h : Asides cx reuse os n vs stmts n') :
    Matches (os.flatMap (Expr.events cx))
      (Script.events cx.names stmts ++ vs.flatMap (·.expr.events cx.names)) := by
  induction h with
  | nil => exact Follows.matches .nil
  | cons hhead _ ih =>
    have hfirst := hhead.conserves (hos _ List.mem_cons_self)
    have hrest := ih fun e he => hos e (List.mem_cons_of_mem _ he)
    simp only [List.flatMap_cons, Script.events_append]
    exact (hfirst.append hrest).perm (perm_append_append ..)

end

/-! ## Targets -/

/-- What is known about the operands of a target when it is lowered. -/
structure Target.Conserving (cx : Context) (t : Target Expr) : Prop where
  wellFormed : t.WellFormed
  arranges : ∃ indices, Arranges t.args indices
  operands : ∀ e ∈ t.operands, Conserves cx e
  omitted : ∀ e ∈ t.omitted, Conserves cx e

/-- The script comes to all events of the operands of the target and to `own`, each once, and
to those of its defaults at most once: to all of these if arguments have their place. -/
def Target.Retains (cx : Context) (t : Target Expr) (own : List (Event TypeRef))
    (script : List (Event Script.Expr)) : Prop :=
  ∃ kept : List (Event TypeRef), kept.Subperm (t.omitted.flatMap (Expr.events cx)) ∧
    (t.HasRoom → kept = t.omitted.flatMap (Expr.events cx)) ∧
    Matches (t.operands.flatMap (Expr.events cx) ++ kept ++ own) script

namespace Target

variable {t : Target Expr} {own own' : List (Event TypeRef)}
  {script script' : List (Event Script.Expr)}

theorem Retains.append (h : t.Retains cx own script) (h' : Matches own' script') :
    t.Retains cx (own ++ own') (script ++ script') := by
  obtain ⟨kept, hkept, hall, hmatches⟩ := h
  refine ⟨kept, hkept, hall, ?_⟩
  rw [← List.append_assoc]
  exact hmatches.append h'

theorem Retains.perm (h : t.Retains cx own script) (hp : script.Perm script') :
    t.Retains cx own script' := by
  obtain ⟨kept, hkept, hall, hmatches⟩ := h
  exact ⟨kept, hkept, hall, hmatches.perm hp⟩

theorem Retains.matches (h : t.Retains cx own script) (hroom : t.HasRoom) :
    Matches (t.operands.flatMap (Expr.events cx) ++ t.omitted.flatMap (Expr.events cx) ++ own)
      script := by
  obtain ⟨kept, -, hall, hmatches⟩ := h
  rwa [hall hroom] at hmatches

theorem Retains.of_matches
    (h : Matches (t.operands.flatMap (Expr.events cx) ++ t.omitted.flatMap (Expr.events cx) ++ own)
      script) : t.Retains cx own script := ⟨_, .refl _, fun _ => rfl, h⟩

/-- A target without a place for its arguments is an indexer bound to a field. -/
theorem exists_field_of_not_hasRoom (hw : t.WellFormed) (h : ¬t.HasRoom) :
    ∃ name, t.storage = .field name ∧ t.kind = .indexer := by
  unfold HasRoom at h
  push Not at h
  obtain ⟨name, hname, hargs⟩ := h
  exact ⟨name, hname, by_contra fun hkind => hargs (hw.field name hname hkind)⟩

theorem hasRoom_of_not_native (hw : t.WellFormed) (h : t.isNative = false) : t.HasRoom := by
  by_contra hroom
  obtain ⟨name, hname, hkind⟩ := exists_field_of_not_hasRoom hw hroom
  simp [isNative, hname, hkind] at h

end Target

section

variable {reuse : Bool} {rest : List Expr} {t : Target Expr} {n n' : Nat} {a : LoweredAddress}
  {stmts : List Stmt} {names : RuntimeNames}

/-- The operands of a target come to their events, wherever they end up. -/
theorem Addressed.retains (ht : t.Conserving cx) (h : Addressed cx reuse rest t n a stmts n') :
    t.Retains cx [] (Script.events cx.names stmts ++ a.address.events cx.names) := by
  obtain ⟨indices, harr⟩ := ht.arranges
  obtain ⟨vs, ds, stmts₁, stmts₂, m, htaken, hasides, rfl, hperm, -⟩ := h.split harr
  have hoperands := htaken.conserves (by simpa using ht.operands)
  have homitted := hasides.conserves ht.omitted
  have hvalues : (vs.flatMap (·.expr.events cx.names) ++
      ds.flatMap (·.expr.events cx.names)).Perm (a.address.events cx.names) := by
    rw [Address.events_eq]
    simpa [List.flatMap_map] using (hperm.flatMap_right (Script.Expr.events cx.names)).symm
  refine .of_matches ?_
  rw [Script.events_append, List.append_nil]
  simp only [Target.map_snd_captures] at hoperands
  exact ((hoperands.append homitted).perm (perm_append_append ..)).perm (hvalues.append_left _)

/-- Without written arguments the object alone comes to the events of the operands. -/
theorem Addressed.retains_object (ht : t.Conserving cx)
    (h : Addressed cx reuse rest t n a stmts n') (hroom : ¬t.HasRoom) (hnone : t.callSite = []) :
    t.Retains cx []
      (Script.events cx.names stmts ++ a.object.toList.flatMap (Script.Expr.events cx.names)) := by
  cases h with
  | @intro objects vs xs stmts₁ stmts₂ m _ htaken hobjects hfilled =>
    obtain ⟨ds, hasides, -, -⟩ := hfilled.split
    have hvs : vs = [] := by
      have hall := htaken.length_operands
      simp only [Target.operands, hnone, List.map_nil, List.append_nil, List.length_append] at hall
      exact List.length_eq_zero_iff.1 (by omega)
    subst hvs
    have hoperands := htaken.conserves (by simpa using ht.operands)
    obtain ⟨kept, hkept, homitted⟩ := (hasides.conserves ht.omitted).left_of_append
    have hobject : (objects.head?.map (·.expr)).toList.flatMap (Script.Expr.events cx.names) =
        objects.flatMap (·.expr.events cx.names) := by
      rcases objects with _ | ⟨v, _ | ⟨w, rest⟩⟩
      · rfl
      · simp
      · cases hr : t.receiver <;> simp [hr] at hobjects
    refine ⟨kept, hkept, fun h => absurd h hroom, ?_⟩
    simp only [Target.map_snd_captures, List.append_nil] at hoperands
    rw [Script.events_append, List.append_nil, hobject]
    refine (hoperands.append homitted).perm ?_
    simpa using perm_append_append _ _ (Script.events cx.names stmts₂) []

/-- The left side of an assignment comes to the events of the operands, if arguments have
their place or there are none written. -/
theorem Addressed.retains_native (ht : t.Conserving cx)
    (hroom : t.HasRoom ∨ t.callSite = []) (h : Addressed cx reuse rest t n a stmts n')
    {place : Script.Expr} (hplace : t.native cx.names a.address = .ok place) :
    t.Retains cx [] (Script.events cx.names stmts ++ place.events cx.names) := by
  by_cases hyes : t.HasRoom
  · obtain ⟨-, hevents, -⟩ := Target.events_native ht.wellFormed h.fits hplace
    rw [hevents hyes]
    exact h.retains ht
  · obtain ⟨name, hname, hkind⟩ := Target.exists_field_of_not_hasRoom ht.wellFormed hyes
    simp only [Target.native, hkind, hname, Except.ok.injEq] at hplace
    subst hplace
    rw [Script.Expr.events, Target.events_object]
    exact h.retains_object ht hyes (hroom.resolve_left hyes)

/-- Operands that are used again keep no events. -/
theorem Addressed.events_eq_nil (ht : t.Conserving cx)
    (h : Addressed cx true rest t n a stmts n') : a.address.events cx.names = [] := by
  obtain ⟨indices, harr⟩ := ht.arranges
  rw [Address.events_eq, List.flatMap_eq_nil_iff]
  exact fun e he => Script.Expr.events_of_isReusable _ (h.isReusable harr e he)

theorem Addressed.retains_load (hnames : cx.names.Separated) (ht : t.Conserving cx)
    (hroom : t.HasRoom ∨ t.callSite = []) {uses : Nat} {load : Script.Expr}
    (h : Addressed cx reuse rest t n a stmts n') (hreuse : t.getterIsInline = true → reuse = true)
    (hload : t.load cx.names (a.passed cx t.getter? uses) = .ok load) :
    t.Retains cx t.readEvents (Script.events cx.names stmts ++ load.events cx.names) := by
  by_cases hyes : t.HasRoom
  · have hfits := h.fits_passed t.getter? uses
    obtain ⟨before, reads, hreads, -, hbefore, hrenders⟩ := Target.events_load
      (R := fun _ _ => True) hnames ht.wellFormed hfits
      (fun hi => by
        obtain rfl := hreuse hi
        rw [a.events_passed, h.events_eq_nil ht])
      (fun _ => forall₂_true (by simpa using hfits.args)) hload
    rw [hreads, hbefore hyes, a.events_passed, ← List.append_assoc]
    exact (h.retains ht).append (Follows.matches hrenders)
  · obtain ⟨name, hname, hkind⟩ := Target.exists_field_of_not_hasRoom ht.wellFormed hyes
    have hgetter : t.getter? = none := by simp [Target.getter?, hname, Storage.getter?]
    have hplace : t.native cx.names a.address = .ok load := by
      simpa [Target.load, hkind, hgetter, LoweredAddress.passed] using hload
    have hnone : t.readEvents = [] := by simp [Target.readEvents, hkind, hgetter]
    rw [hnone]
    exact h.retains_native ht hroom hplace

/-- The operands of a target and then a value come to their events. -/
theorem Target.Retains.value {value : Expr} {c : Capture} {v : Value} {stmts' : List Stmt}
    {n'' : Nat} {own : List (Event TypeRef)} {place : List (Event Script.Expr)}
    (h : t.Retains cx own (Script.events cx.names stmts ++ place))
    (hvalue : Conserves cx value) (htaken : Taken cx c [] value n' v stmts' n'') :
    t.Retains cx (own ++ value.events cx)
      (Script.events cx.names (stmts ++ stmts') ++ (place ++ v.expr.events cx.names)) := by
  rw [Script.events_append]
  exact (h.append (htaken.conserves hvalue)).perm (perm_append_append ..)

end

/-! ## Forms -/

section

variable {usage : Usage} {a : Assignment Expr} {n n' : Nat} {w : Lowered} {t : Target Expr}

theorem Addressed.retains_store (hnames : cx.names.Separated) (ht : t.Conserving cx)
    {value : Expr} (hvalue : Conserves cx value) {reuse reordered : Bool} {uses : Nat}
    {addr : LoweredAddress} {v : Value} {store : Script.Expr} {stmts stmts₁ : List Stmt}
    {n n₁ n₂ : Nat} (hroom : t.HasRoom) (hreuse : t.setterIsInline = true → reuse = true)
    (haddr : Addressed cx t.setterIsInline [value] t n addr stmts n₁)
    (htaken : Taken cx ⟨reuse, reordered⟩ [] value n₁ v stmts₁ n₂)
    (hstore : t.store cx.names (addr.passed cx t.setter? 1)
      (cx.copied t.ty v.fresh uses v.expr) = .ok store) :
    t.Retains cx (value.events cx ++ t.writeEvents cx.names)
      (Script.events cx.names (stmts ++ stmts₁) ++ store.events cx.names) := by
  have hfits := haddr.fits_passed t.setter? 1
  obtain ⟨before, evs, hevs, -, hbefore, hrenders⟩ := Target.events_store (R := fun _ _ => True)
    hnames ht.wellFormed hfits
    (fun hi => by
      constructor
      · rw [hi] at haddr
        rw [addr.events_passed, haddr.events_eq_nil ht]
      · rw [Context.events_copied]
        exact Script.Expr.events_of_isReusable _ (htaken.isReusable (hreuse hi)))
    (fun _ => forall₂_true (by simpa using hfits.args)) trivial hstore
  have hall := ((haddr.retains ht).value hvalue htaken).append (Follows.matches hrenders)
  rw [hevs, hbefore hroom, addr.events_passed]
  simpa using hall

theorem Addressed.retains_compoundByCall (hnames : cx.names.Separated) (ht : t.Conserving cx)
    {value : Expr} (hvalue : Conserves cx value) {op : BinaryOp} {flag held fresh : Bool}
    {uses : Nat} {addr : LoweredAddress} {v : Value} {load old new store : Script.Expr}
    {stmts stmts₁ stmts₂ stmts₃ : List Stmt} {n n₁ n₂ n₃ n₄ : Nat} (hroom : t.HasRoom)
    (haddr : Addressed cx true [value] t n addr stmts n₁)
    (hload : t.load cx.names (addr.passed cx t.getter? 2) = .ok load)
    (hold : Held cx load n₁ flag old stmts₁ n₂) (htaken : Taken cx {} [] value n₂ v stmts₂ n₃)
    (hnew : Held cx (.binary op old v.expr) n₃ (held || t.setterIsInline) new stmts₃ n₄)
    (hstore : t.store cx.names (addr.passed cx t.setter? 2) (cx.copied t.ty fresh uses new) =
      .ok store) :
    t.Retains cx (t.readEvents ++ value.events cx ++ t.writeEvents cx.names)
      (Script.events cx.names (stmts ++ stmts₁ ++ stmts₂ ++ stmts₃) ++
        store.events cx.names) := by
  have hquiet := haddr.events_eq_nil ht
  have hfits := haddr.fits_passed t.setter? 2
  obtain ⟨hnewEvents, hnewQuiet⟩ := hnew.events
  obtain ⟨before, evs, hevs, -, hbefore, hrenders⟩ := Target.events_store (R := fun _ _ => True)
    hnames ht.wellFormed hfits
    (fun hi => ⟨by rw [addr.events_passed, hquiet],
      by simpa using hnewQuiet (by simp [hi])⟩)
    (fun _ => forall₂_true (by simpa using hfits.args)) trivial hstore
  rw [hbefore hroom, addr.events_passed, hquiet, List.nil_append,
    Context.events_copied] at hevs
  -- The value of the target is in its statement or in place; so is what it is combined to.
  have hread := haddr.retains_load hnames ht (.inl hroom) (fun _ => rfl) hload
  rw [← hold.events.1, ← List.append_assoc, ← Script.events_append] at hread
  have hall := (hread.value hvalue htaken).append (Follows.matches hrenders)
  have hcombined : old.events cx.names ++ v.expr.events cx.names =
      Script.events cx.names stmts₃ ++ new.events cx.names := hnewEvents.symm
  rw [hcombined] at hall
  rw [hevs, Script.events_append]
  simpa using hall

/-- What an assignment is lowered to comes to the events of the assignment, once each. -/
theorem LowersAssign.retains (hnames : cx.names.Separated) (hvalue : Conserves cx a.value)
    (htarget : a.target.target cx.metadata cx.enclosing = .ok t) (ht : t.Conserving cx)
    (hroom : t.HasRoom ∨ t.callSite = []) (h : LowersAssign cx usage a n w n') :
    t.Retains cx (storeEvents cx.names a.op t (a.value.events cx))
      (Script.events cx.names w.stmts ++ w.expr.events cx.names) := by
  have hone : ∀ {l : Label} (ty : TypeRef) (e : Script.Expr), l.Renders l →
      Matches [⟨l, [ty]⟩] [⟨l, [e]⟩] :=
    fun _ _ hl => Follows.matches (.cons ⟨hl, forall₂_true rfl⟩ .nil)
  cases h with
  | @native _ addr v place stmts stmts' _ _ htarget' hop hnative hshared haddr htaken hplace =>
    cases htarget.symm.trans htarget'
    obtain ⟨-, -, hwritten⟩ := Target.events_native ht.wellFormed haddr.fits hplace
    have hall := ((haddr.retains_native ht hroom hplace).value hvalue htaken).append
      (hone (l := .assign (t.written cx.names)) t.ty (cx.copied t.ty v.fresh 1 v.expr) rfl)
    rw [storeEvents, hop, Target.writeEvents_of_isNative hnative]
    simpa [Script.Expr.events, hwritten] using hall
  | @readBack _ addr v place stmts stmts' _ _ htarget' hop hnative hshared haddr htaken hplace =>
    cases htarget.symm.trans htarget'
    obtain ⟨hsub, -, hwritten⟩ := Target.events_native ht.wellFormed haddr.fits hplace
    have hquiet : place.events cx.names = [] := by
      rw [haddr.events_eq_nil ht] at hsub
      exact List.sublist_nil.1 hsub
    have hall := ((haddr.retains_native ht hroom hplace).value hvalue htaken).append
      (hone (l := .assign (t.written cx.names)) t.ty (cx.copied t.ty v.fresh 1 v.expr) rfl)
    rw [storeEvents, hop, Target.writeEvents_of_isNative hnative]
    simpa [Script.Expr.events, hwritten, hquiet] using hall
  | @byCall _ addr v store stmts stmts' _ _ htarget' hop hnative haddr htaken hstore =>
    cases htarget.symm.trans htarget'
    have hresult : usage = .used →
        (if t.isReceiver then (⟨.this, false, true⟩ : Value) else
          ⟨v.expr, false, v.stable⟩).expr.events cx.names = [] := by
      rintro rfl
      cases hr : t.isReceiver with
      | true => rfl
      | false =>
        exact Script.Expr.events_of_isReusable _
          (htaken.isReusable (by simp [hr, Usage.isUsed]))
    rw [Usage.events_finish hresult, storeEvents, hop]
    exact haddr.retains_store hnames ht hvalue (Target.hasRoom_of_not_native ht.wellFormed hnative)
      (fun hi => by simp [hi]) htaken hstore
  | @compoundNative _ op addr v place stmts stmts' _ _ htarget' hop hnative haddr htaken hplace =>
    cases htarget.symm.trans htarget'
    obtain ⟨-, -, hwritten⟩ := Target.events_native ht.wellFormed haddr.fits hplace
    have hlast : Matches [⟨.compoundAssign op (t.written cx.names), []⟩]
        [⟨.compoundAssign op (t.written cx.names), []⟩] :=
      Follows.matches (.cons ⟨rfl, .nil⟩ .nil)
    have hall := ((haddr.retains_native ht hroom hplace).value hvalue htaken).append hlast
    rw [storeEvents, hop]
    simpa [hnative, Script.Expr.events, hwritten] using hall
  | compoundByCall htarget' hop hnative _ haddr hload hold htaken hnew hstore =>
    cases htarget.symm.trans htarget'
    rw [Usage.events_finish fun hu => hnew.events.2 (by simp [hu, Usage.isUsed]), storeEvents, hop]
    simp only [hnative, Bool.false_eq_true, if_false]
    exact haddr.retains_compoundByCall hnames ht hvalue
      (Target.hasRoom_of_not_native ht.wellFormed hnative) hload hold htaken hnew hstore

/-- What reading a place is lowered to comes to the events of the place, once each. -/
theorem Lowers.retains (hnames : cx.names.Separated) {p : Place Expr} {span : Span}
    (hthis : ∀ ty, p ≠ .this ty)
    (htarget : Target.ofPlace cx.metadata cx.enclosing Expr.ty span p = .ok t)
    (ht : t.Conserving cx) (hroom : t.HasRoom ∨ t.callSite = [])
    (h : Lowers cx ⟨.place p, span⟩ n w n') :
    t.Retains cx t.readEvents (Script.events cx.names w.stmts ++ w.expr.events cx.names) := by
  cases h with
  | this => exact absurd rfl (hthis _)
  | load _ htarget' haddr hload =>
    cases htarget.symm.trans htarget'
    exact haddr.retains_load hnames ht hroom id hload

end

/-! ## Every expression -/

/-- Whether the place that an expression is, if it is one, has room for its arguments. -/
def Expr.hasRoom (md : Metadata) (e : Expr) : Bool :=
  match e.form with
  | .place p => !p.isFieldIndexer md
  | _ => true

theorem Target.Conserving.of_ofPlace {p : Place Expr} {span : Span} {t : Target Expr}
    (ht : Target.ofPlace cx.metadata cx.enclosing Expr.ty span p = .ok t)
    (hparts : ∀ e ∈ p.operands ++ p.defaults, Conserves cx e) : t.Conserving cx where
  wellFormed := (Classified.of_ofPlace ht).wellFormed
  arranges := ⟨_, (Target.ofPlace_arranges ht).2⟩
  operands e he := hparts e (List.mem_append_left _ (Target.operands_ofPlace ht ▸ he))
  omitted _ he := hparts _ (List.mem_append_right _ (Target.mem_defaults_of_mem_omitted ht he))

theorem Target.hasRoom_of_ofPlace {p : Place Expr} {span : Span} {t : Target Expr}
    (ht : Target.ofPlace cx.metadata cx.enclosing Expr.ty span p = .ok t)
    (hroom : Expr.hasRoom cx.metadata ⟨.place p, span⟩ = true) : t.HasRoom :=
  fun _ hname => (Classified.of_ofPlace ht).args_eq_nil
    (by simpa [Expr.hasRoom] using hroom) hname

/-- What an expression is lowered to comes to its events, if what its parts are lowered to
does. -/
theorem Lowers.conserves (hnames : cx.names.Separated) {e : Expr} {n n' : Nat} {w : Lowered}
    (hroom : e.Everywhere (·.hasRoom cx.metadata = true))
    (hparts : ∀ c ∈ e.parts, Conserves cx c) (h : Lowers cx e n w n') :
    Matches (e.events cx) (Script.events cx.names w.stmts ++ w.expr.events cx.names) := by
  cases h with
  | @literal value =>
    refine Follows.matches ?_
    cases value <;> simp [Literal.script, Script.Expr.events]
  | @defaultValue ty =>
    refine Follows.matches ?_
    unfold Context.defaultValue
    cases cx.metadata.semantics ty <;>
      simp [Script.Expr.events, Script.callEvents, Script.helperEvents, RuntimeNames.silent]
  | this => exact Follows.matches (by simp [Script.Expr.events])
  | load hthis htarget haddr hload =>
    have hyes := Target.hasRoom_of_ofPlace htarget hroom.here
    rw [Expr.events_load hthis htarget]
    exact (Lowers.load hthis htarget haddr hload |>.retains hnames hthis htarget
      (.of_ofPlace htarget (by simpa using hparts)) (.inl hyes)).matches hyes
  | @call _ m _ _ _ _ _ _ vs _ hmethod htaken hobjects =>
    have hlen := htaken.length_handed m.params hobjects
    have hall := htaken.conserves (by rwa [map_snd_map_capture])
    rw [map_snd_map_capture] at hall
    rw [Expr.events_call, events_callScript hnames hobjects, Context.events_handed vs hlen,
      ← List.flatMap_append, ← List.append_assoc]
    exact hall.append (follows_callEvents hmethod hlen).matches
  | callInline hmethod htaken _ htext =>
    have hall := htaken.conserves (by rwa [map_snd_map_capture])
    rw [htaken.events_eq_nil_of_reuse, List.append_nil, map_snd_map_capture] at hall
    rw [Expr.events_call]
    exact hall.append (follows_callEvents_inline hmethod htext).matches
  | binary htaken =>
    rw [Expr.events_binary]
    simpa [Script.Expr.events] using htaken.conserves (by simpa using hparts)
  | @assign a span _ _ _ h =>
    have hvalue : Conserves cx a.value := hparts _ (Expr.value_mem_parts a span)
    obtain ⟨t, htarget⟩ := h.exists_target
    obtain ⟨p, hp, hplace⟩ := Expr.target_arranges htarget
    have hyes := Target.hasRoom_of_ofPlace hplace (Expr.eq_of_place hp ▸ hroom.target.here)
    have ht : t.Conserving cx := .of_ofPlace hplace fun e he =>
      hparts e (Expr.place_mem_parts (Expr.place?_of_place hp) span he)
    rw [Expr.events_assign htarget]
    exact (h.retains hnames hvalue htarget ht (.inl hyes)).matches hyes

/-- **Effects happen once.** Lowering an expression comes to all its events, if every indexer
in it has room for its arguments. -/
theorem Conserves.of_everywhere (hnames : cx.names.Separated) (e : Expr)
    (hroom : e.Everywhere (·.hasRoom cx.metadata = true)) : Conserves cx e := by
  induction e using Expr.inductParts with
  | step e ih =>
    intro n n' w h
    exact (Lowers.of_lower h).conserves hnames hroom fun c hc => ih c hc (hroom.part c hc)

end AssignmentLowering
