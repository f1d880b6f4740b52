import AssignmentLowering.Proofs.Effects.Fresh

/-!
# Targets whose operands are owned

What finding a target adds to the script is owned if it is so for the operands of its
place, and the values found keep their mark. So script that reads the target, or writes
it, from the operands at hand is owned too: whatever it hands to an accessor that runs
code was copied, or is new.

## Main definitions

* `Target.Owning` — what is known about a target when copies are made.
* `Target.addressEvents`, `LoweredAddress.exprs` — its operands in source and in script.

## Main statements

* `Addressed.owning`, `Addressed.owning_value` — a target, and a value behind it.
* `Target.Owning.mentions_native`, `Target.Owning.mentions_load`,
  `Target.Owning.mentions_store` — which temporaries script for a target mentions.
* `Owning.load`, `Owning.store` — reading and writing, from the operands at hand.
* `Addressed.owning_load` — a target that is read as a value.
-/

namespace AssignmentLowering

open Script (Stmt)

variable {cx : Context}

/-! ## Finding a target -/

/-- What is known about a target when copies are made. -/
structure Target.Owning (cx : Context) (t : Target Expr) : Prop where
  wellFormed : t.WellFormed
  avoids : t.AvoidsTemps cx
  typed : t.WellTyped
  operands : ∀ e ∈ t.operands, LowersOwning cx e
  omitted : ∀ e ∈ t.omitted, LowersOwning cx e

section

variable {reuse : Bool} {rest : List Expr} {t : Target Expr} {n n' : Nat} {a : LoweredAddress}
  {stmts : List Stmt}

/-- The events of finding a target in source. -/
def Target.addressEvents (cx : Context) (t : Target Expr) : List (Event TypeRef) :=
  t.operands.flatMap (Expr.events cx) ++ t.omitted.flatMap (Expr.events cx)

/-- The operands of a target in script. -/
def LoweredAddress.exprs (a : LoweredAddress) : List Script.Expr :=
  a.address.object.toList ++ a.address.args

theorem Addressed.owning (ht : t.Owning cx) (h : Addressed cx reuse rest t n a stmts n') :
    Owning cx n n' stmts a.exprs (t.addressEvents cx) ∧
      ∀ x ∈ a.args, FreshIn cx stmts a.exprs x.ty x.fresh x.expr := by
  obtain ⟨indices, harr⟩ := ht.avoids.arranges
  obtain ⟨vs, ds, stmts₁, stmts₂, m, htaken, hasides, rfl, hperm, -, hargs⟩ := h.split harr
  have hvs : OwningValues cx n m stmts₁ t.operands vs := by
    simpa using htaken.owning (by simpa using ht.operands)
  have hall := hvs.append (hasides.owning ht.omitted)
  have hexprs : ((vs ++ ds).map (·.expr)).Perm a.exprs := by
    rw [List.map_append]
    exact hperm.symm
  have hevents := hall.owning
  rw [List.flatMap_append] at hevents
  refine ⟨hevents.exprs_perm hexprs, fun x hx => ?_⟩
  obtain ⟨arg, harg, v, rfl, hv⟩ := exists_of_forall₂ hargs hx
  have hfresh : FreshIn cx (stmts₁ ++ stmts₂) ((vs ++ ds).map (·.expr)) arg.value.ty v.fresh
      v.expr := by
    refine (List.forall₂_iff_zip.1 hall.fresh).2 ?_
    rw [List.zip_append hvs.fresh.length_eq]
    exact List.mem_append.2 hv
  rw [ht.typed.args arg harg] at hfresh
  exact hfresh.exprs_perm hexprs

/-- The operands of a target and then a value. -/
theorem Addressed.owning_value {value : Expr} {c : Capture} {v : Value} {stmts' : List Stmt}
    {n'' : Nat} (ht : t.Owning cx) (hvalue : LowersOwning cx value)
    (h : Addressed cx reuse [value] t n a stmts n')
    (htaken : Taken cx c [] value n' v stmts' n'') :
    Owning cx n n'' (stmts ++ stmts') (a.exprs ++ [v.expr])
        (t.addressEvents cx ++ value.events cx) ∧
      (∀ x ∈ a.args, FreshIn cx (stmts ++ stmts') (a.exprs ++ [v.expr]) x.ty x.fresh x.expr) ∧
      FreshIn cx (stmts ++ stmts') (a.exprs ++ [v.expr]) value.ty v.fresh v.expr := by
  obtain ⟨haddress, hargs⟩ := h.owning ht
  have hlast := htaken.owning hvalue
  have howning : Owning cx n' n'' stmts' [v.expr] (value.events cx) := by
    simpa using hlast.owning
  have hfresh : FreshIn cx stmts' [v.expr] value.ty v.fresh v.expr := by
    cases hlast.fresh with
    | cons hv _ => exact hv
  exact ⟨haddress.append howning,
    fun x hx => (hargs x hx).append_left haddress.confined howning.confined,
    hfresh.append_right haddress.confined howning.confined⟩

/-- Arguments handed to an accessor are owned. -/
theorem LoweredAddress.owned_passed {es : List Script.Expr} {accessor : Option Accessor}
    {uses : Nat} (hruns : accessor.any Accessor.runsCode = true)
    (hargs : uses = 1 → ∀ x ∈ a.args, FreshIn cx stmts es x.ty x.fresh x.expr) :
    List.Forall₂ (Owned cx stmts es) (a.args.map (·.ty)) (a.passed cx accessor uses).args := by
  simp only [LoweredAddress.passed, hruns, if_true]
  rw [List.forall₂_map_left_iff, List.forall₂_map_right_iff, List.forall₂_same]
  intro x hx
  by_cases huses : uses = 1
  · subst huses
    exact .copied_once (hargs rfl x hx)
  · exact .copied_again huses

end

/-- The operands of a target are owned if those of its place are. -/
theorem Target.Owning.of_ofPlace {p : Place Expr} {span : Span} {t : Target Expr}
    (ht : Target.ofPlace cx.metadata cx.enclosing Expr.ty span p = .ok t)
    (htyped : (⟨.place p, span⟩ : Expr).WellTyped cx)
    (havoids : (⟨.place p, span⟩ : Expr).avoidsTemps cx)
    (hparts : ∀ e ∈ p.operands ++ p.defaults, LowersOwning cx e) : t.Owning cx where
  wellFormed := (Classified.of_ofPlace ht).wellFormed
  avoids := .of_ofPlace ht havoids fun e he => (hparts e he).confined
  typed := htyped.place p t rfl ht
  operands e he := hparts e (List.mem_append_left _ (Target.operands_ofPlace ht ▸ he))
  omitted e he := hparts e (List.mem_append_right _ (Target.mem_defaults_of_mem_omitted ht he))

theorem Target.Owning.of_assign {a : Assignment Expr} {span : Span} {t : Target Expr}
    (htyped : Expr.Everywhere (·.WellTyped cx) ⟨.assign a, span⟩)
    (havoids : Expr.Everywhere (·.avoidsTemps cx) ⟨.assign a, span⟩)
    (hparts : ∀ e ∈ (⟨.assign a, span⟩ : Expr).parts, LowersOwning cx e)
    (ht : a.target.target cx.metadata cx.enclosing = .ok t) : t.Owning cx := by
  obtain ⟨p, hp, hplace⟩ := Expr.target_arranges ht
  have htarget := Expr.eq_of_place hp
  exact .of_ofPlace hplace (htarget ▸ htyped.target.here) (htarget ▸ havoids.target.here)
    fun e he => hparts e (Expr.place_mem_parts (Expr.place?_of_place hp) span he)

theorem LoweredAddress.events_exprs (a : LoweredAddress) :
    a.exprs.flatMap (Script.Expr.events cx.names) = a.address.events cx.names :=
  (Address.events_eq ..).symm

theorem LoweredAddress.mentions_exprs (a : LoweredAddress) (x : String) :
    Script.mentionsAll x a.exprs = a.address.mentions x := (Address.mentions_eq ..).symm

/-- The operands of an accessor are copies of those at hand. -/
theorem LoweredAddress.mentions_passed_eq (a : LoweredAddress) (accessor : Option Accessor)
    (uses : Nat) (x : String) :
    (a.passed cx accessor uses).mentions x = Script.mentionsAll x a.exprs := by
  rw [a.mentions_passed, a.mentions_exprs]

theorem LoweredAddress.mem_exprs {a : LoweredAddress} {x : IndexValue} (hx : x ∈ a.args) :
    x.expr ∈ a.exprs := List.mem_append_right _ (List.mem_map_of_mem hx)

/-- Operands needed more than once have no events. -/
theorem Addressed.quiet_of_reuse {rest : List Expr} {t : Target Expr} {n n' : Nat}
    {a : LoweredAddress} {stmts : List Stmt} (ht : t.AvoidsTemps cx)
    (h : Addressed cx true rest t n a stmts n') :
    a.exprs.flatMap (Script.Expr.events cx.names) = [] := by
  obtain ⟨indices, harr⟩ := ht.arranges
  rw [List.flatMap_eq_nil_iff]
  exact fun e he => Script.Expr.events_of_isReusable _ (h.isReusable harr e he)

/-! ## Reading and writing -/

section

variable {t : Target Expr} {addr : LoweredAddress} {accessor : Option Accessor} {uses : Nat}
  {e value : Script.Expr}

/-- Script for a target mentions no temporaries but those of the operands at hand. -/
theorem Target.Owning.mentions_native (ht : t.Owning cx)
    (h : t.native cx.names addr.address = .ok e) (k : Nat) :
    e.mentions (cx.temp k) ≤ Script.mentionsAll (cx.temp k) addr.exprs := by
  rw [addr.mentions_exprs]
  exact Target.mentions_native (ht.avoids.localVar k) (ht.avoids.cell k) h

theorem Target.Owning.mentions_load (ht : t.Owning cx)
    (h : t.load cx.names (addr.passed cx accessor uses) = .ok e) (k : Nat) :
    e.mentions (cx.temp k) ≤ Script.mentionsAll (cx.temp k) addr.exprs := by
  rw [← addr.mentions_passed_eq accessor uses]
  exact Target.mentions_load (ht.avoids.localVar k) (ht.avoids.cell k) h

theorem Target.Owning.mentions_store (ht : t.Owning cx)
    (h : t.store cx.names (addr.passed cx accessor uses) value = .ok e) (k : Nat) :
    e.mentions (cx.temp k) ≤
      Script.mentionsAll (cx.temp k) addr.exprs + value.mentions (cx.temp k) := by
  rw [← addr.mentions_passed_eq accessor uses]
  exact Target.mentions_store (ht.avoids.localVar k) (ht.avoids.cell k) h

end

section

variable {t : Target Expr} {addr : Address} {n n' : Nat} {stmts : List Stmt}
  {es₁ es₂ : List Script.Expr} {source : List (Event TypeRef)} {e value : Script.Expr}

/-- Script that reads a target, made of the expressions at hand. -/
theorem Owning.load (h : Owning cx n n' stmts (es₁ ++ es₂) source)
    (hnames : cx.names.Separated) (ht : t.Owning cx) (hfits : addr.Fits t)
    (hload : t.load cx.names addr = .ok e) (c : Nat) (extra : List Script.Expr)
    (hquiet : es₂.flatMap (Script.Expr.events cx.names) = [])
    (hextra : extra.flatMap (Script.Expr.events cx.names) = [])
    (hm : ∀ k, addr.mentions (cx.temp k) + Script.mentionsAll (cx.temp k) extra ≤
      Script.mentionsAll (cx.temp k) es₁ + c * Script.mentionsAll (cx.temp k) es₂)
    (hkept : (addr.events cx.names).Sublist (es₁.flatMap (Script.Expr.events cx.names)))
    (hargs : t.getter?.any Accessor.runsCode = true →
      List.Forall₂ (Owned cx stmts (e :: extra)) (t.args.map (·.ty)) addr.args) :
    Owning cx n n' stmts (e :: extra) (source ++ t.readEvents) := by
  obtain ⟨before, reads, hreads, hbefore, -, hrenders⟩ := Target.events_load hnames
    ht.wellFormed hfits (fun hi => by rw [ht.typed.getter] at hi; cases hi) hargs hload
  refine h.build c before reads hquiet (fun k => ?_) (hbefore.trans hkept) ?_ hrenders
  · have hle := Target.mentions_load (ht.avoids.localVar k) (ht.avoids.cell k) hload
    have := hm k
    rw [← List.singleton_append, Script.mentionsAll_append, Script.mentionsAll_singleton]
    omega
  · rw [List.flatMap_cons, hextra, List.append_nil, hreads]

/-- Script that writes a target, made of the expressions at hand. -/
theorem Owning.store (h : Owning cx n n' stmts (es₁ ++ es₂) source)
    (hnames : cx.names.Separated) (ht : t.Owning cx) (hfits : addr.Fits t)
    (hstore : t.store cx.names addr value = .ok e) (c : Nat) (extra : List Script.Expr)
    (hquiet : es₂.flatMap (Script.Expr.events cx.names) = [])
    (hextra : extra.flatMap (Script.Expr.events cx.names) = [])
    (hm : ∀ k, addr.mentions (cx.temp k) + value.mentions (cx.temp k) +
        Script.mentionsAll (cx.temp k) extra ≤
      Script.mentionsAll (cx.temp k) es₁ + c * Script.mentionsAll (cx.temp k) es₂)
    (hkept : (addr.events cx.names ++ value.events cx.names).Sublist
      (es₁.flatMap (Script.Expr.events cx.names)))
    (hargs : t.setter?.any Accessor.runsCode = true →
      List.Forall₂ (Owned cx stmts (e :: extra)) (t.args.map (·.ty)) addr.args)
    (hvalue : Owned cx stmts (e :: extra) t.ty value) :
    Owning cx n n' stmts (e :: extra) (source ++ t.writeEvents cx.names) := by
  obtain ⟨before, writes, hwrites, hbefore, -, hrenders⟩ := Target.events_store hnames
    ht.wellFormed hfits (fun hi => by rw [ht.typed.setter] at hi; cases hi) hargs hvalue hstore
  refine h.build c (before ++ value.events cx.names) writes hquiet (fun k => ?_)
    ((hbefore.append_right _).trans hkept) ?_ hrenders
  · have hle := Target.mentions_store (ht.avoids.localVar k) (ht.avoids.cell k) hstore
    have := hm k
    rw [← List.singleton_append, Script.mentionsAll_append, Script.mentionsAll_singleton]
    omega
  · rw [List.flatMap_cons, hextra, List.append_nil, hwrites]

end

/-- A target that is read is handed arguments that are owned. -/
theorem Addressed.owning_load {t : Target Expr} {addr : LoweredAddress} {load : Script.Expr}
    {reuse : Bool} {rest : List Expr} {stmts : List Stmt} {n n' : Nat}
    (hnames : cx.names.Separated) (ht : t.Owning cx)
    (haddr : Addressed cx reuse rest t n addr stmts n')
    (hload : t.load cx.names (addr.passed cx t.getter? 1) = .ok load) :
    Owning cx n n' stmts [load] (t.addressEvents cx ++ t.readEvents) := by
  obtain ⟨hall, hargs⟩ := haddr.owning ht
  have hm : ∀ k, Script.mentionsAll (cx.temp k) [load] ≤
      Script.mentionsAll (cx.temp k) addr.exprs +
        1 * Script.mentionsAll (cx.temp k) [] := by
    intro k
    have hle := ht.mentions_load hload k
    rw [Script.mentionsAll_singleton]
    omega
  rw [← List.append_nil addr.exprs] at hall hargs
  refine hall.load hnames ht (haddr.fits_passed _ _) hload 1 [] rfl rfl (fun k => ?_) ?_
    fun hruns => ?_
  · rw [addr.mentions_passed_eq]
    simp [Script.mentionsAll]
  · rw [addr.events_passed, ← addr.events_exprs]
  · rw [← haddr.map_ty]
    exact addr.owned_passed hruns fun _ x hx =>
      (hargs x hx).build (LoweredAddress.mem_exprs hx) 1 hm

end AssignmentLowering
