import AssignmentLowering.Proofs.Effects.OwnedTarget

/-!
# Stores of what is owned

Each form of assignment stores a copy, or something that nobody else has. Where script
assigns to the target itself the value is used once; where a call stores it, and its value
is wanted besides, it is used twice and stored as a copy. A compound assignment makes its
new value from the old one, so what it stores is new.

## Main statements

* `Addressed.owning_native`, `Addressed.owning_readBack` — targets that script assigns to.
* `Addressed.owning_byCall` — targets that are stored by a call.
* `Addressed.owning_compoundNative`, `Addressed.owning_compoundByCall` — compound forms.
* `LowersAssign.owning` — every assignment.
-/

namespace AssignmentLowering

open Script (Stmt)

variable {cx : Context} {usage : Usage} {value : Expr} {t : Target Expr}
  {addr : LoweredAddress} {v : Value} {place store : Script.Expr} {stmts stmts' : List Stmt}
  {n m n' : Nat}

/-! ## Plain assignments -/

/-- A target that script assigns to is assigned what is owned. -/
theorem Addressed.owning_native (ht : t.Owning cx) (hvalue : LowersOwning cx value)
    (hty : value.ty = t.ty) (hnative : t.isNative = true)
    (haddr : Addressed cx false [value] t n addr stmts m)
    (htaken : Taken cx {} [] value m v stmts' n')
    (hplace : t.native cx.names addr.address = .ok place) :
    Owning cx n n' (stmts ++ stmts') [.assign place (cx.copied t.ty v.fresh 1 v.expr)]
      (t.addressEvents cx ++ value.events cx ++ t.writeEvents cx.names) := by
  obtain ⟨hall, -, hfresh⟩ := haddr.owning_value ht hvalue htaken
  obtain ⟨hsub, -, hwritten⟩ := Target.events_native ht.wellFormed haddr.fits hplace
  rw [hty] at hfresh
  rw [Target.writeEvents_of_isNative hnative]
  have hm : ∀ k, Script.mentionsAll (cx.temp k)
      [.assign place (cx.copied t.ty v.fresh 1 v.expr)] ≤
        Script.mentionsAll (cx.temp k) (addr.exprs ++ [v.expr]) +
          1 * Script.mentionsAll (cx.temp k) [] := by
    intro k
    have hle := ht.mentions_native hplace k
    rw [Script.mentionsAll_append]
    simp only [Script.mentionsAll_singleton, Script.Expr.mentions, Context.mentions_copied]
    omega
  rw [← List.append_nil (addr.exprs ++ [v.expr])] at hall hfresh
  refine hall.build 1 (place.events cx.names ++ v.expr.events cx.names)
    [⟨.assign place.written, [cx.copied t.ty v.fresh 1 v.expr]⟩] rfl hm ?_ ?_ ?_
  · rw [List.flatMap_append, addr.events_exprs]
    exact hsub.append (by simp)
  · simp [Script.Expr.events]
  · refine .cons ⟨by simp [hwritten, Label.Renders], .cons ?_ .nil⟩ .nil
    exact .copied_once (hfresh.build (by simp) 1 hm)

/-- So is one that is read back, the operands of which are used twice and the value once. -/
theorem Addressed.owning_readBack (ht : t.Owning cx) (hvalue : LowersOwning cx value)
    (hty : value.ty = t.ty) (hnative : t.isNative = true)
    (haddr : Addressed cx true [value] t n addr stmts m)
    (htaken : Taken cx {} [] value m v stmts' n')
    (hplace : t.native cx.names addr.address = .ok place) :
    Owning cx n n' (stmts ++ stmts' ++ [.expr (.assign place (cx.copied t.ty v.fresh 1 v.expr))])
      [place] (t.addressEvents cx ++ value.events cx ++ t.writeEvents cx.names) := by
  obtain ⟨hall, -, hfresh⟩ := haddr.owning_value ht hvalue htaken
  obtain ⟨hsub, -, hwritten⟩ := Target.events_native ht.wellFormed haddr.fits hplace
  have hquiet := haddr.quiet_of_reuse ht.avoids
  have hplaceQuiet : place.events cx.names = [] := by
    rw [← addr.events_exprs, hquiet] at hsub
    exact List.sublist_nil.1 hsub
  rw [hty] at hfresh
  rw [Target.writeEvents_of_isNative hnative]
  have hm : ∀ k, Script.mentionsAll (cx.temp k)
      [.assign place (cx.copied t.ty v.fresh 1 v.expr), place] ≤
        Script.mentionsAll (cx.temp k) [v.expr] +
          2 * Script.mentionsAll (cx.temp k) addr.exprs := by
    intro k
    have hle := ht.mentions_native hplace k
    rw [← List.singleton_append, Script.mentionsAll_append]
    simp only [Script.mentionsAll_singleton, Script.Expr.mentions, Context.mentions_copied]
    omega
  have hall' := hall.exprs_perm List.perm_append_comm
  have hfresh' := hfresh.exprs_perm List.perm_append_comm
  refine (hall'.build 2 (v.expr.events cx.names)
    [⟨.assign place.written, [cx.copied t.ty v.fresh 1 v.expr]⟩] hquiet hm ?_ ?_ ?_).push
  · simp
  · simp [Script.Expr.events, hplaceQuiet]
  · refine .cons ⟨by simp [hwritten, Label.Renders], .cons ?_ .nil⟩ .nil
    exact .copied_once (hfresh'.build (by simp) 2 hm)

/-- A store by a call of a value that is used besides: it is stored as a copy. -/
theorem Addressed.owning_kept (hnames : cx.names.Separated) (ht : t.Owning cx)
    (hvalue : LowersOwning cx value) {reuse reordered : Bool}
    (haddr : Addressed cx reuse [value] t n addr stmts m)
    (htaken : Taken cx ⟨true, reordered⟩ [] value m v stmts' n')
    (hstore : t.store cx.names (addr.passed cx t.setter? 1) (cx.copied t.ty v.fresh 2 v.expr) =
      .ok store) :
    Owning cx n n' (stmts ++ stmts') [store, v.expr]
      (t.addressEvents cx ++ value.events cx ++ t.writeEvents cx.names) := by
  obtain ⟨hall, hargs, -⟩ := haddr.owning_value ht hvalue htaken
  have hnone : v.expr.events cx.names = [] :=
    Script.Expr.events_of_isReusable _ (htaken.isReusable rfl)
  have hquiet : [v.expr].flatMap (Script.Expr.events cx.names) = [] := by simpa using hnone
  have hm : ∀ k, Script.mentionsAll (cx.temp k) [store, v.expr] ≤
      Script.mentionsAll (cx.temp k) addr.exprs +
        2 * Script.mentionsAll (cx.temp k) [v.expr] := by
    intro k
    have hle := ht.mentions_store hstore k
    rw [Context.mentions_copied] at hle
    rw [← List.singleton_append, Script.mentionsAll_append, Script.mentionsAll_singleton,
      Script.mentionsAll_singleton]
    omega
  refine hall.store hnames ht (haddr.fits_passed t.setter? 1) hstore 2 [v.expr] hquiet hquiet
    (fun k => ?_) ?_ (fun hruns => ?_) (.copied_again (by decide))
  · rw [addr.mentions_passed_eq, Context.mentions_copied, Script.mentionsAll_singleton]
    omega
  · rw [addr.events_passed, addr.events_exprs]
    simp [hnone]
  · rw [← haddr.map_ty]
    exact addr.owned_passed hruns fun _ x hx =>
      (hargs x hx).build (LoweredAddress.mem_exprs hx) 2 hm

/-- A store by a call of a value that is used only there. What comes besides it does nothing
and mentions no temporary. -/
theorem Addressed.owning_passed (hnames : cx.names.Separated) (ht : t.Owning cx)
    (hvalue : LowersOwning cx value) (hty : value.ty = t.ty) {reuse : Bool} {c : Capture}
    (haddr : Addressed cx reuse [value] t n addr stmts m)
    (htaken : Taken cx c [] value m v stmts' n')
    (hstore : t.store cx.names (addr.passed cx t.setter? 1) (cx.copied t.ty v.fresh 1 v.expr) =
      .ok store)
    (extra : List Script.Expr) (hextra : ∀ k, Script.mentionsAll (cx.temp k) extra = 0)
    (hquiet : extra.flatMap (Script.Expr.events cx.names) = []) :
    Owning cx n n' (stmts ++ stmts') (store :: extra)
      (t.addressEvents cx ++ value.events cx ++ t.writeEvents cx.names) := by
  obtain ⟨hall, hargs, hfresh⟩ := haddr.owning_value ht hvalue htaken
  rw [hty] at hfresh
  have hm : ∀ k, Script.mentionsAll (cx.temp k) (store :: extra) ≤
      Script.mentionsAll (cx.temp k) (addr.exprs ++ [v.expr]) +
        1 * Script.mentionsAll (cx.temp k) [] := by
    intro k
    have hle := ht.mentions_store hstore k
    rw [Context.mentions_copied] at hle
    rw [← List.singleton_append, Script.mentionsAll_append, hextra,
      Script.mentionsAll_append, Script.mentionsAll_singleton, Script.mentionsAll_singleton]
    omega
  rw [← List.append_nil (addr.exprs ++ [v.expr])] at hall hargs hfresh
  refine hall.store hnames ht (haddr.fits_passed t.setter? 1) hstore 1 extra rfl hquiet
    (fun k => ?_) ?_ (fun hruns => ?_) (.copied_once (hfresh.build (by simp) 1 hm))
  · rw [hextra, addr.mentions_passed_eq, Context.mentions_copied, Script.mentionsAll_append,
      Script.mentionsAll_singleton]
    omega
  · rw [List.flatMap_append, addr.events_passed, addr.events_exprs]
    simp
  · rw [← haddr.map_ty]
    exact addr.owned_passed hruns fun _ x hx => (hargs x hx).build
      (List.mem_append_left _ (LoweredAddress.mem_exprs hx)) 1 hm

/-- A store by a call, whether its value is wanted or not. -/
theorem Addressed.owning_byCall (hnames : cx.names.Separated) (ht : t.Owning cx)
    (hvalue : LowersOwning cx value) (hty : value.ty = t.ty) {reuse reordered more : Bool}
    (haddr : Addressed cx reuse [value] t n addr stmts m)
    (htaken : Taken cx ⟨(usage.isUsed && !t.isReceiver) || more, reordered⟩ [] value m v stmts' n')
    (hstore : t.store cx.names (addr.passed cx t.setter? 1)
      (cx.copied t.ty v.fresh (if usage.isUsed && !t.isReceiver then 2 else 1) v.expr) =
        .ok store) :
    let w := usage.finish store
      (if t.isReceiver then ⟨.this, false, true⟩ else ⟨v.expr, false, v.stable⟩)
      (stmts ++ stmts')
    Owning cx n n' w.stmts [w.expr]
      (t.addressEvents cx ++ value.events cx ++ t.writeEvents cx.names) := by
  cases usage with
  | discarded =>
    exact haddr.owning_passed hnames ht hvalue hty htaken hstore []
      (by simp [Script.mentionsAll]) rfl
  | used =>
    cases hreceiver : t.isReceiver with
    | true =>
      simp only [hreceiver, Bool.not_true, Bool.and_false, Bool.false_eq_true, if_false] at hstore
      have hstored := haddr.owning_passed hnames ht hvalue hty htaken hstore [.this]
        (by simp [Script.Expr.mentions]) (by simp [Script.Expr.events])
      simpa [Usage.finish] using hstored.push
    | false =>
      simp only [hreceiver, Usage.isUsed, Bool.not_false, Bool.and_true, Bool.true_or,
        if_true] at htaken hstore
      simpa [Usage.finish] using (haddr.owning_kept hnames ht hvalue htaken hstore).push

/-! ## Compound assignments -/

/-- The left operand of a compound operator of script. -/
theorem Addressed.owning_compoundNative (ht : t.Owning cx) (hvalue : LowersOwning cx value)
    {op : BinaryOp} (haddr : Addressed cx false [value] t n addr stmts m)
    (htaken : Taken cx {} [] value m v stmts' n')
    (hplace : t.native cx.names addr.address = .ok place) :
    Owning cx n n' (stmts ++ stmts') [.compoundAssign op place v.expr]
      (t.addressEvents cx ++ value.events cx ++
        [⟨.compoundAssign op (t.written cx.names), []⟩]) := by
  obtain ⟨hall, -, -⟩ := haddr.owning_value ht hvalue htaken
  obtain ⟨hsub, -, hwritten⟩ := Target.events_native ht.wellFormed haddr.fits hplace
  rw [← List.append_nil (addr.exprs ++ [v.expr])] at hall
  refine hall.build 1 (place.events cx.names ++ v.expr.events cx.names)
    [⟨.compoundAssign op place.written, []⟩] rfl (fun k => ?_) ?_ ?_ ?_
  · have hle := ht.mentions_native hplace k
    rw [Script.mentionsAll_append]
    simp only [Script.mentionsAll_singleton, Script.Expr.mentions]
    omega
  · rw [List.flatMap_append, addr.events_exprs]
    exact hsub.append (by simp)
  · simp [Script.Expr.events]
  · exact .cons ⟨by simp [hwritten, Label.Renders], .nil⟩ .nil

/-- Operands that are used twice are copied for each accessor. -/
theorem Addressed.owned_passed (haddr : Addressed cx true [value] t n addr stmts m)
    {accessor : Option Accessor} {l : List Stmt} {es : List Script.Expr}
    (hruns : accessor.any Accessor.runsCode = true) :
    List.Forall₂ (Owned cx l es) (t.args.map (·.ty)) (addr.passed cx accessor 2).args := by
  rw [← haddr.map_ty]
  exact addr.owned_passed hruns fun huses => absurd huses (by decide)

/-- They have no events. -/
theorem Addressed.events_passed_of_reuse (ht : t.Owning cx)
    (haddr : Addressed cx true [value] t n addr stmts m) (accessor : Option Accessor)
    (uses : Nat) : (addr.passed cx accessor uses).events cx.names = [] := by
  rw [addr.events_passed, ← addr.events_exprs, haddr.quiet_of_reuse ht.avoids]

/-- The old value is read by a call and combined with the value. The operands are kept, since
the store needs them again. -/
theorem Addressed.owning_combined (hnames : cx.names.Separated) (ht : t.Owning cx)
    (hvalue : LowersOwning cx value) {op : BinaryOp} {load old : Script.Expr} {captured : Bool}
    {stmts₁ stmts₂ : List Stmt} {n₁ n₂ : Nat}
    (haddr : Addressed cx true [value] t n addr stmts m)
    (hload : t.load cx.names (addr.passed cx t.getter? 2) = .ok load)
    (hold : Held cx load m captured old stmts₁ n₁)
    (htaken : Taken cx {} [] value n₁ v stmts₂ n₂) :
    Owning cx n n₂ (stmts ++ stmts₁ ++ stmts₂) (.binary op old v.expr :: addr.exprs)
      (t.addressEvents cx ++ t.readEvents ++ value.events cx) := by
  have hquiet := haddr.quiet_of_reuse ht.avoids
  obtain ⟨haddress, -⟩ := haddr.owning ht
  have hloaded : Owning cx n m stmts (load :: addr.exprs)
      (t.addressEvents cx ++ t.readEvents) := by
    have hstart : Owning cx n m stmts ([] ++ addr.exprs) (t.addressEvents cx) := haddress
    refine hstart.load hnames ht (haddr.fits_passed _ _) hload 2 addr.exprs hquiet hquiet
      (fun k => ?_) (by rw [haddr.events_passed_of_reuse ht]; simp) haddr.owned_passed
    rw [addr.mentions_passed_eq]
    omega
  have hright : Owning cx n₁ n₂ stmts₂ [v.expr] (value.events cx) := by
    simpa using (htaken.owning hvalue).owning
  have hcomm : (addr.exprs ++ [v.expr]).Perm ([v.expr] ++ addr.exprs) := List.perm_append_comm
  have hperm : (old :: addr.exprs ++ [v.expr]).Perm ([old, v.expr] ++ addr.exprs) :=
    hcomm.cons old
  rw [← List.append_nil (t.addressEvents cx ++ t.readEvents ++ value.events cx)]
  refine (((hloaded.held hold).append hright).exprs_perm hperm).build 1
    ([old, v.expr].flatMap (Script.Expr.events cx.names)) [] hquiet (fun k => ?_) (.refl _)
    (by simp [Script.Expr.events, hquiet]) .nil
  rw [← List.singleton_append (l := addr.exprs), Script.mentionsAll_append]
  simp [Script.mentionsAll, Script.Expr.mentions]

/-- A target that is read by one call and written by another. -/
theorem Addressed.owning_compoundByCall (hnames : cx.names.Separated) (ht : t.Owning cx)
    (hvalue : LowersOwning cx value) {op : BinaryOp} (hop : op.shortCircuits = false)
    {load old new : Script.Expr} {captured : Bool} {stmts₁ stmts₂ stmts₃ : List Stmt}
    {n₁ n₂ : Nat} (haddr : Addressed cx true [value] t n addr stmts m)
    (hload : t.load cx.names (addr.passed cx t.getter? 2) = .ok load)
    (hold : Held cx load m captured old stmts₁ n₁)
    (htaken : Taken cx {} [] value n₁ v stmts₂ n₂)
    (hnew : Held cx (.binary op old v.expr) n₂ usage.isUsed new stmts₃ n')
    (hstore : t.store cx.names (addr.passed cx t.setter? 2)
      (cx.copied t.ty true (if usage.isUsed then 2 else 1) new) = .ok store) :
    let w := usage.finish store ⟨new, false, true⟩ (stmts ++ stmts₁ ++ stmts₂ ++ stmts₃)
    Owning cx n n' w.stmts [w.expr]
      (t.addressEvents cx ++ t.readEvents ++ value.events cx ++ t.writeEvents cx.names) := by
  have hquiet := haddr.quiet_of_reuse ht.avoids
  have hpassed := haddr.events_passed_of_reuse ht t.setter? 2
  have hfits := haddr.fits_passed t.setter? 2
  have hall := (haddr.owning_combined hnames ht hvalue hload hold htaken).held hnew
  cases usage with
  | used =>
    -- The new value is in a temporary, stored as a copy, and is the result as well.
    simp only [Usage.isUsed, if_true] at hstore
    have hnewQuiet : new.events cx.names = [] := by
      cases hnew
      rfl
    have hstart : Owning cx n n' (stmts ++ stmts₁ ++ stmts₂ ++ stmts₃)
        ([] ++ new :: addr.exprs) (t.addressEvents cx ++ t.readEvents ++ value.events cx) :=
      hall
    refine (hstart.store hnames ht hfits hstore 2 [new] (by simp [hnewQuiet, hquiet])
      (by simp [hnewQuiet]) (fun k => ?_) ?_ haddr.owned_passed
      (.copied_again (by decide))).push
    · rw [addr.mentions_passed_eq, Context.mentions_copied,
        ← List.singleton_append (l := addr.exprs), Script.mentionsAll_append,
        Script.mentionsAll_singleton]
      omega
    · rw [hpassed]
      simp [hnewQuiet]
  | discarded =>
    -- The new value is stored in place.
    cases hnew
    have hisNew : (Script.Expr.binary op old v.expr).isNew cx.names = true := by
      simp [Script.Expr.isNew, hop]
    rw [← List.singleton_append] at hall
    refine hall.store hnames ht hfits hstore 1 [] hquiet rfl (fun k => ?_) ?_
      haddr.owned_passed (.copied_once fun _ _ _ => .inl hisNew)
    · rw [addr.mentions_passed_eq, Context.mentions_copied, Script.mentionsAll_singleton]
      simp [Script.mentionsAll]
      omega
    · rw [hpassed]
      simp

/-! ## Every assignment -/

/-- What an assignment is lowered to stores and hands over what is owned. -/
theorem LowersAssign.owning {a : Assignment Expr} {w : Lowered} (hnames : cx.names.Separated)
    (hvalue : LowersOwning cx a.value)
    (htargets : ∀ t, a.target.target cx.metadata cx.enclosing = .ok t → t.Owning cx)
    (htypes : a.op.binary? = none → a.value.ty = a.target.ty)
    (h : LowersAssign cx usage a n w n') (span : Span) :
    Owning cx n n' w.stmts [w.expr] ((⟨.assign a, span⟩ : Expr).events cx) := by
  have hsource : ∀ t, a.target.target cx.metadata cx.enclosing = .ok t →
      (⟨.assign a, span⟩ : Expr).events cx =
        t.addressEvents cx ++ storeEvents cx.names a.op t (a.value.events cx) :=
    fun _ ht => Expr.events_assign ht span
  have hty : ∀ t, a.target.target cx.metadata cx.enclosing = .ok t → a.op.binary? = none →
      a.value.ty = t.ty := fun t ht hop => (htypes hop).trans (Expr.ty_of_target ht).symm
  cases h with
  | @native t _ _ _ _ _ _ _ htarget hop hnative _ haddr htaken hplace =>
    rw [hsource t htarget, storeEvents, hop, ← List.append_assoc]
    exact haddr.owning_native (htargets t htarget) hvalue (hty t htarget hop) hnative htaken
      hplace
  | @readBack t _ _ _ _ _ _ _ htarget hop hnative _ haddr htaken hplace =>
    rw [hsource t htarget, storeEvents, hop, ← List.append_assoc]
    exact haddr.owning_readBack (htargets t htarget) hvalue (hty t htarget hop) hnative htaken
      hplace
  | @byCall t _ _ _ _ _ _ _ htarget hop _ haddr htaken hstore =>
    rw [hsource t htarget, storeEvents, hop, ← List.append_assoc]
    exact haddr.owning_byCall hnames (htargets t htarget) hvalue (hty t htarget hop) htaken
      hstore
  | @compoundNative t _ _ _ _ _ _ _ _ htarget hop hnative haddr htaken hplace =>
    rw [hsource t htarget, storeEvents, hop]
    simp only [hnative, if_true]
    rw [← List.append_assoc]
    exact haddr.owning_compoundNative (htargets t htarget) hvalue htaken hplace
  | @compoundByCall t _ _ _ _ _ _ _ _ _ _ _ _ _ _ _ htarget hop hnative _ haddr hload hold
      htaken hnew hstore =>
    have ht := htargets t htarget
    rw [hsource t htarget, storeEvents, hop]
    simp only [hnative, Bool.false_eq_true, if_false]
    rw [← List.append_assoc, ← List.append_assoc]
    rw [ht.typed.setter, Bool.or_false] at hnew
    exact haddr.owning_compoundByCall hnames ht hvalue (AssignOp.shortCircuits_binary? hop) hload
      hold htaken hnew hstore

end AssignmentLowering
