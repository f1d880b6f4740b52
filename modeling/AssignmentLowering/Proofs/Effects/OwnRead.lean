import AssignmentLowering.Proofs.Effects.StoreResult
import AssignmentLowering.Proofs.Lowering.Evaluated

/-!
# What an assignment calls

Calls are neither made nor lost on the way from an operand to the place where it is used,
except that an access may leave an operand out. So the calls of a kind in what an assignment
is lowered to are at most those that its operands are lowered to, and those that the access
itself makes. A simple assignment writes its target and does not read it: if setter and
getter have different names, all calls of the getter come from operands.

## Main definitions

* `Target.readCall` — the calls that read a target.
* `Lowered.calls` — the calls in what an expression is lowered to.
* `Assignment.ReadsBelow` — an assignment reads by what its operands are lowered to.

## Main statements

* `Target.isCallOf_load`, `Classified.isCallOf_store` — reading is such a call, writing none.
* `LowersAssign.readsBelow` — a simple assignment does not read its target.
* `Task.leavesStoresUnused` — stores are not used, and simple assignments read nothing of
  their own, in all that is lowered in a body.
-/

namespace AssignmentLowering

open Script (Stmt)

variable {cx : Context} {setters : List String}

/-- Calls that read the target: those of its getter, and of the helper for an element by
several indices with as many of them. -/
def Target.readCall {ε : Type} (names : RuntimeNames) (t : Target ε) : Script.CallKind :=
  fun callee args =>
    match t.kind, t.getter? with
    | .multiElement, _ => callee = .ident names.multiGet ∧ args.length = t.args.length + 1
    | _, some (.method name) => Script.callsMethod names [name] callee args
    | _, _ => false

/-- How many calls of a kind there are in what an expression is lowered to. -/
def Lowered.calls (k : Script.CallKind) (w : Lowered) : Nat :=
  Script.callsIn k w.stmts + w.expr.calls k

/-- The expression is lowered at some point. -/
def LoweredTo (cx : Context) (e : Expr) (w : Lowered) : Prop := ∃ n n', e.lower cx n = .ok w n'

/-- All calls that read the target of the assignment are in what its operands, its defaults
and its value are lowered to. -/
def Assignment.ReadsBelow (cx : Context) (a : Assignment Expr) (w : Lowered) : Prop :=
  ∀ t, a.target.target cx.metadata cx.enclosing = .ok t →
    ∃ ws, List.Forall₂ (LoweredTo cx) (t.operands ++ t.omitted ++ [a.value]) ws ∧
      w.calls (t.readCall cx.names) ≤ (ws.map (Lowered.calls (t.readCall cx.names))).sum

section

variable {k : Script.CallKind} {n n' : Nat} {stmts : List Stmt}

theorem Held.calls {e x : Script.Expr} {flag : Bool} (h : Held cx e n flag x stmts n') :
    Script.callsIn k stmts + x.calls k = e.calls k := by
  cases h with
  | inline => simp
  | captured => simp [Script.Expr.calls]

theorem Taken.exists_lowered {c : Capture} {later : List Expr} {o : Expr} {v : Value}
    (h : Taken cx c later o n v stmts n') :
    ∃ w, LoweredTo cx o w ∧ Script.callsIn k stmts + v.expr.calls k = w.calls k := by
  cases h with
  | @intro w m _ _ _ hlower hheld =>
    refine ⟨w, ⟨n, m, hlower⟩, ?_⟩
    rw [Lowered.calls, ← hheld.calls (k := k), Script.callsIn_append, Nat.add_assoc]

theorem TakenAll.exists_lowered {rest : List Expr} {items : List (Capture × Expr)}
    {vs : List Value} (h : TakenAll cx rest items n vs stmts n') :
    ∃ ws, List.Forall₂ (LoweredTo cx) (items.map (·.2)) ws ∧
      Script.callsIn k stmts + (vs.map (·.expr.calls k)).sum =
        (ws.map (Lowered.calls k)).sum := by
  induction h with
  | nil => exact ⟨[], .nil, rfl⟩
  | cons hhead _ ih =>
    obtain ⟨w, hw, hcalls⟩ := hhead.exists_lowered (k := k)
    obtain ⟨ws, hws, hsum⟩ := ih
    refine ⟨w :: ws, .cons hw hws, ?_⟩
    simp only [Script.callsIn_append, List.map_cons, List.sum_cons]
    omega

theorem Asides.exists_lowered {reuse : Bool} {os : List Expr} {ds : List Value}
    (h : Asides cx reuse os n ds stmts n') :
    ∃ ws, List.Forall₂ (LoweredTo cx) os ws ∧
      Script.callsIn k stmts + (ds.map (·.expr.calls k)).sum =
        (ws.map (Lowered.calls k)).sum := by
  induction h with
  | nil => exact ⟨[], .nil, rfl⟩
  | cons hhead _ ih =>
    obtain ⟨w, hw, hcalls⟩ := hhead.exists_lowered (k := k)
    obtain ⟨ws, hws, hsum⟩ := ih
    refine ⟨w :: ws, .cons hw hws, ?_⟩
    simp only [Script.callsIn_append, List.map_cons, List.sum_cons]
    omega

/-- The calls in the operands of a target are those that the operands are lowered to. -/
theorem Addressed.exists_lowered {reuse : Bool} {rest : List Expr} {t : Target Expr}
    {a : LoweredAddress} {indices : List Expr} (ht : Arranges t.args indices)
    (h : Addressed cx reuse rest t n a stmts n') :
    ∃ ws, List.Forall₂ (LoweredTo cx) (t.operands ++ t.omitted) ws ∧
      Script.callsIn k stmts + a.address.calls k = (ws.map (Lowered.calls k)).sum := by
  obtain ⟨vs, ds, stmts₁, stmts₂, m, htaken, hasides, rfl, hperm, -⟩ := h.split ht
  obtain ⟨ws, hws, hsum⟩ := htaken.exists_lowered (k := k)
  obtain ⟨ws', hws', hsum'⟩ := hasides.exists_lowered (k := k)
  rw [Target.map_snd_captures] at hws
  refine ⟨ws ++ ws', List.rel_append hws hws', ?_⟩
  have haddress : a.address.calls k =
      (vs.map (·.expr.calls k)).sum + (ds.map (·.expr.calls k)).sum := by
    rw [Address.calls, (hperm.map _).sum_nat]
    simp [Function.comp_def]
  simp only [Script.callsIn_append, haddress, List.map_append, List.sum_append]
  omega

theorem Addressed.exists_lowered_value {reuse : Bool} {rest later : List Expr} {t : Target Expr}
    {a : LoweredAddress} {indices : List Expr} (ht : Arranges t.args indices)
    (h : Addressed cx reuse rest t n a stmts n') {c : Capture} {value : Expr} {m m' : Nat}
    {v : Value} {stmts' : List Stmt} (htaken : Taken cx c later value m v stmts' m') :
    ∃ ws, List.Forall₂ (LoweredTo cx) (t.operands ++ t.omitted ++ [value]) ws ∧
      Script.callsIn k (stmts ++ stmts') + a.address.calls k + v.expr.calls k =
        (ws.map (Lowered.calls k)).sum := by
  obtain ⟨ws, hws, hsum⟩ := h.exists_lowered (k := k) ht
  obtain ⟨w, hw, hcalls⟩ := htaken.exists_lowered (k := k)
  refine ⟨ws ++ [w], List.rel_append hws (.cons hw .nil), ?_⟩
  simp only [Script.callsIn_append, List.map_append, List.sum_append, List.map_cons,
    List.map_nil, List.sum_cons, List.sum_nil]
  omega

/-- A store counts where it ends up, and a result without calls does not. -/
theorem Usage.calls_finish {usage : Usage} {store : Script.Expr} {result : Value}
    (h : usage = .used → result.expr.calls k = 0) :
    (usage.finish store result stmts).calls k =
      Script.callsIn k stmts + store.calls k := by
  cases usage with
  | used => simp [finish, Lowered.calls, h rfl]
  | discarded => rfl

theorem LoweredAddress.calls_passed (hcopies : k.SparesCopies cx.names) (a : LoweredAddress)
    (accessor : Option Accessor) (uses : Nat) :
    (a.passed cx accessor uses).calls k = a.address.calls k := by
  unfold LoweredAddress.passed
  split
  · simp [Address.calls, LoweredAddress.address, Context.copied, hcopies.calls_copied,
      Function.comp_def]
  · rfl

/-- Operands that are used again have no calls. -/
theorem Addressed.calls_eq_zero {rest : List Expr} {t : Target Expr} {a : LoweredAddress}
    {indices : List Expr} (ht : Arranges t.args indices)
    (h : Addressed cx true rest t n a stmts n') : a.address.calls k = 0 := by
  rw [Address.calls, List.sum_eq_zero_iff_forall_eq_nat, List.forall_mem_map]
  exact fun e he => Script.Expr.calls_of_isReusable k (h.isReusable ht e he)

end

section

variable {md : Metadata} {typeOf : Expr → TypeRef} {span : Span} {p : Place Expr}
  {t : Target Expr} {names : RuntimeNames}

/-- An element by several indices has at least two. -/
theorem Classified.two_le_args (h : Classified md typeOf span p t)
    (hkind : t.kind = .multiElement) : 2 ≤ t.args.length := by
  cases h with
  | multiElement => simp [IndexArg.inOrder]
  | @localVar l => cases hl : l.byRef <;> simp [Target.plain, hl] at hkind
  | @field r | @property r | @resolved r | @candidates r =>
    cases r <;> simp [Target.plain, Target.through, Receiver.isStatic] at hkind
  | _ => cases hkind

theorem Classified.sparesCopies_readCall (h : Classified md typeOf span p t) :
    (t.readCall names).SparesCopies names := by
  intro value tag
  unfold Target.readCall
  split
  case h_1 hkind =>
    have hargs := h.two_le_args hkind
    simp only [List.length_cons, List.length_nil, decide_eq_false_iff_not, not_and]
    omega
  case h_2 name _ _ => exact Script.sparesCopies_callsMethod names [name] value tag
  case h_3 => rfl

/-- If reading a target takes a call, it is one of these. -/
theorem Target.isCallOf_load (hkind : t.kind ≠ .receiver)
    (hcall : t.kind = .multiElement ∨ ∃ name, t.getter? = some (.method name)) {a : Address}
    (ha : a.Fits t) {e : Script.Expr} (h : t.load names a = .ok e) :
    e.isCallOf (t.readCall names) = true := by
  unfold load at h
  split at h
  case h_1 hreceiver => exact absurd hreceiver hkind
  case h_2 hmulti =>
    cases h
    simp [Script.Expr.isCallOf, readCall, hmulti, ha.args]
  case h_3 hmulti =>
    obtain hkind | ⟨name, hgetter⟩ := hcall
    · exact absurd hkind hmulti
    · simp only [hgetter, useAccessor] at h
      cases hd : t.dispatch with
      | dynamic | bound =>
        simp only [hd, Except.ok.injEq] at h
        subst h
        simp [Script.Expr.isCallOf, Script.Expr.callMethod, callBase, readCall, hgetter,
          Script.callsMethod, Script.baseMethod?]

/-- A setter is not the getter, if they have different names. -/
theorem Target.isCallOf_setter (hkind : t.kind ≠ .multiElement)
    (hapart : ∀ name, t.getter? = some (.method name) → t.setter? ≠ some (.method name))
    {setter : Accessor} (hsetter : t.setter? = some setter) {a : Address}
    {value : Option Script.Expr} {e : Script.Expr}
    (h : t.useAccessor names a value setter = .ok e) : e.isCallOf (t.readCall names) = false := by
  have hread : ∀ callee args, t.readCall names callee args = true →
      ∃ name, t.getter? = some (.method name) ∧
        Script.callsMethod names [name] callee args = true := by
    intro callee args hcall
    unfold readCall at hcall
    split at hcall
    · exact absurd ‹_› hkind
    · exact ⟨_, ‹_›, hcall⟩
    · cases hcall
  rw [Bool.eq_false_iff]
  intro hcall
  cases setter with
  | method name =>
    simp only [useAccessor] at h
    cases hd : t.dispatch with
    | dynamic =>
      simp only [hd, Except.ok.injEq] at h
      subst h
      obtain ⟨name', hgetter, hname⟩ := hread _ _ hcall
      obtain rfl : name = name' := by simpa [Script.callsMethod] using hname
      exact hapart name hgetter hsetter
    | bound declaring =>
      simp only [hd, Except.ok.injEq] at h
      subst h
      obtain ⟨name', hgetter, hname⟩ := hread _ _ hcall
      obtain rfl : name = name' := by
        simpa [Script.callsMethod, Script.baseMethod?] using hname
      exact hapart name hgetter hsetter
  | inline template =>
    simp only [useAccessor] at h
    cases htext : Template.substitute template t.span (t.operand? a value) with
    | error err => simp [htext, Except.map] at h
    | ok text =>
      simp only [htext, Except.map, Except.ok.injEq] at h
      subst h
      cases hcall
  | subscript =>
    simp only [useAccessor, subscript] at h
    split at h
    · cases h
      cases value <;> cases hcall
    · cases h

/-- Writing a target is not reading it, if setter and getter have different names. -/
theorem Classified.isCallOf_store (h : Classified md typeOf span p t)
    (hapart : ∀ name, t.getter? = some (.method name) → t.setter? ≠ some (.method name))
    {a : Address} (ha : a.Fits t) {value e : Script.Expr}
    (hstore : t.store names a value = .ok e) : e.isCallOf (t.readCall names) = false := by
  unfold Target.store at hstore
  split at hstore
  case h_1 hkind =>
    cases hstore
    simp [Script.Expr.isCallOf, Target.readCall, hkind, h.getter?_of_kind (.inl hkind)]
  case h_2 hkind =>
    cases hstore
    simp [Script.Expr.isCallOf, Target.readCall, hkind, ha.args]
  case h_3 hreceiver hmulti =>
    split at hstore
    case h_1 setter hsetter => exact Target.isCallOf_setter hmulti hapart hsetter hstore
    case h_2 =>
      cases hplace : t.native names a with
      | error err => simp [hplace, Except.map] at hstore
      | ok place =>
        simp only [hplace, Except.map, Except.ok.injEq] at hstore
        subst hstore
        rfl

end

/-- A simple assignment does not read its target. -/
theorem LowersAssign.readsBelow {usage : Usage} {a : Assignment Expr} {n n' : Nat} {w : Lowered}
    (hop : a.op.binary? = none)
    (hapart : ∀ t, a.target.target cx.metadata cx.enclosing = .ok t →
      ∀ name, t.getter? = some (.method name) → t.setter? ≠ some (.method name))
    (h : LowersAssign cx usage a n w n') : a.ReadsBelow cx w := by
  intro t htarget
  obtain ⟨p, -, hplace⟩ := Expr.target_arranges htarget
  have hclass := Classified.of_ofPlace hplace
  have harr := (Target.ofPlace_arranges hplace).2
  have hcopies : (t.readCall cx.names).SparesCopies cx.names := hclass.sparesCopies_readCall
  cases h with
  | native htarget' _ _ _ haddr htaken hplace =>
    cases htarget.symm.trans htarget'
    obtain ⟨ws, hws, hsum⟩ := haddr.exists_lowered_value harr htaken (k := t.readCall cx.names)
    have hle := Target.calls_native (k := t.readCall cx.names) hplace
    refine ⟨ws, hws, ?_⟩
    simp only [Lowered.calls, Script.Expr.calls, Context.copied, hcopies.calls_copied]
    omega
  | readBack htarget' _ _ hshared haddr htaken hplace =>
    cases htarget.symm.trans htarget'
    obtain ⟨ws, hws, hsum⟩ := haddr.exists_lowered_value harr htaken (k := t.readCall cx.names)
    have hquiet := haddr.calls_eq_zero harr (k := t.readCall cx.names)
    have hle := Target.calls_native (k := t.readCall cx.names) hplace
    refine ⟨ws, hws, ?_⟩
    simp only [Lowered.calls, Script.callsIn_append _ (_ ++ _), Script.callsIn_expr,
      Script.Expr.calls, Context.copied, hcopies.calls_copied]
    omega
  | @byCall _ addr v store stmts stmts' _ _ htarget' _ hnative haddr htaken hstore =>
    cases htarget.symm.trans htarget'
    obtain ⟨ws, hws, hsum⟩ := haddr.exists_lowered_value harr htaken (k := t.readCall cx.names)
    have hroot := hclass.isCallOf_store (hapart t htarget) (haddr.fits_passed _ _) hstore
    have hbelow := Target.callsBelow_store (k := t.readCall cx.names) hstore
    rw [LoweredAddress.calls_passed hcopies, Context.copied, hcopies.calls_copied] at hbelow
    have hresult : usage = .used → (if t.isReceiver then (⟨.this, false, true⟩ : Value) else
        ⟨v.expr, false, v.stable⟩).expr.calls (t.readCall cx.names) = 0 := by
      rintro rfl
      cases hr : t.isReceiver with
      | true => rfl
      | false =>
        exact Script.Expr.calls_of_isReusable _
          (htaken.isReusable (by simp [hr, Usage.isUsed]))
    refine ⟨ws, hws, ?_⟩
    rw [Usage.calls_finish hresult, Script.Expr.calls_eq, hroot]
    simp only [Bool.toNat_false]
    omega
  | compoundNative _ hop' => cases hop.symm.trans hop'
  | compoundByCall _ hop' => cases hop.symm.trans hop'

/-! ## All that is lowered in a body -/

/-- Setters and getters of the targets of an assignment have different names. -/
theorem Expr.SettersApart.setter?_ne {a : Assignment Expr} {t : Target Expr}
    (h : a.target.SettersApart cx.metadata setters)
    (ht : a.target.target cx.metadata cx.enclosing = .ok t) (name : String)
    (hgetter : t.getter? = some (.method name)) : t.setter? ≠ some (.method name) := by
  intro hsetter
  obtain ⟨pl, hp, hplace⟩ := Expr.target_arranges ht
  obtain ⟨setter, hstorage⟩ := Target.exists_accessors hgetter
  obtain ⟨p, hmem, hbinding⟩ := (Classified.of_ofPlace hplace).exists_property hstorage
  obtain rfl : setter = .method name := by
    simpa [Target.setter?, hstorage, Storage.setter?] using hsetter
  exact h.getter pl hp p hmem name _ hbinding (h.setter pl hp p hmem _ name hbinding)

/-- **Stores are not used.** If the names of setters and of the helpers that store can be told
from all others, each store in an output is a statement, or the whole of an assignment whose
value is not wanted. No simple assignment among what is lowered reads its target. -/
theorem Task.leavesStoresUnused {t : Task} (hnames : t.cx.names.StoresApart)
    (hplay : t.expr.Everywhere (·.SettersApart t.cx.metadata setters)) {n n' : Nat}
    {out : LoweredAssignment} (h : t.lower n = .ok out n') :
    (∃ w, out = .ofLowered t.usage w ∧ w.KeepsStoresApart t.cx setters t.usage) ∧
      ∀ a span, t.expr.Evaluates t.cx ⟨.assign a, span⟩ → a.op.binary? = none →
        ∀ usage m w m', lowerAssignment t.cx usage a span m = .ok w m' →
          a.ReadsBelow t.cx w := by
  refine ⟨?_, ?_⟩
  · cases t with
    | assignment cx usage a span =>
      obtain ⟨w, m, hlower, hpure⟩ := bind_ok h
      obtain ⟨rfl, rfl⟩ := pure_ok hpure
      have hparts : ∀ e ∈ (⟨.assign a, span⟩ : Expr).parts, UsesNoStore cx setters e :=
        fun e he => UsesNoStore.of_everywhere hnames e (hplay.part e he)
      exact ⟨w, rfl, (LowersAssign.of_lowerAssignment hlower).stores hnames
        (hparts _ (Expr.value_mem_parts a span)) fun t ht => .of_assign hplay hparts ht⟩
    | expression cx e =>
      obtain ⟨w, m, hlower, hpure⟩ := bind_ok h
      obtain ⟨rfl, rfl⟩ := pure_ok hpure
      exact ⟨w, rfl, (UsesNoStore.of_everywhere hnames e hplay hlower).keepsStoresApart⟩
  · intro a span hd hop usage m w m' hlower
    have htarget := (hplay.of_evaluates hd).target.here
    exact (LowersAssign.of_lowerAssignment hlower).readsBelow hop
      fun t ht name hgetter => htarget.setter?_ne ht name hgetter

namespace Sample

/-- The names in one expression are those of its outermost form. -/
theorem settersApart_property {name : String} (hgetter : "get" ++ name ∉ setters)
    (hsetter : "set" ++ name ∈ setters) (s : CopySemantics) :
    (property name).SettersApart (metadata s) setters where
  getter pl hpl p hp getter setter hbinding := by
    cases hpl
    obtain rfl := List.mem_singleton.1 hp
    cases hbinding
    exact hgetter
  setter pl hpl p hp getter setter hbinding := by
    cases hpl
    obtain rfl := List.mem_singleton.1 hp
    cases hbinding
    exact hsetter
  method r m args hform := by cases hform

theorem settersApart_this (s : CopySemantics) : this.SettersApart (metadata s) setters where
  getter pl hpl p hp := by cases hpl; cases hp
  setter pl hpl p hp := by cases hpl; cases hp
  method r m args hform := by cases hform

theorem settersApart_call {name : String} (hname : name ∉ setters) (args : List Expr)
    (s : CopySemantics) : (call name args).SettersApart (metadata s) setters where
  getter pl hpl := by cases hpl
  setter pl hpl := by cases hpl
  method r m args hform name hmethod := by cases hform; cases hmethod; exact hname

theorem settersApart_assign (target : Expr) (op : AssignOp) (value : Expr) (s : CopySemantics) :
    (assign target op value).SettersApart (metadata s) setters where
  getter pl hpl := by cases hpl
  setter pl hpl := by cases hpl
  method r m args hform := by cases hform

/-- `this.P = this.Q = F()`, where nobody wants the value. -/
def storesTwice : Task :=
  .assignment (context .reference) .discarded
    ⟨property "P", .assign, assign (property "Q") .assign (call "F" [])⟩ {}

end Sample

open Sample in
/-- Both setters are called by a statement each, and neither getter is called. -/
theorem Task.leavesStoresUnused_twice :
    ∃ out, storesTwice.lower 0 = .ok out 1 ∧
      out.statements = [.declare "$tmp1" (.callMethod .this "F" []),
        .expr (.callMethod .this "setQ" [.ident "$tmp1"]),
        .expr (.callMethod .this "setP" [.ident "$tmp1"])] ∧
      (∃ w, out = .ofLowered .discarded w ∧
        w.KeepsStoresApart (context .reference) ["setP", "setQ"] .discarded) ∧
      ∀ a span, storesTwice.expr.Evaluates (context .reference) ⟨.assign a, span⟩ →
        a.op.binary? = none → ∀ usage m w m',
          lowerAssignment (context .reference) usage a span m = .ok w m' →
            a.ReadsBelow (context .reference) w := by
  have hnames : (context .reference).names.StoresApart := by decide
  have hplay : storesTwice.expr.Everywhere
      (·.SettersApart (metadata .reference) ["setP", "setQ"]) := by
    have hthis : this.SettersApart (metadata .reference) ["setP", "setQ"] := settersApart_this _
    refine everywhere_assign (settersApart_assign ..)
      (everywhere_property (settersApart_property (by decide) (by decide) _) hthis)
      (everywhere_assign (settersApart_assign ..)
        (everywhere_property (settersApart_property (by decide) (by decide) _) hthis)
        (everywhere_call (settersApart_call (by decide) ..) hthis (by simp)))
  have hlower : storesTwice.lower 0 = .ok
      ⟨[.declare "$tmp1" (.callMethod .this "F" []),
        .expr (.callMethod .this "setQ" [.ident "$tmp1"]),
        .expr (.callMethod .this "setP" [.ident "$tmp1"])], none⟩ 1 := by rfl
  exact ⟨_, hlower, rfl, Task.leavesStoresUnused (t := storesTwice) hnames hplay hlower⟩

end AssignmentLowering
