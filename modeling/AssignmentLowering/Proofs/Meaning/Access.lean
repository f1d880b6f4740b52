import AssignmentLowering.Proofs.Effects.Access
import AssignmentLowering.Proofs.Meaning.Source

/-!
# What reading and writing targets in script means

Script that reads or writes a target evaluates the operands to a location of the target,
and then does to that location what the source does. Templates have no meaning, so
accessors must not be templates.

## Main definitions

* `RuntimeNames.Distinct` — helpers of different meaning have different names.
* `Address.Finds` — operands in script that evaluate to a location.

## Main statements

* `Target.eval_native`, `Target.eval_load`, `Target.eval_store`.
-/

namespace AssignmentLowering

variable {I : Interpretation} {ε : Type}

/-- Whether helpers of different meaning have different names. -/
def RuntimeNames.Distinct (names : RuntimeNames) : Prop :=
  names.Separated ∧ names.multiGet ≠ names.defaultValue

instance (names : RuntimeNames) : Decidable names.Distinct :=
  inferInstanceAs (Decidable (_ ∧ _))

namespace Script

variable {names : RuntimeNames}

theorem callHelper_effectful (hnames : names.Separated) {helper : String}
    (h : helper ∈ names.effectful) (args : List I.Value) (heap : I.Heap) :
    callHelper I names helper args heap = some (I.helper helper args heap) := by
  have hsilent := hnames.2 helper h
  simp only [RuntimeNames.silent, List.mem_cons, List.not_mem_nil, or_false, not_or] at hsilent
  simp [callHelper, hsilent]

theorem callHelper_multiGet (hnames : names.Distinct) (args : List I.Value) (heap : I.Heap) :
    callHelper I names names.multiGet args heap = some (I.multiGet args heap, heap) := by
  simp [callHelper, hnames.2]

theorem callHelper_defaultValue (ty : I.Value) (heap : I.Heap) :
    callHelper I names names.defaultValue [ty] heap = some (I.defaultValue ty, heap) := by
  simp [callHelper]

/-- To evaluate what can be assigned is to read it. -/
theorem Expr.eval_of_evalReference {e : Expr} {place : Reference I} {s s' : State I}
    (h : e.evalReference I names s = some (place, s')) :
    e.eval I names s = some (place.get s', s') := by
  cases e with
  | ident x =>
    cases h
    rfl
  | member object name =>
    simp only [Expr.evalReference, Option.bind_eq_bind, Option.bind_eq_some_iff,
      Option.some.injEq, Prod.mk.injEq] at h
    obtain ⟨⟨o, s₁⟩, ho, rfl, rfl⟩ := h
    simp [Expr.eval, ho, Reference.get]
  | index object i =>
    simp only [Expr.evalReference, Option.bind_eq_bind, Option.bind_eq_some_iff,
      Option.some.injEq, Prod.mk.injEq] at h
    obtain ⟨⟨o, s₁⟩, ho, ⟨x, s₂⟩, hi, rfl, rfl⟩ := h
    simp [Expr.eval, ho, hi, Reference.get]
  | _ => cases h

theorem Expr.eval_callMethod {object : Expr} {name : String} {args : List Expr} {o : I.Value}
    {vs : List I.Value} {s s' s'' : State I} (ho : object.eval I names s = some (o, s'))
    (hargs : Expr.evalAll I names args s' = some (vs, s'')) :
    (Expr.callMethod object name args).eval I names s =
      some ((I.call o name vs s''.heap).1,
        { s'' with heap := (I.call o name vs s''.heap).2 }) := by
  simp [Expr.callMethod, Expr.eval, ho, hargs]

theorem Expr.eval_callBase (hnames : names.Separated) {declaring : TypeRef} {name : String}
    {args : List Expr} {vs : List I.Value} {s s' : State I}
    (hargs : Expr.evalAll I names args s = some (vs, s')) :
    (callBase names declaring name args).eval I names s =
      some ((I.callBase names declaring name vs s'.heap).1,
        { s' with heap := (I.callBase names declaring name vs s'.heap).2 }) := by
  have hmem : names.callBase ∈ names.effectful := by simp [RuntimeNames.effectful]
  have hhelper := callHelper_effectful (I := I) hnames hmem
  simp [callBase, Expr.eval, Expr.evalAll, hargs, hhelper, Interpretation.callBase]

end Script

/-- Operands in script that evaluate to a location. -/
structure Address.Finds (names : RuntimeNames) (a : Address) (l : Location I) (s s' : State I) :
    Prop where
  values : Script.Expr.evalAll I names (a.object.toList ++ a.args) s = some (l.values, s')
  object : a.object.isSome = l.object.isSome

namespace Address.Finds

variable {names : RuntimeNames} {a : Address} {l : Location I} {s s' : State I}

/-- The object of a target is evaluated before its arguments. -/
theorem eval_object (h : a.Finds names l s s') (t : Target ε) :
    ∃ s₁, (t.object a).eval I names s = some (t.objectValue l, s₁) ∧
      Script.Expr.evalAll I names a.args s₁ = some (l.args, s') := by
  obtain ⟨hvalues, hobject⟩ := h
  unfold Target.object Target.objectValue
  unfold Location.values at hvalues
  cases ha : a.object with
  | some e =>
    rw [ha, Option.isSome_some] at hobject
    obtain ⟨o, ho⟩ := Option.isSome_iff_exists.1 hobject.symm
    simp only [ha, ho, Option.toList_some, List.singleton_append, Script.Expr.evalAll,
      Option.bind_eq_bind, Option.bind_eq_some_iff, Option.some.injEq, Prod.mk.injEq,
      List.cons.injEq] at hvalues
    obtain ⟨⟨v, s₁⟩, he, ⟨vs, s₂⟩, hargs, ⟨rfl, rfl⟩, rfl⟩ := hvalues
    exact ⟨s₁, by simpa [ho] using he, hargs⟩
  | none =>
    rw [ha, Option.isSome_none] at hobject
    have ho : l.object = none := by simpa using hobject.symm
    refine ⟨s, ?_, by simpa [ha, ho] using hvalues⟩
    cases howner : t.staticOwner <;> simp [ho, Script.Expr.eval]

theorem eq_of_nil (h : a.Finds names l s s') (hobject : a.object = none) (hargs : a.args = []) :
    s' = s := by
  have hvalues := h.values
  simp only [hobject, hargs, Option.toList_none, List.append_nil, Script.Expr.evalAll,
    Option.some.injEq, Prod.mk.injEq] at hvalues
  exact hvalues.2.symm

end Address.Finds

namespace Target

variable {names : RuntimeNames} {t : Target ε} {a : Address} {l : Location I} {s s' s'' : State I}

theorem eval_subscript (hf : a.Finds names l s s') {place : Script.Expr}
    (h : t.subscript a = .ok place) :
    ∃ ref, t.elementReference l = some ref ∧
      place.evalReference I names s = some (ref, s') := by
  obtain ⟨s₁, hobject, hargs⟩ := hf.eval_object t
  unfold subscript at h
  split at h
  case h_1 i hi =>
    cases h
    rw [hi] at hargs
    simp only [Script.Expr.evalAll, Option.bind_eq_bind, Option.bind_eq_some_iff,
      Option.some.injEq, Prod.mk.injEq] at hargs
    obtain ⟨⟨v, s₂⟩, hv, ⟨vs, s₃⟩, ⟨rfl, rfl⟩, hl, rfl⟩ := hargs
    refine ⟨.index (t.objectValue l) v, by simp [elementReference, ← hl], ?_⟩
    simp [Script.Expr.evalReference, hobject, hv]
  case h_2 => cases h

theorem operands_eq_nil (ha : a.Fits t) (h : t.receiver = none ∧ t.args = []) :
    a.object = none ∧ a.args = [] := by
  have hobject := ha.object
  have hargs := ha.args
  rw [h.1] at hobject
  rw [h.2] at hargs
  exact ⟨by simpa using hobject, by simpa using hargs⟩

variable (hw : t.WellFormed) (ha : a.Fits t)

include hw ha in
/-- The left side of an assignment stands for the target. -/
theorem eval_native (hroom : t.HasRoom) (hf : a.Finds names l s s') {place : Script.Expr}
    (h : t.native names a = .ok place) :
    ∃ ref, t.reference names l s'.vars = some ref ∧
      place.evalReference I names s = some (ref, s') := by
  obtain ⟨s₁, hobject, hargs⟩ := hf.eval_object t
  have hmember : t.args = [] → s₁ = s' := by
    intro ht
    have hlen := ha.args
    rw [ht, List.length_nil, List.length_eq_zero_iff] at hlen
    simp only [hlen, Script.Expr.evalAll, Option.some.injEq, Prod.mk.injEq] at hargs
    exact hargs.2
  unfold native at h
  split at h
  case h_1 _ name hkind =>
    cases h
    obtain ⟨ho, hn⟩ := operands_eq_nil ha (hw.localVar name hkind)
    obtain rfl := hf.eq_of_nil ho hn
    exact ⟨.ident name, by simp [reference, hkind], rfl⟩
  case h_2 _ name hkind =>
    cases h
    obtain ⟨ho, hn⟩ := operands_eq_nil ha (hw.cell name hkind)
    obtain rfl := hf.eq_of_nil ho hn
    exact ⟨.member (s'.vars name) names.cellMember, by simp [reference, hkind],
      by simp [Script.Expr.evalReference, Script.Expr.eval]⟩
  case h_3 _ name hkind =>
    cases h
    obtain rfl := hmember (hw.dynamicMember name hkind)
    exact ⟨.member (t.objectValue l) name, by simp [reference, hkind],
      by simp [Script.Expr.evalReference, hobject]⟩
  case h_4 name hstorage hlocal hcell hdynamic =>
    cases h
    obtain rfl := hmember (hroom name hstorage)
    refine ⟨.member (t.objectValue l) name, ?_, by simp [Script.Expr.evalReference, hobject]⟩
    unfold reference
    split <;> simp_all
  case h_8 => cases h
  all_goals
    obtain ⟨ref, href, heval⟩ := eval_subscript hf h
    refine ⟨ref, ?_, heval⟩
    unfold reference
    split <;> simp_all

/-- Using an accessor in script is using it. -/
theorem eval_useAccessor (hnames : names.Separated) {accessor : Accessor}
    (hinline : accessor.isInline = false) (hf : a.Finds names l s s')
    (hbound : ∀ d, t.dispatch = .bound d → a.object = none) {value : Option Script.Expr}
    {v : Option I.Value}
    (hv : Script.Expr.evalAll I names value.toList s' = some (v.toList, s''))
    {e : Script.Expr} (h : t.useAccessor names a value accessor = .ok e) :
    ∃ x s₁, t.callAccessor names l v accessor s'' = some (x, s₁) ∧
      e.eval I names s = some (x, s₁) := by
  obtain ⟨s₁, hobject, hargs⟩ := hf.eval_object t
  cases accessor with
  | inline template => cases hinline
  | method name =>
    simp only [useAccessor] at h
    have hall := Script.Expr.evalAll_append hargs hv
    cases hd : t.dispatch with
    | dynamic =>
      simp only [hd, Except.ok.injEq] at h
      subst h
      exact ⟨_, _, by simp only [callAccessor, hd], Script.Expr.eval_callMethod hobject hall⟩
    | bound declaring =>
      simp only [hd, Except.ok.injEq] at h
      subst h
      have hnone := hbound declaring hd
      have hvalues := hf.values
      have hl : l.object = none := by simpa [hnone] using hf.object.symm
      simp only [Location.values, hnone, hl, Option.toList_none, List.nil_append] at hvalues
      exact ⟨_, _, by simp only [callAccessor, hd],
        Script.Expr.eval_callBase hnames (Script.Expr.evalAll_append hvalues hv)⟩
  | subscript =>
    simp only [useAccessor] at h
    cases hplace : t.subscript a with
    | error err => simp [hplace, Except.map] at h
    | ok place =>
      simp only [hplace, Except.map, Except.ok.injEq] at h
      obtain ⟨ref, href, heval⟩ := eval_subscript hf hplace
      cases value with
      | none =>
        subst h
        cases v with
        | some v => simp [Script.Expr.evalAll] at hv
        | none =>
          simp only [Option.toList_none, Script.Expr.evalAll, Option.some.injEq, Prod.mk.injEq,
            true_and] at hv
          subst hv
          exact ⟨_, _, by simp [callAccessor, href], Script.Expr.eval_of_evalReference heval⟩
      | some e =>
        subst h
        cases v with
        | none => simp [Script.Expr.evalAll, Option.bind_eq_some_iff] at hv
        | some v =>
          simp only [Option.toList_some, Script.Expr.evalAll, Option.bind_eq_bind,
            Option.bind_some, Option.bind_eq_some_iff, Option.some.injEq, Prod.mk.injEq,
            List.cons.injEq, and_true] at hv
          obtain ⟨⟨w, s₂⟩, hw', rfl, rfl⟩ := hv
          exact ⟨w, ref.set s₂ w, by simp [callAccessor, href],
            by simp [Script.Expr.eval, heval, hw']⟩

theorem bound_object (hw : t.WellFormed) (ha : a.Fits t) (d : TypeRef)
    (hd : t.dispatch = .bound d) : a.object = none := by
  have := ha.object
  rw [hw.bound d hd] at this
  simpa using this

include hw ha in
/-- Reading a target in script is reading it. -/
theorem eval_load (hnames : names.Distinct) (hroom : t.HasRoom)
    (hinline : t.getterIsInline = false) (hf : a.Finds names l s s') {e : Script.Expr}
    (h : t.load names a = .ok e) :
    ∃ x s₁, t.get names l s' = some (x, s₁) ∧ e.eval I names s = some (x, s₁) := by
  unfold load at h
  unfold get
  cases hkind : t.kind with
  | receiver =>
    simp only [hkind, Except.ok.injEq] at h
    subst h
    obtain ⟨ho, hn⟩ := operands_eq_nil ha (hw.receiver hkind)
    obtain rfl := hf.eq_of_nil ho hn
    exact ⟨_, _, rfl, rfl⟩
  | multiElement =>
    simp only [hkind, Except.ok.injEq] at h
    subst h
    obtain ⟨s₁, hobject, hargs⟩ := hf.eval_object t
    refine ⟨_, _, rfl, ?_⟩
    have hall := Script.Expr.evalAll_cons hobject hargs
    simp [Script.Expr.eval, hall, Script.callHelper_multiGet hnames]
  | _ =>
    simp only [hkind] at h ⊢
    cases hg : t.getter? with
    | some getter =>
      simp only [hg] at h
      have hnone : getter.isInline = false := by simpa [getterIsInline, hg] using hinline
      have hnil : Script.Expr.evalAll I names (none : Option Script.Expr).toList s' =
          some ((none : Option I.Value).toList, s') := rfl
      exact eval_useAccessor hnames.1 hnone hf (bound_object hw ha) hnil h
    | none =>
      simp only [hg] at h
      obtain ⟨ref, href, heval⟩ := eval_native hw ha hroom hf h
      exact ⟨_, _, by simp [href], Script.Expr.eval_of_evalReference heval⟩

theorem reference_congr {vars vars' : String → I.Value}
    (h : ∀ name, t.kind = .cell name → vars' name = vars name) :
    t.reference names l vars' = t.reference names l vars := by
  unfold reference
  split <;> simp_all

include hw ha in
/-- Writing a target in script is writing it, if the cell that it may be is still the same. -/
theorem eval_store (hnames : names.Distinct) (hroom : t.HasRoom)
    (hinline : t.setterIsInline = false) (hf : a.Finds names l s s') {value : Script.Expr}
    {v : I.Value} (hv : value.eval I names s' = some (v, s''))
    (hcell : ∀ name, t.kind = .cell name → s''.vars name = s'.vars name) {e : Script.Expr}
    (h : t.store names a value = .ok e) :
    ∃ x s₁, t.put names l v s'' = some s₁ ∧ e.eval I names s = some (x, s₁) ∧
      (t.isNative = true → x = v) := by
  obtain ⟨s₀, hobject, hargs⟩ := hf.eval_object t
  have hone : Script.Expr.evalAll I names [value] s' = some ([v], s'') :=
    Script.Expr.evalAll_cons hv rfl
  have hhelper : ∀ helper ∈ names.effectful, ∀ args heap,
      Script.callHelper I names helper args heap = some (I.helper helper args heap) :=
    fun helper hmem => Script.callHelper_effectful hnames.1 hmem
  unfold store at h
  unfold put isNative
  cases hkind : t.kind with
  | receiver =>
    simp only [hkind, Except.ok.injEq] at h
    subst h
    obtain ⟨ho, hn⟩ := operands_eq_nil ha (hw.receiver hkind)
    obtain rfl := hf.eq_of_nil ho hn
    have hthis : Script.Expr.evalAll I names [.this] s'' = some ([I.this], s'') :=
      Script.Expr.evalAll_cons rfl rfl
    have hall := Script.Expr.evalAll_append hone hthis
    refine ⟨(I.helper names.shallowCopy [v, I.this] s''.heap).1, _, rfl, ?_, by simp⟩
    simp only [List.singleton_append] at hall
    simp only [Script.Expr.eval, hall, Option.bind_eq_bind, Option.bind_some,
      hhelper names.shallowCopy (by simp [RuntimeNames.effectful])]
  | multiElement =>
    simp only [hkind, Except.ok.injEq] at h
    subst h
    have hall := Script.Expr.evalAll_cons hobject (Script.Expr.evalAll_append hargs hone)
    refine ⟨(I.helper names.multiSet (t.objectValue l :: (l.args ++ [v])) s''.heap).1, _, rfl,
      ?_, by simp⟩
    simp only [Script.Expr.eval, hall, Option.bind_eq_bind, Option.bind_some,
      hhelper names.multiSet (by simp [RuntimeNames.effectful])]
  | _ =>
    simp only [hkind] at h ⊢
    cases hs : t.setter? with
    | some setter =>
      simp only [hs] at h
      have hnone : setter.isInline = false := by simpa [setterIsInline, hs] using hinline
      have hsome : Script.Expr.evalAll I names (some value).toList s' =
          some ((some v).toList, s'') := hone
      obtain ⟨x, s₁, hcall, heval⟩ := eval_useAccessor hnames.1 hnone hf
        (bound_object hw ha) hsome h
      refine ⟨x, s₁, by simp [hcall], heval, ?_⟩
      unfold setter? Storage.setter? at hs
      cases hstorage : t.storage <;> simp [hstorage] at hs ⊢
    | none =>
      simp only [hs] at h
      cases hplace : t.native names a with
      | error err => simp [hplace, Except.map] at h
      | ok place =>
        simp only [hplace, Except.map, Except.ok.injEq] at h
        subst h
        obtain ⟨ref, href, heval⟩ := eval_native hw ha hroom hf hplace
        have hsame : t.reference names l s''.vars = some ref :=
          (reference_congr fun name hname => hcell name hname).trans href
        exact ⟨v, ref.set s'' v, by simp [hsame], by simp [Script.Expr.eval, heval, hv],
          fun _ => rfl⟩

/-! ## States that agree -/

/-- A target that is an element, or reached through an object, is no variable. -/
theorem ne_ident_of_elementReference {ref : Reference I} (h : t.elementReference l = some ref)
    (name : String) : ref ≠ .ident name := by
  unfold elementReference at h
  split at h <;> cases h
  exact fun hname => by cases hname

theorem kind_of_reference {vars : String → I.Value} {name : String}
    (h : t.reference names l vars = some (.ident name)) : t.kind = .localVar name := by
  unfold reference at h
  split at h
  case h_1 _ name' hkind =>
    cases h
    exact hkind
  case h_2 | h_3 | h_4 | h_8 => cases h
  all_goals exact absurd rfl (ne_ident_of_elementReference h name)

variable {p : String → Prop} {u : State I}

theorem callAccessor_congr (h : s.Agree p u) {value : Option I.Value} {accessor : Accessor}
    {x : I.Value} (hcall : t.callAccessor names l value accessor s = some (x, s')) :
    s'.vars = s.vars ∧ ∃ u', t.callAccessor names l value accessor u = some (x, u') ∧
      s'.Agree p u' := by
  cases accessor with
  | inline template => cases hcall
  | method name =>
    simp only [callAccessor, h.heap] at hcall ⊢
    cases hcall
    exact ⟨rfl, { u with heap := _ }, rfl, rfl, h.vars⟩
  | subscript =>
    simp only [callAccessor] at hcall ⊢
    cases href : t.elementReference l with
    | none => simp [href] at hcall
    | some ref =>
      simp only [href, Option.map_some, Option.some.injEq] at hcall ⊢
      have hident := ne_ident_of_elementReference href
      cases value with
      | none =>
        cases hcall
        exact ⟨rfl, u, by rw [Reference.get_congr h fun name hname => absurd hname (hident name)],
          h⟩
      | some v =>
        cases hcall
        exact ⟨funext fun y => Reference.vars_set _ _ (hident y), _, rfl,
          Reference.set_congr h _ ref⟩

/-- What is read from a target depends on what it may be reached through. -/
theorem get_congr (h : s.Agree p u)
    (hp : ∀ name, t.kind = .localVar name ∨ t.kind = .cell name → p name) {x : I.Value}
    (hget : t.get names l s = some (x, s')) :
    s'.vars = s.vars ∧ ∃ u', t.get names l u = some (x, u') ∧ s'.Agree p u' := by
  unfold get at hget ⊢
  cases hkind : t.kind with
  | receiver =>
    simp only [hkind, Option.some.injEq, Prod.mk.injEq] at hget ⊢
    obtain ⟨rfl, rfl⟩ := hget
    exact ⟨rfl, u, ⟨rfl, rfl⟩, h⟩
  | multiElement =>
    simp only [hkind, Option.some.injEq, Prod.mk.injEq] at hget ⊢
    obtain ⟨rfl, rfl⟩ := hget
    exact ⟨rfl, u, ⟨by rw [h.heap], rfl⟩, h⟩
  | _ =>
    simp only [hkind] at hget ⊢
    cases hg : t.getter? with
    | some getter =>
      simp only [hg] at hget ⊢
      exact callAccessor_congr h hget
    | none =>
      simp only [hg, Option.map_eq_some_iff, Prod.mk.injEq] at hget ⊢
      obtain ⟨ref, href, rfl, rfl⟩ := hget
      have hsame : t.reference names l u.vars = some ref :=
        (reference_congr fun name hname => (h.vars name (hp name (.inr hname))).symm).trans href
      refine ⟨rfl, u, ⟨ref, hsame, ?_, rfl⟩, h⟩
      refine (Reference.get_congr h fun name hname => hp name (.inl ?_)).symm
      exact kind_of_reference (hname ▸ href)

/-- A target is written in the same way where the cell that it may be is the same. -/
theorem put_congr (h : s.Agree p u) (hp : ∀ name, t.kind = .cell name → p name) {v : I.Value}
    (hput : t.put names l v s = some s') :
    (∀ y, t.kind ≠ .localVar y → s'.vars y = s.vars y) ∧
      ∃ u', t.put names l v u = some u' ∧ s'.Agree p u' := by
  unfold put at hput ⊢
  cases hkind : t.kind with
  | receiver | multiElement =>
    simp only [hkind, Option.some.injEq] at hput ⊢
    subst hput
    exact ⟨fun _ _ => rfl, _, rfl, by rw [h.heap], h.vars⟩
  | _ =>
    simp only [hkind] at hput ⊢
    cases hs : t.setter? with
    | some setter =>
      simp only [hs, Option.map_eq_some_iff] at hput ⊢
      obtain ⟨⟨x, s₁⟩, hcall, rfl⟩ := hput
      obtain ⟨hvars, u', hcall', hagree⟩ := callAccessor_congr h hcall
      exact ⟨fun y _ => congrFun hvars y, u', ⟨_, hcall', rfl⟩, hagree⟩
    | none =>
      simp only [hs, Option.map_eq_some_iff] at hput ⊢
      obtain ⟨ref, href, rfl⟩ := hput
      have hsame : t.reference names l u.vars = some ref :=
        (reference_congr fun name hname => (h.vars name (hp name hname)).symm).trans href
      refine ⟨fun y hy => Reference.vars_set _ _ fun hident => ?_, _, ⟨ref, hsame, rfl⟩,
        Reference.set_congr h v ref⟩
      exact hy (hkind ▸ kind_of_reference (hident ▸ href))

end Target
end AssignmentLowering
