import AssignmentLowering.Proofs.Effects.Event

/-!
# Events of reading and writing targets, and of calls

Script that reads or writes a target evaluates the operands of the target, then the
value to be written, and then comes to the one event that metadata asks for. Text made
from a template evaluates nothing before its event, so its operands must have none. To
hand over copies of operands makes no difference.

## Main statements

* `Target.events_native`, `Target.events_load`, `Target.events_store`.
-/

namespace AssignmentLowering

variable {ε : Type}

/-- The events of evaluating the operands. -/
def Address.events (names : RuntimeNames) (a : Address) : List (Event Script.Expr) :=
  a.object.toList.flatMap (Script.Expr.events names) ++ a.args.flatMap (Script.Expr.events names)

namespace Target

variable {names : RuntimeNames} {t : Target ε} {a : Address}

theorem events_object :
    (t.object a).events names = a.object.toList.flatMap (Script.Expr.events names) := by
  unfold object
  cases a.object with
  | some e => simp
  | none => cases t.staticOwner <;> simp [Script.Expr.events]

theorem events_subscript {place : Script.Expr} (h : t.subscript a = .ok place) :
    place.events names = a.events names ∧ place.written = .subscript := by
  unfold subscript at h
  split at h
  case h_1 i hi =>
    cases h
    simp [Script.Expr.events, events_object, Address.events, hi, Script.Expr.written]
  case h_2 => cases h

/-- Whether arguments have their place: a field takes none. -/
def HasRoom (t : Target ε) : Prop := ∀ name, t.storage = .field name → t.args = []

/-- The left side of an assignment names the target. It evaluates the operands, except for
arguments that have no place. -/
theorem events_native (hw : t.WellFormed) (ha : a.Fits t) {place : Script.Expr}
    (h : t.native names a = .ok place) :
    (place.events names).Sublist (a.events names) ∧
      (t.HasRoom → place.events names = a.events names) ∧ place.written = t.written names := by
  have hobject : t.receiver = none → a.object = none := by
    intro hr
    have := ha.object
    rw [hr] at this
    simpa using this
  have hargs : t.args = [] → a.args = [] := by
    intro ht
    have := ha.args
    rw [ht] at this
    simpa using this
  unfold native at h
  split at h
  case h_1 _ name hkind =>
    cases h
    obtain ⟨hr, ht⟩ := hw.localVar name hkind
    simp [Script.Expr.events, Address.events, hobject hr, hargs ht, Script.Expr.written, written,
      hkind]
  case h_2 _ name hkind =>
    cases h
    obtain ⟨hr, ht⟩ := hw.cell name hkind
    simp [Script.Expr.events, Address.events, hobject hr, hargs ht, Script.Expr.written, written,
      hkind]
  case h_3 _ name hkind =>
    cases h
    simp [Script.Expr.events, Address.events, events_object, hargs (hw.dynamicMember name hkind),
      Script.Expr.written, written, hkind]
  case h_4 name hstorage hlocal hcell hdynamic =>
    cases h
    refine ⟨?_, fun hroom => ?_, ?_⟩
    · simp [Script.Expr.events, Address.events, events_object]
    · simp [Script.Expr.events, Address.events, events_object, hargs (hroom name hstorage)]
    · unfold written
      split <;> simp_all [Script.Expr.written]
  case h_8 => cases h
  all_goals
    have hsubscript : place.events names = a.events names ∧ place.written = .subscript :=
      events_subscript h
    obtain ⟨hevents, hwritten⟩ := hsubscript
    refine ⟨by rw [hevents], fun _ => hevents, hwritten.trans ?_⟩
    unfold written
    split <;> simp_all

variable {R : TypeRef → Script.Expr → Prop}

/-- Using an accessor evaluates the operands and the value, and comes to its event. -/
theorem events_useAccessor (hnames : names.Separated)
    (hbound : ∀ d, t.dispatch = .bound d → a.object = none) {value : Option Script.Expr}
    {ty : Option TypeRef} {accessor : Accessor}
    (hinline : accessor.isInline = true →
      a.events names = [] ∧ value.toList.flatMap (Script.Expr.events names) = [])
    (hargs : accessor.runsCode = true → List.Forall₂ R (t.args.map (·.ty)) a.args)
    (hvalue : List.Forall₂ R ty.toList value.toList) {e : Script.Expr}
    (h : t.useAccessor names a value accessor = .ok e) :
    ∃ evs, e.events names =
        a.events names ++ value.toList.flatMap (Script.Expr.events names) ++ evs ∧
      List.Forall₂ (Event.Renders R) (t.accessorEvents ty accessor) evs := by
  cases accessor with
  | method name =>
    have hhanded := List.rel_append (hargs rfl) hvalue
    simp only [useAccessor] at h
    cases hd : t.dispatch with
    | dynamic =>
      simp only [hd, Except.ok.injEq] at h
      subst h
      refine ⟨[⟨.call name, a.args ++ value.toList⟩], ?_, ?_⟩
      · simp [events_object, Address.events]
      · simp only [accessorEvents, hd]
        exact .cons ⟨rfl, hhanded⟩ .nil
    | bound declaring =>
      simp only [hd, Except.ok.injEq] at h
      subst h
      refine ⟨[⟨.baseCall declaring.name name, a.args ++ value.toList⟩], ?_, ?_⟩
      · simp [Script.Expr.events_callBase hnames, Address.events, hbound declaring hd]
      · simp only [accessorEvents, hd]
        exact .cons ⟨rfl, hhanded⟩ .nil
  | inline template =>
    obtain ⟨haddress, hval⟩ := hinline rfl
    simp only [useAccessor] at h
    cases htext : Template.substitute template t.span (t.operand? a value) with
    | error err => simp [htext, Except.map] at h
    | ok text =>
      simp only [htext, Except.map, Except.ok.injEq] at h
      subst h
      refine ⟨[⟨.code text, []⟩], by simp [Script.Expr.events, haddress, hval], ?_⟩
      exact .cons ⟨⟨_, _, htext⟩, .nil⟩ .nil
  | subscript =>
    simp only [useAccessor] at h
    cases hplace : t.subscript a with
    | error err => simp [hplace, Except.map] at h
    | ok place =>
      simp only [hplace, Except.map, Except.ok.injEq] at h
      have hsubscript : place.events names = a.events names ∧ place.written = .subscript :=
        events_subscript hplace
      obtain ⟨hevents, hwritten⟩ := hsubscript
      cases value with
      | none =>
        subst h
        cases ty with
        | none => exact ⟨[], by simp [hevents], .nil⟩
        | some ty => cases hvalue
      | some v =>
        subst h
        cases ty with
        | none => cases hvalue
        | some ty =>
          refine ⟨[⟨.assign .subscript, [v]⟩], ?_, ?_⟩
          · simp [Script.Expr.events, hevents, hwritten]
          · exact .cons ⟨rfl, hvalue⟩ .nil

variable (hnames : names.Separated) (hw : t.WellFormed) (ha : a.Fits t)

include ha hw in
theorem object_eq_none_of_bound {d : TypeRef} (hd : t.dispatch = .bound d) : a.object = none := by
  have := ha.object
  rw [hw.bound d hd] at this
  simpa using this

include ha hw in
theorem events_eq_nil_of_receiver (names : RuntimeNames) (hkind : t.kind = .receiver) :
    a.events names = [] := by
  obtain ⟨hr, hargs⟩ := hw.receiver hkind
  have hobject := ha.object
  have hlen := ha.args
  rw [hr, Option.isSome_none, Option.isSome_eq_false_iff, Option.isNone_iff_eq_none] at hobject
  rw [hargs, List.length_nil, List.length_eq_zero_iff] at hlen
  simp [Address.events, hobject, hlen]

include hnames hw ha in
/-- Reading a target evaluates its operands and comes to its event, if it has one. -/
theorem events_load (hinline : t.getterIsInline = true → a.events names = [])
    (hargs : t.getter?.any Accessor.runsCode = true →
      List.Forall₂ R (t.args.map (·.ty)) a.args) {e : Script.Expr}
    (h : t.load names a = .ok e) :
    ∃ before evs, e.events names = before ++ evs ∧ before.Sublist (a.events names) ∧
      (t.HasRoom → before = a.events names) ∧
      List.Forall₂ (Event.Renders R) t.readEvents evs := by
  unfold load at h
  unfold readEvents
  cases hkind : t.kind with
  | receiver =>
    simp only [hkind, Except.ok.injEq] at h
    subst h
    have hnone := events_eq_nil_of_receiver hw ha names hkind
    exact ⟨[], [], rfl, by rw [hnone], fun _ => hnone.symm, .nil⟩
  | multiElement =>
    simp only [hkind, Except.ok.injEq] at h
    subst h
    exact ⟨a.events names, [], by simp [events_object, Address.events], .refl _, fun _ => rfl,
      .nil⟩
  | _ =>
    simp only [hkind] at h ⊢
    cases hg : t.getter? with
    | some getter =>
      simp only [hg] at h
      have hnone : List.Forall₂ R (none : Option TypeRef).toList
          (none : Option Script.Expr).toList := .nil
      obtain ⟨evs, hevs, hrenders⟩ := events_useAccessor hnames
        (fun d hd => object_eq_none_of_bound hw ha hd)
        (fun hi => ⟨hinline (by simpa [getterIsInline, hg] using hi), rfl⟩)
        (fun hc => hargs (by simpa [hg] using hc)) hnone h
      exact ⟨a.events names, evs, by simpa using hevs, .refl _, fun _ => rfl,
        by simpa using hrenders⟩
    | none =>
      simp only [hg] at h
      obtain ⟨hsub, hroom, -⟩ := events_native hw ha h
      exact ⟨e.events names, [], by simp, hsub, hroom, .nil⟩

include hnames hw ha in
/-- Writing a target evaluates its operands and the value, and comes to its event. -/
theorem events_store {value : Script.Expr}
    (hinline : t.setterIsInline = true → a.events names = [] ∧ value.events names = [])
    (hargs : t.setter?.any Accessor.runsCode = true →
      List.Forall₂ R (t.args.map (·.ty)) a.args) (hvalue : R t.ty value) {e : Script.Expr}
    (h : t.store names a value = .ok e) :
    ∃ before evs, e.events names = before ++ value.events names ++ evs ∧
      before.Sublist (a.events names) ∧ (t.HasRoom → before = a.events names) ∧
      List.Forall₂ (Event.Renders R) (t.writeEvents names) evs := by
  have hone : List.Forall₂ R [t.ty] [value] := .cons hvalue .nil
  unfold store at h
  unfold writeEvents
  cases hkind : t.kind with
  | receiver =>
    simp only [hkind, Except.ok.injEq] at h
    subst h
    have hnone := events_eq_nil_of_receiver hw ha names hkind
    refine ⟨[], [⟨.shallowCopy, [value]⟩], ?_, by rw [hnone], fun _ => hnone.symm,
      .cons ⟨rfl, hone⟩ .nil⟩
    simp [Script.Expr.events_shallowCopy hnames]
  | multiElement =>
    simp only [hkind, Except.ok.injEq] at h
    subst h
    refine ⟨a.events names, [⟨.multiSet, [value]⟩], ?_, .refl _, fun _ => rfl,
      .cons ⟨rfl, hone⟩ .nil⟩
    rw [← List.cons_append, Script.Expr.events_multiSet hnames]
    simp [events_object, Address.events]
  | _ =>
    simp only [hkind] at h ⊢
    cases hs : t.setter? with
    | some setter =>
      simp only [hs] at h
      have hsome : List.Forall₂ R (some t.ty).toList (some value).toList := hone
      obtain ⟨evs, hevs, hrenders⟩ := events_useAccessor hnames
        (fun d hd => object_eq_none_of_bound hw ha hd)
        (fun hi => by simpa using hinline (by simpa [setterIsInline, hs] using hi))
        (fun hc => hargs (by simpa [hs] using hc)) hsome h
      exact ⟨a.events names, evs, by simpa using hevs, .refl _, fun _ => rfl, hrenders⟩
    | none =>
      simp only [hs] at h
      cases hplace : t.native names a with
      | error err => simp [hplace, Except.map] at h
      | ok place =>
        simp only [hplace, Except.map, Except.ok.injEq] at h
        subst h
        obtain ⟨hsub, hroom, hwritten⟩ := events_native hw ha hplace
        refine ⟨place.events names, [⟨.assign place.written, [value]⟩],
          by simp [Script.Expr.events], hsub, hroom, ?_⟩
        exact .cons ⟨by simp [hwritten, Label.Renders], hone⟩ .nil

end Target

/-! ## Operands as lowering hands them over -/

variable {cx : Context}

theorem Address.events_eq (names : RuntimeNames) (a : Address) :
    a.events names = (a.object.toList ++ a.args).flatMap (Script.Expr.events names) := by
  simp [Address.events]

/-- A value has its events where it is kept: in place, or where the temporary is declared. -/
theorem Held.events {e x : Script.Expr} {n n' : Nat} {flag : Bool} {stmts : List Script.Stmt}
    (h : Held cx e n flag x stmts n') :
    Script.events cx.names stmts ++ x.events cx.names = e.events cx.names ∧
      (flag = true → x.events cx.names = []) := by
  cases h with
  | inline => simp
  | captured => simp [Script.Expr.events]

/-- To hand over copies is no event. -/
theorem LoweredAddress.events_passed (a : LoweredAddress) (accessor : Option Accessor)
    (uses : Nat) : (a.passed cx accessor uses).events cx.names = a.address.events cx.names := by
  unfold LoweredAddress.passed
  split
  · simp [Address.events, LoweredAddress.address, List.flatMap_map]
  · rfl

theorem Context.events_handed {tys : List TypeRef} : ∀ vs : List Value,
    vs.length = tys.length →
      (cx.handed tys vs).flatMap (Script.Expr.events cx.names) =
        vs.flatMap (·.expr.events cx.names) := by
  induction tys with
  | nil =>
    intro vs hlen
    rw [List.length_nil, List.length_eq_zero_iff] at hlen
    subst hlen
    rfl
  | cons ty tys ih =>
    intro vs hlen
    cases vs with
    | nil => cases hlen
    | cons v vs =>
      have hrest := ih vs (by simpa using hlen)
      have hhead : cx.handed (ty :: tys) (v :: vs) =
          cx.copied ty v.fresh 1 v.expr :: cx.handed tys vs := rfl
      rw [hhead, List.flatMap_cons, List.flatMap_cons, hrest,
        Context.events_copied]

/-- What a template is handed has no events. -/
theorem TakenAll.events_eq_nil_of_reuse {os : List Expr} {vs : List Value} {n n' : Nat}
    {stmts : List Script.Stmt}
    (h : TakenAll cx [] (os.map (⟨true, false⟩, ·)) n vs stmts n') :
    vs.flatMap (·.expr.events cx.names) = [] := by
  rw [List.flatMap_eq_nil_iff]
  exact fun v hv => Script.Expr.events_of_isReusable _ (h.isReusable_of_reuse v hv)

/-- A call evaluates its object and its arguments, and comes to its event. -/
theorem events_callScript (hnames : cx.names.Separated) {r : Receiver Expr} {name : String}
    {objects : List Value} {args : List Script.Expr}
    (hobjects : objects.length = r.object?.toList.length) :
    (callScript cx.names r name (r.script objects) args).events cx.names =
      objects.flatMap (·.expr.events cx.names) ++ args.flatMap (Script.Expr.events cx.names) ++
        [⟨r.callLabel name, args⟩] := by
  cases r with
  | object e =>
    match objects, hobjects with
    | [v], _ => simp [callScript, Receiver.script, Receiver.callLabel]
  | static owner =>
    rw [Receiver.object?, Option.toList_none, List.length_nil, List.length_eq_zero_iff] at hobjects
    simp [callScript, Receiver.script, hobjects, Script.Expr.events, Receiver.callLabel]
  | base declaring =>
    rw [Receiver.object?, Option.toList_none, List.length_nil, List.length_eq_zero_iff] at hobjects
    simp [callScript, hobjects, Script.Expr.events_callBase hnames, Receiver.callLabel]

end AssignmentLowering
