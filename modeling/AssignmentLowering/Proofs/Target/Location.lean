import AssignmentLowering.Proofs.Lowering.Sample
import AssignmentLowering.Proofs.Target.Failure

/-!
# Reading and writing the same place

A target is read by one piece of script and written by another, and a compound assignment
uses both. Whichever way a classified target goes, the two address one place: a native target
is assigned where it is read, the methods of a property get the same object and the same
arguments, and so do the helpers for elements with several indices. The value to be written
comes last.

## Main definitions

* `Target.SameLocation` — what reading and writing a target have in common.

## Main statements

* `Classified.native_fails_iff` — a native target has script, subscripts with too few or too
  many indices apart.
* `Target.sameLocation_of_classify` — classified targets are read and written in one place.
-/

namespace AssignmentLowering

open Target (plain)

variable {ε : Type}

/-- What reading a target and writing `v` to it have in common, for operands in script. -/
structure Target.SameLocation (names : RuntimeNames) (t : Target ε) (a : Address)
    (v : Script.Expr) : Prop where
  /-- A native target is assigned where it is read, or neither is possible. -/
  native : t.isNative = true →
    (∃ place, t.native names a = .ok place ∧ t.load names a = .ok place ∧
      t.store names a v = .ok (.assign place v)) ∨
    (∃ e, t.native names a = .error e ∧ t.load names a = .error e ∧ t.store names a v = .error e)
  /-- The second happens to native subscripts only, if there are not as many indices as one. -/
  native_fails_iff : t.isNative = true →
    ((∃ e, t.native names a = .error e) ↔ t.storage = .subscript ∧ t.args.length ≠ 1)
  methods : ∀ getter setter, t.storage = .accessors (.method getter) (.method setter) →
    t.dispatch = .dynamic →
    t.load names a = .ok (.callMethod (t.object a) getter a.args) ∧
      t.store names a v = .ok (.callMethod (t.object a) setter (a.args ++ [v]))
  /-- As the given base type has it, the methods are called on the current object. -/
  boundMethods : ∀ getter setter declaring,
    t.storage = .accessors (.method getter) (.method setter) → t.dispatch = .bound declaring →
    t.load names a = .ok (callBase names declaring getter a.args) ∧
      t.store names a v = .ok (callBase names declaring setter (a.args ++ [v]))
  multiElement : t.kind = .multiElement →
    t.load names a = .ok (.call (.ident names.multiGet) (t.object a :: a.args)) ∧
      t.store names a v = .ok (.call (.ident names.multiSet) (t.object a :: (a.args ++ [v])))

namespace Target

variable {t : Target ε} {a : Address}

/-- A target that may stand on the left of `=` is read by naming it. -/
theorem load_eq_of_isNative (names : RuntimeNames) (hnative : t.isNative = true) (a : Address) :
    t.load names a = t.native names a := by
  unfold isNative at hnative
  unfold load getter? Storage.getter?
  cases hk : t.kind <;> cases hs : t.storage <;> simp [hk, hs] at hnative ⊢

theorem exists_subscript (h : a.args.length = 1) : ∃ place, t.subscript a = .ok place := by
  obtain ⟨i, hi⟩ := List.length_eq_one_iff.1 h
  exact ⟨.index (t.object a) i, by simp [subscript, hi]⟩

end Target

namespace Classified

variable {md : Metadata} {typeOf : ε → TypeRef} {span : Span} {p : Place ε} {t : Target ε}

/-- A native target is an indexer that is a subscript, or else has script for as many
operands as it takes. -/
theorem native_cases (h : Classified md typeOf span p t) (hnative : t.isNative = true)
    (names : RuntimeNames) :
    (t.storage = .subscript ∧ ∀ a, t.native names a = t.subscript a) ∨
    (t.storage ≠ .subscript ∧
      ∀ a, a.args.length = t.args.length → ∃ place, t.native names a = .ok place) := by
  have haccessors : ∀ g s, t.storage ≠ .accessors g s := fun g s hs => by
    cases hk : t.kind <;> simp [Target.isNative, hs, hk] at hnative
  -- A property that is not reached by accessors is a field in script or a subscript.
  have hproperty : ∀ {b : PropertyBinding} {storage : Storage}, b.storage? = some storage →
      (∀ g s, storage ≠ .accessors g s) →
        (∃ name, storage = .field name) ∨ storage = .subscript := by
    intro b storage hb hs
    cases storage with
    | direct => exact absurd hb b.storage?_ne_direct
    | field name => exact .inl ⟨name, rfl⟩
    | accessors g s => exact absurd rfl (hs g s)
    | subscript => exact .inr rfl
  cases h with
  | @localVar l => cases l.byRef <;> exact .inr ⟨by simp [plain], fun a _ => ⟨_, rfl⟩⟩
  | this => simp [Target.isNative, plain] at hnative
  | @field r => cases r <;> exact .inr ⟨by simp, fun a _ => ⟨_, rfl⟩⟩
  | @property r p storage hstorage hsubscript =>
    obtain ⟨name, rfl⟩ | rfl := hproperty hstorage haccessors
    · cases r <;> exact .inr ⟨by simp, fun a _ => ⟨_, rfl⟩⟩
    · contradiction
  | @resolved r _ _ _ _ storage _ hstorage | @candidates r _ _ _ _ storage hstorage =>
    obtain ⟨name, rfl⟩ | rfl := hproperty hstorage haccessors
    · cases r <;> exact .inr ⟨by simp, fun a _ => ⟨_, rfl⟩⟩
    · cases r <;> exact .inl ⟨rfl, fun a => rfl⟩
  | element =>
    refine .inr ⟨by simp, fun a ha => Target.exists_subscript ?_⟩
    exact ha.trans (by simp [IndexArg.inOrder])
  | multiElement => simp [Target.isNative] at hnative
  | dynamicMember => exact .inr ⟨by simp, fun a _ => ⟨_, rfl⟩⟩
  | dynamicIndex harity =>
    refine .inr ⟨by simp, fun a ha => Target.exists_subscript ?_⟩
    exact ha.trans (by simp [IndexArg.inOrder, harity])

/-- A native target has script unless it is an indexer with a number of arguments that a
subscript does not take. -/
theorem native_fails_iff (h : Classified md typeOf span p t) (names : RuntimeNames) {a : Address}
    (ha : a.args.length = t.args.length) (hnative : t.isNative = true) :
    (∃ e, t.native names a = .error e) ↔ t.storage = .subscript ∧ t.args.length ≠ 1 := by
  obtain ⟨hs, hplace⟩ | ⟨hs, hplace⟩ := h.native_cases hnative names
  · rw [hplace, Target.subscript_fails_iff, ha]
    exact ⟨fun hlength => ⟨hs, hlength⟩, And.right⟩
  · obtain ⟨place, hplace⟩ := hplace a ha
    simp [hplace, hs]

/-- What is reached by accessors is neither the current object nor an element with several
indices. -/
theorem kind_ne_of_accessors (h : Classified md typeOf span p t) {getter setter : Accessor}
    (hstorage : t.storage = .accessors getter setter) :
    t.kind ≠ .receiver ∧ t.kind ≠ .multiElement := by
  have hgetter : t.getter? ≠ none := by simp [Target.getter?, Storage.getter?, hstorage]
  exact ⟨fun hk => hgetter (h.getter?_of_kind (.inl hk)),
    fun hk => hgetter (h.getter?_of_kind (.inr hk))⟩

end Classified

/-- A target that classification yields is read and written in one place, whatever its
operands are in script. -/
theorem Target.sameLocation_of_classify {md : Metadata} {enclosing : EnclosingMember}
    {typeOf : ε → TypeRef} {span : Span} {p : Option (Place ε)} {t : Target ε}
    (ht : Target.classify md enclosing typeOf span p = .ok t) (names : RuntimeNames) {a : Address}
    (ha : a.args.length = t.args.length) (v : Script.Expr) : t.SameLocation names a v := by
  cases p with
  | none => cases ht
  | some p =>
    have h : Classified md typeOf span p t := .of_ofPlace ht
    constructor
    case native =>
      intro hnative
      rw [load_eq_of_isNative names hnative, store_eq_of_isNative names hnative]
      cases t.native names a with
      | ok place => exact .inl ⟨place, rfl, rfl, rfl⟩
      | error e => exact .inr ⟨e, rfl, rfl, rfl⟩
    case native_fails_iff => exact h.native_fails_iff names ha
    case methods =>
      intro getter setter hstorage hdispatch
      obtain ⟨hreceiver, hmulti⟩ := h.kind_ne_of_accessors hstorage
      rw [load_eq_useAccessor names (congrArg Storage.getter? hstorage) hreceiver hmulti,
        store_eq_useAccessor names (congrArg Storage.setter? hstorage) hreceiver hmulti]
      simp [useAccessor, hdispatch]
    case boundMethods =>
      intro getter setter declaring hstorage hdispatch
      obtain ⟨hreceiver, hmulti⟩ := h.kind_ne_of_accessors hstorage
      rw [load_eq_useAccessor names (congrArg Storage.getter? hstorage) hreceiver hmulti,
        store_eq_useAccessor names (congrArg Storage.setter? hstorage) hreceiver hmulti]
      simp [useAccessor, hdispatch]
    case multiElement =>
      intro hkind
      simp [load, store, hkind]

namespace Sample

/-- `base[a, b]`, where the base type has methods to read and to write. -/
def baseItem : Place Expr :=
  .indexer (.base ty)
    (.resolved { name := "Item", owner := ty, ty, params := [⟨"x", ty⟩, ⟨"y", ty⟩] } [])
    [⟨localVar "a", none, {}⟩, ⟨localVar "b", none, {}⟩] ty

/-- The target that `base[a, b]` is. -/
def baseItemTarget : Target Expr where
  kind := .indexer
  args := [⟨localVar "a", ty, some 0⟩, ⟨localVar "b", ty, some 1⟩]
  paramNames := ["x", "y"]
  storage := .accessors (.method "getItem") (.method "setItem")
  dispatch := .bound ty
  ty := ty
  span := {}

end Sample

open Sample in
theorem Target.sameLocation_of_classify_base :
    Target.classify (metadata .reference) ⟨Sample.ty, false⟩ Expr.ty {} (some baseItem) =
        .ok baseItemTarget ∧
      [Script.Expr.ident "a", .ident "b"].length = baseItemTarget.args.length ∧
      baseItemTarget.SameLocation {} ⟨none, [.ident "a", .ident "b"]⟩ (.ident "v") :=
  have ht : Target.classify (metadata .reference) ⟨Sample.ty, false⟩ Expr.ty {} (some baseItem) =
      .ok baseItemTarget := rfl
  ⟨ht, rfl, Target.sameLocation_of_classify ht {} rfl (.ident "v")⟩

end AssignmentLowering
