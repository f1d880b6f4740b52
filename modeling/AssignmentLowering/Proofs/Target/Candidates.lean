import AssignmentLowering.Proofs.Target.Normalized
import AssignmentLowering.Proofs.Target.Placeholders

/-!
# Candidates in another order

Of several candidates for an indexer the first stands for all. They are bound alike, so little
is left that depends on which one it is: the names by which templates refer to arguments. Here
are the targets that one list of candidates leads to in two orders, and what it takes for their
script to be the same.

## Main definitions

* `Metadata.readMeanings?`, `Metadata.assignMeanings?` — what the accessors of an indexer refer
  to when it is read or assigned.
* `Target.ReadsAlike`, `Target.WritesAlike` — accessors that refer to the same by other names.

## Main statements

* `Target.ofPlace_candidates` — the targets of candidates in two orders.
* `Target.load_renamed`, `Target.store_renamed` — when they have the same script.
-/

namespace AssignmentLowering

variable {ε : Type}

/-- What the getter refers to in an assignment: it reads the old value, if the operator asks
for it. -/
def Accessor.oldMeanings? (op : AssignOp) (params : List String) (count : Nat)
    (getter : Accessor) : Option (List Template.Meaning) :=
  if op.binary?.isSome then getter.meanings? params count false else some []

namespace Accessor

variable {op : AssignOp} {params : List String} {count : Nat} (getter : Accessor)

theorem oldMeanings?_of_none (hop : op.binary? = none) :
    getter.oldMeanings? op params count = some [] := by
  simp [oldMeanings?, hop]

theorem oldMeanings?_of_some {binary : BinaryOp} (hop : op.binary? = some binary) :
    getter.oldMeanings? op params count = getter.meanings? params count false := by
  simp [oldMeanings?, hop]

end Accessor

namespace Metadata

/-- What the placeholders stand for by which an indexer is read with `count` arguments, if it
can be read with so many. -/
def readMeanings? (md : Metadata) (count : Nat) (p : Property) :
    Option (List Template.Meaning) :=
  match md.binding p with
  | .accessors getter _ => getter.meanings? (p.params.map (·.name)) count false
  | .field _ | .subscript | .unusable => some []

/-- What the placeholders stand for by which an indexer is assigned with `count` arguments.
There is nothing on the outside if the old value is asked for and cannot be read, and nothing
within if the new one cannot be written. -/
def assignMeanings? (md : Metadata) (op : AssignOp) (count : Nat) (p : Property) :
    Option (Option (List Template.Meaning × List Template.Meaning)) :=
  match md.binding p with
  | .accessors getter setter =>
    (getter.oldMeanings? op (p.params.map (·.name)) count).map fun ms =>
      (setter.meanings? (p.params.map (·.name)) count true).map (ms, ·)
  | .field _ | .subscript | .unusable => some (some ([], []))

/-- Two answers in this form are the same if the indexer cannot be read by either, if it can
be read by both but not written, or if both parts of the answers are the same. -/
theorem map_map_prod_eq_iff {α β : Type} {r r' : Option α} {w w' : Option β} :
    r'.map (fun a => w'.map (a, ·)) = r.map (fun a => w.map (a, ·)) ↔
      (r = none ∧ r' = none) ∨ (r.isSome ∧ r'.isSome ∧ w = none ∧ w' = none) ∨
        (∃ a, r = some a ∧ r' = some a) ∧ ∃ b, w = some b ∧ w' = some b := by
  cases r <;> cases r' <;> cases w <;> cases w' <;> simp [eq_comm]

end Metadata

namespace Target

/-- The kind of error with which an accessor is used that cannot be used. -/
def faultCode? {α : Type} : Option α → Option ErrorCode
  | some _ => none
  | none => some .internal

/-- The target can be read, and by other names its getter refers to the same. -/
def ReadsAlike (names : List String) (t : Target ε) : Prop :=
  ∀ getter, t.getter? = some getter →
    (getter.meanings? t.paramNames t.args.length false).isSome ∧
      getter.meanings? names t.args.length false =
        getter.meanings? t.paramNames t.args.length false

/-- The target can be written, and by other names its setter refers to the same. -/
def WritesAlike (names : List String) (t : Target ε) : Prop :=
  ∀ setter, t.setter? = some setter →
    (setter.meanings? t.paramNames t.args.length true).isSome ∧
      setter.meanings? names t.args.length true =
        setter.meanings? t.paramNames t.args.length true

/-! ## Script -/

section

variable {t : Target ε} {names : List String} {a : Address}

@[simp] theorem object_renamed (a : Address) : (t.renamed names).object a = t.object a := rfl

@[simp] theorem native_renamed (runtime : RuntimeNames) (a : Address) :
    (t.renamed names).native runtime a = t.native runtime a := rfl

@[simp] theorem paramNames_map {δ : Type} (f : ε → δ) (t : Target ε) :
    (t.map f).paramNames = t.paramNames := rfl

@[simp] theorem readsAlike_map {δ : Type} (f : ε → δ) :
    (t.map f).ReadsAlike names ↔ t.ReadsAlike names := by
  simp [ReadsAlike]

@[simp] theorem writesAlike_map {δ : Type} (f : ε → δ) :
    (t.map f).WritesAlike names ↔ t.WritesAlike names := by
  simp [WritesAlike]

theorem load_renamed (h : t.ReadsAlike names) (ha : a.args.length = t.args.length)
    (runtime : RuntimeNames) : (t.renamed names).load runtime a = t.load runtime a := by
  simp only [load, kind_renamed, getter?_renamed, object_renamed, native_renamed]
  cases hgetter : t.getter? with
  | none => rfl
  | some getter =>
    obtain ⟨hsome, heq⟩ := ha ▸ h getter hgetter
    simp only [useAccessor_renamed runtime none hsome heq]

theorem store_renamed (h : t.WritesAlike names) (ha : a.args.length = t.args.length)
    (runtime : RuntimeNames) (value : Script.Expr) :
    (t.renamed names).store runtime a value = t.store runtime a value := by
  simp only [store, kind_renamed, setter?_renamed, object_renamed, native_renamed]
  cases hsetter : t.setter? with
  | none => rfl
  | some setter =>
    obtain ⟨hsome, heq⟩ := ha ▸ h setter hsetter
    simp only [useAccessor_renamed runtime (some value) hsome heq]

theorem isSome_eq_of_faultCode? {α : Type} {o o' : Option α} (h : faultCode? o = faultCode? o') :
    o.isSome = o'.isSome := by
  cases o <;> cases o' <;> first | rfl | cases h

theorem code_of_iff {α : Type} {x : Except LoweringError Script.Expr} {o : Option α}
    (hiff : failureOf x = none ↔ o.isSome) (hcode : ∀ e, x = .error e → e.code = .internal) :
    (failureOf x).map LoweringError.code = faultCode? o := by
  cases x with
  | ok e =>
    obtain ⟨y, rfl⟩ := Option.isSome_iff_exists.1 (hiff.1 rfl)
    rfl
  | error e =>
    cases o with
    | none => exact congrArg some (hcode e rfl)
    | some y => cases hiff.2 rfl

/-- An indexer that cannot be read by its getter fails with one kind of error. -/
theorem code_loadFailure? (hkind : t.kind = .indexer) {getter : Accessor}
    (hgetter : t.getter? = some getter) (runtime : RuntimeNames) :
    (t.loadFailure? runtime).map LoweringError.code =
      faultCode? (getter.meanings? t.paramNames t.args.length false) := by
  have hiff := t.failureOf_useAccessor_eq_none_iff runtime t.blank none getter
  rw [blank_fits.args, Option.isSome_none] at hiff
  rw [loadFailure?, load_eq_useAccessor runtime hgetter (by simp [hkind]) (by simp [hkind])]
  exact code_of_iff hiff fun e => code_of_useAccessor

theorem code_storeFailure? (hkind : t.kind = .indexer) {setter : Accessor}
    (hsetter : t.setter? = some setter) (runtime : RuntimeNames) :
    (t.storeFailure? runtime).map LoweringError.code =
      faultCode? (setter.meanings? t.paramNames t.args.length true) := by
  have hiff := t.failureOf_useAccessor_eq_none_iff runtime t.blank (some .null) setter
  rw [blank_fits.args, Option.isSome_some] at hiff
  rw [storeFailure?, store_eq_useAccessor runtime hsetter (by simp [hkind]) (by simp [hkind])]
  exact code_of_iff hiff fun e => code_of_useAccessor

end

/-! ## Classification -/

section

variable {md : Metadata} {p q : Property} {ps qs : List Property}

/-- Candidates disagree with the first if they disagree among themselves. -/
theorem any_property_ne_iff :
    (ps.any fun x => md.property x ≠ md.property p) = true ↔
      ∃ x ∈ p :: ps, ∃ y ∈ p :: ps, md.property x ≠ md.property y := by
  rw [List.any_eq_true]
  simp only [decide_eq_true_eq]
  constructor
  · intro ⟨x, hx, hne⟩
    exact ⟨x, List.mem_cons_of_mem _ hx, p, List.mem_cons_self, hne⟩
  · intro ⟨x, hx, y, hy, hne⟩
    by_cases hxp : md.property x = md.property p
    · obtain rfl | hy := List.mem_cons.1 hy
      · exact absurd hxp hne
      · exact ⟨y, hy, fun hyp => hne (hxp.trans hyp.symm)⟩
    · obtain rfl | hx := List.mem_cons.1 hx
      · exact absurd rfl hxp
      · exact ⟨x, hx, hxp⟩

variable {enclosing : EnclosingMember} {typeOf : ε → TypeRef} {span : Span} {r : Receiver ε}
  {args : List (Argument ε)} {ty : TypeRef}

/-- Candidates of one type and one name, in two orders, are refused with the same error, or
they are the same target but for the names of its arguments. -/
theorem ofPlace_candidates (hperm : (p :: ps).Perm (q :: qs))
    (hone : ∀ x ∈ p :: ps, x.owner = p.owner ∧ x.name = p.name) :
    ofPlace md enclosing typeOf span (.indexer r (.candidates (q :: qs)) args ty) =
      (ofPlace md enclosing typeOf span (.indexer r (.candidates (p :: ps)) args ty)).map
        (renamed (q.params.map (·.name))) := by
  have hq : q ∈ p :: ps := hperm.mem_iff.2 List.mem_cons_self
  obtain ⟨howner, hname⟩ := hone q hq
  by_cases hnamed : ∀ a ∈ args, a.name = none
  · have hany : (qs.any fun x => md.property x ≠ md.property q) =
        ps.any fun x => md.property x ≠ md.property p := by
      rw [Bool.eq_iff_iff, any_property_ne_iff, any_property_ne_iff]
      simp only [hperm.mem_iff]
    rw [ofPlace, ofPlace, ofIndexer_candidates hnamed, ofIndexer_candidates hnamed, hany, howner]
    by_cases hdiffer : (ps.any fun x => md.property x ≠ md.property p) = true
    · rw [if_pos hdiffer, if_pos hdiffer]
      rfl
    · rw [if_neg hdiffer, if_neg hdiffer]
      have hbinding : md.property q = md.property p := by
        apply Classical.byContradiction
        intro hne
        exact hdiffer (any_property_ne_iff.2 ⟨q, hq, p, List.mem_cons_self, hne⟩)
      have hstorage : storageOf (md.property q) q span = storageOf (md.property p) p span := by
        simp only [storageOf, hbinding, Property.qualifiedName, howner, hname]
      rw [hstorage]
      cases storageOf (md.property p) p span <;> rfl
  · obtain ⟨e, he⟩ := rejectNamed_of_named hnamed span
    simp only [ofPlace, ofIndexer, he]
    rfl

/-- Candidates that are accepted are all bound like the first. -/
theorem property_eq_of_ofPlace {t : Target ε}
    (ht : ofPlace md enclosing typeOf span (.indexer r (.candidates (p :: ps)) args ty) = .ok t) :
    ∀ x ∈ p :: ps, md.property x = md.property p := by
  intro x hx
  by_cases hnamed : ∀ a ∈ args, a.name = none
  · rw [ofPlace, ofIndexer_candidates hnamed] at ht
    apply Classical.byContradiction
    intro hne
    rw [if_pos (any_property_ne_iff.2 ⟨x, hx, p, List.mem_cons_self, hne⟩)] at ht
    cases ht
  · obtain ⟨e, he⟩ := rejectNamed_of_named hnamed span
    simp only [ofPlace, ofIndexer, he] at ht
    cases ht

end

end Target

end AssignmentLowering
