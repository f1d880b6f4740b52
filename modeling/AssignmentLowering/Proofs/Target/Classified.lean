import AssignmentLowering.Expr.Effects
import AssignmentLowering.Target.Classify

/-!
# What classification yields

A successful classification as a relation between the place and its target, with one
case for each way to succeed. What all targets have in common is proved by cases on it.

## Main definitions

* `Classified` — a place and the target that it is.
* `Target.WellFormed` — what holds of the parts of a target together.

## Main statements

* `Classified.of_ofPlace` — a successful classification is one of the cases.
* `Classified.getter?_eq_none` — reading runs no code if the place says so.
-/

namespace AssignmentLowering

open Target (plain)

variable {ε : Type}

/-- A place and the target that it is. -/
inductive Classified (md : Metadata) (typeOf : ε → TypeRef) (span : Span) :
    Place ε → Target ε → Prop
  | localVar {l : Local} :
      Classified md typeOf span (.localVar l)
        (plain (if l.byRef then .cell l.name else .localVar l.name) l.ty span)
  | this {ty : TypeRef} : Classified md typeOf span (.this ty) (plain .receiver ty span)
  | field {r : Receiver ε} {f : Field} :
      Classified md typeOf span (.field r f)
        { (plain (if r.isStatic then .staticField else .instanceField) f.ty span).through r with
          storage := .field (md.fieldName f) }
  | property {r : Receiver ε} {p : Property} {storage : Storage}
      (hstorage : (md.property p).storage? = some storage) (hsubscript : storage ≠ .subscript) :
      Classified md typeOf span (.property r p)
        { (plain (if r.isStatic then .staticProperty else .instanceProperty) p.ty span).through r
          with storage }
  | resolved {r : Receiver ε} {p : Property} {defaults : List (Option ε)}
      {written : List (Argument ε)} {ty : TypeRef} {storage : Storage}
      {args : List (IndexArg ε)} (hstorage : (md.property p).storage? = some storage)
      (hargs : bindArguments p defaults written span = .ok args) :
      Classified md typeOf span (.indexer r (.resolved p defaults) written ty)
        { (plain .indexer ty span).through r with
          storage, args, paramNames := p.params.map (·.name) }
  | candidates {r : Receiver ε} {p : Property} {others : List Property}
      {written : List (Argument ε)} {ty : TypeRef} {storage : Storage}
      (hstorage : (md.property p).storage? = some storage) :
      Classified md typeOf span (.indexer r (.candidates (p :: others)) written ty)
        { (plain .indexer ty span).through r with
          storage, args := IndexArg.inOrder typeOf (written.map (·.value))
          paramNames := p.params.map (·.name) }
  | element {array i : ε} {ty : TypeRef} :
      Classified md typeOf span (.element array [i] ty)
        { kind := .element, receiver := some array, args := IndexArg.inOrder typeOf [i], ty, span }
  | multiElement {array i j : ε} {rest : List ε} {ty : TypeRef} :
      Classified md typeOf span (.element array (i :: j :: rest) ty)
        { kind := .multiElement, receiver := some array
          args := IndexArg.inOrder typeOf (i :: j :: rest), ty, span }
  | dynamicMember {object : ε} {name : String} :
      Classified md typeOf span (.dynamicMember object name)
        { kind := .dynamicMember name, receiver := some object, ty := .dynamic, span }
  | dynamicIndex {object : ε} {written : List (Argument ε)} (harity : written.length = 1) :
      Classified md typeOf span (.dynamicIndex object written)
        { kind := .dynamicIndex, receiver := some object
          args := IndexArg.inOrder typeOf (written.map (·.value)), ty := .dynamic, span }

theorem storageOf_ok {b : PropertyBinding} {p : Property} {span : Span} {storage : Storage}
    (h : storageOf b p span = .ok storage) : b.storage? = some storage := by
  unfold storageOf at h
  cases hs : b.storage? with
  | none => simp [hs] at h
  | some s => simpa [hs] using h

/-- Metadata never binds a property to the storage that needs no binding. -/
theorem PropertyBinding.storage?_ne_direct (b : PropertyBinding) : b.storage? ≠ some .direct := by
  unfold storage?
  cases b.normalized <;> simp

namespace Classified

variable {md : Metadata} {typeOf : ε → TypeRef} {span : Span} {p : Place ε} {t : Target ε}

/-- A successful classification is one of the cases. -/
theorem of_ofPlace {enclosing : EnclosingMember}
    (h : Target.ofPlace md enclosing typeOf span p = .ok t) : Classified md typeOf span p t := by
  cases p with
  | localVar l => cases h; exact .localVar
  | this ty =>
    simp only [Target.ofPlace, Target.ofThis] at h
    split at h
    · cases h; exact .this
    · split at h
      · cases h; exact .this
      · cases h
    · cases h
  | field r f => cases h; exact .field
  | property r p =>
    simp only [Target.ofPlace, Target.ofProperty, bind, Except.bind] at h
    cases hs : storageOf (md.property p) p span with
    | error e => simp [hs] at h
    | ok storage =>
      simp only [hs] at h
      split at h
      · cases h
      case isFalse hne =>
        cases h
        exact .property (storageOf_ok hs) hne
  | indexer r target written ty =>
    cases target with
    | resolved p defaults =>
      simp only [Target.ofPlace, Target.ofIndexer, bind, Except.bind] at h
      cases hs : storageOf (md.property p) p span with
      | error e => simp [hs] at h
      | ok storage =>
        simp only [hs] at h
        cases hb : bindArguments p defaults written span with
        | error e => simp [hb] at h
        | ok args =>
          simp only [hb, Except.ok.injEq] at h
          subst h
          exact .resolved (storageOf_ok hs) hb
    | candidates ps =>
      simp only [Target.ofPlace, Target.ofIndexer, bind, Except.bind] at h
      cases hn : rejectNamed written span with
      | error e => simp [hn] at h
      | ok u =>
        simp only [hn] at h
        cases ps with
        | nil => cases h
        | cons p others =>
          dsimp only at h
          split at h
          · cases h
          · cases hs : storageOf (md.property p) p span with
            | error e => simp [hs] at h
            | ok storage =>
              simp only [hs, Except.ok.injEq] at h
              subst h
              exact .candidates (storageOf_ok hs)
  | element array indices ty =>
    cases indices with
    | nil => cases h
    | cons i rest =>
      cases rest with
      | nil => cases h; exact .element
      | cons j rest => cases h; exact .multiElement
  | dynamicMember object name => cases h; exact .dynamicMember
  | dynamicIndex object written =>
    simp only [Target.ofPlace, Target.ofDynamicIndex, bind, Except.bind] at h
    cases hn : rejectNamed written span with
    | error e => simp [hn] at h
    | ok u =>
      simp only [hn] at h
      split at h
      · cases h
      case isFalse hne =>
        cases h
        exact .dynamicIndex (Decidable.not_not.1 hne)

end Classified

/-- Whether an indexer is bound to a field, which has no place for arguments. Of several
candidates the first decides. -/
def Place.isFieldIndexer (md : Metadata) : Place ε → Bool
  | .indexer _ (.resolved p _) _ _ => (md.binding p).isField
  | .indexer _ (.candidates ps) _ _ => ps.head?.any fun p => (md.binding p).isField
  | _ => false

/-- A target has accessors to read it if and only if it has some to write it. -/
theorem Target.getter?_eq_none_iff {t : Target ε} : t.getter? = none ↔ t.setter? = none := by
  unfold getter? setter?
  cases t.storage <;> simp [Storage.getter?, Storage.setter?]

/-- What holds of the parts of a target together. -/
structure Target.WellFormed (t : Target ε) : Prop where
  bound : ∀ d, t.dispatch = .bound d → t.receiver = none
  localVar : ∀ name, t.kind = .localVar name → t.receiver = none ∧ t.args = []
  cell : ∀ name, t.kind = .cell name → t.receiver = none ∧ t.args = []
  receiver : t.kind = .receiver → t.receiver = none ∧ t.args = []
  dynamicMember : ∀ name, t.kind = .dynamicMember name → t.args = []
  field : ∀ name, t.storage = .field name → t.kind ≠ .indexer → t.args = []

namespace Classified

variable {md : Metadata} {typeOf : ε → TypeRef} {span : Span} {p : Place ε} {t : Target ε}

theorem wellFormed (h : Classified md typeOf span p t) : t.WellFormed := by
  cases h with
  | @localVar l =>
    by_cases hl : l.byRef <;> constructor <;> simp [plain, hl]
  | @field r | @property r | @resolved r | @candidates r =>
    cases r <;> constructor <;> simp [plain, Target.through, Receiver.isStatic]
  | _ => constructor <;> simp [plain]

theorem storage_of_isField {q : Property} {storage : Storage}
    (hstorage : (md.property q).storage? = some storage) (hq : (md.binding q).isField = false)
    (name : String) : storage ≠ .field name := by
  unfold PropertyBinding.storage? at hstorage
  change (md.property q).normalized.isField = false at hq
  cases hn : (md.property q).normalized with
  | field name' => simp [hn, PropertyBinding.isField] at hq
  | _ => simp [hn] at hstorage <;> simp [← hstorage]

/-- Without an indexer that is bound to a field, arguments have their place. -/
theorem args_eq_nil (h : Classified md typeOf span p t) (hp : p.isFieldIndexer md = false)
    {name : String} (hname : t.storage = .field name) : t.args = [] := by
  by_cases hkind : t.kind = .indexer
  · cases h with
    | @resolved r p _ _ _ _ _ hstorage =>
      exact absurd hname (storage_of_isField hstorage hp name)
    | @candidates r p _ _ _ _ hstorage =>
      exact absurd hname (storage_of_isField hstorage
        (by simpa [Place.isFieldIndexer] using hp) name)
    | @localVar l => by_cases hl : l.byRef <;> simp [plain, hl] at hkind
    | @field r | @property r =>
      cases r <;> simp [plain, Target.through, Receiver.isStatic] at hkind
    | _ => cases hkind
  · exact h.wellFormed.field name hname hkind

/-- Reading a target runs no code if reading its place does not. -/
theorem getter?_eq_none (h : Classified md typeOf span p t) (hp : p.runsCode md = false) :
    t.getter? = none := by
  have hgetter : ∀ {q : Property} {storage : Storage}, (md.property q).storage? = some storage →
      (md.binding q).isField = true ∨ md.binding q = .subscript → storage.getter? = none := by
    intro q storage hstorage hq
    unfold PropertyBinding.storage? at hstorage
    change (md.property q).normalized.isField = true ∨ (md.property q).normalized = _ at hq
    cases hn : (md.property q).normalized with
    | accessors g s => simp [hn, PropertyBinding.isField] at hq
    | _ => simp [hn] at hstorage <;> simp [← hstorage, Storage.getter?]
  cases h with
  | @field r => cases r <;> rfl
  | @property r p storage hstorage =>
    exact hgetter hstorage (.inl (by simpa [Place.runsCode] using hp))
  | @resolved r p _ _ _ storage _ hstorage =>
    exact hgetter hstorage (.inr (by simpa [Place.runsCode, IndexerTarget.isSubscript] using hp))
  | @candidates r p _ _ _ storage hstorage =>
    exact hgetter hstorage (.inr (by simpa [Place.runsCode, IndexerTarget.isSubscript] using hp))
  | _ => rfl

/-- Reading the current object or an element by several indices runs no accessor. -/
theorem getter?_of_kind (h : Classified md typeOf span p t)
    (hkind : t.kind = .receiver ∨ t.kind = .multiElement) : t.getter? = none := by
  cases h with
  | @field r | @property r | @resolved r | @candidates r =>
    cases r <;> simp [plain, Target.through, Receiver.isStatic] at hkind
  | _ => rfl

/-- A target that is a variable, itself or in a cell, is that of a local variable. -/
theorem exists_localVar (h : Classified md typeOf span p t) {x : String}
    (hx : t.kind = .localVar x ∨ t.kind = .cell x) : ∃ l, p = .localVar l ∧ l.name = x := by
  cases h with
  | @localVar l =>
    cases hl : l.byRef <;> exact ⟨l, rfl, by simpa [plain, hl] using hx⟩
  | @field r | @property r | @resolved r | @candidates r =>
    cases r <;> simp [plain, Target.through, Receiver.isStatic] at hx
  | _ => simp [plain] at hx

/-- The type of what is stored is that of the place. -/
theorem ty_eq (h : Classified md typeOf span p t) : t.ty = p.ty := by
  cases h with
  | @field r | @property r | @resolved r | @candidates r => cases r <;> rfl
  | _ => rfl

end Classified
end AssignmentLowering
