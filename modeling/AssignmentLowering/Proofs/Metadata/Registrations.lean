import AssignmentLowering.Metadata.Registry

/-!
# What a registry answers

A registry is told about one symbol after the other and asked in the end. A lookup finds what
was told last about a symbol of the same identity, so all depends on which symbols share one.
As long as the names and parameter lists in use do not collide, types, fields, properties and
indexers keep their identities to themselves, and each is answered by what was told last about
just this one; overloads of an indexer do not get in each other's way.

Methods are different. Their parameters take no part in their identity, so what is told
about one overload is answered for all of them.

## Main definitions

* `Registration`, `Registry.fill` — what a registry is told, and telling it.
* `Member` — a member by its declaring type, name and parameter types.
* `Vocabulary.CollisionFree` — identities that keep apart what is in use.
* `Registry.AnswersLatest` — what is answered.

## Main statements

* `Vocabulary.CollisionFree.id_eq_iff` — properties and indexers of one identity are one member.
* `Registry.fill_answersLatest` — every registry answers in this way.
-/

namespace AssignmentLowering

/-- Something that a registry is told. -/
inductive Registration where
  | type (t : TypeRef) (semantics : CopySemantics)
  | property (p : Property) (binding : PropertyBinding)
  | field (f : Field) (name : String)
  | method (m : Method) (binding : MethodBinding)
  /-- Other names for members without a registration. -/
  | naming (n : Naming)

/-- A member, told from all others by its declaring type, its name and the types of its
parameters. -/
@[ext]
structure Member where
  owner : TypeRef
  name : String
  params : List TypeRef
  deriving DecidableEq

namespace Member

/-- In a declaration, indexers are called `Item`, and only they have parameters. -/
def IsDeclarable (isIndexer : Bool) (k : Member) : Prop :=
  if isIndexer then k.name = "Item" else k.params = []

/-- The identity of an indexer, or of another member, whose parameters take no part in it. -/
def id (isIndexer : Bool) (k : Member) : SymbolId :=
  if isIndexer then .ofIndexer k.owner.id (k.params.map TypeRef.id)
  else .ofMember k.owner.id k.name

/-- An indexer without parameters cannot be told from another member called `Item`. -/
theorem id_eq_of_isDeclarable {k : Member} {b c : Bool} (hb : k.IsDeclarable b)
    (hc : k.IsDeclarable c) : k.id b = k.id c := by
  have hitem : k.name = "Item" → k.params = [] → k.id true = k.id false := by
    intro hname hparams
    simp only [id, hname, hparams]
    rfl
  cases b <;> cases c
  · rfl
  · exact (hitem hc hb).symm
  · exact hitem hb hc
  · rfl

end Member

def Property.member (p : Property) : Member := ⟨p.owner, p.name, p.params.map (·.ty)⟩

def Field.member (f : Field) : Member := ⟨f.owner, f.name, []⟩

def Method.member (m : Method) : Member := ⟨m.owner, m.name, m.params.map (·.ty)⟩

theorem Property.id_eq (p : Property) : p.id = p.member.id p.isIndexer := by
  simp [Property.id, Member.id, Property.member, Function.comp_def]

theorem Field.id_eq (f : Field) : f.id = f.member.id false := rfl

theorem Field.isDeclarable (f : Field) : f.member.IsDeclarable false := rfl

theorem Method.id_eq (m : Method) : m.id = m.member.id false := rfl

namespace Registration

variable {α : Type}

/-- What is said about the copying of a type. -/
def semantics? (t : TypeRef) : Registration → Option CopySemantics
  | type u s => if u = t then some s else none
  | _ => none

/-- What is said about a property or an indexer, in normal form. -/
def property? (k : Member) : Registration → Option PropertyBinding
  | property p b => if p.member = k then some b.normalized else none
  | _ => none

/-- What is said about a field. -/
def fieldName? (k : Member) : Registration → Option String
  | field f name => if f.member = k then some name else none
  | _ => none

/-- What is said about a method. -/
def method? (k : Member) : Registration → Option MethodBinding
  | method m b => if m.member = k then some b else none
  | _ => none

/-- What is said about a method or an overload of it, and about which. -/
def overload? (k : Member) : Registration → Option (Member × MethodBinding)
  | method m b => if m.owner = k.owner ∧ m.name = k.name then some (m.member, b) else none
  | _ => none

def naming? : Registration → Option Naming
  | naming n => some n
  | _ => none

/-- The last that is said about something. -/
def latest (told : Registration → Option α) (rs : List Registration) : Option α :=
  rs.reverse.findSome? told

theorem latest_cons (told : Registration → Option α) (x : Registration)
    (rs : List Registration) :
    latest told (x :: rs) = (latest told rs).or (told x) := by
  rw [latest, List.reverse_cons, List.findSome?_append, List.findSome?_singleton, latest]

/-- Something is said about a method if it is said about an overload, and that is the
method itself. -/
theorem method?_eq (k : Member) (x : Registration) :
    x.method? k = (x.overload? k).bind fun found => if found.1 = k then some found.2 else none := by
  cases x with
  | method m b =>
    simp only [method?, overload?]
    by_cases h : m.owner = k.owner ∧ m.name = k.name
    · simp [h]
    · have hne : m.member ≠ k := fun hk => h ⟨congrArg Member.owner hk, congrArg Member.name hk⟩
      simp [h, hne]
  | _ => rfl

theorem latest_method?_of_none {k : Member} {rs : List Registration}
    (h : latest (overload? k) rs = none) : latest (method? k) rs = none := by
  rw [latest, List.findSome?_eq_none_iff] at h ⊢
  intro x hx
  rw [method?_eq, h x hx, Option.bind_none]

/-- What was said last about any overload was said last about the method, if it was said
about this one. -/
theorem latest_method?_of_own {k : Member} {b : MethodBinding} {rs : List Registration}
    (h : latest (overload? k) rs = some (k, b)) : latest (method? k) rs = some b := by
  obtain ⟨later, x, earlier, hrs, hx, hlater⟩ := List.findSome?_eq_some_iff.1 h
  refine List.findSome?_eq_some_iff.2 ⟨later, x, earlier, hrs, ?_, ?_⟩
  · rw [method?_eq, hx]
    simp
  · intro y hy
    rw [method?_eq, hlater y hy, Option.bind_none]

/-- What was said last about any overload is what was said last about the method if the last
overload is this one, or says the same. -/
theorem latest_overload?_eq_iff {k : Member} {rs : List Registration} (default : MethodBinding) :
    ((latest (overload? k) rs).map (·.2)).getD default = (latest (method? k) rs).getD default ↔
      ∀ l b, latest (overload? k) rs = some (l, b) →
        l = k ∨ b = (latest (method? k) rs).getD default := by
  cases hlatest : latest (overload? k) rs with
  | none => simp [latest_method?_of_none hlatest]
  | some found =>
    obtain ⟨l, b⟩ := found
    constructor
    · rintro hb l' b' ⟨⟩
      exact .inr hb
    · intro h
      obtain rfl | hb := h l b rfl
      · rw [latest_method?_of_own hlatest]
        rfl
      · exact hb

end Registration

/-! ## Telling a registry -/

namespace Registry

open Registration (latest)

def tell (r : Registry) : Registration → Registry
  | .type t s => r.registerType t s
  | .property p b => r.registerProperty p b
  | .field f name => r.registerField f name
  | .method m b => r.registerMethod m b
  | .naming n => r.withNaming n

/-- Tell a registry one thing after the other. -/
def fill (r : Registry) (rs : List Registration) : Registry := rs.foldl tell r

/-- If every registration is found by a lookup or leaves it as it is, then a lookup in the end
finds the last one. -/
theorem lookup_fill {α : Type} (look : Registry → Option α) {told : Registration → Option α}
    {rs : List Registration}
    (h : ∀ r, ∀ x ∈ rs, look (tell r x) = (told x).or (look r)) (r : Registry) :
    look (r.fill rs) = (latest told rs).or (look r) := by
  induction rs generalizing r with
  | nil => rfl
  | cons x rs ih =>
    have hrest := ih (fun r y hy => h r y (List.mem_cons_of_mem _ hy)) (r.tell x)
    calc look (r.fill (x :: rs)) = look ((r.tell x).fill rs) := rfl
      _ = (latest told rs).or ((told x).or (look r)) := by rw [hrest, h r x List.mem_cons_self]
      _ = (latest told (x :: rs)).or (look r) := by rw [Registration.latest_cons, Option.or_assoc]

/-- The same for a registry that is new. -/
theorem lookup_fill_new {α : Type} (look : Registry → Option α) {told : Registration → Option α}
    {rs : List Registration} (hnew : look {} = none)
    (h : ∀ r, ∀ x ∈ rs, look (tell r x) = (told x).or (look r)) :
    look (fill {} rs) = latest told rs := by
  rw [lookup_fill look h, hnew, Option.or_none]

/-- A registration under an identity is found under this identity and under no other. -/
theorem lookup_cons_eq {β : Type} {i j : SymbolId} {c : Prop} [Decidable c] (h : j = i ↔ c)
    (b : β) (rest : List (SymbolId × β)) :
    ((i, b) :: rest).lookup j = (if c then some b else none).or (rest.lookup j) := by
  by_cases hc : c
  · rw [h.2 hc]
    simp [hc]
  · have hne : j ≠ i := fun hji => hc (h.1 hji)
    simp [List.lookup_cons, beq_false_of_ne hne, hc]

end Registry

/-! ## What keeps its identity to itself -/

/-- Names in use: of types, of members, and the types of indexers' parameters. -/
structure Vocabulary where
  types : List TypeRef
  names : List String
  signatures : List (List TypeRef)

namespace Vocabulary

variable (v : Vocabulary)

/-- What is in use has identities of its own. An indexer without parameters is identified
like a member of the name `Item`; this much is not left to chance. -/
structure CollisionFree : Prop where
  types : ∀ t ∈ v.types, ∀ u ∈ v.types, t.id = u.id → t = u
  members : ∀ t ∈ v.types, ∀ u ∈ v.types, ∀ a ∈ v.names, ∀ b ∈ v.names,
    SymbolId.ofMember t.id a = SymbolId.ofMember u.id b → t = u ∧ a = b
  indexers : ∀ t ∈ v.types, ∀ u ∈ v.types, ∀ ps ∈ v.signatures, ∀ qs ∈ v.signatures,
    SymbolId.ofIndexer t.id (ps.map TypeRef.id) = SymbolId.ofIndexer u.id (qs.map TypeRef.id) →
      t = u ∧ ps = qs
  apart : ∀ t ∈ v.types, ∀ u ∈ v.types, ∀ a ∈ v.names, ∀ ps ∈ v.signatures,
    SymbolId.ofMember t.id a = SymbolId.ofIndexer u.id (ps.map TypeRef.id) →
      t = u ∧ a = "Item" ∧ ps = []

/-- The member is called by names in use. -/
structure Has (k : Member) : Prop where
  owner : k.owner ∈ v.types
  name : k.name ∈ v.names
  params : k.params ∈ v.signatures

/-- A registration about something in use. -/
def Covers : Registration → Prop
  | .type t _ => t ∈ v.types
  | .property p _ => v.Has p.member ∧ p.member.IsDeclarable p.isIndexer
  | .field f _ => v.Has f.member
  | .method m _ => v.Has m.member
  | .naming _ => True

end Vocabulary

namespace Vocabulary.CollisionFree

variable {v : Vocabulary} (hv : v.CollisionFree) {k l : Member}

include hv

/-- Members in use share an identity only if they are one. -/
theorem eq_of_id {b c : Bool} (hk : v.Has k) (hl : v.Has l) (hb : k.IsDeclarable b)
    (hc : l.IsDeclarable c) (h : k.id b = l.id c) : k = l := by
  have hmixed : ∀ {k l : Member}, v.Has k → v.Has l → k.params = [] → l.name = "Item" →
      k.id false = l.id true → k = l := by
    intro k l hk hl hparams hname h
    obtain ⟨howner, hitem, hnil⟩ := hv.apart _ hk.owner _ hl.owner _ hk.name _ hl.params h
    ext1
    · exact howner
    · rw [hitem, hname]
    · rw [hparams, hnil]
  cases b <;> cases c
  · obtain ⟨howner, hname⟩ := hv.members _ hk.owner _ hl.owner _ hk.name _ hl.name h
    ext1
    · exact howner
    · exact hname
    · exact Eq.trans hb hc.symm
  · exact hmixed hk hl hb hc h
  · exact (hmixed hl hk hc hb h.symm).symm
  · obtain ⟨howner, hparams⟩ := hv.indexers _ hk.owner _ hl.owner _ hk.params _ hl.params h
    ext1
    · exact howner
    · exact Eq.trans hb hc.symm
    · exact hparams

theorem id_eq_iff {b c : Bool} (hk : v.Has k) (hl : v.Has l) (hb : k.IsDeclarable b)
    (hc : l.IsDeclarable c) : k.id b = l.id c ↔ k = l := by
  constructor
  · exact hv.eq_of_id hk hl hb hc
  · rintro rfl
    exact Member.id_eq_of_isDeclarable hb hc

/-- Without parameters, an identity tells the declaring type and the name. -/
theorem id_false_eq_iff (hk : v.Has k) (hl : v.Has l) :
    k.id false = l.id false ↔ k.owner = l.owner ∧ k.name = l.name := by
  constructor
  · exact hv.members _ hk.owner _ hl.owner _ hk.name _ hl.name
  · intro ⟨howner, hname⟩
    simp [Member.id, howner, hname]

end Vocabulary.CollisionFree

/-! ## What is answered -/

namespace Registry

open Registration (latest)

/-- What a registry answers that was told `rs`: what it was told last, or else a name by the
naming in force. -/
structure AnswersLatest (v : Vocabulary) (rs : List Registration) (r : Registry) : Prop where
  naming : r.naming = (latest Registration.naming? rs).getD {}
  semantics : ∀ t ∈ v.types,
    r.semantics t = (latest (Registration.semantics? t) rs).getD .reference
  property : ∀ p : Property, v.Has p.member → p.member.IsDeclarable p.isIndexer →
    r.property p = (latest (Registration.property? p.member) rs).getD
      (.accessors (.method (r.naming.getterName p.name)) (.method (r.naming.setterName p.name)))
  fieldName : ∀ f : Field, v.Has f.member →
    r.fieldName f =
      (latest (Registration.fieldName? f.member) rs).getD (r.naming.memberName f.name)
  /-- A method is answered by what was told last about any of its overloads. -/
  method : ∀ m : Method, v.Has m.member →
    r.method m = ((latest (Registration.overload? m.member) rs).map (·.2)).getD
      (.method (r.naming.memberName m.name))
  /-- This is what was told last about the method itself if and only if the overload that was
  told about last is this one, or is bound no differently. -/
  method_iff : ∀ m : Method, v.Has m.member →
    (r.method m = (latest (Registration.method? m.member) rs).getD
        (.method (r.naming.memberName m.name)) ↔
      ∀ k b, latest (Registration.overload? m.member) rs = some (k, b) →
        k = m.member ∨ b = (latest (Registration.method? m.member) rs).getD
          (.method (r.naming.memberName m.name)))

variable {v : Vocabulary}

/-! One registration: it is found by the lookups for its own symbol, and by no others. -/

section

variable (hv : v.CollisionFree) (r : Registry) {x : Registration} (hx : v.Covers x)

include hv hx

theorem lookup_types_tell {t : TypeRef} (ht : t ∈ v.types) :
    (r.tell x).types.lookup t.id = (x.semantics? t).or (r.types.lookup t.id) := by
  cases x with
  | type u s => exact lookup_cons_eq ⟨fun h => (hv.types t ht u hx h).symm, fun h => h ▸ rfl⟩ ..
  | _ => rfl

theorem lookup_properties_tell {p : Property} (hp : v.Has p.member)
    (hp' : p.member.IsDeclarable p.isIndexer) :
    (r.tell x).properties.lookup p.id =
      (x.property? p.member).or (r.properties.lookup p.id) := by
  cases x with
  | property q b =>
    refine lookup_cons_eq ?_ ..
    rw [p.id_eq, q.id_eq, hv.id_eq_iff hp hx.1 hp' hx.2, eq_comm]
  | _ => rfl

theorem lookup_fields_tell {f : Field} (hf : v.Has f.member) :
    (r.tell x).fields.lookup f.id = (x.fieldName? f.member).or (r.fields.lookup f.id) := by
  cases x with
  | field g name =>
    refine lookup_cons_eq ?_ ..
    rw [f.id_eq, g.id_eq, hv.id_eq_iff hf hx f.isDeclarable g.isDeclarable, eq_comm]
  | _ => rfl

/-- Overloads of a method are not told apart. -/
theorem lookup_methods_tell {m : Method} (hm : v.Has m.member) :
    (r.tell x).methods.lookup m.id =
      ((x.overload? m.member).map (·.2)).or (r.methods.lookup m.id) := by
  cases x with
  | method n b =>
    have hid : m.id = n.id ↔ n.owner = m.owner ∧ n.name = m.name := by
      rw [m.id_eq, n.id_eq, hv.id_false_eq_iff hm hx]
      exact and_congr eq_comm eq_comm
    have htold : ((Registration.method n b).overload? m.member).map (·.2) =
        if n.owner = m.owner ∧ n.name = m.name then some b else none :=
      (apply_ite (Option.map Prod.snd) ..).trans rfl
    rw [htold]
    exact lookup_cons_eq hid ..
  | _ => rfl

end

theorem naming_tell (r : Registry) (x : Registration) :
    some (r.tell x).naming = x.naming?.or (some r.naming) := by
  cases x <;> rfl

theorem naming_fill (rs : List Registration) :
    (fill {} rs).naming = (latest Registration.naming? rs).getD {} := by
  have hlookup : some (fill {} rs).naming = (latest Registration.naming? rs).or (some {}) :=
    lookup_fill (fun r => some r.naming) (fun r x _ => naming_tell r x) {}
  cases hlatest : latest Registration.naming? rs with
  | none => simpa [hlatest] using hlookup
  | some n => simpa [hlatest] using hlookup

theorem method_fill (hv : v.CollisionFree) {rs : List Registration} (hrs : ∀ x ∈ rs, v.Covers x)
    {m : Method} (hm : v.Has m.member) :
    (fill {} rs).method m = ((latest (Registration.overload? m.member) rs).map (·.2)).getD
      (.method ((fill {} rs).naming.memberName m.name)) := by
  have hlookup : (fill {} rs).methods.lookup m.id =
      latest (fun x => (x.overload? m.member).map (·.2)) rs :=
    lookup_fill_new (fun r => r.methods.lookup m.id) rfl fun r x hx =>
      lookup_methods_tell hv r (hrs x hx) hm
  rw [method, hlookup, latest, latest, List.map_findSome?]
  rfl

/-- **What a registry answers.** Types, fields, properties and indexers are answered by what
was told last about just them, methods by what was told last about any of their overloads. -/
theorem fill_answersLatest (hv : v.CollisionFree) (rs : List Registration)
    (hrs : ∀ x ∈ rs, v.Covers x) : (fill {} rs).AnswersLatest v rs := by
  constructor
  case naming => exact naming_fill rs
  case semantics =>
    intro t ht
    have hlookup : (fill {} rs).types.lookup t.id = latest _ rs :=
      lookup_fill_new (fun r => r.types.lookup t.id) rfl fun r x hx =>
        lookup_types_tell hv r (hrs x hx) ht
    rw [semantics, hlookup]
  case property =>
    intro p hp hp'
    have hlookup : (fill {} rs).properties.lookup p.id = latest _ rs :=
      lookup_fill_new (fun r => r.properties.lookup p.id) rfl fun r x hx =>
        lookup_properties_tell hv r (hrs x hx) hp hp'
    rw [property, hlookup]
  case fieldName =>
    intro f hf
    have hlookup : (fill {} rs).fields.lookup f.id = latest _ rs :=
      lookup_fill_new (fun r => r.fields.lookup f.id) rfl fun r x hx =>
        lookup_fields_tell hv r (hrs x hx) hf
    rw [fieldName, hlookup]
  case method => exact fun m hm => method_fill hv hrs hm
  case method_iff =>
    intro m hm
    rw [method_fill hv hrs hm]
    exact Registration.latest_overload?_eq_iff _

end Registry

/-! ## Two overloads each of an indexer and of a method -/

namespace Sample

def grid : TypeRef := ⟨"Grid"⟩

def int : TypeRef := ⟨"Int32"⟩

def text : TypeRef := ⟨"String"⟩

/-- The overload of the indexer that takes a `ty`. -/
def gridItem (ty : TypeRef) : Property :=
  { name := "Item", owner := grid, ty := int, params := [⟨"key", ty⟩], isIndexer := true }

/-- The overload of the method that takes a `ty`. -/
def gridGet (ty : TypeRef) : Method :=
  { name := "Get", owner := grid, returns := int, params := [⟨"key", ty⟩] }

def gridVocabulary : Vocabulary :=
  { types := [grid, int, text], names := ["Item", "Get"], signatures := [[], [int], [text]] }

def gridRegistrations : List Registration :=
  [.property (gridItem int) (.accessors .subscript .subscript),
   .property (gridItem text) (.accessors (.method "named") (.method "rename")),
   .method (gridGet int) (.method "get"), .method (gridGet text) (.method "getNamed")]

theorem gridVocabulary_collisionFree : gridVocabulary.CollisionFree := by
  constructor <;> decide +kernel

/-- The indexer is answered overload by overload, the method by its last one. -/
theorem fill_answersLatest_grid :
    gridVocabulary.CollisionFree ∧ (∀ x ∈ gridRegistrations, gridVocabulary.Covers x) ∧
      (Registry.fill {} gridRegistrations).AnswersLatest gridVocabulary gridRegistrations ∧
      (Registry.fill {} gridRegistrations).property (gridItem int) = .subscript ∧
      (Registry.fill {} gridRegistrations).method (gridGet int) = .method "getNamed" := by
  have hcovers : ∀ x ∈ gridRegistrations, gridVocabulary.Covers x := by
    simp only [gridRegistrations, List.forall_mem_cons]
    refine ⟨⟨⟨?_, ?_, ?_⟩, rfl⟩, ⟨⟨?_, ?_, ?_⟩, rfl⟩, ⟨?_, ?_, ?_⟩, ⟨?_, ?_, ?_⟩, ?_⟩ <;>
      simp [gridVocabulary, Property.member, Method.member, gridItem, gridGet]
  have hanswers := Registry.fill_answersLatest gridVocabulary_collisionFree _ hcovers
  refine ⟨gridVocabulary_collisionFree, hcovers, hanswers, ?_, ?_⟩
  · rw [hanswers.property _ (hcovers _ List.mem_cons_self).1 rfl]
    rfl
  · have hget : .method (gridGet int) (.method "get") ∈ gridRegistrations := by
      simp [gridRegistrations]
    rw [hanswers.method _ (hcovers _ hget)]
    rfl

end Sample
end AssignmentLowering
