import AssignmentLowering.Lowering.Basic
import AssignmentLowering.Proofs.Target.Classified

/-!
# Bindings in normal form

A native subscript can be said in two ways, as one binding and as a pair of accessors. With
every answer in normal form the places of a program have the targets that they had, and
evaluating them is known to have the same effects. There is one exception. Candidates for an
indexer are compared as they were answered, so they are refused if some of them are said to
be a subscript in the one way and some in the other.

## Main definitions

* `Metadata.normalize`, `Context.normalize` — the same answers, in normal form.
* `Place.Splits` — candidates that are subscripts said in both ways.

## Main statements

* `Target.ofPlace_normalize` — targets are the same, the exception apart.
* `Target.ofPlace_of_splits`, `Target.exists_ofPlace_normalize` — what becomes of that.
* `Expr.hasEffects_normalize` — effects are the same.
-/

namespace AssignmentLowering

variable {ε : Type} {md : Metadata}

/-- The same answers, with every binding of a property in normal form. -/
def Metadata.normalize (md : Metadata) : Metadata := { md with property := md.binding }

def Context.normalize (cx : Context) : Context := { cx with metadata := cx.metadata.normalize }

/-- Candidates that are all subscripts, some of them said to be a pair and some not. -/
structure SplitSubscripts (md : Metadata) (ps : List Property) : Prop where
  all : ∀ p ∈ ps, md.binding p = .subscript
  one : ∃ p ∈ ps, md.property p = .subscript
  pair : ∃ p ∈ ps, md.property p = .accessors .subscript .subscript

/-- The place is an indexer with such candidates, used as candidates must be. -/
def Place.Splits (md : Metadata) : Place ε → Prop
  | .indexer _ (.candidates ps) args _ => (∀ a ∈ args, a.name = none) ∧ SplitSubscripts md ps
  | _ => False

/-! ## Candidates compared -/

namespace PropertyBinding

theorem normalized_cases (b : PropertyBinding) :
    b.normalized = b ∨ b = .accessors .subscript .subscript := by
  cases b with
  | accessors g s => cases g <;> cases s <;> simp [normalized]
  | _ => exact .inl rfl

/-- Different bindings with one normal form are the two ways to say that a property is a
subscript. -/
theorem of_normalized_eq {b c : PropertyBinding} (h : b.normalized = c.normalized) (hne : b ≠ c) :
    (b = .subscript ∧ c = .accessors .subscript .subscript) ∨
      (b = .accessors .subscript .subscript ∧ c = .subscript) := by
  obtain hb | rfl := b.normalized_cases
  · obtain hc | rfl := c.normalized_cases
    · exact absurd (hb ▸ hc ▸ h) hne
    · exact .inl ⟨hb.symm.trans h, rfl⟩
  · obtain hc | rfl := c.normalized_cases
    · exact .inr ⟨rfl, hc.symm.trans h.symm⟩
    · exact absurd rfl hne

@[simp] theorem storage?_normalized (b : PropertyBinding) : b.normalized.storage? = b.storage? := by
  simp [storage?]

end PropertyBinding

/-- Candidates that agree in normal form agree, unless they are split. -/
theorem splitSubscripts_of_binding_eq {p : Property} {others : List Property}
    (hbinding : ∀ q ∈ others, md.binding q = md.binding p)
    {q : Property} (hq : q ∈ others) (hne : md.property q ≠ md.property p) :
    SplitSubscripts md (p :: others) := by
  have hall : md.binding p = .subscript → ∀ x ∈ p :: others, md.binding x = .subscript :=
    fun hp => List.forall_mem_cons.2 ⟨hp, fun x hx => (hbinding x hx).trans hp⟩
  obtain ⟨hq', hp⟩ | ⟨hq', hp⟩ := PropertyBinding.of_normalized_eq (hbinding q hq) hne
  · exact ⟨hall (by rw [Metadata.binding, hp]; rfl), ⟨q, List.mem_cons_of_mem _ hq, hq'⟩,
      ⟨p, List.mem_cons_self, hp⟩⟩
  · exact ⟨hall (by rw [Metadata.binding, hp]; rfl), ⟨p, List.mem_cons_self, hp⟩,
      ⟨q, List.mem_cons_of_mem _ hq, hq'⟩⟩

theorem any_binding_ne_eq {p : Property} {others : List Property}
    (h : ¬SplitSubscripts md (p :: others)) :
    (others.any fun q => md.binding q ≠ md.binding p) =
      others.any fun q => md.property q ≠ md.property p := by
  rw [Bool.eq_iff_iff, List.any_eq_true, List.any_eq_true]
  simp only [decide_eq_true_eq]
  constructor
  · intro ⟨q, hq, hne⟩
    exact ⟨q, hq, fun heq => hne (congrArg PropertyBinding.normalized heq)⟩
  · intro ⟨q, hq, hne⟩
    apply Classical.byContradiction
    intro hall
    have hbinding : ∀ x ∈ others, md.binding x = md.binding p :=
      fun x hx => Classical.byContradiction fun hx' => hall ⟨x, hx, hx'⟩
    exact h (splitSubscripts_of_binding_eq hbinding hq hne)

namespace SplitSubscripts

variable {p : Property} {others : List Property} (h : SplitSubscripts md (p :: others))

include h

theorem any_property_ne : (others.any fun q => md.property q ≠ md.property p) = true := by
  -- Of the two ways to say it, `p` is said in one, so some other is said in the other.
  have hother : ∀ b, md.property p ≠ b → (∃ q ∈ p :: others, md.property q = b) →
      ∃ q ∈ others, md.property q ≠ md.property p := by
    rintro b hb ⟨q, hq, rfl⟩
    obtain rfl | hq := List.mem_cons.1 hq
    · exact absurd rfl hb
    · exact ⟨q, hq, hb.symm⟩
  rw [List.any_eq_true]
  simp only [decide_eq_true_eq]
  by_cases hp : md.property p = .subscript
  · exact hother _ (by simp [hp]) h.pair
  · exact hother _ hp h.one

theorem any_binding_ne : (others.any fun q => md.binding q ≠ md.binding p) = false := by
  obtain ⟨hp, hothers⟩ := List.forall_mem_cons.1 h.all
  rw [List.any_eq_false]
  intro q hq
  simp [hothers q hq, hp]

end SplitSubscripts

/-! ## Targets -/

@[simp] theorem storageOf_normalize (md : Metadata) (p : Property) (span : Span) :
    storageOf (md.normalize.property p) p span = storageOf (md.property p) p span := by
  simp [storageOf, Metadata.normalize, Metadata.binding]

theorem rejectNamed_of_unnamed {args : List (Argument ε)} (h : ∀ a ∈ args, a.name = none)
    (span : Span) : rejectNamed args span = .ok () := by
  have hany : args.any (·.name.isSome) = false := by
    rw [List.any_eq_false]
    intro a ha
    simp [h a ha]
  simp [rejectNamed, hany]

theorem rejectNamed_of_named {args : List (Argument ε)} (h : ¬∀ a ∈ args, a.name = none)
    (span : Span) : ∃ e, rejectNamed args span = .error e := by
  have hany : args.any (·.name.isSome) = true := by
    rw [List.any_eq_true]
    simpa [← Option.ne_none_iff_isSome] using h
  exact ⟨.namedArguments span, by simp [rejectNamed, hany]⟩

namespace Target

variable {enclosing : EnclosingMember} {typeOf : ε → TypeRef} {span : Span} {p : Place ε}

theorem ofIndexer_candidates {r : Receiver ε} {q : Property} {others : List Property}
    {args : List (Argument ε)} {ty : TypeRef} (hnamed : ∀ a ∈ args, a.name = none) :
    ofIndexer md typeOf r (.candidates (q :: others)) args ty span =
      if others.any fun q' => md.property q' ≠ md.property q then
        .error (.ambiguousCandidates q.owner.name span)
      else
        (storageOf (md.property q) q span).map fun storage =>
          { (plain .indexer ty span).through r with
            storage, args := IndexArg.inOrder typeOf (args.map (·.value)),
            paramNames := q.params.map (·.name) } := by
  rw [ofIndexer, rejectNamed_of_unnamed hnamed]
  rfl

theorem ofIndexer_normalize {r : Receiver ε} {target : IndexerTarget ε}
    {args : List (Argument ε)} {ty : TypeRef}
    (h : ¬(Place.indexer r target args ty).Splits md) :
    ofIndexer md.normalize typeOf r target args ty span =
      ofIndexer md typeOf r target args ty span := by
  cases target with
  | resolved p defaults =>
    simp only [ofIndexer, storageOf_normalize]
  | candidates ps =>
    cases ps with
    | nil => rfl
    | cons p others =>
      by_cases hnamed : ∀ a ∈ args, a.name = none
      · have hany : (others.any fun q => md.normalize.property q ≠ md.normalize.property p) =
            others.any fun q => md.property q ≠ md.property p :=
          any_binding_ne_eq fun hsplit => h ⟨hnamed, hsplit⟩
        rw [ofIndexer_candidates hnamed, ofIndexer_candidates hnamed, hany,
          storageOf_normalize]
      · obtain ⟨e, he⟩ := rejectNamed_of_named hnamed span
        simp [ofIndexer, he, bind, Except.bind]

/-- Targets are the same whether answers are in normal form or not, unless candidates are
split. -/
theorem ofPlace_normalize (h : ¬p.Splits md) :
    ofPlace md.normalize enclosing typeOf span p = ofPlace md enclosing typeOf span p := by
  cases p with
  | property r p =>
    simp only [ofPlace, ofProperty, storageOf_normalize]
  | indexer r target args ty => exact ofIndexer_normalize h
  | _ => rfl

theorem exists_candidates_of_splits (h : p.Splits md) :
    ∃ r q others args ty, p = .indexer r (.candidates (q :: others)) args ty ∧
      (∀ a ∈ args, a.name = none) ∧ SplitSubscripts md (q :: others) := by
  cases p with
  | indexer r target args ty =>
    cases target with
    | resolved q defaults => cases h
    | candidates ps =>
      obtain ⟨hnamed, hsplit⟩ := h
      cases ps with
      | nil => obtain ⟨q, hq, -⟩ := hsplit.one; cases hq
      | cons q others => exact ⟨r, q, others, args, ty, rfl, hnamed, hsplit⟩
  | _ => cases h

/-- Split candidates are refused as they are answered. -/
theorem ofPlace_of_splits (h : p.Splits md) :
    ∃ owner, ofPlace md enclosing typeOf span p = .error (.ambiguousCandidates owner span) := by
  obtain ⟨r, q, others, args, ty, rfl, hnamed, hsplit⟩ := exists_candidates_of_splits h
  refine ⟨q.owner.name, ?_⟩
  rw [ofPlace, ofIndexer_candidates hnamed, hsplit.any_property_ne]
  rfl

/-- Answered in normal form they are accepted. -/
theorem exists_ofPlace_normalize (h : p.Splits md) :
    ∃ t, ofPlace md.normalize enclosing typeOf span p = .ok t := by
  obtain ⟨r, q, others, args, ty, rfl, hnamed, hsplit⟩ := exists_candidates_of_splits h
  have hany : (others.any fun q' => md.normalize.property q' ≠ md.normalize.property q) = false :=
    hsplit.any_binding_ne
  have hstorage : storageOf (md.property q) q span = .ok .subscript := by
    have hq : (md.property q).normalized = .subscript := hsplit.all q List.mem_cons_self
    simp [storageOf, PropertyBinding.storage?, hq]
  rw [ofPlace, ofIndexer_candidates hnamed, hany, storageOf_normalize, hstorage]
  exact ⟨_, rfl⟩

end Target

/-! ## Effects -/

@[simp] theorem Metadata.binding_normalize (md : Metadata) : md.normalize.binding = md.binding :=
  funext md.normalized_binding

theorem Place.runsCode_normalize (md : Metadata) (p : Place ε) :
    p.runsCode md.normalize = p.runsCode md := by
  cases p with
  | property r p => simp [runsCode]
  | indexer r target args ty => cases target <;> simp [runsCode, IndexerTarget.isSubscript]
  | _ => rfl

@[simp] theorem Expr.hasEffects_normalize (md : Metadata) (e : Expr) :
    e.hasEffects md.normalize = e.hasEffects md := by
  have hform : ∀ (effects : Expr × Bool → Bool) (x : Form (Expr × Bool)),
      x.hasEffects md.normalize effects = x.hasEffects md effects := by
    intro effects x
    cases x with
    | place p => simp [Form.hasEffects, Place.runsCode_normalize]
    | _ => rfl
  simp only [hasEffects, hform]

end AssignmentLowering
