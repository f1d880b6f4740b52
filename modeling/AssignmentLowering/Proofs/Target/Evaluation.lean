import AssignmentLowering.Proofs.Lowering.Forms
import AssignmentLowering.Proofs.Lowering.Sample
import AssignmentLowering.Proofs.Target.Indexed
import Mathlib.Data.List.Sigma
import Mathlib.Data.List.Sort

/-!
# What a target evaluates

Each written argument of a target stands at a declared index and has a position in the
text. Sorting these entries by position gives the order of evaluation. The operands
found in this order are those of the place: its object, then its indices as they are
written. The defaults that fill in for the other parameters have no position and are
not evaluated.

## Main definitions

* `Target.entries` — position and declared index of each written argument.
* `Target.Evaluates` — a target evaluates the operands of a place in order.

## Main statements

* `Target.order_eq_sort` — the order of evaluation is found by sorting.
* `Expr.target_evaluates` — the target that an expression is evaluates its operands.
-/

namespace AssignmentLowering

variable {ε : Type}

namespace Target

/-- Position and declared index of each written argument, in declared order. -/
def entries (t : Target ε) : List (Nat × Nat) :=
  t.args.zipIdx.filterMap fun (a, declared) => a.position.map (·, declared)

/-- The order of entries: by position, and at one position by declared index. -/
def entryLE : Nat × Nat → Nat × Nat → Bool := List.zipIdxLE fun i j => decide (i ≤ j)

theorem entryLE_iff {x y : Nat × Nat} :
    entryLE x y = true ↔ x.1 < y.1 ∨ x.1 = y.1 ∧ x.2 ≤ y.2 := by
  simp only [entryLE, List.zipIdxLE]
  grind

theorem mem_entries {t : Target ε} {i d : Nat} :
    (i, d) ∈ t.entries ↔ ∃ a, t.args[d]? = some a ∧ a.position = some i := by
  simp [entries, List.mem_filterMap, List.mem_zipIdx_iff_getElem?]

theorem nodup_entries (t : Target ε) : t.entries.Nodup := by
  have hdeclared : t.args.zipIdx.Pairwise (·.2 ≠ ·.2) :=
    List.pairwise_map.1 (List.nodup_zipIdx_map_snd t.args)
  refine List.pairwise_filterMap.2 (hdeclared.imp ?_)
  rintro ⟨a, d⟩ ⟨a', d'⟩ hne x hx y hy rfl
  obtain ⟨i, -, rfl⟩ := Option.map_eq_some_iff.1 hx
  obtain ⟨i', -, heq⟩ := Option.map_eq_some_iff.1 hy
  exact hne (congrArg Prod.snd heq).symm

/-- The entries that are found position by position. -/
def textEntries (t : Target ε) : List (Nat × Nat) :=
  (List.range t.args.length).filterMap fun i => (t.argAt? i).map fun x => (i, x.1)

theorem map_snd_textEntries (t : Target ε) : t.textEntries.map (·.2) = Indexed.order t := by
  simp only [textEntries, Indexed.order, callSite, List.map_filterMap, Option.map_map]
  rfl

theorem textEntries_pairwise (t : Target ε) : t.textEntries.Pairwise (·.1 < ·.1) := by
  refine List.pairwise_filterMap.2 (List.pairwise_lt_range.imp ?_)
  intro i j hlt x hx y hy
  obtain ⟨_, -, rfl⟩ := Option.map_eq_some_iff.1 hx
  obtain ⟨_, -, rfl⟩ := Option.map_eq_some_iff.1 hy
  exact hlt

theorem textEntries_perm {t : Target ε} {indices : List ε} (h : Arranges t.args indices) :
    t.textEntries.Perm t.entries := by
  refine (List.perm_ext_iff_of_nodup
    (t.textEntries_pairwise.imp fun hlt heq => Nat.ne_of_lt hlt (congrArg Prod.fst heq))
    t.nodup_entries).2 ?_
  rintro ⟨i, d⟩
  rw [mem_entries]
  constructor
  · intro hmem
    obtain ⟨_, -, hfound⟩ := List.mem_filterMap.1 hmem
    obtain ⟨x, hx, heq⟩ := Option.map_eq_some_iff.1 hfound
    cases heq
    obtain ⟨a, ha, hposition, -⟩ := (argAt?_eq_some h).1 hx
    exact ⟨a, ha, hposition⟩
  · rintro ⟨a, ha, hposition⟩
    have hlt : i < t.args.length :=
      (h.position_lt (List.mem_of_getElem? ha) hposition).trans_le h.length_le
    have hfound : t.argAt? i = some (d, a.value) := (argAt?_eq_some h).2 ⟨a, ha, hposition, rfl⟩
    exact List.mem_filterMap.2 ⟨i, List.mem_range.2 hlt, by rw [hfound]; rfl⟩

/-- Sorting the entries gives the order of evaluation. -/
theorem order_eq_sort {t : Target ε} {indices : List ε} (h : Arranges t.args indices) :
    Indexed.order t = (t.entries.mergeSort entryLE).map (·.2) := by
  have hsorted : t.textEntries.Pairwise (entryLE · ·) :=
    t.textEntries_pairwise.imp fun hlt => entryLE_iff.2 (.inl hlt)
  have hmerged : (t.entries.mergeSort entryLE).Pairwise (entryLE · ·) := by
    refine List.pairwise_mergeSort ?_ ?_ _ <;> intros <;>
      simp only [entryLE_iff, Bool.or_eq_true] at * <;> omega
  have heq : t.textEntries = t.entries.mergeSort entryLE := by
    refine List.Perm.eq_of_pairwise ?_ hsorted hmerged
      ((textEntries_perm h).trans (List.mergeSort_perm _ _).symm)
    intro x y _ _ hxy hyx
    rw [entryLE_iff] at hxy hyx
    exact Prod.ext (by omega) (by omega)
  rw [← heq, map_snd_textEntries]

/-- The target `t` evaluates the operands of the place `p`, in the order of the text. -/
structure Evaluates (t : Target ε) (p : Place ε) : Prop where
  receiver_eq : t.receiver = p.object?
  operands_eq : t.operands = p.object?.toList ++ p.indices
  /-- The order of evaluation sorts the entries by position. -/
  order_eq : Indexed.order t = (t.entries.mergeSort entryLE).map (·.2)
  /-- It goes through the declared indices of the written arguments, and no others. -/
  mem_order : ∀ d, d ∈ Indexed.order t ↔ ∃ a, t.args[d]? = some a ∧ a.position.isSome
  nodup_order : (Indexed.order t).Nodup
  /-- What is evaluated in turn is what is written in turn. -/
  written : ∀ i d, (Indexed.order t)[i]? = some d →
    ∃ a : IndexArg ε, t.args[d]? = some a ∧ a.position = some i ∧ p.indices[i]? = some a.value
  positions : (t.args.filterMap (·.position)).Perm (List.range p.indices.length)
  /-- An argument without a position is a default of the place. -/
  omitted : ∀ a ∈ t.args, a.position = none → a.value ∈ p.defaults

theorem getElem?_order {t : Target ε} {indices : List ε} (h : Arranges t.args indices)
    {i d : Nat} (hd : (Indexed.order t)[i]? = some d) :
    ∃ a, t.args[d]? = some a ∧ a.position = some i ∧ indices[i]? = some a.value := by
  rw [Indexed.order, List.getElem?_map, getElem?_callSite h, Option.map_eq_some_iff] at hd
  obtain ⟨x, hx, rfl⟩ := hd
  obtain ⟨a, ha, hposition, -⟩ := (argAt?_eq_some h).1 hx
  exact ⟨a, ha, hposition, h.value_eq a (List.mem_of_getElem? ha) i hposition⟩

theorem mem_order {t : Target ε} {indices : List ε} (h : Arranges t.args indices) (d : Nat) :
    d ∈ Indexed.order t ↔ ∃ a, t.args[d]? = some a ∧ a.position.isSome := by
  have hperm : (Indexed.order t).Perm (t.entries.map (·.2)) := by
    rw [← map_snd_textEntries]
    exact (textEntries_perm h).map _
  rw [hperm.mem_iff, List.mem_map]
  constructor
  · rintro ⟨⟨i, d⟩, hmem, rfl⟩
    obtain ⟨a, ha, hposition⟩ := mem_entries.1 hmem
    exact ⟨a, ha, by simp [hposition]⟩
  · rintro ⟨a, ha, hposition⟩
    obtain ⟨i, hi⟩ := Option.isSome_iff_exists.1 hposition
    exact ⟨(i, d), mem_entries.2 ⟨a, ha, hi⟩, rfl⟩

/-- A target evaluates the operands of its place. -/
theorem evaluates_of_ofPlace {md : Metadata} {enclosing : EnclosingMember}
    {typeOf : ε → TypeRef} {span : Span} {p : Place ε} {t : Target ε}
    (h : ofPlace md enclosing typeOf span p = .ok t) : t.Evaluates p := by
  obtain ⟨hreceiver, harranges⟩ := ofPlace_arranges h
  exact
    { receiver_eq := hreceiver
      operands_eq := operands_ofPlace h
      order_eq := order_eq_sort harranges
      mem_order := mem_order harranges
      nodup_order := Indexed.nodup_order t
      written := fun _ _ => getElem?_order harranges
      positions := harranges.positions
      omitted := fun _ => omitted_mem_defaults h }

end Target

/-- The target that an expression is evaluates the operands of the expression. -/
theorem Expr.target_evaluates {md : Metadata} {enclosing : EnclosingMember} {e : Expr}
    {t : Target Expr} (h : e.target md enclosing = .ok t) :
    ∃ p, e.form = .place p ∧ t.Evaluates p := by
  obtain ⟨p, hform, hplace⟩ := e.target_arranges h
  exact ⟨p, hform, Target.evaluates_of_ofPlace hplace⟩

/-- An indexer with its arguments out of order, and one left to its default. -/
def Sample.reordered : Expr :=
  ⟨.place (.indexer (.object Sample.this)
    (.resolved
      { name := "Item", owner := Sample.ty, ty := Sample.ty,
        params := [⟨"a", Sample.ty⟩, ⟨"b", Sample.ty⟩, ⟨"c", Sample.ty⟩] }
      [none, some (Sample.field "fallback"), none])
    [{ value := Sample.localVar "x", name := some "c" },
      { value := Sample.call "M" [], name := some "a" }]
    Sample.ty), {}⟩

theorem Sample.target_evaluates_reordered :
    ∃ t, Sample.reordered.target (Sample.metadata .reference) { ty := Sample.ty } = .ok t ∧
      Indexed.order t = [2, 0] ∧ t.entries = [(1, 0), (0, 2)] ∧
      ∃ p, Sample.reordered.form = .place p ∧ t.Evaluates p :=
  ⟨_, rfl, rfl, rfl,
    @Expr.target_evaluates (Sample.metadata .reference) { ty := Sample.ty } Sample.reordered _ rfl⟩

end AssignmentLowering
