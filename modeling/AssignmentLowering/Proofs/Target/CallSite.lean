import AssignmentLowering.Proofs.Target.Classified
import AssignmentLowering.Proofs.Target.Map
import Mathlib.Data.List.Range
import Mathlib.Data.List.Perm.Basic
import Mathlib.Data.List.Nodup

/-!
# Arguments in declared order and in the order of the text

Binding arguments to parameters permutes them. Every argument keeps its position in
the text, and each position is kept exactly once, so the order of the text can be
read off a target, and what was evaluated in that order can be put back in declared
order.

## Main definitions

* `Arranges` — index arguments in declared order hold the given indices, each once.

## Main statements

* `Target.ofPlace_arranges` — classification arranges the indices of a place.
* `Target.operands_ofPlace` — a target evaluates the operands of its place in order.
* `Arranges.lookup_zip` — finding the value of an argument again.
-/

namespace AssignmentLowering

variable {ε δ : Type}

/-- The index arguments `args` hold the written arguments `indices`, each exactly once
and with its position in the text. -/
structure Arranges (args : List (IndexArg ε)) (indices : List ε) : Prop where
  value_eq : ∀ a ∈ args, ∀ i, a.position = some i → indices[i]? = some a.value
  positions : (args.filterMap (·.position)).Perm (List.range indices.length)

theorem filterMap_set_perm {α β : Type} {g : α → Option β} {l : List α} {d : Nat} {x y : α}
    {v : β} (hx : l[d]? = some x) (hgx : g x = none) (hgy : g y = some v) :
    ((l.set d y).filterMap g).Perm (v :: l.filterMap g) := by
  obtain ⟨hd, rfl⟩ := List.getElem?_eq_some_iff.1 hx
  have hsplit : l.take d ++ l[d] :: l.drop (d + 1) = l := by
    rw [← List.drop_eq_getElem_cons hd, List.take_append_drop]
  have hl : l.filterMap g = (l.take d).filterMap g ++ (l.drop (d + 1)).filterMap g := by
    calc l.filterMap g = (l.take d ++ l[d] :: l.drop (d + 1)).filterMap g := by rw [hsplit]
      _ = _ := by rw [List.filterMap_append, List.filterMap_cons, hgx]
  rw [List.set_eq_take_append_cons_drop, if_pos hd, hl]
  simp only [List.filterMap_append, List.filterMap_cons, hgy]
  exact List.perm_middle

theorem filterMap_range_getElem? {α : Type} (l : List α) (n : Nat) :
    (List.range n).filterMap (l[·]?) = l.take n := by
  induction n with
  | zero => rfl
  | succ n ih =>
    rw [List.range_succ, List.filterMap_append, ih, List.take_add_one]
    cases h : l[n]? <;> simp [h]

theorem lookup_zip {α : Type} (d : Nat) (keys : List Nat) :
    ∀ vs : List α, vs.length = keys.length →
      (keys.zip vs).lookup d = (keys.findIdx? (· = d)).bind (vs[·]?) := by
  induction keys with
  | nil => intro vs _; rfl
  | cons k keys ih =>
    intro vs hvs
    cases vs with
    | nil => simp at hvs
    | cons v vs =>
      by_cases hk : k = d
      · subst hk
        simp [List.findIdx?_cons]
      · have hne : (d == k) = false := by simpa using Ne.symm hk
        have hvs' : vs.length = keys.length := by simpa using hvs
        simp only [List.zip_cons_cons, List.lookup_cons, hne, ih vs hvs',
          List.findIdx?_cons, hk, decide_false, Bool.false_eq_true, if_false]
        cases keys.findIdx? (· = d) <;> simp

namespace Arranges

theorem inOrder (typeOf : ε → TypeRef) (es : List ε) :
    Arranges (IndexArg.inOrder typeOf es) es := by
  constructor
  · intro a ha i hi
    simp only [IndexArg.inOrder, List.mem_map, Prod.exists] at ha
    obtain ⟨e, j, hj, rfl⟩ := ha
    cases hi
    simpa [List.mem_zipIdx_iff_getElem?] using hj
  · rw [IndexArg.inOrder, List.filterMap_map]
    have h : ∀ k, (es.zipIdx k).filterMap
        ((fun a : IndexArg ε => a.position) ∘ fun x => ⟨x.1, typeOf x.1, some x.2⟩) =
        List.range' k es.length := by
      induction es with
      | nil => intro k; rfl
      | cons e es ih => intro k; simp [List.zipIdx_cons, List.range'_succ]
    rw [h 0, List.range_eq_range']

/-- Positions beyond the last index do not occur. -/
theorem position_lt {args : List (IndexArg ε)} {indices : List ε} (h : Arranges args indices)
    {a : IndexArg ε} (ha : a ∈ args) {i : Nat} (hi : a.position = some i) :
    i < indices.length :=
  (List.getElem?_eq_some_iff.1 (h.value_eq a ha i hi)).1

/-- No two arguments have the same position. -/
theorem position_inj {args : List (IndexArg ε)} {indices : List ε} (h : Arranges args indices)
    {d d' : Nat} {a a' : IndexArg ε} (ha : args[d]? = some a) (ha' : args[d']? = some a')
    {i : Nat} (hi : a.position = some i) (hi' : a'.position = some i) : d = d' := by
  have hnodup : (args.filterMap (·.position)).Nodup :=
    h.positions.nodup_iff.2 List.nodup_range
  have hpair := List.pairwise_filterMap.1 hnodup
  rw [List.pairwise_iff_getElem] at hpair
  obtain ⟨hd, rfl⟩ := List.getElem?_eq_some_iff.1 ha
  obtain ⟨hd', rfl⟩ := List.getElem?_eq_some_iff.1 ha'
  rcases Nat.lt_trichotomy d d' with hlt | heq | hlt
  · exact absurd rfl (hpair d d' hd hd' hlt i hi i hi')
  · exact heq
  · exact absurd rfl (hpair d' d hd' hd hlt i hi' i hi)

/-- Every position is that of an argument. -/
theorem exists_position {args : List (IndexArg ε)} {indices : List ε}
    (h : Arranges args indices) {i : Nat} (hi : i < indices.length) :
    ∃ (d : Nat) (a : IndexArg ε), args[d]? = some a ∧ a.position = some i := by
  have hmem : i ∈ args.filterMap (·.position) :=
    h.positions.mem_iff.2 (List.mem_range.2 hi)
  obtain ⟨a, ha, hp⟩ := List.mem_filterMap.1 hmem
  obtain ⟨d, hd, rfl⟩ := List.mem_iff_getElem.1 ha
  exact ⟨d, args[d], by simp [hd], hp⟩

theorem length_le {args : List (IndexArg ε)} {indices : List ε} (h : Arranges args indices) :
    indices.length ≤ args.length := by
  have hlen := h.positions.length_eq
  rw [List.length_range] at hlen
  exact hlen ▸ List.length_filterMap_le ..

end Arranges

namespace Target

/-- What `argAt?` finds is an argument of that position. -/
theorem argAt?_eq_some {t : Target ε} {indices : List ε} (h : Arranges t.args indices)
    {i d : Nat} {e : ε} :
    t.argAt? i = some (d, e) ↔
      ∃ a, t.args[d]? = some a ∧ a.position = some i ∧ a.value = e := by
  constructor
  · intro hf
    obtain ⟨⟨a, d'⟩, hmem, hif⟩ := List.exists_of_findSome?_eq_some hf
    by_cases hp : a.position = some i
    · simp only [hp, if_true, Option.some.injEq, Prod.mk.injEq] at hif
      obtain ⟨rfl, rfl⟩ := hif
      exact ⟨a, by simpa [List.mem_zipIdx_iff_getElem?] using hmem, hp, rfl⟩
    · simp [hp] at hif
  · rintro ⟨a, ha, hp, rfl⟩
    have hmem : (a, d) ∈ t.args.zipIdx := by simpa [List.mem_zipIdx_iff_getElem?] using ha
    cases hf : t.argAt? i with
    | none =>
      have := List.findSome?_eq_none_iff.1 hf _ hmem
      simp [hp] at this
    | some r =>
      obtain ⟨⟨a', d'⟩, hmem', hif⟩ := List.exists_of_findSome?_eq_some hf
      by_cases hp' : a'.position = some i
      · have ha' : t.args[d']? = some a' := by
          simpa [List.mem_zipIdx_iff_getElem?] using hmem'
        have hdd := h.position_inj ha ha' hp hp'
        subst hdd
        obtain rfl : a = a' := by simpa [ha] using ha'
        simp only [hp, if_true, Option.some.injEq] at hif
        rw [← hif]
      · simp [hp'] at hif

/-- The written argument of each position. -/
theorem map_snd_argAt? {t : Target ε} {indices : List ε} (h : Arranges t.args indices)
    (i : Nat) : (t.argAt? i).map (·.2) = indices[i]? := by
  by_cases hi : i < indices.length
  · obtain ⟨d, a, ha, hp⟩ := h.exists_position hi
    have harg : t.argAt? i = some (d, a.value) := (argAt?_eq_some h).2 ⟨a, ha, hp, rfl⟩
    rw [harg, h.value_eq a (List.mem_of_getElem? ha) i hp]
    rfl
  · have hnone : t.argAt? i = none := by
      cases hf : t.argAt? i with
      | none => rfl
      | some r =>
        obtain ⟨a, ha, hp, -⟩ := (argAt?_eq_some h).1 hf
        exact absurd (h.position_lt (List.mem_of_getElem? ha) hp) hi
    rw [hnone, List.getElem?_eq_none (Nat.le_of_not_lt hi)]
    rfl

/-- The written arguments in the order of the text are the indices. -/
theorem map_snd_callSite {t : Target ε} {indices : List ε} (h : Arranges t.args indices) :
    t.callSite.map (·.2) = indices := by
  rw [callSite, List.map_filterMap]
  simp only [map_snd_argAt? h]
  rw [filterMap_range_getElem?, List.take_of_length_le h.length_le]

/-- The argument at a position of the text, with its declared index. -/
theorem getElem?_callSite {t : Target ε} {indices : List ε} (h : Arranges t.args indices)
    (i : Nat) : t.callSite[i]? = t.argAt? i := by
  have hfilter : ∀ n, n ≤ indices.length →
      ((List.range n).filterMap t.argAt?).length = n ∧
        ∀ i < n, ((List.range n).filterMap t.argAt?)[i]? = t.argAt? i := by
    intro n hn
    induction n with
    | zero => simp
    | succ n ih =>
      obtain ⟨hlen, hget⟩ := ih (by omega)
      have hsome : ∃ r, t.argAt? n = some r := by
        obtain ⟨d, a, ha, hp⟩ := h.exists_position (i := n) (by omega)
        exact ⟨_, (argAt?_eq_some h).2 ⟨a, ha, hp, rfl⟩⟩
      obtain ⟨r, hr⟩ := hsome
      simp only [List.range_succ, List.filterMap_append, List.filterMap_cons, hr,
        List.filterMap_nil]
      refine ⟨by simp [hlen], ?_⟩
      intro i hi
      rcases Nat.lt_succ_iff_lt_or_eq.1 hi with hlt | rfl
      · rw [List.getElem?_append_left (by omega), hget i hlt]
      · rw [List.getElem?_append_right (by omega), hlen, hr]
        simp
  have hbeyond : ∀ i, ¬ i < indices.length → t.argAt? i = none := by
    intro i hi
    have hmap := map_snd_argAt? h i
    rw [List.getElem?_eq_none (Nat.le_of_not_lt hi)] at hmap
    simpa using hmap
  have hcut : t.callSite = (List.range indices.length).filterMap t.argAt? := by
    obtain ⟨k, hk⟩ := Nat.exists_eq_add_of_le h.length_le
    rw [callSite, hk, List.range_add, List.filterMap_append, List.filterMap_map]
    have hnil : List.filterMap (t.argAt? ∘ fun x => indices.length + x) (List.range k) = [] := by
      rw [List.filterMap_eq_nil_iff]
      intro j _
      exact hbeyond (indices.length + j) (by omega)
    rw [hnil, List.append_nil]
  by_cases hi : i < indices.length
  · rw [hcut, (hfilter _ (le_refl _)).2 i hi]
  · rw [hbeyond i hi, hcut, List.getElem?_eq_none]
    rw [(hfilter _ (le_refl _)).1]
    omega

end Target

/-- Values found in the order of the text, looked up by declared index: an argument finds
the value of its position, and a default finds nothing. -/
theorem Arranges.lookup_zip {α : Type} {t : Target ε} {indices : List ε}
    (h : Arranges t.args indices) {vs : List α} (hvs : vs.length = indices.length) {d : Nat}
    {a : IndexArg ε} (ha : t.args[d]? = some a) :
    ((t.callSite.map (·.1)).zip vs).lookup d = a.position.bind (vs[·]?) := by
  have hlen : t.callSite.length = indices.length := by
    rw [← Target.map_snd_callSite h, List.length_map]
  rw [AssignmentLowering.lookup_zip d _ vs (by simp [hvs, hlen])]
  congr 1
  have hkey : ∀ i, (t.callSite.map (·.1))[i]? = (t.argAt? i).map (·.1) := by
    intro i
    rw [List.getElem?_map, Target.getElem?_callSite h]
  cases hp : a.position with
  | none =>
    rw [List.findIdx?_eq_none_iff]
    intro k hk
    obtain ⟨i, hi⟩ := List.mem_iff_getElem?.1 hk
    rw [hkey, Option.map_eq_some_iff] at hi
    obtain ⟨⟨d', e⟩, hf, rfl⟩ := hi
    obtain ⟨a', ha', hp', -⟩ := (Target.argAt?_eq_some h).1 hf
    have hne : d' ≠ d := by
      rintro rfl
      rw [ha] at ha'
      cases ha'
      simp [hp] at hp'
    simpa using hne
  | some i =>
    have harg : t.argAt? i = some (d, a.value) := (Target.argAt?_eq_some h).2 ⟨a, ha, hp, rfl⟩
    have hi : (t.callSite.map (·.1))[i]? = some d := by rw [hkey, harg]; rfl
    obtain ⟨hlt, hget⟩ := List.getElem?_eq_some_iff.1 hi
    rw [List.findIdx?_eq_some_iff_getElem]
    refine ⟨hlt, by simpa using hget, ?_⟩
    intro j hj
    have hj' : (t.callSite.map (·.1))[j]? = some (t.callSite.map (·.1))[j] :=
      List.getElem?_eq_getElem (hj.trans hlt)
    rw [hkey, Option.map_eq_some_iff] at hj'
    obtain ⟨⟨d', e⟩, hf, heq⟩ := hj'
    have hne : d' ≠ d := by
      rintro rfl
      obtain ⟨a', ha', hp', -⟩ := (Target.argAt?_eq_some h).1 hf
      rw [ha] at ha'
      cases ha'
      rw [hp] at hp'
      cases hp'
      omega
    rw [← heq]
    simpa using hne

/-! ## Binding -/

/-- The slots hold the first `count` of the written arguments, each once. -/
structure SlotsHold (slots : List (Slot ε)) (all : List ε) (count : Nat) : Prop where
  value_eq : ∀ s ∈ slots, ∀ a, s.arg = some a → ∀ i, a.position = some i →
    all[i]? = some a.value
  positions : (slots.filterMap fun s => s.arg.bind (·.position)).Perm (List.range count)

theorem SlotsHold.empty (params : List Param) (ds : List (Option ε)) (all : List ε) :
    SlotsHold (Slot.emptyList params ds) all 0 := by
  have harg : ∀ s ∈ Slot.emptyList params ds, s.arg = none := by
    intro s hs
    simp only [Slot.emptyList, List.mem_map] at hs
    obtain ⟨x, -, rfl⟩ := hs
    rfl
  constructor
  · intro s hs a ha
    rw [harg s hs] at ha
    cases ha
  · have hnil : (Slot.emptyList params ds).filterMap (fun s => s.arg.bind (·.position)) = [] := by
      rw [List.filterMap_eq_nil_iff]
      intro s hs
      rw [harg s hs]
      rfl
    rw [hnil]
    rfl

theorem SlotsHold.fillSlot {p : Property} {slots slots' : List (Slot ε)} {all : List ε}
    {declared position : Nat} {a : Argument ε} (h : SlotsHold slots all position)
    (ha : all[position]? = some a.value)
    (hfill : fillSlot p declared position a slots = .ok slots') :
    SlotsHold slots' all (position + 1) := by
  unfold AssignmentLowering.fillSlot at hfill
  split at hfill
  · cases hfill
  · cases hfill
  case h_3 param fallback hslot =>
    cases hfill
    constructor
    · intro s hs b hb i hi
      rcases List.mem_or_eq_of_mem_set hs with hs | rfl
      · exact h.value_eq s hs b hb i hi
      · cases hb
        cases hi
        exact ha
    · have hset := filterMap_set_perm (g := fun s : Slot ε => s.arg.bind (·.position))
        (y := ⟨param, fallback, some ⟨a.value, param.ty, some position⟩⟩) hslot rfl rfl
      rw [List.range_succ]
      exact (hset.trans (h.positions.cons position)).trans (List.perm_append_singleton ..).symm

theorem SlotsHold.fillSlots {p : Property} {all : List ε} (args : List (Argument ε)) :
    ∀ {position next : Nat} {slots slots' : List (Slot ε)},
      SlotsHold slots all position →
      (∀ i, all[position + i]? = (args.map (·.value))[i]?) →
      fillSlots p position next args slots = .ok slots' →
      SlotsHold slots' all (position + args.length) := by
  induction args with
  | nil =>
    intro position next slots slots' h _ hfill
    cases hfill
    exact h
  | cons a args ih =>
    intro position next slots slots' h hall hfill
    simp only [AssignmentLowering.fillSlots, bind, Except.bind] at hfill
    cases hd : declaredIndex p next a with
    | error e => simp [hd] at hfill
    | ok declared =>
      simp only [hd] at hfill
      cases hs : AssignmentLowering.fillSlot p declared position a slots with
      | error e => simp [hs] at hfill
      | ok filled =>
        simp only [hs] at hfill
        have hfirst : all[position]? = some a.value := by simpa using hall 0
        have hrest : ∀ i, all[position + 1 + i]? = (args.map (·.value))[i]? := by
          intro i
          have := hall (i + 1)
          rwa [List.map_cons, List.getElem?_cons_succ, ← Nat.add_assoc,
            Nat.add_right_comm] at this
        have hlen : position + (a :: args).length = position + 1 + args.length := by
          simp only [List.length_cons]
          omega
        rw [hlen]
        exact ih (h.fillSlot hfirst hs) hrest hfill

/-- Closing the slots keeps the written arguments and adds defaults only. -/
theorem filterMap_close {span : Span} :
    ∀ {slots : List (Slot ε)} {args : List (IndexArg ε)},
      slots.mapM (Slot.close span) = .ok args →
      args.filterMap (·.position) = slots.filterMap (fun s => s.arg.bind (·.position)) ∧
        ∀ a ∈ args, ∀ i, a.position = some i → ∃ s ∈ slots, s.arg = some a := by
  intro slots
  induction slots with
  | nil => intro args h; cases h; simp
  | cons s slots ih =>
    intro args h
    simp only [List.mapM_cons, bind, Except.bind] at h
    cases hc : s.close span with
    | error e => simp [hc] at h
    | ok a =>
      simp only [hc] at h
      cases hrest : slots.mapM (Slot.close span) with
      | error e => simp [hrest] at h
      | ok rest =>
        simp only [hrest, pure, Except.pure, Except.ok.injEq] at h
        subst h
        obtain ⟨hpos, hmem⟩ := ih hrest
        obtain ⟨param, fallback, arg⟩ := s
        constructor
        · cases arg with
          | some b =>
            cases hc
            simp only [List.filterMap_cons, Option.bind_some, hpos]
          | none =>
            cases fallback with
            | none => cases hc
            | some e =>
              cases hc
              simp only [List.filterMap_cons, Option.bind_none, hpos]
        · intro b hb i hi
          rcases List.mem_cons.1 hb with rfl | hb
          · cases arg with
            | some c => cases hc; exact ⟨_, List.mem_cons_self, rfl⟩
            | none =>
              cases fallback with
              | none => cases hc
              | some e => cases hc; cases hi
          · obtain ⟨s', hs', hs''⟩ := hmem b hb i hi
            exact ⟨s', List.mem_cons_of_mem _ hs', hs''⟩

theorem bindArguments_arranges {p : Property} {ds : List (Option ε)}
    {written : List (Argument ε)} {span : Span} {args : List (IndexArg ε)}
    (h : bindArguments p ds written span = .ok args) :
    Arranges args (written.map (·.value)) := by
  simp only [bindArguments, bind, Except.bind] at h
  cases hs : fillSlots p 0 0 written (Slot.emptyList p.params ds) with
  | error e => simp [hs] at h
  | ok slots =>
    simp only [hs] at h
    have hold := (SlotsHold.empty p.params ds (written.map (·.value))).fillSlots written
      (by simp) hs
    obtain ⟨hpos, hmem⟩ := filterMap_close h
    constructor
    · intro a ha i hi
      obtain ⟨s, hs, hsa⟩ := hmem a ha i hi
      exact hold.value_eq s hs a hsa i hi
    · rw [hpos, List.length_map]
      simpa using hold.positions

/-- The slots' arguments stand in the text, and their defaults are among `offered`. -/
structure SlotsOffer (slots : List (Slot ε)) (offered : List ε) : Prop where
  written : ∀ s ∈ slots, ∀ a, s.arg = some a → a.position ≠ none
  fallback : ∀ s ∈ slots, ∀ e, s.fallback = some e → e ∈ offered

theorem SlotsOffer.empty (params : List Param) (ds : List (Option ε)) :
    SlotsOffer (Slot.emptyList params ds) (ds.filterMap id) := by
  constructor
  · intro s hs a ha
    simp only [Slot.emptyList, List.mem_map] at hs
    obtain ⟨x, -, rfl⟩ := hs
    cases ha
  · intro s hs e he
    simp only [Slot.emptyList, List.mem_map] at hs
    obtain ⟨x, -, rfl⟩ := hs
    have hd : ds[x.2]? = some (some e) := by
      cases hx : ds[x.2]? with
      | none => simp [hx] at he
      | some d => simpa [hx] using he
    exact List.mem_filterMap.2 ⟨some e, List.mem_of_getElem? hd, rfl⟩

theorem SlotsOffer.fillSlots {p : Property} {offered : List ε} (args : List (Argument ε)) :
    ∀ {position next : Nat} {slots slots' : List (Slot ε)}, SlotsOffer slots offered →
      fillSlots p position next args slots = .ok slots' → SlotsOffer slots' offered := by
  induction args with
  | nil =>
    intro position next slots slots' h hfill
    cases hfill
    exact h
  | cons a args ih =>
    intro position next slots slots' h hfill
    simp only [AssignmentLowering.fillSlots, bind, Except.bind] at hfill
    cases hd : declaredIndex p next a with
    | error e => simp [hd] at hfill
    | ok declared =>
      simp only [hd] at hfill
      cases hs : AssignmentLowering.fillSlot p declared position a slots with
      | error e => simp [hs] at hfill
      | ok filled =>
        simp only [hs] at hfill
        refine ih ?_ hfill
        unfold AssignmentLowering.fillSlot at hs
        split at hs
        · cases hs
        · cases hs
        case h_3 param fallback hslot =>
          cases hs
          constructor
          · intro s hs b hb
            rcases List.mem_or_eq_of_mem_set hs with hs | rfl
            · exact h.written s hs b hb
            · cases hb
              exact Option.some_ne_none _
          · intro s hs e he
            rcases List.mem_or_eq_of_mem_set hs with hs | rfl
            · exact h.fallback s hs e he
            · exact h.fallback _ (List.mem_of_getElem? hslot) e he

theorem mem_of_mapM_ok {α β κ : Type} {f : α → Except κ β} :
    ∀ {l : List α} {l' : List β}, l.mapM f = .ok l' → ∀ b ∈ l', ∃ a ∈ l, f a = .ok b := by
  intro l
  induction l with
  | nil => intro l' h; cases h; simp
  | cons a l ih =>
    intro l' h
    simp only [List.mapM_cons, bind, Except.bind] at h
    cases ha : f a with
    | error e => simp [ha] at h
    | ok b =>
      simp only [ha] at h
      cases hrest : l.mapM f with
      | error e => simp [hrest] at h
      | ok rest =>
        simp only [hrest, pure, Except.pure, Except.ok.injEq] at h
        subst h
        intro c hc
        rcases List.mem_cons.1 hc with rfl | hc
        · exact ⟨a, List.mem_cons_self, ha⟩
        · obtain ⟨a', ha', hfa⟩ := ih hrest c hc
          exact ⟨a', List.mem_cons_of_mem _ ha', hfa⟩

/-- An argument that was not written is a default. -/
theorem bindArguments_omitted {p : Property} {ds : List (Option ε)}
    {written : List (Argument ε)} {span : Span} {args : List (IndexArg ε)}
    (h : bindArguments p ds written span = .ok args) {a : IndexArg ε} (ha : a ∈ args)
    (hp : a.position = none) : a.value ∈ ds.filterMap id := by
  simp only [bindArguments, bind, Except.bind] at h
  cases hs : fillSlots p 0 0 written (Slot.emptyList p.params ds) with
  | error e => simp [hs] at h
  | ok slots =>
    simp only [hs] at h
    have hoffer := (SlotsOffer.empty p.params ds).fillSlots written hs
    obtain ⟨⟨param, fallback, arg⟩, hmem, hclose⟩ := mem_of_mapM_ok h a ha
    cases arg with
    | some b =>
      cases hclose
      exact absurd hp (hoffer.written _ hmem a rfl)
    | none =>
      cases fallback with
      | none => cases hclose
      | some e =>
        cases hclose
        exact hoffer.fallback _ hmem e rfl

namespace Target

/-- The object of a target is that of its place, and its arguments are the indices. -/
theorem ofPlace_arranges {md : Metadata} {enclosing : EnclosingMember}
    {typeOf : ε → TypeRef} {span : Span} {p : Place ε} {t : Target ε}
    (h : ofPlace md enclosing typeOf span p = .ok t) :
    t.receiver = p.object? ∧ Arranges t.args p.indices := by
  have hnil : Arranges ([] : List (IndexArg ε)) [] := ⟨by simp, by simp⟩
  have hthrough : ∀ (r : Receiver ε) (t : Target ε), t.receiver = none →
      (t.through r).receiver = r.object? ∧ (t.through r).args = t.args := by
    intro r t ht
    cases r <;> simp [through, Receiver.object?, ht]
  cases Classified.of_ofPlace h with
  | localVar | this | dynamicMember => exact ⟨rfl, hnil⟩
  | @field r f =>
    obtain ⟨hr, ha⟩ := hthrough r (plain (if r.isStatic then .staticField else .instanceField)
      f.ty span) rfl
    exact ⟨hr, ha ▸ hnil⟩
  | @property r p =>
    obtain ⟨hr, ha⟩ := hthrough r
      (plain (if r.isStatic then .staticProperty else .instanceProperty) p.ty span) rfl
    exact ⟨hr, ha ▸ hnil⟩
  | @resolved r _ _ _ ty _ _ _ hargs =>
    exact ⟨(hthrough r (plain .indexer ty span) rfl).1, bindArguments_arranges hargs⟩
  | @candidates r _ _ _ ty =>
    exact ⟨(hthrough r (plain .indexer ty span) rfl).1, .inOrder _ _⟩
  | element | multiElement | dynamicIndex => exact ⟨rfl, .inOrder _ _⟩

/-- A target evaluates the operands of its place, in the order of the text. -/
theorem operands_ofPlace {md : Metadata} {enclosing : EnclosingMember}
    {typeOf : ε → TypeRef} {span : Span} {p : Place ε} {t : Target ε}
    (h : ofPlace md enclosing typeOf span p = .ok t) : t.operands = p.operands := by
  obtain ⟨hr, ha⟩ := ofPlace_arranges h
  rw [operands, Place.operands, hr, map_snd_callSite ha]

/-- An argument left out takes one of the defaults. -/
theorem omitted_mem_defaults {md : Metadata} {enclosing : EnclosingMember}
    {typeOf : ε → TypeRef} {span : Span} {p : Place ε} {t : Target ε}
    (h : ofPlace md enclosing typeOf span p = .ok t) {a : IndexArg ε} (ha : a ∈ t.args)
    (hp : a.position = none) : a.value ∈ p.defaults := by
  have hinOrder : ∀ es : List ε, a ∉ IndexArg.inOrder typeOf es := by
    intro es hes
    simp only [IndexArg.inOrder, List.mem_map] at hes
    obtain ⟨x, -, rfl⟩ := hes
    cases hp
  cases Classified.of_ofPlace h with
  | @field r | @property r => cases r <;> simp [plain, through] at ha
  | resolved _ hargs => exact bindArguments_omitted hargs ha hp
  | candidates | element | multiElement | dynamicIndex => exact absurd ha (hinOrder _)
  | _ => cases ha

end Target
end AssignmentLowering
