import AssignmentLowering.Target.Classify
import Mathlib.Data.List.Nodup

/-!
# Targets found by index

Binding an indexer's arguments looks parameters up by their declared index, and the
operands of a target are looked up in the same way. Here this is done with plain indices
into lists, where an access beyond the end is an error of its own. No access is: the same
targets and operands come out.

## Main definitions

* `Indexed.item`, `Indexed.setItem`, `Indexed.itemsFrom` — access that is checked.
* `Indexed.bindArguments`, `Indexed.ofPlace` — classification with checked access.
* `Indexed.operands` — the operands of a target, with checked access.

## Main statements

* `Indexed.ofPlace_eq`, `Indexed.operands_eq` — no access is beyond the end.
-/

namespace AssignmentLowering.Indexed

variable {α ε : Type}

/-- What an access beyond the end of a list fails with. -/
def outOfBounds : LoweringError := .internal (.other "index out of bounds") {}

/-- The element at an index. -/
def item (xs : List α) (i : Nat) : Except LoweringError α :=
  match xs[i]? with
  | some a => .ok a
  | none => .error outOfBounds

/-- Put an element in the place of the one at an index. -/
def setItem (xs : List α) (i : Nat) (a : α) : Except LoweringError (List α) :=
  if i < xs.length then .ok (xs.set i a) else .error outOfBounds

/-- The elements from an index on; the index may be that of the end. -/
def itemsFrom (xs : List α) (i : Nat) : Except LoweringError (List α) :=
  if i ≤ xs.length then .ok (xs.drop i) else .error outOfBounds

theorem item_eq {xs : List α} {i : Nat} {a : α} (h : xs[i]? = some a) : item xs i = .ok a := by
  rw [item, h]

theorem setItem_eq {xs : List α} {i : Nat} (h : i < xs.length) (a : α) :
    setItem xs i a = .ok (xs.set i a) := if_pos h

theorem itemsFrom_eq {xs : List α} {i : Nat} (h : i ≤ xs.length) :
    itemsFrom xs i = .ok (xs.drop i) := if_pos h

/-! ## Binding arguments -/

/-- Put the argument written at `position` into the slot with the index of its parameter. -/
def fillSlot (p : Property) (declared position : Nat) (a : Argument ε)
    (slots : List (Option (IndexArg ε))) : Except LoweringError (List (Option (IndexArg ε))) :=
  match slots[declared]? with
  | none => .error (.internal (.tooManyArguments p.qualifiedName) a.span)
  | some (some _) => do
    let param ← item p.params declared
    .error (.internal (.parameterTwice param.name) a.span)
  | some none => do
    let param ← item p.params declared
    setItem slots declared (some ⟨a.value, param.ty, some position⟩)

/-- Put the arguments from `position` on into slots. -/
def fillSlots (p : Property) :
    (position next : Nat) → List (Argument ε) → List (Option (IndexArg ε)) →
      Except LoweringError (List (Option (IndexArg ε)))
  | _, _, [], slots => .ok slots
  | position, next, a :: rest, slots => do
    let declared ← declaredIndex p next a
    let slots ← fillSlot p declared position a slots
    fillSlots p (position + 1) (if a.name.isNone then next + 1 else next) rest slots

/-- Arguments bound to the parameters of an indexer, with slots apart from parameters. -/
def bindArguments (p : Property) (defaults : List (Option ε)) (args : List (Argument ε))
    (span : Span) : Except LoweringError (List (IndexArg ε)) := do
  let slots ← fillSlots p 0 0 args (p.params.map fun _ => none)
  (slots.zip p.params.zipIdx).mapM fun (slot, param, i) =>
    Slot.close span ⟨param, defaults[i]?.join, slot⟩

/-- Slots that go with parameters and their defaults. -/
def Matches (p : Property) (defaults : List (Option ε)) (slots : List (Slot ε)) : Prop :=
  slots.map (fun s => (s.param, s.fallback)) =
    p.params.zipIdx.map fun (param, i) => (param, defaults[i]?.join)

section

variable {p : Property} {defaults : List (Option ε)} {slots : List (Slot ε)}

theorem Matches.emptyList : Matches p defaults (Slot.emptyList p.params defaults) := by
  simp [Matches, Slot.emptyList, Function.comp_def]

theorem Matches.getElem? (h : Matches p defaults slots) {declared : Nat} {s : Slot ε}
    (hs : slots[declared]? = some s) : p.params[declared]? = some s.param := by
  have hget := congrArg (·[declared]?) h
  simp only [List.getElem?_map, hs, Option.map_some, List.getElem?_zipIdx, Nat.zero_add] at hget
  cases hparam : p.params[declared]? with
  | none => simp [hparam] at hget
  | some param => simp_all

/-- Arguments zipped with the parameters that they go with are the slots again. -/
theorem Matches.zip_eq (h : Matches p defaults slots) :
    ((slots.map (·.arg)).zip p.params.zipIdx).map
      (fun (arg, param, i) => (⟨param, defaults[i]?.join, arg⟩ : Slot ε)) = slots := by
  have hparams := congrArg
    (List.zipWith (fun arg (x : Param × Option ε) => (⟨x.1, x.2, arg⟩ : Slot ε))
      (slots.map (·.arg))) h
  rw [List.zipWith_map, List.zipWith_self, List.map_id', List.zipWith_map_right] at hparams
  rw [List.zip, List.map_zipWith]
  exact hparams.symm

/-- To fill a slot by its index does the same to the arguments, and leaves the parameters
as they are. -/
theorem fillSlot_eq (h : Matches p defaults slots) (declared position : Nat) (a : Argument ε) :
    fillSlot p declared position a (slots.map (·.arg)) =
        (AssignmentLowering.fillSlot p declared position a slots).map (List.map (·.arg)) ∧
      ∀ filled, AssignmentLowering.fillSlot p declared position a slots = .ok filled →
        Matches p defaults filled := by
  unfold fillSlot AssignmentLowering.fillSlot
  rw [List.getElem?_map]
  cases hs : slots[declared]? with
  | none =>
    refine ⟨rfl, ?_⟩
    intro filled hfilled
    cases hfilled
  | some s =>
    have hparam := item_eq (h.getElem? hs)
    obtain ⟨param, fallback, arg⟩ := s
    cases arg with
    | some b =>
      refine ⟨?_, ?_⟩
      · simp only [Option.map_some, hparam]
        rfl
      · intro filled hfilled
        cases hfilled
    | none =>
      obtain ⟨hlt, hget⟩ := List.getElem?_eq_some_iff.1 hs
      constructor
      · simp only [Option.map_some, hparam]
        refine (setItem_eq (by simpa using hlt) _).trans ?_
        simp [Except.map, List.map_set]
      · intro filled hfilled
        cases hfilled
        have hbound : declared < (slots.map fun s => (s.param, s.fallback)).length := by
          simpa using hlt
        have hsame : (slots.map fun s => (s.param, s.fallback))[declared] = (param, fallback) := by
          simp [hget]
        rw [Matches, List.map_set, ← h, ← hsame, List.set_getElem_self]

theorem fillSlots_eq (args : List (Argument ε)) :
    ∀ {slots : List (Slot ε)} (position next : Nat), Matches p defaults slots →
      fillSlots p position next args (slots.map (·.arg)) =
          (AssignmentLowering.fillSlots p position next args slots).map (List.map (·.arg)) ∧
        ∀ filled, AssignmentLowering.fillSlots p position next args slots = .ok filled →
          Matches p defaults filled := by
  induction args with
  | nil =>
    intro slots position next h
    refine ⟨rfl, ?_⟩
    intro filled hfilled
    cases hfilled
    exact h
  | cons a args ih =>
    intro slots position next h
    simp only [fillSlots, AssignmentLowering.fillSlots, bind, Except.bind]
    cases declaredIndex p next a with
    | error e => simp [Except.map]
    | ok declared =>
      obtain ⟨heq, hkeeps⟩ := fillSlot_eq h declared position a
      simp only [heq]
      cases hfill : AssignmentLowering.fillSlot p declared position a slots with
      | error e => simp [Except.map]
      | ok filled => exact ih _ _ (hkeeps filled hfill)

/-- Binding arguments accesses no parameter and no slot that there is not. -/
theorem bindArguments_eq (p : Property) (defaults : List (Option ε))
    (args : List (Argument ε)) (span : Span) :
    bindArguments p defaults args span =
      AssignmentLowering.bindArguments p defaults args span := by
  have hempty : (p.params.map fun _ => none : List (Option (IndexArg ε))) =
      (Slot.emptyList p.params defaults).map (·.arg) := by
    simp [Slot.emptyList, Function.comp_def, List.map_const']
  obtain ⟨heq, hkeeps⟩ := fillSlots_eq args 0 0
    (Matches.emptyList : Matches p defaults _)
  simp only [bindArguments, AssignmentLowering.bindArguments, hempty, heq]
  cases hfill : AssignmentLowering.fillSlots p 0 0 args (Slot.emptyList p.params defaults) with
  | error e => rfl
  | ok slots =>
    change ((slots.map (·.arg)).zip p.params.zipIdx).mapM _ = slots.mapM (Slot.close span)
    rw [← congrArg (List.mapM (Slot.close span)) (hkeeps slots hfill).zip_eq, List.mapM_map]
    rfl

end

/-! ## Classification and operands -/

/-- The target that a place is, with arguments bound by index. -/
def ofPlace (md : Metadata) (enclosing : EnclosingMember) (typeOf : ε → TypeRef)
    (span : Span) : Place ε → Except LoweringError (Target ε)
  | .indexer r (.resolved p defaults) args ty => do
    let storage ← storageOf (md.property p) p span
    let args ← bindArguments p defaults args span
    .ok { (Target.plain .indexer ty span).through r with
      storage, args, paramNames := p.params.map (·.name) }
  | p => Target.ofPlace md enclosing typeOf span p

theorem ofPlace_eq (md : Metadata) (enclosing : EnclosingMember) (typeOf : ε → TypeRef)
    (span : Span) (p : Place ε) :
    ofPlace md enclosing typeOf span p = Target.ofPlace md enclosing typeOf span p := by
  unfold ofPlace
  split
  · simp only [bindArguments_eq]
    rfl
  · rfl

/-- The declared indices of the written arguments, in the order of the text. -/
def order (t : Target ε) : List Nat := t.callSite.map (·.1)

/-- The written arguments in the order of the text, each found by its declared index. -/
def written (t : Target ε) : Except LoweringError (List ε) :=
  (order t).mapM fun declared => (item t.args declared).map (·.value)

/-- What is evaluated to find the target, in the order of the text. -/
def operands (t : Target ε) : Except LoweringError (List ε) :=
  (written t).map (t.receiver.toList ++ ·)

/-- The argument at a position of the text is found at its declared index. -/
theorem getElem?_of_argAt? {t : Target ε} {i : Nat} {x : Nat × ε} (h : t.argAt? i = some x) :
    ∃ a, t.args[x.1]? = some a ∧ a.value = x.2 ∧ a.position = some i := by
  obtain ⟨⟨a, d⟩, hmem, hif⟩ := List.exists_of_findSome?_eq_some h
  by_cases hp : a.position = some i
  · simp only [hp, if_true, Option.some.injEq] at hif
    subst hif
    exact ⟨a, by simpa [List.mem_zipIdx_iff_getElem?] using hmem, rfl, hp⟩
  · simp [hp] at hif

/-- No two written arguments have the same declared index. -/
theorem nodup_order (t : Target ε) : (order t).Nodup := by
  rw [order, Target.callSite, List.map_filterMap]
  refine List.nodup_range.filterMap ?_
  intro i i' d hi hi'
  obtain ⟨x, hx, rfl⟩ := Option.map_eq_some_iff.1 hi
  obtain ⟨x', hx', hsame⟩ := Option.map_eq_some_iff.1 hi'
  obtain ⟨a, ha, -, hp⟩ := getElem?_of_argAt? hx
  obtain ⟨a', ha', -, hp'⟩ := getElem?_of_argAt? hx'
  rw [hsame, ha] at ha'
  cases ha'
  rw [hp] at hp'
  exact Option.some.inj hp'

/-- The declared indices of written arguments are those of arguments. -/
theorem lt_of_mem_callSite {t : Target ε} {x : Nat × ε} (hx : x ∈ t.callSite) :
    x.1 < t.args.length := by
  obtain ⟨i, -, hi⟩ := List.mem_filterMap.1 hx
  obtain ⟨a, ha, -, -⟩ := getElem?_of_argAt? hi
  exact (List.getElem?_eq_some_iff.1 ha).1

theorem mapM_eq_ok {β κ : Type} {f : α → Except κ β} {g : α → β} {l : List α}
    (h : ∀ a ∈ l, f a = .ok (g a)) : l.mapM f = .ok (l.map g) := by
  induction l with
  | nil => rfl
  | cons a l ih =>
    obtain ⟨ha, hrest⟩ := List.forall_mem_cons.1 h
    rw [List.mapM_cons, ha, ih hrest]
    rfl

theorem written_eq (t : Target ε) : written t = .ok (t.callSite.map (·.2)) := by
  rw [written, order, List.mapM_map]
  refine mapM_eq_ok ?_
  intro x hx
  obtain ⟨i, -, hi⟩ := List.mem_filterMap.1 hx
  obtain ⟨a, ha, hvalue, -⟩ := getElem?_of_argAt? hi
  simp [item_eq ha, hvalue, Except.map]

/-- Operands are found at the indices where they are looked for. -/
theorem operands_eq (t : Target ε) : operands t = .ok t.operands := by
  rw [operands, written_eq]
  rfl

end AssignmentLowering.Indexed
