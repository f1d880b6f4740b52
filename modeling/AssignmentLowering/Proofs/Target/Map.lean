import AssignmentLowering.Target.Access
import AssignmentLowering.Target.Classify

/-!
# Classification does not look into operands

What a place is, how its arguments are bound and in which order its operands are
evaluated depends on the operands' types only. So classification commutes with every
map of operands that keeps types, and what is proved about targets of expressions
holds of targets of anything that stands for expressions.

## Main statements

* `Target.ofPlace_map`, `Target.classify_map` — classification commutes with maps.
* `Target.callSite_map`, `Target.operands_map` — so does the order of evaluation.
-/

namespace AssignmentLowering

variable {ε δ : Type}

namespace IndexArg

@[simp] theorem value_map (f : ε → δ) (a : IndexArg ε) : (a.map f).value = f a.value := rfl

@[simp] theorem ty_map (f : ε → δ) (a : IndexArg ε) : (a.map f).ty = a.ty := rfl

@[simp] theorem position_map (f : ε → δ) (a : IndexArg ε) :
    (a.map f).position = a.position := rfl

theorem inOrder_map (f : ε → δ) {typeOf : ε → TypeRef} {typeOf' : δ → TypeRef}
    (h : ∀ e, typeOf' (f e) = typeOf e) (es : List ε) :
    inOrder typeOf' (es.map f) = (inOrder typeOf es).map (IndexArg.map f) := by
  simp [inOrder, List.zipIdx_map, Function.comp_def, IndexArg.map, h, Prod.map]

end IndexArg

namespace Slot

def map (f : ε → δ) (s : Slot ε) : Slot δ :=
  ⟨s.param, s.fallback.map f, s.arg.map (IndexArg.map f)⟩

theorem emptyList_map (f : ε → δ) (params : List Param) (ds : List (Option ε)) :
    emptyList params (ds.map (·.map f)) = (emptyList params ds).map (Slot.map f) := by
  simp [emptyList, Slot.map, Function.comp_def, Option.join_map_eq_map_join]

theorem close_map (f : ε → δ) (span : Span) (s : Slot ε) :
    (s.map f).close span = (s.close span).map (IndexArg.map f) := by
  obtain ⟨param, fallback, arg⟩ := s
  cases arg <;> cases fallback <;> rfl

end Slot

theorem declaredIndex_map (f : ε → δ) (p : Property) (next : Nat) (a : Argument ε) :
    declaredIndex p next (a.map f) = declaredIndex p next a := rfl

theorem fillSlot_map (f : ε → δ) (p : Property) (declared position : Nat) (a : Argument ε)
    (slots : List (Slot ε)) :
    fillSlot p declared position (a.map f) (slots.map (Slot.map f)) =
      (fillSlot p declared position a slots).map (List.map (Slot.map f)) := by
  unfold fillSlot
  rw [List.getElem?_map]
  cases h : slots[declared]? with
  | none => rfl
  | some s =>
    obtain ⟨param, fallback, arg⟩ := s
    cases arg with
    | none => simp [Slot.map, Except.map, List.map_set, IndexArg.map]
    | some arg => rfl

theorem fillSlots_map (f : ε → δ) (p : Property) (args : List (Argument ε)) :
    ∀ (position next : Nat) (slots : List (Slot ε)),
      fillSlots p position next (args.map (·.map f)) (slots.map (Slot.map f)) =
        (fillSlots p position next args slots).map (List.map (Slot.map f)) := by
  induction args with
  | nil => intro position next slots; rfl
  | cons a args ih =>
    intro position next slots
    simp only [List.map_cons, fillSlots, declaredIndex_map, Argument.name_map, fillSlot_map]
    cases hd : declaredIndex p next a with
    | error e => rfl
    | ok declared =>
      simp only [bind, Except.bind]
      cases hs : fillSlot p declared position a slots with
      | error e => rfl
      | ok slots' => exact ih ..

theorem mapM_except_map {α β γ κ : Type} (f : α → β) (g : γ → κ)
    (k : α → Except LoweringError γ) (k' : β → Except LoweringError κ)
    (h : ∀ a, k' (f a) = (k a).map g) (as : List α) :
    (as.map f).mapM k' = (as.mapM k).map (List.map g) := by
  induction as with
  | nil => rfl
  | cons a as ih =>
    simp only [List.map_cons, List.mapM_cons, ih, h, bind, Except.bind, pure, Except.pure]
    cases k a with
    | error e => rfl
    | ok c => cases as.mapM k <;> rfl

theorem bindArguments_map (f : ε → δ) (p : Property) (ds : List (Option ε))
    (args : List (Argument ε)) (span : Span) :
    bindArguments p (ds.map (·.map f)) (args.map (·.map f)) span =
      (bindArguments p ds args span).map (List.map (IndexArg.map f)) := by
  simp only [bindArguments, Slot.emptyList_map, fillSlots_map, bind, Except.bind]
  cases fillSlots p 0 0 args (Slot.emptyList p.params ds) with
  | error e => rfl
  | ok slots => exact mapM_except_map _ _ _ _ (Slot.close_map f span) slots

theorem rejectNamed_map (f : ε → δ) (args : List (Argument ε)) (span : Span) :
    rejectNamed (args.map (·.map f)) span = rejectNamed args span := by
  simp [rejectNamed, Function.comp_def]

namespace Target

@[simp] theorem kind_map (f : ε → δ) (t : Target ε) : (t.map f).kind = t.kind := rfl

@[simp] theorem receiver_map (f : ε → δ) (t : Target ε) :
    (t.map f).receiver = t.receiver.map f := rfl

@[simp] theorem args_map (f : ε → δ) (t : Target ε) :
    (t.map f).args = t.args.map (·.map f) := rfl

@[simp] theorem ty_map (f : ε → δ) (t : Target ε) : (t.map f).ty = t.ty := rfl

@[simp] theorem getter?_map (f : ε → δ) (t : Target ε) : (t.map f).getter? = t.getter? := rfl

@[simp] theorem setter?_map (f : ε → δ) (t : Target ε) : (t.map f).setter? = t.setter? := rfl

@[simp] theorem isNative_map (f : ε → δ) (t : Target ε) : (t.map f).isNative = t.isNative := rfl

@[simp] theorem isReceiver_map (f : ε → δ) (t : Target ε) :
    (t.map f).isReceiver = t.isReceiver := rfl

@[simp] theorem getterIsInline_map (f : ε → δ) (t : Target ε) :
    (t.map f).getterIsInline = t.getterIsInline := rfl

@[simp] theorem setterIsInline_map (f : ε → δ) (t : Target ε) :
    (t.map f).setterIsInline = t.setterIsInline := rfl

@[simp] theorem loadIsFresh_map (f : ε → δ) (t : Target ε) :
    (t.map f).loadIsFresh = t.loadIsFresh := rfl

@[simp] theorem native_map (f : ε → δ) (names : RuntimeNames) (t : Target ε) (a : Address) :
    (t.map f).native names a = t.native names a := rfl

@[simp] theorem load_map (f : ε → δ) (names : RuntimeNames) (t : Target ε) (a : Address) :
    (t.map f).load names a = t.load names a := rfl

@[simp] theorem store_map (f : ε → δ) (names : RuntimeNames) (t : Target ε) (a : Address)
    (value : Script.Expr) : (t.map f).store names a value = t.store names a value := rfl

theorem argAt?_map (f : ε → δ) (t : Target ε) (position : Nat) :
    (t.map f).argAt? position = (t.argAt? position).map (Prod.map id f) := by
  simp only [argAt?, args_map, List.zipIdx_map, List.findSome?_map, List.map_findSome?]
  congr 1
  funext ⟨a, declared⟩
  by_cases h : a.position = some position <;> simp [h]

@[simp] theorem callSite_map (f : ε → δ) (t : Target ε) :
    (t.map f).callSite = t.callSite.map (Prod.map id f) := by
  simp only [callSite, args_map, List.length_map, List.map_filterMap]
  congr 1
  funext position
  exact argAt?_map f t position

@[simp] theorem operands_map (f : ε → δ) (t : Target ε) :
    (t.map f).operands = t.operands.map f := by
  simp [operands, Option.toList_map, Function.comp_def]

theorem map_through (f : ε → δ) (r : Receiver ε) (t : Target ε) :
    (t.through r).map f = (t.map f).through (r.map f) := by cases r <;> rfl

theorem ofThis_map (f : ε → δ) (md : Metadata) (enclosing : EnclosingMember) (ty : TypeRef)
    (span : Span) :
    (ofThis md enclosing ty span : Except LoweringError (Target δ)) =
      (ofThis md enclosing ty span).map (Target.map f) := by
  unfold ofThis
  cases md.semantics enclosing.ty with
  | reference => rfl
  | mutable tag => rfl
  | immutable => dsimp only; split <;> rfl

theorem ofProperty_map (f : ε → δ) (md : Metadata) (r : Receiver ε) (p : Property)
    (span : Span) :
    ofProperty md (r.map f) p span = (ofProperty md r p span).map (Target.map f) := by
  simp only [ofProperty, Receiver.isStatic_map, bind, Except.bind]
  cases storageOf (md.property p) p span with
  | error e => rfl
  | ok storage =>
    dsimp only
    split
    · rfl
    · cases r <;> rfl

theorem ofIndexer_map (f : ε → δ) {typeOf : ε → TypeRef} {typeOf' : δ → TypeRef}
    (h : ∀ e, typeOf' (f e) = typeOf e) (md : Metadata) (r : Receiver ε)
    (target : IndexerTarget ε) (args : List (Argument ε)) (ty : TypeRef) (span : Span) :
    ofIndexer md typeOf' (r.map f) (target.map f) (args.map (·.map f)) ty span =
      (ofIndexer md typeOf r target args ty span).map (Target.map f) := by
  have hbase : (plain .indexer ty span).through (r.map f) =
      ((plain .indexer ty span).through r).map f := (map_through f r (plain ..)).symm
  cases target with
  | resolved p ds =>
    simp only [ofIndexer, IndexerTarget.map, hbase, bind, Except.bind, bindArguments_map]
    cases storageOf (md.property p) p span with
    | error e => rfl
    | ok storage => cases bindArguments p ds args span <;> rfl
  | candidates ps =>
    simp only [ofIndexer, IndexerTarget.map, hbase, bind, Except.bind, rejectNamed_map]
    cases rejectNamed args span with
    | error e => rfl
    | ok u =>
      cases ps with
      | nil => rfl
      | cons p others =>
        dsimp only
        split
        · rfl
        · cases storageOf (md.property p) p span with
          | error e => rfl
          | ok storage =>
            have hargs := IndexArg.inOrder_map f h (args.map (·.value))
            simp only [List.map_map, Function.comp_def, Argument.value_map] at hargs ⊢
            simp only [Except.map, Target.map, hargs]

theorem ofElement_map (f : ε → δ) {typeOf : ε → TypeRef} {typeOf' : δ → TypeRef}
    (h : ∀ e, typeOf' (f e) = typeOf e) (array : ε) (indices : List ε) (ty : TypeRef)
    (span : Span) :
    ofElement typeOf' (f array) (indices.map f) ty span =
      (ofElement typeOf array indices ty span).map (Target.map f) := by
  have hargs := IndexArg.inOrder_map f h indices
  match indices with
  | [] => rfl
  | [_] | _ :: _ :: _ =>
    simp only [List.map_cons, List.map_nil] at hargs
    simp only [ofElement, List.map_cons, List.map_nil, hargs]
    rfl

theorem ofDynamicIndex_map (f : ε → δ) {typeOf : ε → TypeRef} {typeOf' : δ → TypeRef}
    (h : ∀ e, typeOf' (f e) = typeOf e) (object : ε) (args : List (Argument ε))
    (span : Span) :
    ofDynamicIndex typeOf' (f object) (args.map (·.map f)) span =
      (ofDynamicIndex typeOf object args span).map (Target.map f) := by
  simp only [ofDynamicIndex, rejectNamed_map, bind, Except.bind, List.length_map]
  cases rejectNamed args span with
  | error e => rfl
  | ok u =>
    have hargs := IndexArg.inOrder_map f h (args.map (·.value))
    simp only [List.map_map, Function.comp_def, Argument.value_map] at hargs ⊢
    split
    · rfl
    · simp only [Except.map, Target.map, hargs]
      rfl

/-- Classification commutes with maps that keep types. -/
theorem ofPlace_map (f : ε → δ) {typeOf : ε → TypeRef} {typeOf' : δ → TypeRef}
    (h : ∀ e, typeOf' (f e) = typeOf e) (md : Metadata) (enclosing : EnclosingMember)
    (span : Span) (p : Place ε) :
    ofPlace md enclosing typeOf' span (p.map f) =
      (ofPlace md enclosing typeOf span p).map (Target.map f) := by
  cases p with
  | localVar l => rfl
  | this ty => exact ofThis_map f md enclosing ty span
  | field r m => cases r <;> rfl
  | property r m => exact ofProperty_map f md r m span
  | indexer r t args ty => exact ofIndexer_map f h md r t args ty span
  | element array indices ty => exact ofElement_map f h array indices ty span
  | dynamicMember object name => rfl
  | dynamicIndex object args => exact ofDynamicIndex_map f h object args span

theorem classify_map (f : ε → δ) {typeOf : ε → TypeRef} {typeOf' : δ → TypeRef}
    (h : ∀ e, typeOf' (f e) = typeOf e) (md : Metadata) (enclosing : EnclosingMember)
    (span : Span) (p : Option (Place ε)) :
    classify md enclosing typeOf' span (p.map (Place.map f)) =
      (classify md enclosing typeOf span p).map (Target.map f) := by
  cases p with
  | none => rfl
  | some p => exact ofPlace_map f h md enclosing span p

end Target
end AssignmentLowering
