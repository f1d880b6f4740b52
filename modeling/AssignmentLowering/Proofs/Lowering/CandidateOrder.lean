import AssignmentLowering.Proofs.Lowering.Candidates
import AssignmentLowering.Proofs.Lowering.Sample

/-!
# When the order of candidates counts

An indexer that is chosen among candidates comes out alike in two orders just if the accessors
in use refer to the same arguments by the parameters of the one first candidate and of the
other. That they have to is shown by arguments that can be told from one another in script:
strings of one length, of which one is like no other. Strings are lowered without errors, stay
where they are, and have their text within that of the accessor.

## Main definitions

* `tellingStrings` — strings of which one is like no other.
* `Expr.probe` — an indexer with strings as arguments.

## Main statements

* `tells_passedStrings` — strings tell which argument an accessor refers to.
* `lowering_choosing` — when an indexer comes out alike in two orders.
-/

namespace AssignmentLowering

open Script (Stmt postfixLevel)

variable {cx : Context}

/-! ## Strings as arguments -/

/-- A string, as an expression. -/
def Expr.ofString (s : String) : Expr := ⟨.literal (.string s) ⟨"String"⟩, {}⟩

/-- What a string is lowered to. -/
def Value.ofString (s : String) : Value := ⟨.string s, true, true⟩

/-- What a string is lowered to as an argument. -/
def IndexValue.ofString (s : String) : IndexValue := ⟨.string s, ⟨"String"⟩, true⟩

/-- The strings `x`, as the `i`-th of `count`, and `y`, as all others. -/
def tellingStrings (count i : Nat) : List String :=
  (List.range count).map fun k => if k = i then "x" else "y"

@[simp] theorem length_tellingStrings (count i : Nat) :
    (tellingStrings count i).length = count := by
  simp [tellingStrings]

theorem Taken.ofString {c : Capture} {later : List Expr} {s : String} {n n' : Nat} {v : Value}
    {stmts : List Stmt} (h : Taken cx c later (.ofString s) n v stmts n') :
    v = .ofString s ∧ stmts = [] ∧ n' = n := by
  cases h with
  | @intro w m _ _ _ hlower hheld =>
    cases hlower
    have hkept : (Expr.ofString s).mustCapture cx c later (.ofString s) = false := by
      simp [Expr.mustCapture, Value.ofString, Script.Expr.isReusable]
    have hheld' : Held cx (.string s) n ((Expr.ofString s).mustCapture cx c later
      (.ofString s)) _ _ _ := hheld
    rw [hkept] at hheld'
    cases hheld'
    exact ⟨rfl, rfl, rfl⟩

theorem TakenAll.ofStrings {rest : List Expr} {items : List (Capture × Expr)}
    {strings : List String} {n n' : Nat} {vs : List Value} {stmts : List Stmt}
    (h : TakenAll cx rest items n vs stmts n')
    (hitems : items.map (·.2) = strings.map Expr.ofString) :
    vs = strings.map Value.ofString ∧ stmts = [] ∧ n' = n := by
  induction h generalizing strings with
  | nil =>
    cases strings with
    | nil => exact ⟨rfl, rfl, rfl⟩
    | cons s strings => cases hitems
  | cons hhead _ ih =>
    cases strings with
    | nil => cases hitems
    | cons s strings =>
      obtain ⟨rfl, htail⟩ := List.cons.inj hitems
      obtain ⟨rfl, rfl, rfl⟩ := hhead.ofString
      obtain ⟨rfl, rfl, rfl⟩ := ih htail
      exact ⟨rfl, rfl, rfl⟩

/-- Values of strings in the order of the text are those of the arguments. -/
theorem forall₂_ofStrings {xs : List IndexValue} {strings : List String} {k : Nat}
    (h : List.Forall₂ (fun arg x => ∃ v : Value, x = ⟨v.expr, arg.ty, v.fresh⟩ ∧
        ∃ s, arg.value = .ofString s ∧ v = .ofString s)
      (((strings.map Expr.ofString).zipIdx k).map fun (e, i) => (⟨e, e.ty, some i⟩ : IndexArg Expr))
      xs) : xs = strings.map IndexValue.ofString := by
  induction strings generalizing k xs with
  | nil =>
    cases h
    rfl
  | cons s strings ih =>
    obtain _ | ⟨⟨v, rfl, s', hs, rfl⟩, hrest⟩ := h
    cases hs
    rw [ih hrest]
    rfl

/-- Strings are all that is evaluated to find a target whose arguments they are. -/
theorem operands_ofStrings {t : Target Expr} {strings : List String}
    (hargs : t.args = IndexArg.inOrder Expr.ty (strings.map Expr.ofString))
    (hreceiver : t.receiver = none) :
    t.operands = strings.map Expr.ofString ∧ t.omitted = [] := by
  have ht : Arranges t.args (strings.map Expr.ofString) := hargs ▸ .inOrder ..
  constructor
  · rw [Target.operands, hreceiver, Target.map_snd_callSite ht]
    rfl
  · rw [Target.omitted, omittedOf, hargs, List.map_eq_nil_iff, List.filter_eq_nil_iff]
    intro arg harg
    obtain ⟨x, -, rfl⟩ := List.mem_map.1 harg
    exact Bool.false_ne_true

/-- Strings as arguments stay where they are. -/
theorem Addressed.ofStrings {reuse : Bool} {rest : List Expr} {t : Target Expr} {n n' : Nat}
    {a : LoweredAddress} {stmts : List Stmt} {strings : List String}
    (hargs : t.args = IndexArg.inOrder Expr.ty (strings.map Expr.ofString))
    (hreceiver : t.receiver = none) (h : Addressed cx reuse rest t n a stmts n') :
    a = ⟨none, strings.map IndexValue.ofString⟩ ∧ stmts = [] ∧ n' = n := by
  have ht : Arranges t.args (strings.map Expr.ofString) := hargs ▸ .inOrder ..
  obtain ⟨vs, ds, stmts₁, stmts₂, m, htaken, hasides, rfl, -, hobject, hvalues⟩ := h.split ht
  obtain ⟨hoperands, homitted⟩ := operands_ofStrings hargs hreceiver
  obtain ⟨rfl, rfl, rfl⟩ := htaken.ofStrings ((t.map_snd_captures ..).trans hoperands)
  rw [homitted] at hasides hvalues
  cases hasides
  rw [hreceiver] at hobject
  obtain ⟨object, xs⟩ := a
  have hnone : object = none := by
    cases object with
    | none => rfl
    | some e => cases hobject
  have hxs : xs = strings.map IndexValue.ofString := by
    rw [hargs, hoperands] at hvalues
    refine forall₂_ofStrings (k := 0) (hvalues.imp fun arg x ⟨v, hx, hv⟩ => ⟨v, hx, ?_⟩)
    obtain hv | hv := hv
    · rw [List.zip_map', List.mem_map] at hv
      obtain ⟨s, -, hs⟩ := hv
      obtain ⟨hvalue, rfl⟩ := Prod.mk.inj hs
      exact ⟨s, hvalue.symm, rfl⟩
    · cases hv
  exact ⟨by rw [hnone, hxs], rfl, rfl⟩

/-- The strings as an accessor gets them. -/
def passedStrings (cx : Context) (uses : Nat) (strings : List String) : List Script.Expr :=
  strings.map fun s => cx.copied ⟨"String"⟩ true uses (.string s)

theorem passed_ofStrings {accessor : Accessor} (haccessor : accessor.runsCode = true)
    (uses : Nat) (strings : List String) :
    (⟨none, strings.map IndexValue.ofString⟩ : LoweredAddress).passed cx (some accessor) uses =
      ⟨none, passedStrings cx uses strings⟩ := by
  simp [LoweredAddress.passed, haccessor, passedStrings, IndexValue.ofString, Function.comp_def]

/-- A string as it is passed, or a copy of it, has its own text somewhere within. -/
theorem chars_copied_string (cx : Context) (uses : Nat) :
    ∃ before after, ∀ s, (cx.copied ⟨"String"⟩ true uses (.string s)).chars postfixLevel =
      before ++ Script.quotedChars s.toList ++ after := by
  unfold Context.copied copied
  cases (cx.metadata.semantics ⟨"String"⟩).cloneTag? true uses with
  | none => exact ⟨[], [], fun s => (List.append_nil _).symm⟩
  | some tag =>
    refine ⟨cx.names.clone.toList ++ ['('],
      ',' :: ' ' :: (Script.Expr.typeHandle tag).chars Script.assignLevel ++ [')'], fun s => ?_⟩
    simp [Script.Expr.chars, clone, Script.atLevel, Script.Expr.precedence, Script.Expr.bare,
      Script.Expr.listChars, postfixLevel, Script.primaryLevel, Script.assignLevel]

theorem tells_passedStrings (cx : Context) (uses count : Nat) :
    Tells count fun i => passedStrings cx uses (tellingStrings count i) := by
  obtain ⟨before, after, hchars⟩ := chars_copied_string cx uses
  have hmem : ∀ {i : Nat} {e : Script.Expr},
      e ∈ passedStrings cx uses (tellingStrings count i) →
        (e.chars postfixLevel).length = before.length + 3 + after.length := by
    intro i e he
    simp only [passedStrings, tellingStrings, List.map_map, List.mem_map] at he
    obtain ⟨k, -, rfl⟩ := he
    rw [Function.comp_apply, hchars, List.length_append, List.length_append]
    by_cases hk : k = i
    · rw [if_pos hk]
      rfl
    · rw [if_neg hk]
      rfl
  refine ⟨fun i => by simp [passedStrings, tellingStrings],
    fun i e he e' he' => (hmem he).trans (hmem he').symm, ?_⟩
  intro i j e e' he he' heq
  simp only [passedStrings, tellingStrings, List.map_map, List.getElem?_map,
    Option.map_eq_some_iff] at he he'
  obtain ⟨k, hk, rfl⟩ := he
  obtain ⟨l, hl, rfl⟩ := he'
  obtain ⟨_, rfl⟩ := List.getElem?_eq_some_iff.1 hk
  obtain ⟨_, rfl⟩ := List.getElem?_eq_some_iff.1 hl
  simp only [List.getElem_range] at heq ⊢
  apply Classical.byContradiction
  intro hne
  rw [Function.comp_apply, Function.comp_apply, if_pos rfl, if_neg hne, hchars, hchars,
    List.append_left_inj, List.append_right_inj] at heq
  exact absurd heq (by decide)

/-- Two ways to name arguments mean the same to an accessor that can be used by both or by
neither, if by both it gives the same script for all strings that tell. -/
theorem meanings?_eq_of_passedStrings (cx : Context) (uses : Nat) {accessor : Accessor}
    {params names : List String} {count : Nat} {writes : Bool}
    (hsome : (accessor.meanings? names count writes).isSome =
      (accessor.meanings? params count writes).isSome)
    (heq : (accessor.meanings? params count writes).isSome →
      ∀ template, accessor = .inline template → ∀ i,
        ∃ (t : Target Expr) (object value : Option Script.Expr),
          t.paramNames = params ∧ value.isSome = writes ∧
            (t.renamed names).useAccessor cx.names
                ⟨object, passedStrings cx uses (tellingStrings count i)⟩ value accessor =
              t.useAccessor cx.names
                ⟨object, passedStrings cx uses (tellingStrings count i)⟩ value accessor) :
    accessor.meanings? names count writes = accessor.meanings? params count writes := by
  cases accessor with
  | method name | subscript => rfl
  | inline template =>
    cases hparams : (Accessor.inline template).meanings? params count writes with
    | none => simpa [hparams] using hsome
    | some ms =>
      rw [← hparams]
      exact Target.meanings?_eq_of_useAccessor (tells_passedStrings cx uses count) cx.names
        (by simp [hparams]) (by simp [hsome, hparams]) (heq (by simp [hparams]) template rfl)

/-! ## An indexer with strings as arguments -/

/-- An indexer that is chosen among `ps`, with strings as arguments. -/
def Expr.probe (ps : List Property) (strings : List String) : Expr :=
  .choosing (.base ⟨"Base"⟩) ps (strings.map fun s => ⟨.ofString s, none, {}⟩) ⟨"String"⟩ {}

/-- What is known of the target of such an indexer. -/
structure Probed (cx : Context) (ps : List Property) (strings : List String)
    (getter setter : Accessor) (t : Target Expr) : Prop where
  target : (Expr.probe ps strings).target cx.metadata cx.enclosing = .ok t
  kind : t.kind = .indexer
  receiver : t.receiver = none
  args_eq : t.args = IndexArg.inOrder Expr.ty (strings.map Expr.ofString)
  storage : t.storage = .accessors getter setter

section

variable {p : Property} {ps : List Property} {strings : List String} {getter setter : Accessor}
  {t : Target Expr}

theorem exists_probed (hproperty : ∀ x ∈ ps, cx.metadata.property x = cx.metadata.property p)
    (hbinding : cx.metadata.binding p = .accessors getter setter) (strings : List String) :
    ∃ t, Probed cx (p :: ps) strings getter setter t ∧
      t.paramNames = p.params.map (·.name) := by
  have hunnamed : ∀ a ∈ strings.map fun s => (⟨.ofString s, none, {}⟩ : Argument Expr),
      a.name = none := by
    intro a ha
    obtain ⟨s, -, rfl⟩ := List.mem_map.1 ha
    rfl
  have hagree : ¬(ps.any fun x => cx.metadata.property x ≠ cx.metadata.property p) = true := by
    simpa using hproperty
  have hstorage : (cx.metadata.property p).storage? = some (.accessors getter setter) := by
    rw [PropertyBinding.storage?, ← Metadata.binding, hbinding]
  refine ⟨{ (Target.plain .indexer ⟨"String"⟩ {}).through (.base ⟨"Base"⟩) with
    storage := .accessors getter setter
    args := IndexArg.inOrder Expr.ty (strings.map Expr.ofString)
    paramNames := p.params.map (·.name) }, ⟨?_, rfl, rfl, rfl, rfl⟩, rfl⟩
  refine (Target.ofIndexer_candidates hunnamed).trans ?_
  rw [if_neg hagree, storageOf, hstorage, List.map_map]
  rfl

theorem exists_of_failureAt_eq_none {α : Type} {x : LowerM α} {n : Nat}
    (h : failureAt x n = none) : ∃ a n', x n = .ok a n' := by
  unfold failureAt at h
  cases hx : x n with
  | ok a n' => exact ⟨a, n', rfl⟩
  | error e n' => simp [hx] at h

namespace Probed

variable (h : Probed cx ps strings getter setter t)

include h

theorem getter? : t.getter? = some getter := by
  rw [Target.getter?, h.storage]
  rfl

theorem setter? : t.setter? = some setter := by
  rw [Target.setter?, h.storage]
  rfl

theorem load_eq (a : Address) : t.load cx.names a = t.useAccessor cx.names a none getter :=
  Target.load_eq_useAccessor cx.names h.getter? (by simp [h.kind]) (by simp [h.kind]) a

theorem store_eq (a : Address) (v : Script.Expr) :
    t.store cx.names a v = t.useAccessor cx.names a (some v) setter :=
  Target.store_eq_useAccessor cx.names h.setter? (by simp [h.kind]) (by simp [h.kind]) a v

theorem length_args : t.args.length = strings.length := by
  rw [h.args_eq]
  simp [IndexArg.inOrder]

/-- Strings are lowered without errors. -/
theorem operands_succeed :
    (t.operands ++ t.omitted).findSome? (Expr.failure? cx) = none := by
  obtain ⟨hoperands, homitted⟩ := operands_ofStrings h.args_eq h.receiver
  rw [hoperands, homitted, List.append_nil, List.findSome?_eq_none_iff]
  intro o ho
  obtain ⟨s, -, rfl⟩ := List.mem_map.1 ho
  rfl

/-- Reading the indexer fails where the getter cannot be used. -/
theorem code_lower (n : Nat) :
    (failureAt ((Expr.probe ps strings).lower cx) n).map LoweringError.code =
      Target.faultCode? (getter.meanings? t.paramNames strings.length false) := by
  rw [← h.length_args]
  refine (code_lower_choosing h.target h.kind h.getter? n).trans ?_
  rw [h.operands_succeed]
  rfl

/-- Assigning the indexer fails where the getter cannot be used, if it is, then as the value
does, and then where the setter cannot be used. -/
theorem code_lowerAssignment (usage : Usage) (op : AssignOp) (value : Expr) (n : Nat) :
    (failureAt (lowerAssignment cx usage ⟨Expr.probe ps strings, op, value⟩ {}) n).map
        LoweringError.code =
      (Target.faultCode? (getter.oldMeanings? op t.paramNames strings.length)).or
        (((value.failure? cx).map LoweringError.code).or
          (Target.faultCode? (setter.meanings? t.paramNames strings.length true))) := by
  rw [← h.length_args]
  refine (code_lowerAssignment_choosing h.target h.kind h.storage usage op value {} n).trans ?_
  rw [h.operands_succeed]
  rfl

/-- The script by which the indexer is read. -/
theorem exists_lower {template : String} (hgetter : getter = .inline template)
    (hread : (getter.meanings? t.paramNames strings.length false).isSome) (n : Nat) :
    ∃ w n', (Expr.probe ps strings).lower cx n = .ok w n' ∧
      t.useAccessor cx.names ⟨none, passedStrings cx 1 strings⟩ none getter = .ok w.expr := by
  obtain ⟨ms, hms⟩ := Option.isSome_iff_exists.1 hread
  have hcode := h.code_lower n
  rw [hms] at hcode
  obtain ⟨w, n', hw⟩ := exists_of_failureAt_eq_none (Option.map_eq_none_iff.1 hcode)
  refine ⟨w, n', hw, ?_⟩
  cases Lowers.of_lower hw with
  | load hthis htarget haddr hload =>
    cases h.target.symm.trans htarget
    obtain ⟨rfl, -, -⟩ := haddr.ofStrings h.args_eq h.receiver
    rwa [h.load_eq, h.getter?, hgetter,
      passed_ofStrings rfl, ← hgetter] at hload

/-- The script by which the indexer is assigned, if nobody wants the result. -/
theorem exists_assignSimple {template : String} (hsetter : setter = .inline template)
    {op : AssignOp} (hop : op.binary? = none)
    (hwrite : (setter.meanings? t.paramNames strings.length true).isSome) (n : Nat) :
    ∃ w n', lowerAssignment cx .discarded ⟨Expr.probe ps strings, op, .ofString "x"⟩ {} n =
        .ok w n' ∧
      t.useAccessor cx.names ⟨none, passedStrings cx 1 strings⟩
        (some (cx.copied t.ty true 1 (.string "x"))) setter = .ok w.expr := by
  obtain ⟨ms, hms⟩ := Option.isSome_iff_exists.1 hwrite
  have hcode := h.code_lowerAssignment .discarded op (.ofString "x") n
  rw [getter.oldMeanings?_of_none hop, hms] at hcode
  obtain ⟨w, n', hw⟩ := exists_of_failureAt_eq_none (Option.map_eq_none_iff.1 hcode)
  refine ⟨w, n', hw, ?_⟩
  cases LowersAssign.of_lowerAssignment hw with
  | native htarget _ hnative | readBack htarget _ hnative =>
    cases h.target.symm.trans htarget
    simp [Target.isNative, h.kind, h.storage] at hnative
  | compoundNative _ hop' | compoundByCall _ hop' =>
    rw [hop] at hop'
    cases hop'
  | byCall htarget _ _ haddr hvalue hstore =>
    cases h.target.symm.trans htarget
    obtain ⟨rfl, -, -⟩ := haddr.ofStrings h.args_eq h.receiver
    obtain ⟨rfl, -, -⟩ := hvalue.ofString
    rwa [h.store_eq, h.setter?, hsetter,
      passed_ofStrings rfl, ← hsetter] at hstore

/-- The script by which the indexer is read and assigned, if the result is wanted. -/
theorem exists_assignCompound {op : AssignOp} {binary : BinaryOp}
    (hop : op.binary? = some binary)
    (hread : (getter.meanings? t.paramNames strings.length false).isSome)
    (hwrite : (setter.meanings? t.paramNames strings.length true).isSome) (n : Nat) :
    ∃ w n' load store,
      lowerAssignment cx .used ⟨Expr.probe ps strings, op, .ofString "x"⟩ {} n = .ok w n' ∧
      w.stmts = [.declare (cx.temp (n + 1)) (.binary binary load (.string "x")), .expr store] ∧
      (∀ template, getter = .inline template →
        t.useAccessor cx.names ⟨none, passedStrings cx 2 strings⟩ none getter = .ok load) ∧
      (∀ template, setter = .inline template →
        t.useAccessor cx.names ⟨none, passedStrings cx 2 strings⟩
          (some (cx.copied t.ty true 2 (.ident (cx.temp (n + 1))))) setter = .ok store) := by
  obtain ⟨ms, hms⟩ := Option.isSome_iff_exists.1 hread
  obtain ⟨ws, hws⟩ := Option.isSome_iff_exists.1 hwrite
  have hcode := h.code_lowerAssignment .used op (.ofString "x") n
  rw [getter.oldMeanings?_of_some hop, hms, hws] at hcode
  obtain ⟨w, n', hw⟩ := exists_of_failureAt_eq_none (Option.map_eq_none_iff.1 hcode)
  cases LowersAssign.of_lowerAssignment hw with
  | native _ hop' | readBack _ hop' | byCall _ hop' =>
    rw [hop] at hop'
    cases hop'
  | compoundNative htarget _ hnative =>
    cases h.target.symm.trans htarget
    simp [Target.isNative, h.kind, h.storage] at hnative
  | compoundByCall htarget hop' _ _ haddr hload hold hvalue hnew hstore =>
    cases h.target.symm.trans htarget
    cases hop.symm.trans hop'
    obtain ⟨rfl, rfl, rfl⟩ := haddr.ofStrings h.args_eq h.receiver
    cases hold
    obtain ⟨rfl, rfl, rfl⟩ := hvalue.ofString
    cases hnew
    rw [h.load_eq, h.getter?] at hload
    rw [h.store_eq, h.setter?] at hstore
    refine ⟨_, _, _, _, hw, rfl, fun template hgetter => ?_, fun template hsetter => ?_⟩
    · rwa [hgetter, passed_ofStrings rfl, ← hgetter] at hload
    · rwa [hsetter, passed_ofStrings rfl, ← hsetter] at hstore

end Probed

end

/-! ## Candidates in two orders -/

section

variable {p q : Property} {ps qs : List Property} {count : Nat} {getter setter : Accessor}
  (hperm : (p :: ps).Perm (q :: qs))
  (hone : ∀ x ∈ p :: ps, x.owner = p.owner ∧ x.name = p.name)

include hperm hone

theorem Probed.renamed {strings : List String} {t : Target Expr}
    (h : Probed cx (p :: ps) strings getter setter t) :
    Probed cx (q :: qs) strings getter setter (t.renamed (q.params.map (·.name))) where
  target := (target_choosing hperm hone).trans (congrArg _ h.target)
  kind := h.kind
  receiver := h.receiver
  args_eq := h.args_eq
  storage := h.storage

/-- If an indexer is read alike in two orders, whatever its arguments, its getter refers to the
same arguments by the parameters of the two first candidates. -/
theorem readMeanings?_eq_of_sameOutcome
    (hsame : ∀ r args ty span n, args.length = count →
      SameOutcome ((Expr.choosing r (q :: qs) args ty span).lower cx n)
        ((Expr.choosing r (p :: ps) args ty span).lower cx n))
    (hproperty : ∀ x ∈ ps, cx.metadata.property x = cx.metadata.property p) :
    cx.metadata.readMeanings? count q = cx.metadata.readMeanings? count p := by
  have hprobe : ∀ i, SameOutcome
      ((Expr.probe (q :: qs) (tellingStrings count i)).lower cx 0)
      ((Expr.probe (p :: ps) (tellingStrings count i)).lower cx 0) :=
    fun i => hsame _ _ _ _ 0 (by simp)
  unfold Metadata.readMeanings?
  rw [binding_eq_of_property_eq hperm hproperty]
  cases hb : cx.metadata.binding p with
  | field name | subscript | unusable => rfl
  | accessors getter setter =>
    have hsome : (getter.meanings? (q.params.map (·.name)) count false).isSome =
        (getter.meanings? (p.params.map (·.name)) count false).isSome := by
      obtain ⟨t, ht, hnames⟩ := exists_probed hproperty hb (tellingStrings count 0)
      have hcode := (hprobe 0).code_eq
      rw [ht.code_lower, (ht.renamed hperm hone).code_lower,
        length_tellingStrings, hnames] at hcode
      exact Target.isSome_eq_of_faultCode? hcode
    refine meanings?_eq_of_passedStrings cx 1 hsome fun hread template hgetter i => ?_
    obtain ⟨t, ht, hnames⟩ := exists_probed hproperty hb (tellingStrings count i)
    obtain ⟨w, n, hw, hscript⟩ := ht.exists_lower hgetter
      (by rwa [length_tellingStrings, hnames]) 0
    obtain ⟨w', n', hw', hscript'⟩ := (ht.renamed hperm hone).exists_lower hgetter
      (by rw [length_tellingStrings, Target.paramNames_renamed, hsome]; exact hread) 0
    have hsame := hprobe i
    rw [hw, hw'] at hsame
    cases hsame
    exact ⟨t, none, none, hnames, rfl, hscript'.trans hscript.symm⟩

section

variable {op : AssignOp}
  (hproperty : ∀ x ∈ ps, cx.metadata.property x = cx.metadata.property p)
  (hbinding : cx.metadata.binding p = .accessors getter setter)
  (hprobe : ∀ usage value i, SameOutcome
    (lowerAssignment cx usage ⟨Expr.probe (q :: qs) (tellingStrings count i), op, value⟩ {} 0)
    (lowerAssignment cx usage ⟨Expr.probe (p :: ps) (tellingStrings count i), op, value⟩ {} 0))

include hproperty hbinding hprobe

/-- The error with which assigning the indexer fails tells which accessor cannot be used. -/
theorem isSome_meanings?_of_sameOutcome :
    (getter.oldMeanings? op (q.params.map (·.name)) count).isSome =
        (getter.oldMeanings? op (p.params.map (·.name)) count).isSome ∧
      ((getter.oldMeanings? op (p.params.map (·.name)) count).isSome →
        (setter.meanings? (q.params.map (·.name)) count true).isSome =
          (setter.meanings? (p.params.map (·.name)) count true).isSome) := by
  have hcode : ∀ value : Expr,
      (Target.faultCode? (getter.oldMeanings? op (q.params.map (·.name)) count)).or
        (((value.failure? cx).map LoweringError.code).or
          (Target.faultCode? (setter.meanings? (q.params.map (·.name)) count true))) =
      (Target.faultCode? (getter.oldMeanings? op (p.params.map (·.name)) count)).or
        (((value.failure? cx).map LoweringError.code).or
          (Target.faultCode? (setter.meanings? (p.params.map (·.name)) count true))) := by
    intro value
    obtain ⟨t, ht, hnames⟩ := exists_probed hproperty hbinding (tellingStrings count 0)
    have hcode := (hprobe .used value 0).code_eq
    rwa [ht.code_lowerAssignment, (ht.renamed hperm hone).code_lowerAssignment,
      length_tellingStrings, hnames, Target.paramNames_renamed] at hcode
  -- The error of a value without an index is no internal one, and it comes after the getter.
  have hfails := hcode ⟨.place (.dynamicIndex (.ofString "x") []), {}⟩
  have hworks := hcode (.ofString "x")
  have hvalue : ((⟨.place (.dynamicIndex (.ofString "x") []), {}⟩ : Expr).failure? cx).map
      LoweringError.code = some .dynamicArity := rfl
  rw [hvalue] at hfails
  cases hp : getter.oldMeanings? op (p.params.map (·.name)) count <;>
    cases hq : getter.oldMeanings? op (q.params.map (·.name)) count <;>
    rw [hp, hq] at hfails hworks
  · exact ⟨rfl, fun h => by cases h⟩
  · cases hfails
  · cases hfails
  · exact ⟨rfl, fun _ => Target.isSome_eq_of_faultCode? hworks⟩

/-- Plain assignments tell what the setter refers to. -/
theorem setter_meanings?_eq (hop : op.binary? = none)
    (hwrite : (setter.meanings? (q.params.map (·.name)) count true).isSome =
      (setter.meanings? (p.params.map (·.name)) count true).isSome) :
    setter.meanings? (q.params.map (·.name)) count true =
      setter.meanings? (p.params.map (·.name)) count true := by
  refine meanings?_eq_of_passedStrings cx 1 hwrite fun hsome template hsetter i => ?_
  obtain ⟨t, ht, hnames⟩ := exists_probed hproperty hbinding (tellingStrings count i)
  obtain ⟨w, n, hw, hscript⟩ := ht.exists_assignSimple hsetter hop
    (by rwa [length_tellingStrings, hnames]) 0
  obtain ⟨w', n', hw', hscript'⟩ := (ht.renamed hperm hone).exists_assignSimple hsetter hop
    (by rw [length_tellingStrings, Target.paramNames_renamed, hwrite]; exact hsome) 0
  have hsame := hprobe .discarded (.ofString "x") i
  rw [hw, hw'] at hsame
  cases hsame
  exact ⟨t, none, some _, hnames, rfl, hscript'.trans hscript.symm⟩

/-- Compound assignments tell what both accessors refer to. -/
theorem accessors_meanings?_eq {binary : BinaryOp} (hop : op.binary? = some binary)
    (hread : (getter.meanings? (q.params.map (·.name)) count false).isSome =
      (getter.meanings? (p.params.map (·.name)) count false).isSome)
    (hwrite : (setter.meanings? (q.params.map (·.name)) count true).isSome =
      (setter.meanings? (p.params.map (·.name)) count true).isSome)
    (hgets : (getter.meanings? (p.params.map (·.name)) count false).isSome)
    (hsets : (setter.meanings? (p.params.map (·.name)) count true).isSome) :
    getter.meanings? (q.params.map (·.name)) count false =
        getter.meanings? (p.params.map (·.name)) count false ∧
      setter.meanings? (q.params.map (·.name)) count true =
        setter.meanings? (p.params.map (·.name)) count true := by
  have hscripts : ∀ i, ∃ t : Target Expr, t.paramNames = p.params.map (·.name) ∧
      (∀ template, getter = .inline template →
        (t.renamed (q.params.map (·.name))).useAccessor cx.names
            ⟨none, passedStrings cx 2 (tellingStrings count i)⟩ none getter =
          t.useAccessor cx.names
            ⟨none, passedStrings cx 2 (tellingStrings count i)⟩ none getter) ∧
      ∃ value, ∀ template, setter = .inline template →
        (t.renamed (q.params.map (·.name))).useAccessor cx.names
            ⟨none, passedStrings cx 2 (tellingStrings count i)⟩ (some value) setter =
          t.useAccessor cx.names
            ⟨none, passedStrings cx 2 (tellingStrings count i)⟩ (some value) setter := by
    intro i
    obtain ⟨t, ht, hnames⟩ := exists_probed hproperty hbinding (tellingStrings count i)
    obtain ⟨w, n, load, store, hw, hstmts, hload, hstore⟩ := ht.exists_assignCompound hop
      (by rwa [length_tellingStrings, hnames]) (by rwa [length_tellingStrings, hnames]) 0
    obtain ⟨w', n', load', store', hw', hstmts', hload', hstore'⟩ :=
      (ht.renamed hperm hone).exists_assignCompound hop
        (by rw [length_tellingStrings, Target.paramNames_renamed, hread]; exact hgets)
        (by rw [length_tellingStrings, Target.paramNames_renamed, hwrite]; exact hsets) 0
    have hsame := hprobe .used (.ofString "x") i
    rw [hw, hw'] at hsame
    cases hsame
    -- The statements hold the script of both accessors.
    have hscript := hstmts'.symm.trans hstmts
    simp only [List.cons.injEq, Stmt.declare.injEq, Stmt.expr.injEq, Script.Expr.binary.injEq,
      true_and, and_true] at hscript
    obtain ⟨rfl, rfl⟩ := hscript
    exact ⟨t, hnames, fun template hg => (hload' template hg).trans (hload template hg).symm,
      _, fun template hs => (hstore' template hs).trans (hstore template hs).symm⟩
  constructor
  · refine meanings?_eq_of_passedStrings cx 2 hread fun _ template hgetter i => ?_
    obtain ⟨t, hnames, hload, -⟩ := hscripts i
    exact ⟨t, none, none, hnames, rfl, hload template hgetter⟩
  · refine meanings?_eq_of_passedStrings cx 2 hwrite fun _ template hsetter i => ?_
    obtain ⟨t, hnames, -, value, hstore⟩ := hscripts i
    exact ⟨t, none, some value, hnames, rfl, hstore template hsetter⟩

end

/-- If an indexer is assigned alike in two orders, whatever its arguments and the value, the
accessors in use refer to the same arguments by the parameters of the two first candidates, or
stop at the same one. -/
theorem assignMeanings?_eq_of_sameOutcome {op : AssignOp}
    (hsame : ∀ r args ty span usage value span' n, args.length = count →
      SameOutcome
        (lowerAssignment cx usage ⟨Expr.choosing r (q :: qs) args ty span, op, value⟩ span' n)
        (lowerAssignment cx usage ⟨Expr.choosing r (p :: ps) args ty span, op, value⟩ span' n))
    (hproperty : ∀ x ∈ ps, cx.metadata.property x = cx.metadata.property p) :
    cx.metadata.assignMeanings? op count q = cx.metadata.assignMeanings? op count p := by
  have hprobe : ∀ usage value i, SameOutcome
      (lowerAssignment cx usage
        ⟨Expr.probe (q :: qs) (tellingStrings count i), op, value⟩ {} 0)
      (lowerAssignment cx usage
        ⟨Expr.probe (p :: ps) (tellingStrings count i), op, value⟩ {} 0) :=
    fun usage value i => hsame _ _ _ _ usage value {} 0 (by simp)
  unfold Metadata.assignMeanings?
  rw [binding_eq_of_property_eq hperm hproperty]
  cases hb : cx.metadata.binding p with
  | field name | subscript | unusable => rfl
  | accessors getter setter =>
    obtain ⟨hread, hwrite⟩ := isSome_meanings?_of_sameOutcome hperm hone hproperty hb hprobe
    refine Metadata.map_map_prod_eq_iff.2 ?_
    cases hr : getter.oldMeanings? op (p.params.map (·.name)) count with
    | none => exact .inl ⟨rfl, by simpa [hr] using hread⟩
    | some ms =>
      have hwrite := hwrite (by simp [hr])
      cases hw : setter.meanings? (p.params.map (·.name)) count true with
      | none =>
        exact .inr (.inl ⟨rfl, by simp [hread, hr], rfl, by simpa [hw] using hwrite⟩)
      | some ws =>
        refine .inr (.inr ?_)
        cases hop : op.binary? with
        | none =>
          have hset := setter_meanings?_eq hperm hone hproperty hb hprobe hop hwrite
          rw [getter.oldMeanings?_of_none hop] at hr ⊢
          exact ⟨⟨ms, rfl, hr⟩, ws, rfl, hset.trans hw⟩
        | some binary =>
          simp only [getter.oldMeanings?_of_some hop] at hr hread ⊢
          obtain ⟨hget, hset⟩ := accessors_meanings?_eq hperm hone hproperty hb hprobe hop
            hread hwrite (by simp [hr]) (by simp [hw])
          exact ⟨⟨ms, rfl, hget.trans hr⟩, ws, rfl, hset.trans hw⟩

/-- **Candidates in two orders.** For all receivers, arguments, values and usages an indexer
that is chosen among candidates is read alike in both orders, to the same output or with an
error of the same kind, just if its getter refers to the same arguments by the parameters of
the two first candidates, or can be used by neither; and it is assigned alike just if this is
so of the accessors in use, up to the first that cannot be used. Candidates that are bound
differently are read and assigned alike in any case. And where the indexer can be evaluated at
all, evaluating it is known to have the same effects. -/
theorem lowering_choosing (cx : Context) (count : Nat) :
    ((∀ r args ty span n, args.length = count →
        SameOutcome ((Expr.choosing r (q :: qs) args ty span).lower cx n)
          ((Expr.choosing r (p :: ps) args ty span).lower cx n)) ↔
      ((∀ x ∈ ps, cx.metadata.property x = cx.metadata.property p) →
        cx.metadata.readMeanings? count q = cx.metadata.readMeanings? count p)) ∧
    (∀ op : AssignOp,
      (∀ r args ty span usage value span' n, args.length = count →
        SameOutcome
          (lowerAssignment cx usage ⟨Expr.choosing r (q :: qs) args ty span, op, value⟩ span' n)
          (lowerAssignment cx usage ⟨Expr.choosing r (p :: ps) args ty span, op, value⟩
            span' n)) ↔
      ((∀ x ∈ ps, cx.metadata.property x = cx.metadata.property p) →
        cx.metadata.assignMeanings? op count q = cx.metadata.assignMeanings? op count p)) ∧
    ∀ r args ty span t,
      (Expr.choosing r (p :: ps) args ty span).target cx.metadata cx.enclosing = .ok t →
      (Expr.choosing r (q :: qs) args ty span).hasEffects cx.metadata =
        (Expr.choosing r (p :: ps) args ty span).hasEffects cx.metadata := by
  refine ⟨⟨fun hsame => readMeanings?_eq_of_sameOutcome hperm hone hsame, fun h => ?_⟩,
    fun op => ⟨fun hsame => assignMeanings?_eq_of_sameOutcome hperm hone hsame, fun h => ?_⟩,
    fun r args ty span t ht => hasEffects_choosing hperm ht⟩
  · rintro r args ty span n rfl
    exact sameOutcome_lower_choosing hperm hone h n
  · rintro r args ty span usage value span' n rfl
    exact sameOutcome_lowerAssignment_choosing hperm hone h usage value span' n

end

namespace Sample

/-- An overload of an indexer, with the names of its parameters. -/
def cell (key : TypeRef) (names : List String) : Property :=
  { name := "Item", owner := ty, ty, params := names.map (⟨·, key⟩), isIndexer := true }

/-- All overloads are bound to the same templates, which refer to arguments by name. -/
def cellContext : Context :=
  { context .reference with
    metadata := { metadata .reference with
      property _ := .accessors (.inline "\x7bthis\x7d.at(\x7brow\x7d, \x7bcol\x7d)")
        (.inline "\x7bthis\x7d.put(\x7brow\x7d, \x7bcol\x7d, \x7bvalue\x7d)") } }

end Sample

open Sample in
/-- Overloads that call their parameters alike are read alike in two orders, overloads that
call them the other way round are not. -/
theorem lowering_choosing_cell :
    let p := cell ⟨"Int32"⟩ ["row", "col"]
    let same := cell ⟨"String"⟩ ["row", "col"]
    let other := cell ⟨"String"⟩ ["col", "row"]
    ((p :: [same]).Perm (same :: [p]) ∧ ∀ x ∈ p :: [same], x.owner = p.owner ∧ x.name = p.name) ∧
    ((p :: [other]).Perm (other :: [p]) ∧
      ∀ x ∈ p :: [other], x.owner = p.owner ∧ x.name = p.name) ∧
    (∀ r args ty span n, args.length = 2 →
      SameOutcome ((Expr.choosing r [same, p] args ty span).lower cellContext n)
        ((Expr.choosing r [p, same] args ty span).lower cellContext n)) ∧
    ¬∀ r args ty span n, args.length = 2 →
      SameOutcome ((Expr.choosing r [other, p] args ty span).lower cellContext n)
        ((Expr.choosing r [p, other] args ty span).lower cellContext n) := by
  intro p same other
  have hone : ∀ names, ∀ x ∈ p :: [cell ⟨"String"⟩ names], x.owner = p.owner ∧ x.name = p.name := by
    simp [p, cell]
  refine ⟨⟨.swap .., hone _⟩, ⟨.swap .., hone _⟩, ?_, ?_⟩
  · exact (lowering_choosing (.swap ..) (hone _) cellContext 2).1.2 fun _ => by decide
  · intro hsame
    have hmeanings := (lowering_choosing (.swap ..) (hone _) cellContext 2).1.1 hsame
      fun _ _ => rfl
    exact absurd hmeanings (by decide)

end AssignmentLowering
