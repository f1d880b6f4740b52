import AssignmentLowering.Proofs.Lowering.Failure
import AssignmentLowering.Proofs.Target.Candidates

/-!
# Lowering candidates in another order

The candidates for an indexer are a set, written down in some order. Reading and assigning the
indexer come out alike in two orders as soon as the accessors in use refer to the same
arguments, or fail at the same point, by the parameters of the one first candidate and of the
other.

## Main definitions

* `Expr.choosing` — an indexer that is chosen among candidates.
* `SameOutcome` — the same output, or errors of the same kind.

## Main statements

* `sameOutcome_lower_choosing`, `sameOutcome_lowerAssignment_choosing` — reading and assigning
  in two orders.
-/

namespace AssignmentLowering

open Sequence (next capture push)

variable {cx : Context}

/-! ## Arguments by other names -/

section

variable {t : Target Operand} {names : List String} {value : Operand}

theorem readTarget_renamed (hread : t.ReadsAlike names) :
    readTarget cx (t.renamed names) = readTarget cx t := by
  unfold readTarget
  refine congrArg (sequenced _) (lowerAddress_bind_congr fun a ha => ?_)
  have hload : (t.renamed names).load cx.names (a.passed cx t.getter? 1) =
      t.load cx.names (a.passed cx t.getter? 1) :=
    Target.load_renamed hread ((length_passed ..).trans ha) cx.names
  simp only [Target.getter?_renamed, hload]
  rfl

theorem assignSimple_renamed (hwrite : t.WritesAlike names) (used : Bool) :
    assignSimple cx used (t.renamed names) value = assignSimple cx used t value := by
  have hcall : assignByCall cx used (t.renamed names) value = assignByCall cx used t value := by
    unfold assignByCall
    refine congrArg (sequenced _) (lowerAddress_bind_congr fun a ha => ?_)
    have hstore : ∀ stored, (t.renamed names).store cx.names (a.passed cx t.setter? 1) stored =
        t.store cx.names (a.passed cx t.setter? 1) stored := fun stored =>
      Target.store_renamed hwrite ((length_passed ..).trans ha) cx.names stored
    simp only [Target.setter?_renamed, hstore]
    rfl
  unfold assignSimple
  rw [hcall]
  rfl

theorem assignCompound_renamed (hread : t.ReadsAlike names) (hwrite : t.WritesAlike names)
    (used : Bool) (assignOp : AssignOp) (op : BinaryOp) (span : Span) :
    assignCompound cx used assignOp op (t.renamed names) value span =
      assignCompound cx used assignOp op t value span := by
  have hcall : compoundByCall cx used op (t.renamed names) value =
      compoundByCall cx used op t value := by
    unfold compoundByCall
    refine congrArg (sequenced _) (lowerAddress_bind_congr fun a ha => ?_)
    have hload : (t.renamed names).load cx.names (a.passed cx t.getter? 2) =
        t.load cx.names (a.passed cx t.getter? 2) :=
      Target.load_renamed hread ((length_passed ..).trans ha) cx.names
    have hstore : ∀ stored, (t.renamed names).store cx.names (a.passed cx t.setter? 2) stored =
        t.store cx.names (a.passed cx t.setter? 2) stored := fun stored =>
      Target.store_renamed hwrite ((length_passed ..).trans ha) cx.names stored
    simp only [Target.getter?_renamed, Target.setter?_renamed, hload, hstore]
    rfl
  unfold assignCompound
  rw [hcall]
  rfl

end

/-! ## Outcomes -/

/-- Two runs have the same outcome: the same result, or errors of the same kind. -/
inductive SameOutcome {α : Type} :
    EStateM.Result LoweringError Nat α → EStateM.Result LoweringError Nat α → Prop
  | ok (a : α) (n : Nat) : SameOutcome (.ok a n) (.ok a n)
  | error {e e' : LoweringError} {n n' : Nat} (h : e.code = e'.code) :
      SameOutcome (.error e n) (.error e' n')

namespace SameOutcome

variable {α : Type} {x y : LowerM α} {n : Nat}

theorem refl (r : EStateM.Result LoweringError Nat α) : SameOutcome r r := by
  cases r with
  | ok a n => exact .ok a n
  | error e n => exact .error rfl

theorem eq_of_ok {a : α} {n : Nat} {r : EStateM.Result LoweringError Nat α}
    (h : SameOutcome (.ok a n) r) : r = .ok a n := by
  cases h
  rfl

theorem of_code {c : ErrorCode} (hx : (failureAt x n).map LoweringError.code = some c)
    (hy : (failureAt y n).map LoweringError.code = some c) : SameOutcome (x n) (y n) := by
  unfold failureAt at hx hy
  cases hxn : x n with
  | ok a m => simp [hxn] at hx
  | error e m =>
    cases hyn : y n with
    | ok b m' => simp [hyn] at hy
    | error e' m' =>
      rw [hxn, Option.map_some, Option.some.injEq] at hx
      rw [hyn, Option.map_some, Option.some.injEq] at hy
      exact .error (hx.trans hy.symm)

theorem code_eq (h : SameOutcome (x n) (y n)) :
    (failureAt x n).map LoweringError.code = (failureAt y n).map LoweringError.code := by
  unfold failureAt
  generalize x n = r, y n = r' at h
  cases h with
  | ok a m => rfl
  | error hcode => exact congrArg some hcode

end SameOutcome

/-! ## Candidates in two orders -/

/-- The indexer that is chosen among the candidates `ps`. -/
def Expr.choosing (r : Receiver Expr) (ps : List Property) (args : List (Argument Expr))
    (ty : TypeRef) (span : Span) : Expr :=
  ⟨.place (.indexer r (.candidates ps) args ty), span⟩

section

variable {p q : Property} {ps qs : List Property} {r : Receiver Expr}
  {args : List (Argument Expr)} {ty : TypeRef} {span : Span} {t : Target Expr}

/-- What is known of the target of an indexer that is chosen among `p` and `others`. -/
structure Chosen (md : Metadata) (p : Property) (others : List Property)
    (args : List (Argument Expr)) (t : Target Expr) : Prop where
  property_eq : ∀ x ∈ others, md.property x = md.property p
  kind : t.kind = .indexer
  args_eq : t.args = IndexArg.inOrder Expr.ty (args.map (·.value))
  paramNames : t.paramNames = p.params.map (·.name)
  storage : (md.property p).storage? = some t.storage

theorem Chosen.of_target
    (ht : (Expr.choosing r (p :: ps) args ty span).target cx.metadata cx.enclosing = .ok t) :
    Chosen cx.metadata p ps args t := by
  have hplace : Target.ofPlace cx.metadata cx.enclosing Expr.ty span
      (.indexer r (.candidates (p :: ps)) args ty) = .ok t := ht
  have hall := Target.property_eq_of_ofPlace hplace
  cases Classified.of_ofPlace hplace with
  | candidates hstorage =>
    exact ⟨fun x hx => hall x (List.mem_cons_of_mem _ hx), by cases r <;> rfl, rfl, rfl, hstorage⟩

namespace Chosen

variable {md : Metadata} (h : Chosen md p ps args t)

include h

theorem length_args : t.args.length = args.length := by
  rw [h.args_eq]
  simp [IndexArg.inOrder]

/-- An indexer has accessors, those that it is bound to, or none. -/
theorem binding_cases :
    (∃ getter setter, t.getter? = some getter ∧ t.setter? = some setter ∧
      t.storage = .accessors getter setter ∧ md.binding p = .accessors getter setter) ∨
    (t.getter? = none ∧ t.setter? = none) := by
  have hstorage := h.storage
  unfold PropertyBinding.storage? at hstorage
  unfold Target.getter? Target.setter? Metadata.binding
  cases hb : (md.property p).normalized with
  | accessors getter setter =>
    rw [hb, Option.some.injEq] at hstorage
    rw [← hstorage]
    exact .inl ⟨getter, setter, rfl, rfl, rfl, rfl⟩
  | field name | subscript =>
    rw [hb, Option.some.injEq] at hstorage
    rw [← hstorage]
    exact .inr ⟨rfl, rfl⟩
  | unusable => simp [hb] at hstorage

end Chosen

omit cx in
/-- Reading a chosen indexer is finding its target and reading that. -/
theorem lower_choosing (cx : Context) (xs : List Property) :
    (Expr.choosing r xs args ty span).lower cx =
      liftExcept (((Expr.choosing r xs args ty span).target cx.metadata cx.enclosing).map
        (Target.map (Expr.operand cx))) >>= readTarget cx := by
  rw [Expr.lower_eq]
  exact lowerLoad_operand (.indexer r (.candidates xs) args ty) span

/-- The kind of error that reading a chosen indexer fails with. -/
theorem code_lower_choosing {xs : List Property} {getter : Accessor}
    (ht : (Expr.choosing r xs args ty span).target cx.metadata cx.enclosing = .ok t)
    (hkind : t.kind = .indexer) (hgetter : t.getter? = some getter) (n : Nat) :
    (failureAt ((Expr.choosing r xs args ty span).lower cx) n).map LoweringError.code =
      (((t.operands ++ t.omitted).findSome? (Expr.failure? cx)).map LoweringError.code).or
        (Target.faultCode? (getter.meanings? t.paramNames t.args.length false)) := by
  have hplace : Target.ofPlace cx.metadata cx.enclosing Expr.ty span
      (.indexer r (.candidates xs) args ty) = .ok t := ht
  rw [Expr.failureAt_lower, Expr.choosing, Expr.failure?_place fun ty hp => by cases hp]
  simp only [hplace, Option.map_or, Target.code_loadFailure? hkind hgetter]

/-- The kind of error that assigning a chosen indexer fails with. -/
theorem code_lowerAssignment_choosing {xs : List Property} {getter setter : Accessor}
    (ht : (Expr.choosing r xs args ty span).target cx.metadata cx.enclosing = .ok t)
    (hkind : t.kind = .indexer) (hstorage : t.storage = .accessors getter setter)
    (usage : Usage) (op : AssignOp) (value : Expr) (span' : Span) (n : Nat) :
    (failureAt (lowerAssignment cx usage ⟨Expr.choosing r xs args ty span, op, value⟩ span')
        n).map LoweringError.code =
      (((t.operands ++ t.omitted).findSome? (Expr.failure? cx)).map LoweringError.code).or
        ((Target.faultCode? (getter.oldMeanings? op t.paramNames t.args.length)).or
          (((value.failure? cx).map LoweringError.code).or
            (Target.faultCode? (setter.meanings? t.paramNames t.args.length true)))) := by
  have hgetter : t.getter? = some getter := by rw [Target.getter?, hstorage]; rfl
  have hsetter : t.setter? = some setter := by rw [Target.setter?, hstorage]; rfl
  have hnative : t.isNative = false := by simp [Target.isNative, hkind, hstorage]
  have hreceiver : t.isReceiver = false := by simp [Target.isReceiver, hkind]
  rw [failureAt_lowerAssignment, Expr.failure?_assign]
  simp only [ht, Except.map, Target.assignFailure?, Target.operandsFailure?_annotate,
    Target.loadFailure?_map, Target.storeFailure?_map, Target.isReceiver_map,
    Target.isNative_map, hnative, hreceiver]
  cases hop : op.binary? with
  | none =>
    simp [getter.oldMeanings?_of_none hop, Option.map_or, Target.code_storeFailure? hkind hsetter,
      Target.faultCode?]
  | some binary =>
    simp [getter.oldMeanings?_of_some hop, Option.map_or, Target.code_storeFailure? hkind hsetter,
      Target.code_loadFailure? hkind hgetter]

section

variable (hperm : (p :: ps).Perm (q :: qs))
  (hone : ∀ x ∈ p :: ps, x.owner = p.owner ∧ x.name = p.name)

include hperm hone

/-- The indexer is the same target in both orders, but for the names of its arguments. -/
theorem target_choosing :
    (Expr.choosing r (q :: qs) args ty span).target cx.metadata cx.enclosing =
      ((Expr.choosing r (p :: ps) args ty span).target cx.metadata cx.enclosing).map
        (Target.renamed (q.params.map (·.name))) := by
  have hplace : Target.ofPlace cx.metadata cx.enclosing Expr.ty span
      (.indexer r (.candidates (q :: qs)) args ty) = _ := Target.ofPlace_candidates hperm hone
  exact hplace

omit hone in
/-- Candidates that are bound alike are so in either order. -/
theorem binding_eq_of_property_eq
    (hproperty : ∀ x ∈ ps, cx.metadata.property x = cx.metadata.property p) :
    cx.metadata.binding q = cx.metadata.binding p := by
  obtain rfl | hq := List.mem_cons.1 (hperm.mem_iff.2 List.mem_cons_self : q ∈ p :: ps)
  · rfl
  · exact congrArg PropertyBinding.normalized (hproperty q hq)

/-- The indexer is read by the same script in both orders if the getter refers to the same. -/
theorem lower_choosing_eq
    (ht : (Expr.choosing r (p :: ps) args ty span).target cx.metadata cx.enclosing = .ok t)
    (hread : t.ReadsAlike (q.params.map (·.name))) :
    (Expr.choosing r (q :: qs) args ty span).lower cx =
      (Expr.choosing r (p :: ps) args ty span).lower cx := by
  rw [lower_choosing, lower_choosing, target_choosing hperm hone, ht]
  exact readTarget_renamed (t := t.map (Expr.operand cx)) ((Target.readsAlike_map _).2 hread)

/-- It is assigned by the same script if the setter refers to the same, and the getter, where
the operator asks for the old value. -/
theorem lowerAssignment_choosing_eq
    (ht : (Expr.choosing r (p :: ps) args ty span).target cx.metadata cx.enclosing = .ok t)
    {op : AssignOp} (hread : op.binary?.isSome → t.ReadsAlike (q.params.map (·.name)))
    (hwrite : t.WritesAlike (q.params.map (·.name))) (usage : Usage) (value : Expr)
    (span' : Span) :
    lowerAssignment cx usage ⟨Expr.choosing r (q :: qs) args ty span, op, value⟩ span' =
      lowerAssignment cx usage ⟨Expr.choosing r (p :: ps) args ty span, op, value⟩ span' := by
  unfold lowerAssignment lowerAssignmentOf
  simp only [Assignment.map, target_operand]
  rw [target_choosing hperm hone, ht]
  have hwrite' := (Target.writesAlike_map (Expr.operand cx)).2 hwrite
  cases hop : op.binary? with
  | none => exact assignSimple_renamed hwrite' usage.isUsed
  | some binary =>
    exact assignCompound_renamed ((Target.readsAlike_map _).2 (hread (by simp [hop])))
      hwrite' usage.isUsed op binary span'

/-- The indexer is read alike in two orders if its getter refers to the same arguments by
the parameters of the two first candidates. -/
theorem sameOutcome_lower_choosing
    (h : (∀ x ∈ ps, cx.metadata.property x = cx.metadata.property p) →
      cx.metadata.readMeanings? args.length q = cx.metadata.readMeanings? args.length p)
    (n : Nat) :
    SameOutcome ((Expr.choosing r (q :: qs) args ty span).lower cx n)
      ((Expr.choosing r (p :: ps) args ty span).lower cx n) := by
  have htarget : (Expr.choosing r (q :: qs) args ty span).target cx.metadata cx.enclosing = _ :=
    target_choosing hperm hone
  cases ht : (Expr.choosing r (p :: ps) args ty span).target cx.metadata cx.enclosing with
  | error e =>
    rw [lower_choosing, lower_choosing, htarget, ht]
    exact .refl _
  | ok t =>
    rw [ht] at htarget
    have hchosen := Chosen.of_target ht
    have hbinding := binding_eq_of_property_eq hperm hchosen.property_eq
    have hread := h hchosen.property_eq
    obtain ⟨getter, setter, hgetter, -, -, hb⟩ | ⟨hnone, -⟩ := hchosen.binding_cases
    · simp only [Metadata.readMeanings?, hbinding, hb] at hread
      rw [← hchosen.length_args, ← hchosen.paramNames] at hread
      cases hm : getter.meanings? t.paramNames t.args.length false with
      | none =>
        have hcode := code_lower_choosing ht hchosen.kind hgetter n
        have hcode' := code_lower_choosing htarget hchosen.kind hgetter n
        rw [hm] at hcode hread
        rw [Target.paramNames_renamed, Target.args_renamed, hread] at hcode'
        exact .of_code (hcode'.trans Option.or_some) (hcode.trans Option.or_some)
      | some ms =>
        rw [lower_choosing_eq hperm hone ht fun g hg => ?_]
        · exact .refl _
        · cases hgetter.symm.trans hg
          exact ⟨by simp [hm], hread⟩
    · rw [lower_choosing_eq hperm hone ht fun g hg => by simp [hnone] at hg]
      exact .refl _

/-- The indexer is assigned alike in two orders if the accessors in use refer to the same
arguments by the parameters of the two first candidates, or stop at the same one. -/
theorem sameOutcome_lowerAssignment_choosing {op : AssignOp}
    (h : (∀ x ∈ ps, cx.metadata.property x = cx.metadata.property p) →
      cx.metadata.assignMeanings? op args.length q =
        cx.metadata.assignMeanings? op args.length p)
    (usage : Usage) (value : Expr) (span' : Span) (n : Nat) :
    SameOutcome
      (lowerAssignment cx usage ⟨Expr.choosing r (q :: qs) args ty span, op, value⟩ span' n)
      (lowerAssignment cx usage ⟨Expr.choosing r (p :: ps) args ty span, op, value⟩ span' n) := by
  have htarget : (Expr.choosing r (q :: qs) args ty span).target cx.metadata cx.enclosing = _ :=
    target_choosing hperm hone
  cases ht : (Expr.choosing r (p :: ps) args ty span).target cx.metadata cx.enclosing with
  | error e =>
    unfold lowerAssignment lowerAssignmentOf
    simp only [Assignment.map, target_operand]
    rw [htarget, ht]
    exact .refl _
  | ok t =>
    rw [ht] at htarget
    have hchosen := Chosen.of_target ht
    have hbinding := binding_eq_of_property_eq hperm hchosen.property_eq
    have hassign := h hchosen.property_eq
    obtain ⟨getter, setter, hgetter, hsetter, hstorage, hb⟩ | ⟨hget, hset⟩ :=
      hchosen.binding_cases
    · have hcode := code_lowerAssignment_choosing ht hchosen.kind hstorage usage op value span' n
      have hcode' := code_lowerAssignment_choosing htarget hchosen.kind hstorage usage op value
        span' n
      simp only [Metadata.assignMeanings?, hbinding, hb] at hassign
      rw [← hchosen.length_args, ← hchosen.paramNames, Metadata.map_map_prod_eq_iff] at hassign
      rw [Target.paramNames_renamed, Target.args_renamed] at hcode'
      obtain ⟨hr, hr'⟩ | ⟨hr, hr', hw, hw'⟩ | ⟨⟨ms, hr, hr'⟩, ws, hw, hw'⟩ := hassign
      · rw [hr] at hcode
        rw [hr'] at hcode'
        exact .of_code (hcode'.trans Option.or_some) (hcode.trans Option.or_some)
      · obtain ⟨ms, hms⟩ := Option.isSome_iff_exists.1 hr
        obtain ⟨ms', hms'⟩ := Option.isSome_iff_exists.1 hr'
        rw [hms, hw] at hcode
        rw [hms', hw'] at hcode'
        simp only [Target.faultCode?, Option.or_some] at hcode hcode'
        exact .of_code hcode' hcode
      · rw [lowerAssignment_choosing_eq hperm hone ht (fun hop g hg => ?_) fun s hs => ?_]
        · exact .refl _
        · cases hgetter.symm.trans hg
          obtain ⟨binary, hbinary⟩ := Option.isSome_iff_exists.1 hop
          rw [getter.oldMeanings?_of_some hbinary] at hr hr'
          exact ⟨by simp [hr], hr'.trans hr.symm⟩
        · cases hsetter.symm.trans hs
          exact ⟨by simp [hw], hw'.trans hw.symm⟩
    · rw [lowerAssignment_choosing_eq hperm hone ht (fun _ g hg => by simp [hget] at hg)
        fun s hs => by simp [hset] at hs]
      exact .refl _

omit hone in
/-- Whether evaluating the indexer may be noticed is told alike in both orders. -/
theorem hasEffects_choosing
    (ht : (Expr.choosing r (p :: ps) args ty span).target cx.metadata cx.enclosing = .ok t) :
    (Expr.choosing r (q :: qs) args ty span).hasEffects cx.metadata =
      (Expr.choosing r (p :: ps) args ty span).hasEffects cx.metadata := by
  have hsubscript : (.candidates (q :: qs) : IndexerTarget Expr).isSubscript cx.metadata =
      (.candidates (p :: ps) : IndexerTarget Expr).isSubscript cx.metadata := by
    rw [IndexerTarget.isSubscript, IndexerTarget.isSubscript, List.head?_cons, List.head?_cons,
      Option.any_some, Option.any_some,
      binding_eq_of_property_eq hperm (Chosen.of_target ht).property_eq]
  rw [Expr.hasEffects_eq, Expr.hasEffects_eq]
  simp only [Expr.choosing, Form.hasEffects, Place.runsCode, hsubscript]
  rfl

end

end

end AssignmentLowering
