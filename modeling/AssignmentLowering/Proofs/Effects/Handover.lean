import AssignmentLowering.Proofs.Effects.Access
import AssignmentLowering.Proofs.Effects.Moment
import AssignmentLowering.Proofs.Lowering.Sample

/-!
# Handing operands over

Operands are evaluated in one order and handed over in another: what has to be run before
a value comes first, for all operands in the order of the text, and then the values are
handed over in the order in which the parameters are declared. A copy that is due is made
where the value is handed over.

## Main definitions

* `Shares` — what operands are lowered to.
* `Handover`, `Handover.Of` — how they are handed over, each once.
* `Handover.CopiesFirst` — a copy is made before later operands have effects.

## Main statements

* `Handover.Runs.exists_copy` — which effects come before a copy.
* `Handover.copiesFirst_iff_quiet` — when no effect of a later operand is among them.
* `Addressed.handover` — accessors are handed the operands of their target.
-/

namespace AssignmentLowering

open Script (Stmt Moment)

variable {cx : Context}

/-! ## Handing operands over -/

/-- What operands were lowered to, one after the other. The setter of a compound assignment
is handed the old value combined with the right operand, which counts as the lowering of
this operand. -/
inductive Shares (cx : Context) : List Expr → List Lowered → Prop
  | nil : Shares cx [] []
  | cons {c : Capture} {later os : List Expr} {o : Expr} {n n' : Nat} {v : Value}
      {stmts : List Stmt} {ws : List Lowered} (hhead : Taken cx c later o n v stmts n')
      (hrest : Shares cx os ws) : Shares cx (o :: os) ({ v with stmts } :: ws)
  | combined {t : Target Expr} {a : Address} {op : BinaryOp} {load old new : Script.Expr}
      {flag flag' : Bool} {o : Expr} {n n₁ n₂ n₃ : Nat} {v : Value}
      {stmts₁ stmts₂ stmts₃ : List Stmt} (hload : t.load cx.names a = .ok load)
      (hold : Held cx load n flag old stmts₁ n₁) (hvalue : Taken cx {} [] o n₁ v stmts₂ n₂)
      (hnew : Held cx (.binary op old v.expr) n₂ flag' new stmts₃ n₃) :
      Shares cx [o] [{ expr := new, fresh := true, stable := true,
                       stmts := stmts₁ ++ stmts₂ ++ stmts₃ }]

/-- Operands on their way to where they are handed over. -/
structure Handover where
  /-- What they were lowered to, in the order in which they are evaluated. -/
  shares : List Lowered
  /-- What is handed over, in this order, and of which of the operands it is. -/
  handed : List (Script.Expr × Nat)

/-- What is handed over of an operand: its value, as a copy if it is handed over at a type
that asks for one. -/
def Handover.Gives (cx : Context) (ws : List Lowered) (x : Script.Expr × Nat)
    (ty? : Option TypeRef) : Prop :=
  ∃ w, ws[x.2]? = some w ∧
    match ty? with
    | none => x.1 = w.expr
    | some ty => ∃ uses, x.1 = cx.copied ty w.fresh uses w.expr

/-- Script that hands operands over: it evaluates them in their order and then comes to its
effect, or it is text made from them, and they have no effects of their own. -/
inductive Handover.Runs (names : RuntimeNames) (h : Handover) : Script.Expr → Prop
  | call {e : Script.Expr} {label : Label} {args : List Script.Expr}
      (hmoments : e.moments names =
        h.handed.flatMap (·.1.moments names) ++ [.effect ⟨label, args⟩])
      (hargs : args <:+ h.handed.map (·.1)) : Runs names h e
  | code {text : String} (hquiet : ∀ x ∈ h.handed, x.1.events names = []) :
      Runs names h (.verbatim text)

/-- How the operands `os` are handed over at the types `tys` by `call`, behind `stmts`. -/
structure Handover.Of (cx : Context) (os : List Expr) (tys : List (Option TypeRef))
    (stmts : List Stmt) (call : Script.Expr) (h : Handover) : Prop where
  operands : Shares cx os h.shares
  stmts_eq : stmts = h.shares.flatMap (·.stmts)
  once : (h.handed.map (·.2)).Perm (List.range os.length)
  gives : List.Forall₂ (Handover.Gives cx h.shares) h.handed tys
  runs : h.Runs cx.names call

namespace Handover

/-- The effects that come before the copy at `d` in the order of handing over, each with
its operand. -/
def before (names : RuntimeNames) (h : Handover) (d : Nat) : List (Event Script.Expr × Nat) :=
  h.shares.zipIdx.flatMap (fun w => (Script.events names w.1.stmts).map (·, w.2)) ++
    (h.handed.take (d + 1)).flatMap fun x => (x.1.events names).map (·, x.2)

/-- Whether the copy at `d`, of the operand `i`, comes before all effects of later operands. -/
def CopiesFirst (names : RuntimeNames) (h : Handover) (d i : Nat) : Prop :=
  ∀ x ∈ h.before names d, x.2 ≤ i

/-- Whether a copy of `e` is made at a moment. Text makes the copies in it at its own
moment. -/
inductive Makes (e : Script.Expr) : Moment → Prop
  | copy : Makes e (.copy e)
  | code {text : String} : Makes e (.effect ⟨.code text, []⟩)

variable {names : RuntimeNames} {h : Handover} {d i : Nat} {x : Script.Expr} {tag : String}

theorem map_fst_before : (h.before names d).map (·.1) =
    Script.events names (h.shares.flatMap (·.stmts)) ++
      (h.handed.take (d + 1)).flatMap (·.1.events names) := by
  have hfst : ∀ (ws : List Lowered) (k : Nat),
      ((ws.zipIdx k).flatMap fun w => Script.events names w.1.stmts) =
        Script.events names (ws.flatMap (·.stmts)) := by
    intro ws
    induction ws with
    | nil => intro k; rfl
    | cons w ws ih => intro k; simp [ih]
  simp [before, List.map_flatMap, Function.comp_def, hfst]

/-- Of what is handed over, the part up to a copy. -/
theorem take_succ_of_getElem? (hd : h.handed[d]? = some (clone names x tag, i)) :
    h.handed.take (d + 1) = h.handed.take d ++ [(clone names x tag, i)] := by
  rw [List.take_add_one, hd]
  rfl

/-- The copy is made when the effects before it are done. -/
theorem Runs.exists_copy {stmts : List Stmt} {call : Script.Expr} (hruns : h.Runs names call)
    (hstmts : stmts = h.shares.flatMap (·.stmts))
    (hd : h.handed[d]? = some (clone names x tag, i)) :
    ∃ front copy behind,
      Script.moments names stmts ++ call.moments names = front ++ copy :: behind ∧
        Makes x copy ∧ front.filterMap Moment.effect? = (h.before names d).map (·.1) := by
  subst hstmts
  rw [map_fst_before, take_succ_of_getElem? hd]
  cases hruns with
  | @call _ label args hmoments _ =>
    obtain ⟨hlt, hget⟩ := List.getElem?_eq_some_iff.1 hd
    have hsplit : h.handed =
        h.handed.take d ++ (clone names x tag, i) :: h.handed.drop (d + 1) := by
      rw [← hget, ← List.drop_eq_getElem_cons hlt, List.take_append_drop]
    refine ⟨Script.moments names (h.shares.flatMap (·.stmts)) ++
        (h.handed.take d).flatMap (·.1.moments names) ++ x.moments names, .copy x,
      (h.handed.drop (d + 1)).flatMap (·.1.moments names) ++ [.effect ⟨label, args⟩], ?_, .copy, ?_⟩
    · rw [hmoments]
      conv_lhs => rw [hsplit]
      simp
    · simp [Script.effects_moments, Script.Expr.effects_moments, List.filterMap_flatMap]
  | @code text hquiet =>
    refine ⟨Script.moments names (h.shares.flatMap (·.stmts)), .effect ⟨.code text, []⟩, [], rfl,
      .code, ?_⟩
    have hnone : (h.handed.take (d + 1)).flatMap (·.1.events names) = [] :=
      List.flatMap_eq_nil_iff.2 fun y hy => hquiet y (List.mem_of_mem_take hy)
    rw [← take_succ_of_getElem? hd, hnone, List.append_nil, Script.effects_moments]

/-- The copy of an operand comes before all effects of later ones if and only if these have
no effects in their statements, nor those handed over before it in their values. -/
theorem copiesFirst_iff_quiet (hd : h.handed[d]? = some (clone names x tag, i)) :
    h.CopiesFirst names d i ↔
      (∀ j w, i < j → h.shares[j]? = some w → Script.events names w.stmts = []) ∧
        ∀ y ∈ h.handed.take d, i < y.2 → y.1.events names = [] := by
  unfold CopiesFirst before
  rw [take_succ_of_getElem? hd]
  constructor
  · intro hfirst
    refine ⟨fun j w hj hw => ?_, fun y hy hi => ?_⟩
    · refine List.eq_nil_iff_forall_not_mem.2 fun e he => ?_
      have hmem : (w, j) ∈ h.shares.zipIdx := List.mem_zipIdx_iff_getElem?.2 hw
      have hle := hfirst (e, j) (List.mem_append_left _
        (List.mem_flatMap.2 ⟨_, hmem, List.mem_map_of_mem he⟩))
      dsimp only at hle
      omega
    · refine List.eq_nil_iff_forall_not_mem.2 fun e he => ?_
      have hle := hfirst (e, y.2) (List.mem_append_right _ (List.mem_flatMap.2
        ⟨y, List.mem_append_left _ hy, List.mem_map_of_mem he⟩))
      dsimp only at hle
      omega
  · rintro ⟨hstmts, hvalues⟩ e he
    by_contra hlater
    obtain he | he := List.mem_append.1 he
    · obtain ⟨w, hw, he⟩ := List.mem_flatMap.1 he
      obtain ⟨ev, hev, rfl⟩ := List.mem_map.1 he
      rw [hstmts w.2 w.1 (by omega) (List.mem_zipIdx_iff_getElem?.1 hw)] at hev
      cases hev
    · obtain ⟨y, hy, he⟩ := List.mem_flatMap.1 he
      obtain ⟨ev, hev, rfl⟩ := List.mem_map.1 he
      obtain hy | hy := List.mem_append.1 hy
      · rw [hvalues y hy (by omega)] at hev
        cases hev
      · obtain rfl := List.mem_singleton.1 hy
        exact hlater le_rfl

end Handover

/-! ## Operands and what they are lowered to -/

section

variable {rest os os' : List Expr} {ws : List Lowered} {n n' : Nat} {stmts : List Stmt}

theorem TakenAll.shares {items : List (Capture × Expr)} {vs : List Value}
    (h : TakenAll cx rest items n vs stmts n') (hws : Shares cx os ws) :
    ∃ ws', Shares cx (items.map (·.2) ++ os) (ws' ++ ws) ∧ ws'.map (·.toValue) = vs ∧
      stmts = ws'.flatMap (·.stmts) := by
  induction h with
  | nil => exact ⟨[], hws, rfl, rfl⟩
  | cons hhead _ ih =>
    obtain ⟨ws', hshares, rfl, rfl⟩ := ih
    exact ⟨_ :: ws', .cons hhead hshares, rfl, rfl⟩

theorem Asides.shares {reuse : Bool} {ds : List Value}
    (h : Asides cx reuse os' n ds stmts n') (hws : Shares cx os ws) :
    ∃ ws', Shares cx (os' ++ os) (ws' ++ ws) ∧ ws'.map (·.toValue) = ds ∧
      stmts = ws'.flatMap (·.stmts) := by
  induction h with
  | nil => exact ⟨[], hws, rfl, rfl⟩
  | cons hhead _ ih =>
    obtain ⟨ws', hshares, rfl, rfl⟩ := ih
    exact ⟨_ :: ws', .cons hhead hshares, rfl, rfl⟩

theorem Shares.length_eq (h : Shares cx os ws) : ws.length = os.length := by
  induction h with
  | nil => rfl
  | cons _ _ ih => simp [ih]
  | combined => rfl

/-- An operand with others behind it was lowered in its turn. -/
theorem Shares.taken (h : Shares cx os ws) {i : Nat} {o : Expr} (ho : os[i]? = some o)
    (hi : i + 1 < os.length) :
    ∃ c later n v stmts n', Taken cx c later o n v stmts n' ∧ ws[i]? = some { v with stmts } := by
  induction h generalizing i with
  | nil => cases ho
  | cons hhead _ ih =>
    cases i with
    | zero =>
      cases ho
      exact ⟨_, _, _, _, _, _, hhead, rfl⟩
    | succ i => exact ih ho (by simpa using hi)
  | combined => simp at hi

end

/-- Of which of the operands each argument is, in declared order. The written arguments come
behind `k` others, in the order of the text, and the defaults come from `next` on. -/
def placesOf (k : Nat) : Nat → List (IndexArg Expr) → List Nat
  | _, [] => []
  | next, a :: args =>
    match a.position with
    | some i => (k + i) :: placesOf k next args
    | none => next :: placesOf k (next + 1) args

/-- The arguments are of the written operands and of the defaults. -/
theorem placesOf_perm (k : Nat) (args : List (IndexArg Expr)) :
    ∀ next, (placesOf k next args).Perm
      ((args.filterMap (·.position)).map (k + ·) ++ List.range' next (omittedOf args).length) := by
  induction args with
  | nil => intro next; exact .nil
  | cons a args ih =>
    intro next
    cases hposition : a.position with
    | some i =>
      simpa [placesOf, omittedOf, hposition] using ih next
    | none =>
      simp only [placesOf, hposition, omittedOf, List.filterMap_cons, List.filter_cons,
        Option.isNone_none, if_true, List.map_cons, List.length_cons, List.range'_succ]
      exact ((ih (next + 1)).cons next).trans List.perm_middle.symm

/-- Each argument is the value of the operand in its place. -/
theorem Filled.places {reuse : Bool} {vs : List Value} {args : List (IndexArg Expr)} {n n' : Nat}
    {xs : List IndexValue} {stmts : List Stmt} (h : Filled cx reuse vs args n xs stmts n') :
    ∃ ds, Asides cx reuse (omittedOf args) n ds stmts n' ∧ ∀ objects seen : List Value,
      List.Forall₂ (fun (x : IndexValue) i => ∃ v, (objects ++ vs ++ seen ++ ds)[i]? = some v ∧
          x.expr = v.expr ∧ x.fresh = v.fresh)
        xs (placesOf objects.length (objects ++ vs ++ seen).length args) := by
  induction h with
  | nil => exact ⟨[], .nil, fun _ _ => .nil⟩
  | @written a args i _ _ v xs _ hposition hvalue _ ih =>
    obtain ⟨ds, hasides, hxs⟩ := ih
    refine ⟨ds, by simpa [omittedOf, hposition] using hasides, fun objects seen => ?_⟩
    simp only [placesOf, hposition]
    refine .cons ⟨v, ?_, rfl, rfl⟩ (hxs objects seen)
    obtain ⟨hi, -⟩ := List.getElem?_eq_some_iff.1 hvalue
    rw [List.append_assoc, List.append_assoc, List.getElem?_append_right (by omega),
      List.getElem?_append_left (by omega), Nat.add_sub_cancel_left, hvalue]
  | @omitted a args _ _ _ v xs _ _ hposition htaken _ ih =>
    obtain ⟨ds, hasides, hxs⟩ := ih
    refine ⟨v :: ds, ?_, fun objects seen => ?_⟩
    · simpa [omittedOf, hposition] using Asides.cons htaken hasides
    · simp only [placesOf, hposition]
      have htail := hxs objects (seen ++ [v])
      simp only [← List.append_assoc, List.length_append, List.length_singleton] at htail
      refine .cons ⟨v, by simp, rfl, rfl⟩ ?_
      simpa [List.append_assoc, Nat.add_assoc] using htail

/-! ## Handing over to accessors -/

theorem Handover.Gives.append {ws : List Lowered} {x : Script.Expr × Nat} {ty? : Option TypeRef}
    (h : Gives cx ws x ty?) (ws' : List Lowered) : Gives cx (ws ++ ws') x ty? := by
  obtain ⟨w, hw, hx⟩ := h
  obtain ⟨hi, -⟩ := List.getElem?_eq_some_iff.1 hw
  exact ⟨w, by rw [List.getElem?_append_left hi, hw], hx⟩

/-- The types that the operands of a target are handed over at. -/
def Target.handedTypes (t : Target Expr) : List (Option TypeRef) :=
  t.receiver.toList.map (fun _ => none) ++ (t.args.map (·.ty)).map some

/-- Of which of the operands the arguments of a target are. -/
def Target.places (t : Target Expr) : List Nat :=
  placesOf t.receiver.toList.length t.operands.length t.args

/-- A target's operands are handed over each once. -/
theorem Target.places_perm {t : Target Expr} {indices : List Expr} (ht : Arranges t.args indices) :
    (List.range t.receiver.toList.length ++ t.places).Perm
      (List.range (t.operands ++ t.omitted).length) := by
  have hsite := congrArg List.length (Target.map_snd_callSite ht)
  have hlen : t.operands.length = t.receiver.toList.length + indices.length := by
    simp only [List.length_map] at hsite
    simp [Target.operands, hsite]
  have hwritten : ((t.args.filterMap (·.position)).map (t.receiver.toList.length + ·)).Perm
      (List.range' t.receiver.toList.length indices.length) := by
    rw [List.range'_eq_map_range]
    exact ht.positions.map _
  unfold Target.places
  rw [List.length_append, hlen]
  have hplaces := (placesOf_perm t.receiver.toList.length t.args
    (t.receiver.toList.length + indices.length)).trans (hwritten.append_right _)
  rw [List.range'_append_1] at hplaces
  have hsplit := @List.range'_append_1 0 t.receiver.toList.length
    (indices.length + t.omitted.length)
  rw [Nat.zero_add, ← Nat.add_assoc, ← List.range_eq_range', ← List.range_eq_range'] at hsplit
  rw [← hsplit]
  simpa [Target.omitted] using hplaces.append_left _

/-- The operands of a target, with what they are lowered to. -/
theorem Addressed.shares {reuse : Bool} {rest os : List Expr} {t : Target Expr} {n n' : Nat}
    {a : LoweredAddress} {stmts : List Stmt} {ws : List Lowered}
    (h : Addressed cx reuse rest t n a stmts n') (hws : Shares cx os ws) :
    ∃ ws', Shares cx (t.operands ++ t.omitted ++ os) (ws' ++ ws) ∧
      ws'.length = (t.operands ++ t.omitted).length ∧ stmts = ws'.flatMap (·.stmts) ∧
      List.Forall₂ (Handover.Gives cx ws') a.object.toList.zipIdx
        (t.receiver.toList.map fun _ => none) ∧
      List.Forall₂ (fun (x : IndexValue) i => ∃ w, ws'[i]? = some w ∧ x.expr = w.expr ∧
        x.fresh = w.fresh) a.args t.places := by
  cases h with
  | @intro objects vs xs stmts₁ stmts₂ m _ htaken hobjects hfilled =>
    obtain ⟨ds, hasides, hxs⟩ := hfilled.places
    obtain ⟨wd, hshares, rfl, rfl⟩ := hasides.shares hws
    obtain ⟨wv, hshares, hwv, rfl⟩ := htaken.shares hshares
    have hall : Shares cx (t.operands ++ t.omitted ++ os) ((wv ++ wd) ++ ws) := by
      simpa [Target.omitted] using hshares
    have hcount := htaken.length_operands
    have hvalues : (wv ++ wd).map (·.toValue) = objects ++ vs ++ wd.map (·.toValue) := by
      rw [List.map_append, hwv]
    have hget : ∀ {i : Nat} {v : Value}, (objects ++ vs ++ wd.map (·.toValue))[i]? = some v →
        ∃ w : Lowered, (wv ++ wd)[i]? = some w ∧ w.toValue = v := by
      intro i v hv
      rw [← hvalues, List.getElem?_map] at hv
      simpa using hv
    refine ⟨wv ++ wd, hall, ?_, by simp, ?_, ?_⟩
    · have hlen := hall.length_eq
      simp only [List.length_append, hws.length_eq] at hlen ⊢
      omega
    · cases hr : t.receiver with
      | none =>
        rw [hr, Option.toList_none, List.length_nil, List.length_eq_zero_iff] at hobjects
        subst hobjects
        exact .nil
      | some e =>
        rw [hr, Option.toList_some, List.length_singleton, List.length_eq_one_iff] at hobjects
        obtain ⟨v, rfl⟩ := hobjects
        have hfirst : ([v] ++ vs ++ wd.map (·.toValue))[0]? = some v := rfl
        obtain ⟨w, hw, rfl⟩ := hget hfirst
        exact .cons ⟨w, hw, rfl⟩ .nil
    · have hplaces := hxs objects []
      rw [List.append_nil, hcount, hobjects] at hplaces
      refine hplaces.imp fun x i hx => ?_
      obtain ⟨v, hv, hexpr, hfresh⟩ := hx
      obtain ⟨w, hw, rfl⟩ := hget hv
      exact ⟨w, hw, hexpr, hfresh⟩

theorem Target.moments_object {names : RuntimeNames} (t : Target Expr) (a : Address) :
    (t.object a).moments names = a.object.toList.flatMap (Script.Expr.moments names) := by
  unfold object
  cases a.object with
  | some e => simp
  | none => cases t.staticOwner <;> simp [Script.Expr.moments]

/-- An accessor that runs code is handed the operands of the target and the value. -/
theorem Target.runs_useAccessor {names : RuntimeNames} (hnames : names.Separated)
    {t : Target Expr} {a : Address} (hbound : ∀ d, t.dispatch = .bound d → a.object = none)
    {value : Option Script.Expr} {accessor : Accessor} (hcode : accessor.runsCode = true)
    (hinline : accessor.isInline = true →
      a.events names = [] ∧ value.toList.flatMap (Script.Expr.events names) = [])
    {e : Script.Expr} (he : t.useAccessor names a value accessor = .ok e) {h : Handover}
    (hhanded : h.handed.map (·.1) = a.object.toList ++ (a.args ++ value.toList)) :
    h.Runs names e := by
  have hargs : a.args ++ value.toList <:+ h.handed.map (·.1) := hhanded ▸ List.suffix_append ..
  have hmoments : h.handed.flatMap (·.1.moments names) =
      a.object.toList.flatMap (Script.Expr.moments names) ++
        (a.args ++ value.toList).flatMap (Script.Expr.moments names) := by
    rw [← List.flatMap_map, hhanded, List.flatMap_append]
  cases accessor with
  | method name =>
    simp only [useAccessor] at he
    cases hd : t.dispatch with
    | dynamic =>
      simp only [hd, Except.ok.injEq] at he
      subst he
      have hcall :
          (Script.Expr.callMethod (t.object a) name (a.args ++ value.toList)).moments names =
          h.handed.flatMap (·.1.moments names) ++
            [.effect ⟨.call name, a.args ++ value.toList⟩] := by
        rw [hmoments, Script.Expr.moments_callMethod, moments_object]
      exact .call hcall hargs
    | bound declaring =>
      simp only [hd, Except.ok.injEq] at he
      subst he
      have hcall : (callBase names declaring name (a.args ++ value.toList)).moments names =
          h.handed.flatMap (·.1.moments names) ++
            [.effect ⟨.baseCall declaring.name name, a.args ++ value.toList⟩] := by
        rw [hmoments, Script.Expr.moments_callBase hnames, hbound declaring hd]
        rfl
      exact .call hcall hargs
  | inline template =>
    obtain ⟨haddress, hvalue⟩ := hinline rfl
    simp only [useAccessor] at he
    cases htext : Template.substitute template t.span (t.operand? a value) with
    | error err => simp [htext, Except.map] at he
    | ok text =>
      simp only [htext, Except.map, Except.ok.injEq] at he
      subst he
      have hquiet : (h.handed.map (·.1)).flatMap (Script.Expr.events names) = [] := by
        rw [hhanded, ← List.append_assoc, List.flatMap_append, hvalue, List.append_nil]
        simpa [Address.events] using haddress
      rw [List.flatMap_map, List.flatMap_eq_nil_iff] at hquiet
      exact .code hquiet
  | subscript => cases hcode

theorem gives_passed {ws : List Lowered} {xs : List IndexValue} {is : List Nat} (uses : Nat)
    (h : List.Forall₂ (fun (x : IndexValue) i => ∃ w, ws[i]? = some w ∧ x.expr = w.expr ∧
      x.fresh = w.fresh) xs is) :
    List.Forall₂ (Handover.Gives cx ws)
      ((xs.map fun v => cx.copied v.ty v.fresh uses v.expr).zip is)
      ((xs.map (·.ty)).map some) := by
  induction h with
  | nil => exact .nil
  | cons hhead _ ih =>
    obtain ⟨w, hw, hexpr, hfresh⟩ := hhead
    refine .cons ⟨w, hw, uses, ?_⟩ ih
    rw [← hexpr, ← hfresh]

/-- The use of an accessor that runs code hands over the operands of the target, and behind
them the value if there is one. -/
theorem Addressed.handover (hnames : cx.names.Separated) {reuse : Bool} {rest os : List Expr}
    {t : Target Expr} {n n' uses : Nat} {a : LoweredAddress} {stmts : List Stmt}
    {ws : List Lowered} {indices : List Expr} (hw : t.WellFormed) (ht : Arranges t.args indices)
    (h : Addressed cx reuse rest t n a stmts n') {accessor : Accessor}
    (hcode : accessor.runsCode = true) {value : Option Script.Expr}
    (hinline : accessor.isInline = true →
      reuse = true ∧ value.toList.flatMap (Script.Expr.events cx.names) = [])
    {tys : List (Option TypeRef)} (hws : Shares cx os ws)
    (hvalue : List.Forall₂ (fun e ty? => ∀ ws', Handover.Gives cx (ws' ++ ws) (e, ws'.length) ty?)
      value.toList tys)
    (hone : os.length = value.toList.length) {call : Script.Expr}
    (hcall : t.useAccessor cx.names (a.passed cx (some accessor) uses) value accessor = .ok call) :
    ∃ H : Handover, H.Of cx (t.operands ++ t.omitted ++ os) (t.handedTypes ++ tys)
      (stmts ++ ws.flatMap (·.stmts)) call := by
  obtain ⟨ws', hshares, hlen, rfl, hobject, hargs⟩ := h.shares hws
  have hfits := h.fits_passed (some accessor) uses
  have hpassed : a.passed cx (some accessor) uses =
      ⟨a.object, a.args.map fun v => cx.copied v.ty v.fresh uses v.expr⟩ := by
    simp [LoweredAddress.passed, hcode]
  have hobjects : a.object.toList.length = t.receiver.toList.length := by
    simpa using hobject.length_eq
  have hplaces : (a.args.map fun v => cx.copied v.ty v.fresh uses v.expr).length =
      t.places.length := by
    simpa using hargs.length_eq
  refine ⟨⟨ws' ++ ws, a.object.toList.zipIdx ++
    ((a.args.map fun v => cx.copied v.ty v.fresh uses v.expr).zip t.places ++
      value.toList.map (·, ws'.length))⟩, hshares, by simp, ?_, ?_, ?_⟩
  · have hlast : value.toList.map (fun _ => ws'.length) = List.range' ws'.length os.length := by
      rw [hone]
      cases value <;> rfl
    have hall := (Target.places_perm ht).append_right (List.range' ws'.length os.length)
    rw [← hlen] at hall
    have hrange := @List.range'_append_1 0 ws'.length os.length
    rw [Nat.zero_add, ← List.range_eq_range', ← List.range_eq_range'] at hrange
    rw [hrange, List.append_assoc] at hall
    rw [List.length_append, ← hlen]
    simpa [List.zipIdx_map_snd, List.map_snd_zip hplaces.ge, hobjects, hlast,
      List.range_eq_range', Function.comp_def] using hall
  · have hpassedGives : List.Forall₂ (Handover.Gives cx ws') _ _ := gives_passed uses hargs
    rw [h.map_ty] at hpassedGives
    have hvalueGives : List.Forall₂ (Handover.Gives cx (ws' ++ ws))
        (value.toList.map (·, ws'.length)) tys := by
      rw [List.forall₂_map_left_iff]
      exact hvalue.imp fun e ty? he => he ws'
    have hall := List.rel_append (hobject.imp fun _ _ hx => hx.append ws)
      (List.rel_append (hpassedGives.imp fun _ _ hx => hx.append ws) hvalueGives)
    simpa [Target.handedTypes] using hall
  · rw [hpassed] at hcall hfits
    refine Target.runs_useAccessor hnames (fun d hd => Target.object_eq_none_of_bound hw hfits hd)
      hcode (fun hi => ⟨?_, (hinline hi).2⟩) hcall ?_
    · obtain rfl := (hinline hi).1
      rw [← hpassed, a.events_passed, Address.events_eq, List.flatMap_eq_nil_iff]
      exact fun e he => Script.Expr.events_of_isReusable _ (h.isReusable ht e he)
    · simp [List.zipIdx_map_fst, List.map_fst_zip hplaces.le, Function.comp_def]

end AssignmentLowering
