import AssignmentLowering.Proofs.Meaning.Operands

/-!
# Targets keep their meaning

The operands of a target are lowered in the order of the text and then put in declared
order. The one that is left in place with its effects is not behind any other that it
would affect, so evaluating them in declared order finds the same location. Defaults that
stand in for arguments left out are constants.

## Main definitions

* `Target.Simulates` — the operands of a target keep their meaning.
* `Located` — lowered operands that find the location of the target.

## Main statements

* `Addressed.located` — the operands of a target, lowered, find its location.
-/

namespace AssignmentLowering

open Script (Stmt)

variable {I : Interpretation} {cx : Context} {byRef : String → Bool}

/-! ## Arguments in declared order -/

theorem Lowers.inline_of_isConstant {e : Expr} {n n' : Nat} {w : Lowered} (h : Lowers cx e n w n')
    (he : e.isConstant = true) : w.stmts = [] ∧ n' = n := by
  cases h with
  | literal | defaultValue => exact ⟨rfl, rfl⟩
  | _ => cases he

/-- A constant is lowered to a constant. -/
theorem Lowers.eval_of_isConstant {e : Expr} {n n' : Nat} {w : Lowered} (h : Lowers cx e n w n')
    (he : e.isConstant = true) :
    ∃ x : I.Value, (∀ t, e.eval cx I t = some (x, t)) ∧
      ∀ s, w.expr.eval I cx.names s = some (x, s) := by
  cases h with
  | literal => exact ⟨_, fun t => Expr.eval_literal .., fun s => Literal.eval_script ..⟩
  | defaultValue =>
    exact ⟨_, fun t => Expr.eval_defaultValue .., fun s => cx.eval_defaultValue ..⟩
  | _ => cases he

/-- A constant that stands in for an argument left out has its value for good. -/
theorem Taken.constant {reuse : Bool} {o : Expr} {n n' : Nat} {v : Value} {stmts : List Stmt}
    (h : Taken cx ⟨reuse, false⟩ [] o n v stmts n') (byRef : String → Bool)
    (ho : o.isConstant = true) (s : State I) :
    n ≤ n' ∧ ∃ x s', (∀ t, o.eval cx I t = some (x, t)) ∧ Script.run I cx.names stmts s = some s' ∧
      s'.Agree cx.IsLocal s ∧ Keeps cx byRef n [] s s' ∧ ∀ s'' : State I,
        (∀ k, k ≤ n' → s''.vars (cx.temp k) = s'.vars (cx.temp k)) →
          v.expr.eval I cx.names s'' = some (x, s'') := by
  cases h with
  | @intro w m _ _ _ hlower hheld =>
    obtain ⟨hstmts, rfl⟩ := (Lowers.of_lower hlower).inline_of_isConstant ho
    obtain ⟨x, hsource, hscript⟩ := (Lowers.of_lower hlower).eval_of_isConstant (I := I) ho
    cases hcapture : o.mustCapture cx ⟨reuse, false⟩ [] w.toValue with
    | true =>
      rw [hcapture] at hheld
      cases hheld
      refine ⟨by omega, x, s.set (cx.temp (m + 1)) x, hsource, ?_,
        (State.Agree.refl s).set_left (fun hlocal => hlocal _ rfl) x,
        (Keeps.refl s).set (by omega) x, fun s'' hs'' => ?_⟩
      · rw [hstmts, List.nil_append]
        exact Script.run_declare (hscript s)
      · rw [Script.Expr.eval, hs'' (m + 1) le_rfl, State.vars_set_self]
    | false =>
      rw [hcapture] at hheld
      cases hheld
      exact ⟨le_rfl, x, s, hsource, by simp [hstmts, Script.run], .refl s, .refl s,
        fun s'' _ => hscript s''⟩

theorem evalArgs_append {ev : Expr → Meaning I} {ys zs zs' : List I.Value}
    {args args' : List (IndexArg Expr)} {t t' t'' : State I}
    (h : evalArgs ev ys args t = some (zs, t'))
    (h' : evalArgs ev ys args' t' = some (zs', t'')) :
    evalArgs ev ys (args ++ args') t = some (zs ++ zs', t'') := by
  induction args generalizing t zs with
  | nil =>
    cases h
    exact h'
  | cons a args ih =>
    simp only [evalArgs, Option.bind_eq_bind, Option.bind_eq_some_iff, Option.some.injEq,
      Prod.mk.injEq] at h
    obtain ⟨⟨z, t₁⟩, hz, ⟨zs₁, t₂⟩, hzs, rfl, rfl⟩ := h
    simp only [List.cons_append, evalArgs, hz, ih hzs, Option.bind_eq_bind, Option.bind_some]

theorem Filled.append_inv {reuse : Bool} {vs : List Value} {args' : List (IndexArg Expr)}
    {n'' : Nat} : ∀ {args : List (IndexArg Expr)} {n : Nat} {xs : List IndexValue}
      {stmts : List Stmt}, Filled cx reuse vs (args ++ args') n xs stmts n'' →
      ∃ xs₁ xs₂ stmts₁ stmts₂ n', xs = xs₁ ++ xs₂ ∧ stmts = stmts₁ ++ stmts₂ ∧
        Filled cx reuse vs args n xs₁ stmts₁ n' ∧ Filled cx reuse vs args' n' xs₂ stmts₂ n''
  | [], n, xs, stmts, h => ⟨[], xs, [], stmts, n, rfl, rfl, .nil, h⟩
  | a :: args, _, _, _, h => by
    cases h with
    | written hposition hvalue hrest =>
      obtain ⟨xs₁, xs₂, stmts₁, stmts₂, n', rfl, rfl, h₁, h₂⟩ := append_inv hrest
      exact ⟨_ :: xs₁, xs₂, stmts₁, stmts₂, n', rfl, rfl, .written hposition hvalue h₁, h₂⟩
    | omitted hposition hvalue hrest =>
      obtain ⟨xs₁, xs₂, stmts₁, stmts₂, n', rfl, rfl, h₁, h₂⟩ := append_inv hrest
      exact ⟨_ :: xs₁, xs₂, _ ++ stmts₁, stmts₂, n', rfl, (List.append_assoc ..).symm,
        .omitted hposition hvalue h₁, h₂⟩

/-- The values of the written arguments, where an argument in script has its own. -/
def ArgsSettled (names : RuntimeNames) (s : State I) (vs : List Value) (ys : List I.Value)
    (args : List (IndexArg Expr)) : Prop :=
  ∀ a ∈ args, ∀ i, a.position = some i → ∀ v y, vs[i]? = some v → ys[i]? = some y →
    v.expr.eval I names s = some (y, s)

theorem omittedOf_append {ε : Type} (args args' : List (IndexArg ε)) :
    omittedOf (args ++ args') = omittedOf args ++ omittedOf args' := by
  simp [omittedOf]

theorem omittedOf_subset_cons {ε : Type} (a : IndexArg ε) (args : List (IndexArg ε)) :
    omittedOf args ⊆ omittedOf (a :: args) := by
  intro e he
  obtain ⟨b, hb, rfl⟩ := List.mem_map.1 he
  obtain ⟨hmem, hnone⟩ := List.mem_filter.1 hb
  exact List.mem_map_of_mem (List.mem_filter.2 ⟨List.mem_cons_of_mem _ hmem, hnone⟩)

/-- Constants that are used once need no statements. -/
theorem Filled.inline_of_isConstant {vs : List Value} {args : List (IndexArg Expr)} {n n' : Nat}
    {xs : List IndexValue} {stmts : List Stmt} (h : Filled cx false vs args n xs stmts n')
    (hconstant : ∀ e ∈ omittedOf args, e.isConstant = true) : stmts = [] ∧ n' = n := by
  generalize hreuse : false = reuse at h
  induction h with
  | nil => exact ⟨rfl, rfl⟩
  | @written a args _ _ _ _ _ _ _ _ _ ih =>
    exact ih fun e he => hconstant e (omittedOf_subset_cons a args he)
  | @omitted a args _ _ _ _ _ _ _ hposition hhead _ ih =>
    subst hreuse
    have ha : a.value ∈ omittedOf (a :: args) :=
      List.mem_map_of_mem (List.mem_filter.2 ⟨List.mem_cons_self, by simp [hposition]⟩)
    obtain ⟨w, hlower, -, rfl⟩ := hhead.of_last
    obtain ⟨hstmts, rfl⟩ := (Lowers.of_lower hlower).inline_of_isConstant (hconstant _ ha)
    obtain ⟨rfl, rfl⟩ := ih fun e he => hconstant e (omittedOf_subset_cons a args he)
    exact ⟨by rw [hstmts, List.nil_append], rfl⟩

/-- Arguments in declared order have their values wherever the written ones have theirs. -/
theorem Filled.simulated {reuse : Bool} {vs : List Value} {args : List (IndexArg Expr)}
    {n n' : Nat} {xs : List IndexValue} {stmts : List Stmt}
    (h : Filled cx reuse vs args n xs stmts n') (byRef : String → Bool)
    (hconstant : ∀ e ∈ omittedOf args, e.isConstant = true) {ys : List I.Value}
    (hys : ys.length = vs.length) (s : State I) :
    n ≤ n' ∧ ∃ zs s', (∀ t, evalArgs (Expr.eval cx I) ys args t = some (zs, t)) ∧
      Script.run I cx.names stmts s = some s' ∧ s'.Agree cx.IsLocal s ∧
      Keeps cx byRef n [] s s' ∧ ∀ s'' : State I,
        (∀ k, k ≤ n' → s''.vars (cx.temp k) = s'.vars (cx.temp k)) →
          ArgsSettled cx.names s'' vs ys args →
          Script.Settled cx.names s'' (xs.map (·.expr)) zs := by
  induction h generalizing s with
  | nil =>
    exact ⟨le_rfl, [], s, fun _ => rfl, rfl, .refl s, .refl s, fun _ _ _ => .nil⟩
  | @written a args i n n' v xs stmts hposition hvalue _ ih =>
    obtain ⟨hn, zs, s', hsource, hrun, hagree, hkeeps, hsettled⟩ :=
      ih (fun e he => hconstant e (omittedOf_subset_cons a args he)) s
    obtain ⟨hi, -⟩ := List.getElem?_eq_some_iff.1 hvalue
    have hy : ys[i]? = some ys[i] := List.getElem?_eq_getElem (hys ▸ hi)
    refine ⟨hn, ys[i] :: zs, s', fun t => ?_, hrun, hagree, hkeeps, fun s'' htemps hargs => ?_⟩
    · simp [evalArgs, evalArg, hposition, hy, hsource]
    · exact .cons (hargs a List.mem_cons_self i hposition v _ hvalue hy)
        (hsettled s'' htemps fun b hb => hargs b (List.mem_cons_of_mem _ hb))
  | @omitted a args n m n' v xs stmts stmts' hposition hhead _ ih =>
    have ha : a.value ∈ omittedOf (a :: args) :=
      List.mem_map_of_mem (List.mem_filter.2 ⟨List.mem_cons_self, by simp [hposition]⟩)
    obtain ⟨hn, x, s₁, hx, hrun, hagree, hkeeps, hhold⟩ :=
      hhead.constant byRef (hconstant _ ha) s
    obtain ⟨hn', zs, s', hsource, hrun', hagree', hkeeps', hsettled⟩ :=
      ih (fun e he => hconstant e (omittedOf_subset_cons a args he)) s₁
    refine ⟨hn.trans hn', x :: zs, s', fun t => ?_,
      (Script.run_append hrun).trans hrun', hagree'.trans hagree,
      hkeeps.trans (hkeeps'.of_subset hn (List.Subset.refl _)), fun s'' htemps hargs => ?_⟩
    · simp [evalArgs, evalArg, hposition, hx, hsource]
    · refine .cons (hhold s'' fun k hk => ?_)
        (hsettled s'' htemps fun b hb => hargs b (List.mem_cons_of_mem _ hb))
      rw [htemps k (hk.trans hn'), hkeeps'.temps k hk]

theorem Filled.settled {vs : List Value} {args : List (IndexArg Expr)} {n n' : Nat}
    {xs : List IndexValue} {stmts : List Stmt} (h : Filled cx false vs args n xs stmts n')
    (hconstant : ∀ e ∈ omittedOf args, e.isConstant = true) {ys : List I.Value}
    (hys : ys.length = vs.length) {s : State I} (hargs : ArgsSettled cx.names s vs ys args) :
    ∃ zs, (∀ t, evalArgs (Expr.eval cx I) ys args t = some (zs, t)) ∧
      Script.Settled cx.names s (xs.map (·.expr)) zs := by
  obtain ⟨-, zs, s', hsource, hrun, -, -, hsettled⟩ :=
    h.simulated (fun _ => false) hconstant hys s
  obtain ⟨rfl, rfl⟩ := h.inline_of_isConstant hconstant
  cases hrun
  exact ⟨zs, hsource, hsettled s (fun _ _ => rfl) hargs⟩

/-- One argument may do something, if those before it in declared order have their values
before it, and those behind it have theirs behind it. -/
theorem Filled.evalAll_of_moving {vs : List Value} {args : List (IndexArg Expr)} {n n' : Nat}
    {xs : List IndexValue} {stmts : List Stmt} (h : Filled cx false vs args n xs stmts n')
    (hconstant : ∀ e ∈ omittedOf args, e.isConstant = true) {ys : List I.Value}
    (hys : ys.length = vs.length) {s s' : State I} {d i : Nat} {a : IndexArg Expr} {v : Value}
    {x : I.Value} (ha : args[d]? = some a) (hi : a.position = some i) (hv : vs[i]? = some v)
    (hx : ys[i]? = some x) (heval : v.expr.eval I cx.names s = some (x, s'))
    (hbefore : ArgsSettled cx.names s vs ys (args.take d))
    (hbehind : ArgsSettled cx.names s' vs ys (args.drop (d + 1))) :
    ∃ zs, (∀ t, evalArgs (Expr.eval cx I) ys args t = some (zs, t)) ∧
      Script.Expr.evalAll I cx.names (xs.map (·.expr)) s = some (zs, s') := by
  have hsplit : args = args.take d ++ a :: args.drop (d + 1) := by
    obtain ⟨hd, rfl⟩ := List.getElem?_eq_some_iff.1 ha
    rw [← List.drop_eq_getElem_cons hd, List.take_append_drop]
  rw [hsplit] at h
  rw [hsplit, omittedOf_append] at hconstant
  obtain ⟨xs₁, xs', stmts₁, stmts', m, rfl, rfl, hfirst, hlast⟩ := h.append_inv
  cases hlast with
  | omitted hposition => simp [hi] at hposition
  | @written _ _ j _ _ v' xs₂ _ hposition hvalue hrest =>
    rw [hi, Option.some.injEq] at hposition
    subst hposition
    rw [hv, Option.some.injEq] at hvalue
    subst hvalue
    obtain ⟨zs₁, hzs₁, hsettled₁⟩ :=
      hfirst.settled (fun e he => hconstant e (List.mem_append_left _ he)) hys hbefore
    obtain ⟨zs₂, hzs₂, hsettled₂⟩ :=
      hrest.settled (fun e he => hconstant e
        (List.mem_append_right _ (omittedOf_subset_cons a _ he))) hys hbehind
    refine ⟨zs₁ ++ x :: zs₂, fun t => ?_, ?_⟩
    · have hlast : evalArgs (Expr.eval cx I) ys (a :: args.drop (d + 1)) t =
          some (x :: zs₂, t) := by
        simp [evalArgs, evalArg, hi, hx, hzs₂]
      rw [hsplit]
      exact evalArgs_append (hzs₁ t) hlast
    · rw [List.map_append]
      exact Script.Expr.evalAll_append hsettled₁.evalAll
        (Script.Expr.evalAll_cons heval hsettled₂.evalAll)

/-! ## The operands of a target -/

/-- The operands of a target keep their meaning. -/
structure Target.Simulates (cx : Context) (I : Interpretation) (byRef : String → Bool)
    (t : Target Expr) : Prop where
  wellFormed : t.WellFormed
  arranges : ∃ indices, Arranges t.args indices
  room : t.HasRoom
  operands : ∀ e ∈ t.operands, AssignmentLowering.Simulates cx I byRef e
  omitted : ∀ e ∈ t.omitted, e.isConstant = true

/-- Lowered operands that find the location of the target. The source is at `u` and `u'`,
the script is at `s`, at `s₁` when the statements have run, and at `s₂` in the end. -/
structure Located (cx : Context) (I : Interpretation) (byRef : String → Bool)
    (rest : List Expr) (reuse : Bool) (t : Target Expr) (n : Nat) (a : LoweredAddress)
    (stmts : List Stmt) (n' : Nat) (s u : State I) (l : Location I) (u' s₁ s₂ : State I) :
    Prop where
  source : t.locate (Expr.eval cx I) u = some (l, u')
  run : Script.run I cx.names stmts s = some s₁
  finds : a.address.Finds cx.names l s₁ s₂
  agree : s₂.Agree cx.IsLocal u'
  keeps_run : Keeps cx byRef n t.operands s s₁
  keeps_expr : ∀ m, Keeps cx byRef m t.operands s₁ s₂
  settled : reuse = true ∨ rest.any (·.hasEffects cx.metadata) = true → ∀ s',
    Keeps cx byRef n' rest s₁ s' → a.address.Finds cx.names l s' s'

section

variable {rest : List Expr} {reuse : Bool} {t : Target Expr} {n n' m : Nat} {s u : State I}
  {objects vs : List Value} {xs : List IndexValue} {stmts stmts' : List Stmt}

/-- The written arguments stand behind the object. -/
theorem getElem?_captures_add (md : Metadata) (reuse : Bool) (t : Target Expr) (i : Nat) :
    (t.captures md reuse)[t.receiver.toList.length + i]? =
      t.callSite[i]?.map fun x =>
        (⟨reuse, x.2.isReorderHazard md x.1 (t.callSite.drop (i + 1))⟩, x.2) := by
  have hlen : (t.receiver.toList.map ((⟨reuse, false⟩, ·) : Expr → Capture × Expr)).length =
      t.receiver.toList.length := List.length_map ..
  rw [Target.captures, ← hlen, List.getElem?_append_right (Nat.le_add_right ..),
    Nat.add_sub_cancel_left, getElem?_callSiteCaptures]

/-- An argument stands at its position among the operands in the order of the text. -/
theorem getElem?_captures {indices : List Expr} (harr : Arranges t.args indices)
    (md : Metadata) (reuse : Bool) {d i : Nat} {a : IndexArg Expr} (ha : t.args[d]? = some a)
    (hi : a.position = some i) :
    (t.captures md reuse)[t.receiver.toList.length + i]? =
      some (⟨reuse, a.value.isReorderHazard md d (t.callSite.drop (i + 1))⟩, a.value) := by
  have hsite : t.callSite[i]? = some (d, a.value) := by
    rw [Target.getElem?_callSite harr]
    exact (Target.argAt?_eq_some harr).2 ⟨a, ha, hi, rfl⟩
  rw [getElem?_captures_add, hsite]
  rfl

/-- Where an argument is left in place with its effects, arguments that come before it in
declared order have their values before it, and the others have theirs behind it. -/
theorem Laid.arrange {indices : List Expr} (harr : Arranges t.args indices) {es : List Script.Expr}
    {ys : List I.Value} {s s' : State I} {i : Nat} {c : Capture} {o : Expr}
    (hitem : (t.captures cx.metadata reuse)[t.receiver.toList.length + i]? = some (c, o))
    (hreordered : c.reordered = false) (heffects : o.hasEffects cx.metadata = true)
    (hothers : HoldAround cx (t.captures cx.metadata reuse) es ys (t.receiver.toList.length + i)
      o s s') {d₀ : Nat} {a₀ : IndexArg Expr}
    (ha₀ : t.args[d₀]? = some a₀) (hi : a₀.position = some i) {d j : Nat} {a : IndexArg Expr}
    (ha : t.args[d]? = some a) (hj : a.position = some j) {e : Script.Expr} {x : I.Value}
    (he : es[t.receiver.toList.length + j]? = some e)
    (hx : ys[t.receiver.toList.length + j]? = some x) :
    (d < d₀ → e.eval I cx.names s = some (x, s)) ∧
      (d₀ < d → e.eval I cx.names s' = some (x, s')) := by
  have hcapture := getElem?_captures harr cx.metadata reuse ha hj
  have hcapture₀ := getElem?_captures harr cx.metadata reuse ha₀ hi
  rw [hitem, Option.some.injEq, Prod.mk.injEq] at hcapture₀
  obtain ⟨rfl, rfl⟩ := hcapture₀
  have hne : d ≠ d₀ → t.receiver.toList.length + j ≠ t.receiver.toList.length + i := by
    intro hd hji
    have hji' : j = i := Nat.add_left_cancel hji
    exact hd (harr.position_inj ha ha₀ (hji' ▸ hj) hi)
  refine ⟨fun hd => ?_, fun hd => (hothers _ _ _ _ _ (hne (by omega)) hcapture he hx).1⟩
  refine (hothers _ _ _ _ _ (hne (by omega)) hcapture he hx).2 ?_
  by_cases hji : j < i
  · exact .inl (by omega)
  · -- It stands behind in the text and before in declared order, so it does not mind.
    refine .inr (Bool.not_eq_false _ ▸ fun hinvariant => ?_)
    have hlater : (d, a.value) ∈ t.callSite.drop (i + 1) := by
      have hsite : t.callSite[j]? = some (d, a.value) := by
        rw [Target.getElem?_callSite harr]
        exact (Target.argAt?_eq_some harr).2 ⟨a, ha, hj, rfl⟩
      have hji' : j ≠ i := fun h => hne (by omega) (by rw [h])
      refine List.mem_of_getElem? (i := j - (i + 1)) ?_
      rw [List.getElem?_drop]
      rwa [show i + 1 + (j - (i + 1)) = j by omega]
    have hhazard : a₀.value.isReorderHazard cx.metadata d₀ (t.callSite.drop (i + 1)) = true := by
      rw [Expr.isReorderHazard, heffects, Bool.true_and, List.any_eq_true]
      exact ⟨_, hlater, by simp [hd, hinvariant]⟩
    cases hhazard.symm.trans hreordered

/-- There is at most one object. -/
theorem objects_cases {os : List I.Value} (hobjects : objects.length = t.receiver.toList.length)
    (hos : os.length = objects.length) :
    (objects = [] ∧ os = []) ∨
      ∃ r v o, t.receiver = some r ∧ objects = [v] ∧ os = [o] := by
  cases hr : t.receiver with
  | none =>
    rw [hr, Option.toList_none, List.length_nil] at hobjects
    exact .inl ⟨List.length_eq_zero_iff.1 hobjects, List.length_eq_zero_iff.1 (hos.trans hobjects)⟩
  | some r =>
    rw [hr, Option.toList_some, List.length_singleton] at hobjects
    obtain ⟨v, rfl⟩ := List.length_eq_one_iff.1 hobjects
    obtain ⟨o, rfl⟩ := List.length_eq_one_iff.1 hos
    exact .inr ⟨r, v, o, rfl, rfl, rfl⟩

/-- Script for the object, if there is one, and for the arguments finds a location. -/
theorem finds_of_evalAll {os zs : List I.Value} {s₁ s₂ : State I}
    (hobjects : objects.length = t.receiver.toList.length) (hos : os.length = objects.length)
    (h : Script.Expr.evalAll I cx.names (objects.map (·.expr) ++ xs.map (·.expr)) s₁ =
      some (os ++ zs, s₂)) :
    (⟨objects.head?.map (·.expr), xs⟩ : LoweredAddress).address.Finds cx.names ⟨os.head?, zs⟩
      s₁ s₂ := by
  obtain ⟨rfl, rfl⟩ | ⟨_, _, _, _, rfl, rfl⟩ := objects_cases hobjects hos
  · exact ⟨h, rfl⟩
  · exact ⟨h, rfl⟩

/-- Settled operands in the order of the text are settled arguments. -/
theorem ArgsSettled.of_settled {ys : List I.Value} {s' : State I}
    (h : Script.Settled cx.names s' (vs.map (·.expr)) ys) (args : List (IndexArg Expr)) :
    ArgsSettled cx.names s' vs ys args := by
  intro a _ i _ v y hv hy
  exact h.eval_of_getElem? (by simp [hv]) hy

section

variable {indices : List Expr} {os ys : List I.Value} {s₁ s₂ : State I} {c : Capture} {o : Expr}
  {e : Script.Expr} {x : I.Value}

/-- Where the object does something, the arguments have their values behind it. -/
theorem finds_of_moving_object {r : Expr} {v : Value} (harr : Arranges t.args indices)
    (hreceiver : t.receiver = some r) (hfilled : Filled cx false vs t.args n xs stmts n')
    (hconstant : ∀ e ∈ t.omitted, e.isConstant = true) (hys : ys.length = vs.length)
    (heval : v.expr.eval I cx.names s₁ = some (x, s₂))
    (hothers : HoldAround cx (t.captures cx.metadata false) (([v] ++ vs).map (·.expr)) ([x] ++ ys)
      0 o s₁ s₂) :
    ∃ zs, (∀ u, evalArgs (Expr.eval cx I) ys t.args u = some (zs, u)) ∧
      (⟨some v.expr, xs⟩ : LoweredAddress).address.Finds cx.names ⟨some x, zs⟩ s₁ s₂ := by
  have hargs : ArgsSettled cx.names s₂ vs ys t.args := by
    intro b hb j hj w y hw hy
    obtain ⟨d, hd⟩ := List.mem_iff_getElem?.1 hb
    have hitem := getElem?_captures harr cx.metadata false hd hj
    rw [hreceiver, Option.toList_some, List.length_singleton, Nat.add_comm] at hitem
    exact (hothers _ _ _ _ _ (by omega) hitem (by simp [hw]) (by simpa using hy)).1
  obtain ⟨zs, hzs, hsettled⟩ := hfilled.settled hconstant hys hargs
  have hlocation : (⟨some v.expr, xs⟩ : LoweredAddress).address.Finds cx.names ⟨some x, zs⟩
      s₁ s₂ :=
    ⟨Script.Expr.evalAll_cons heval hsettled.evalAll, rfl⟩
  exact ⟨zs, hzs, hlocation⟩

/-- Where an argument does something, the object has its value before it. -/
theorem finds_of_moving_arg {i : Nat} {v : Value} (harr : Arranges t.args indices)
    (hfilled : Filled cx false vs t.args n xs stmts n')
    (hconstant : ∀ e ∈ t.omitted, e.isConstant = true)
    (hobjects : objects.length = t.receiver.toList.length) (hos : os.length = objects.length)
    (hys : ys.length = vs.length)
    (hitem : (t.captures cx.metadata false)[t.receiver.toList.length + i]? = some (c, o))
    (hexpr : vs[i]? = some v) (hvalue : ys[i]? = some x)
    (heval : v.expr.eval I cx.names s₁ = some (x, s₂)) (hreordered : c.reordered = false)
    (heffects : o.hasEffects cx.metadata = true)
    (hothers : HoldAround cx (t.captures cx.metadata false) ((objects ++ vs).map (·.expr))
      (os ++ ys) (t.receiver.toList.length + i) o s₁ s₂) :
    ∃ zs, (∀ u, evalArgs (Expr.eval cx I) ys t.args u = some (zs, u)) ∧
      (⟨objects.head?.map (·.expr), xs⟩ : LoweredAddress).address.Finds cx.names
        ⟨os.head?, zs⟩ s₁ s₂ := by
  have hi : i < indices.length := by
    have hcallSite := hitem
    rw [getElem?_captures_add, Option.map_eq_some_iff] at hcallSite
    obtain ⟨y, hy, -⟩ := hcallSite
    rw [← Target.map_snd_callSite harr, List.length_map]
    exact (List.getElem?_eq_some_iff.1 hy).1
  have hexprAt : ∀ j, ((objects ++ vs).map (·.expr))[t.receiver.toList.length + j]? =
      vs[j]?.map (·.expr) := by
    intro j
    rw [← hobjects, List.getElem?_map, List.getElem?_append_right (by omega),
      Nat.add_sub_cancel_left]
  have hvalueAt : ∀ j, (os ++ ys)[t.receiver.toList.length + j]? = ys[j]? := by
    intro j
    rw [← hobjects, ← hos, List.getElem?_append_right (by omega), Nat.add_sub_cancel_left]
  obtain ⟨d₀, a₀, ha₀, hposition⟩ := harr.exists_position hi
  have hothersAt := fun {d j : Nat} {b : IndexArg Expr} {w : Value} {y : I.Value}
      (hd : t.args[d]? = some b) (hj : b.position = some j) (hw : vs[j]? = some w)
      (hy : ys[j]? = some y) =>
    Laid.arrange harr hitem hreordered heffects hothers ha₀ hposition hd hj
      (by rw [hexprAt, hw]; rfl) (by rw [hvalueAt, hy])
  obtain ⟨zs, hzs, hevalAll⟩ := hfilled.evalAll_of_moving hconstant hys ha₀ hposition
    hexpr hvalue heval
    (by
      intro b hb j hj w y hw hy
      obtain ⟨d, hd⟩ := List.mem_iff_getElem?.1 hb
      rw [List.getElem?_take] at hd
      split at hd
      case isTrue hlt => exact (hothersAt hd hj hw hy).1 hlt
      case isFalse => cases hd)
    (by
      intro b hb j hj w y hw hy
      obtain ⟨d, hd⟩ := List.mem_iff_getElem?.1 hb
      rw [List.getElem?_drop] at hd
      exact (hothersAt hd hj hw hy).2 (by omega))
  refine ⟨zs, hzs, finds_of_evalAll hobjects hos ?_⟩
  refine Script.Expr.evalAll_append (Script.Settled.evalAll ?_) hevalAll
  obtain ⟨rfl, rfl⟩ | ⟨r, w, y, hr, rfl, rfl⟩ := objects_cases hobjects hos
  · exact .nil
  · refine .cons ((hothers 0 ⟨false, false⟩ r _ _ ?_ ?_ rfl rfl).2 (.inl ?_)) .nil
    · rw [hr, Option.toList_some, List.length_singleton]
      omega
    · simp [Target.captures, hr]
    · rw [hr, Option.toList_some, List.length_singleton]
      omega

/-- Operands in the order of the text find a location when they are put in declared order. -/
theorem Laid.finds (harr : Arranges t.args indices)
    (hfilled : Filled cx false vs t.args n xs stmts n')
    (hconstant : ∀ e ∈ t.omitted, e.isConstant = true)
    (hobjects : objects.length = t.receiver.toList.length) (hos : os.length = objects.length)
    (hys : ys.length = vs.length)
    (h : Laid cx (t.captures cx.metadata false) ((objects ++ vs).map (·.expr)) (os ++ ys) s₁ s₂) :
    ∃ zs, (∀ u, evalArgs (Expr.eval cx I) ys t.args u = some (zs, u)) ∧
      (⟨objects.head?.map (·.expr), xs⟩ : LoweredAddress).address.Finds cx.names
        ⟨os.head?, zs⟩ s₁ s₂ := by
  cases h with
  | still hsettled =>
    rw [List.map_append] at hsettled
    obtain ⟨hobject, hargs⟩ := hsettled.append_inv (by simp [hos])
    obtain ⟨zs, hzs, hxs⟩ := hfilled.settled hconstant hys (.of_settled hargs t.args)
    exact ⟨zs, hzs, finds_of_evalAll hobjects hos (Script.Settled.evalAll (hobject.append hxs))⟩
  | @moving _ i _ o e x hitem hexpr hvalue heval hreordered heffects hothers =>
    by_cases hi : i < t.receiver.toList.length
    · obtain ⟨rfl, rfl⟩ | ⟨r, v, y, hr, rfl, rfl⟩ := objects_cases hobjects hos
      · simp [← hobjects] at hi
      · obtain rfl : i = 0 := by simpa [hr] using hi
        cases hexpr
        cases hvalue
        exact finds_of_moving_object harr hr hfilled hconstant hys heval hothers
    · obtain ⟨i, rfl⟩ := Nat.exists_eq_add_of_le (not_lt.1 hi)
      rw [← hobjects, List.getElem?_map, List.getElem?_append_right (by omega),
        Nat.add_sub_cancel_left, Option.map_eq_some_iff] at hexpr
      rw [← hobjects, ← hos, List.getElem?_append_right (by omega), Nat.add_sub_cancel_left]
        at hvalue
      obtain ⟨v, hv, rfl⟩ := hexpr
      exact finds_of_moving_arg harr hfilled hconstant hobjects hos hys hitem hv hvalue heval
        hreordered heffects hothers

end

/-- The operands of a target, lowered, find its location. -/
theorem Addressed.located {a : LoweredAddress} (ht : t.Simulates cx I byRef)
    (h : Addressed cx reuse rest t n a stmts n') (hagree : s.Agree cx.IsLocal u) :
    ∃ l u' s₁ s₂, Located cx I byRef rest reuse t n a stmts n' s u l u' s₁ s₂ := by
  obtain ⟨indices, harr⟩ := ht.arranges
  cases h with
  | @intro objects vs xs stmts stmts' m _ htaken hobjects hfilled =>
    have hitems : ∀ e ∈ (t.captures cx.metadata reuse).map (·.2),
        AssignmentLowering.Simulates cx I byRef e := by
      simpa using ht.operands
    have hn : n ≤ m := (htaken.confined fun e he => (hitems e he).confined).le
    obtain ⟨ys₀, u', s₁, s₂, hall⟩ := htaken.simulated hitems
      (fun x hx => Target.reuse_of_mem_captures hx)
      (fun x hx => Target.hasEffects_of_reordered hx) hagree
    have hsource := hall.source
    rw [Target.map_snd_captures, Target.operands] at hsource
    obtain ⟨os, ys, u₁, rfl, hos, hosource, hysource⟩ := evalEach_append hsource
    have hlen : (os ++ ys).length = (objects ++ vs).length := by
      simpa using Script.Expr.length_of_evalAll hall.exprs
    have hos' : os.length = objects.length := hos.trans hobjects.symm
    have hys : ys.length = vs.length := by
      simp only [List.length_append] at hlen
      omega
    have hlocate : ∀ {zs : List I.Value}, (∀ u, evalArgs (Expr.eval cx I) ys t.args u =
        some (zs, u)) → t.locate (Expr.eval cx I) u = some (⟨os.head?, zs⟩, u') := by
      intro zs hzs
      simp only [Target.locate, hosource, hysource, hzs, Option.bind_eq_bind, Option.bind_some]
    have hkeeps_run : Keeps cx byRef n t.operands s s₁ := by simpa using hall.keeps_run
    have hkeeps_expr : ∀ k, Keeps cx byRef k t.operands s₁ s₂ := by simpa using hall.keeps_expr
    obtain ⟨hm, zs, s₁', hzs, hrun', hagree', hkeeps', hxs⟩ :=
      hfilled.simulated byRef ht.omitted hys s₁
    -- Where all operands have their values, the arguments have theirs.
    have hfinds : ∀ s' : State I, (∀ k, k ≤ n' → s'.vars (cx.temp k) = s₁'.vars (cx.temp k)) →
        Script.Settled cx.names s' ((objects ++ vs).map (·.expr)) (os ++ ys) →
        (⟨objects.head?.map (·.expr), xs⟩ : LoweredAddress).address.Finds cx.names
          ⟨os.head?, zs⟩ s' s' := by
      intro s' htemps hsettled
      rw [List.map_append] at hsettled
      obtain ⟨hobject, hargs⟩ := hsettled.append_inv (by simp [hos'])
      refine finds_of_evalAll hobjects hos' (Script.Settled.evalAll (hobject.append ?_))
      exact hxs s' htemps (.of_settled hargs t.args)
    by_cases hneeded : reuse = true ∨ rest.any (·.hasEffects cx.metadata) = true
    · have hhold : ∀ s', Keeps cx byRef n' rest s₁' s' →
          (⟨objects.head?.map (·.expr), xs⟩ : LoweredAddress).address.Finds cx.names
            ⟨os.head?, zs⟩ s' s' := by
        intro s' hs'
        refine hfinds s' hs'.temps (hall.settled hneeded s' ?_)
        exact (hkeeps'.of_subset le_rfl (List.nil_subset _)).trans
          (hs'.of_subset hm (List.Subset.refl _))
      have hsame : s₂ = s₁ := by
        have := (hall.settled hneeded s₁ (.refl s₁)).evalAll.symm.trans hall.exprs
        simp only [Option.some.injEq, Prod.mk.injEq, true_and] at this
        exact this.symm
      refine ⟨⟨os.head?, zs⟩, u', s₁', s₁',
        { source := hlocate hzs, run := (Script.run_append hall.run).trans hrun'
          finds := hhold s₁' (.refl _), agree := hagree'.trans (hsame ▸ hall.agree)
          keeps_run := hkeeps_run.trans (hkeeps'.of_subset hn (List.nil_subset _))
          keeps_expr := fun _ => .refl _, settled := fun _ => hhold }⟩
    · have hreuse : reuse = false := by simpa using (not_or.1 hneeded).1
      obtain ⟨rfl, rfl⟩ := (hreuse ▸ hfilled).inline_of_isConstant ht.omitted
      cases hrun'
      obtain ⟨zs', hzs', hf⟩ :=
        Laid.finds harr (hreuse ▸ hfilled) ht.omitted hobjects hos' hys (hreuse ▸ hall.laid)
      exact ⟨⟨os.head?, zs'⟩, u', s₁, s₂,
        { source := hlocate hzs', run := by simpa using hall.run, finds := hf
          agree := hall.agree, keeps_run := hkeeps_run, keeps_expr := hkeeps_expr
          settled := fun h => absurd h hneeded }⟩

end

end AssignmentLowering
