import AssignmentLowering.Proofs.Effects.Order
import AssignmentLowering.Proofs.Meaning.Access

/-!
# Operands keep their meaning

What an operand is lowered to comes to the same value as the operand, and to a state
that agrees with it except for temporaries. An operand that stands before others with
effects still has its value when those have been evaluated: it is a constant, a
temporary, or a variable that they do not assign. So it does not matter that script
evaluates what is left of the operands only after the statements of all of them.

## Main definitions

* `Keeps` — a state in which some expressions have been evaluated.
* `Realized`, `Simulated`, `Simulates` — lowering an expression keeps its meaning.
* `Script.Settled` — script that evaluates to given values and does nothing else.

## Main statements

* `Taken.simulated`, `TakenAll.simulated` — operands lowered in their turn.
-/

namespace AssignmentLowering

open Script (Stmt)

variable {I : Interpretation} {cx : Context} {byRef : String → Bool}

/-! ## What evaluation leaves alone -/

/-- Whether a variable is one of the program. -/
def Context.IsLocal (cx : Context) (y : String) : Prop := ∀ k, y ≠ cx.temp k

/-- The temporaries up to the `n`-th are kept, and so are the local variables that `es` do
not assign. A by-reference variable holds a cell, which stays the same. -/
structure Keeps (cx : Context) (byRef : String → Bool) (n : Nat) (es : List Expr)
    (s s' : State I) : Prop where
  temps : ∀ k, k ≤ n → s'.vars (cx.temp k) = s.vars (cx.temp k)
  locals : ∀ y, cx.IsLocal y → (byRef y = true ∨ ∀ e ∈ es, e.writes y = false) →
    s'.vars y = s.vars y

namespace Keeps

variable {n n' : Nat} {es es' : List Expr} {s s' s'' : State I}

theorem refl (s : State I) : Keeps cx byRef n es s s := ⟨fun _ _ => rfl, fun _ _ _ => rfl⟩

theorem symm (h : Keeps cx byRef n es s s') : Keeps cx byRef n es s' s :=
  ⟨fun k hk => (h.temps k hk).symm, fun y hy hes => (h.locals y hy hes).symm⟩

theorem trans (h : Keeps cx byRef n es s s') (h' : Keeps cx byRef n es s' s'') :
    Keeps cx byRef n es s s'' :=
  ⟨fun k hk => (h'.temps k hk).trans (h.temps k hk),
    fun y hy hes => (h'.locals y hy hes).trans (h.locals y hy hes)⟩

theorem mono (h : Keeps cx byRef n' es s s') (hn : n ≤ n')
    (hes : ∀ e ∈ es, ∀ y, e.writes y = true → ∃ e' ∈ es', e'.writes y = true) :
    Keeps cx byRef n es' s s' := by
  refine ⟨fun k hk => h.temps k (hk.trans hn), fun y hy hwrites => h.locals y hy ?_⟩
  refine hwrites.imp id fun hnone e he => Bool.eq_false_iff.2 fun hw => ?_
  obtain ⟨e', he', hw'⟩ := hes e he y hw
  simp [hnone e' he'] at hw'

theorem of_subset (h : Keeps cx byRef n' es s s') (hn : n ≤ n') (hes : es ⊆ es') :
    Keeps cx byRef n es' s s' :=
  h.mono hn fun e he _ hw => ⟨e, hes he, hw⟩

/-- A temporary behind the `n`-th is assigned. -/
theorem set (h : Keeps cx byRef n es s s') {k : Nat} (hk : n < k) (v : I.Value) :
    Keeps cx byRef n es s (s'.set (cx.temp k) v) := by
  refine ⟨fun i hi => ?_, fun y hy hes => ?_⟩
  · have hne : cx.temp i ≠ cx.temp k := fun hname => by
      have := cx.temp_injective hname
      omega
    rw [State.vars_set_of_ne _ _ hne, h.temps i hi]
  · rw [State.vars_set_of_ne _ _ (hy k), h.locals y hy hes]

end Keeps

/-- An expression without effects assigns no local variable. -/
theorem Expr.writes_of_not_hasEffects {md : Metadata} (y : String) (e : Expr)
    (h : e.hasEffects md = false) : e.writes y = false := by
  induction e using Expr.induct with
  | step e ih =>
    rw [Expr.hasEffects_eq] at h
    obtain ⟨form, span⟩ := e
    rw [Expr.writes_eq]
    cases form with
    | literal | defaultValue => rfl
    | call | assign => cases h
    | binary op l r ty =>
      simp only [Form.hasEffects, Bool.or_eq_false_iff] at h
      have hl := ih l (by simp [Form.children, Form.operands]) h.1
      have hr := ih r (by simp [Form.children, Form.operands]) h.2
      simp [Expr.operands, Form.operands, hl, hr]
    | place p =>
      simp only [Form.hasEffects, Bool.or_eq_false_iff, List.any_eq_false] at h
      simp only [Expr.operands, Form.operands, Bool.false_or, List.any_eq_false]
      intro e he
      have heffects := Bool.eq_false_iff.2 (h.2 e he)
      simp [ih e (by simp [Form.children, he]) heffects]

/-! ## One operand -/

/-- The script `w` comes to the value `x`, and to a state that agrees with `t'`. It starts at
`s`, is at `s₁` when its statements have run, and at `s₂` in the end; of the local variables
only those that `e` assigns may have changed. -/
structure Realized (cx : Context) (I : Interpretation) (byRef : String → Bool) (e : Expr)
    (n : Nat) (w : Lowered) (n' : Nat) (s : State I) (x : I.Value) (t' s₁ s₂ : State I) :
    Prop where
  run : Script.run I cx.names w.stmts s = some s₁
  expr : w.expr.eval I cx.names s₁ = some (x, s₂)
  agree : s₂.Agree cx.IsLocal t'
  keeps_run : Keeps cx byRef n [e] s s₁
  keeps_expr : ∀ m, Keeps cx byRef m [e] s₁ s₂
  stable : w.stable = true → ∀ s' : State I,
    (∀ k, k ≤ n' → s'.vars (cx.temp k) = s₁.vars (cx.temp k)) →
      w.expr.eval I cx.names s' = some (x, s')

/-- The script `w` comes to the value of `e`, which is evaluated from `t` to `t'`. -/
structure Simulated (cx : Context) (I : Interpretation) (byRef : String → Bool) (e : Expr)
    (n : Nat) (w : Lowered) (n' : Nat) (s t : State I) (x : I.Value) (t' s₁ s₂ : State I) :
    Prop extends Realized cx I byRef e n w n' s x t' s₁ s₂ where
  source : e.eval cx I t = some (x, t')

/-- An expression whose lowering keeps its meaning. -/
structure Simulates (cx : Context) (I : Interpretation) (byRef : String → Bool) (e : Expr) :
    Prop where
  order : InOrder cx e
  confined : LowersConfined cx e
  avoidsTemps : e.avoidsTemps cx
  /-- What has no effects needs no statements. -/
  quiet : e.hasEffects cx.metadata = false → ∀ {n n' : Nat} {w : Lowered},
    e.lower cx n = .ok w n' → w.stmts = [] ∧ n' = n
  simulated : ∀ {n n' : Nat} {w : Lowered}, e.lower cx n = .ok w n' →
    ∀ {s t : State I}, s.Agree cx.IsLocal t →
      ∃ x t' s₁ s₂, Simulated cx I byRef e n w n' s t x t' s₁ s₂

theorem Script.Expr.eval_of_isReusable {names : RuntimeNames} {e : Script.Expr} {x : I.Value}
    {s s₁ s' : State I} (h : e.isReusable = true) (heval : e.eval I names s = some (x, s₁))
    (hvars : ∀ y, e = .ident y → s'.vars y = s.vars y) :
    s₁ = s ∧ e.eval I names s' = some (x, s') := by
  cases e with
  | ident y =>
    cases heval
    exact ⟨rfl, by rw [Expr.eval, hvars y rfl]⟩
  | null | bool | number | string | this | typeHandle =>
    cases heval
    exact ⟨rfl, rfl⟩
  | _ => cases h

/-- Script that can be evaluated again keeps its value where temporaries and local variables
are kept. -/
theorem Confined.eval_of_isReusable {e : Script.Expr} {x : I.Value} {n n' : Nat}
    {stmts : List Stmt} {s s₁ s' : State I} {later : List Expr}
    (hconfined : Confined cx n n' stmts [e]) (h : e.isReusable = true)
    (heval : e.eval I cx.names s = some (x, s₁)) (hkeeps : Keeps cx byRef n' later s s')
    (hlater : later.any (·.hasEffects cx.metadata) = false) :
    s₁ = s ∧ e.eval I cx.names s' = some (x, s') := by
  refine Script.Expr.eval_of_isReusable h heval fun y hy => ?_
  by_cases htemp : ∃ k, y = cx.temp k
  · obtain ⟨k, rfl⟩ := htemp
    refine hkeeps.temps k (not_lt.1 fun hk => ?_)
    have hnone := hconfined.exprs k (by omega)
    simp [hy, Script.Expr.mentions] at hnone
  · have hlocal : cx.IsLocal y := fun k hk => htemp ⟨k, hk⟩
    refine hkeeps.locals y hlocal (.inr fun e he => ?_)
    exact e.writes_of_not_hasEffects y (by simpa using List.any_eq_false.1 hlater e he)

theorem Context.eval_defaultValue (cx : Context) (ty : TypeRef) (s : State I) :
    (cx.defaultValue ty).eval I cx.names s = some (I.default cx.metadata ty, s) := by
  unfold Context.defaultValue Interpretation.default
  cases cx.metadata.semantics ty <;>
    simp [Script.Expr.eval, Script.Expr.evalAll, Script.callHelper_defaultValue]

theorem Literal.eval_script (value : Literal) (names : RuntimeNames) (s : State I) :
    value.script.eval I names s = some (I.literal value, s) := by
  cases value <;> rfl

/-- What is the same before and after others is lowered to a constant or a variable that they
do not assign. -/
theorem Lowers.eval_of_isInvariant {e : Expr} {later : List Expr} {n n' : Nat} {w : Lowered}
    (h : Lowers cx e n w n') (he : e.isInvariant later = true) (havoids : e.avoidsTemps cx)
    {s s₁ s' : State I} {x : I.Value} {m : Nat} (hkeeps : Keeps cx byRef m later s s')
    (heval : w.expr.eval I cx.names s = some (x, s₁)) :
    s₁ = s ∧ w.expr.eval I cx.names s' = some (x, s') := by
  cases h with
  | @literal value =>
    rw [Literal.eval_script] at heval
    cases heval
    exact ⟨rfl, Literal.eval_script ..⟩
  | @defaultValue ty =>
    rw [cx.eval_defaultValue] at heval
    cases heval
    exact ⟨rfl, cx.eval_defaultValue ..⟩
  | this =>
    cases heval
    exact ⟨rfl, rfl⟩
  | @load p span _ _ t addr load stmts hthis htarget haddr hload =>
    cases p with
    | localVar l =>
      simp only [Expr.isInvariant, Bool.and_eq_true, Bool.not_eq_true', List.any_eq_false] at he
      cases htarget
      simp only [Target.plain, he.1, Bool.false_eq_true, if_false] at hload
      cases hload
      refine Script.Expr.eval_of_isReusable rfl heval fun y hy => ?_
      cases hy
      exact hkeeps.locals l.name (fun k => havoids l rfl k)
        (.inr fun e he' => by simpa using he.2 e he')
    | this ty => exact absurd rfl (hthis ty)
    | _ => simp [Expr.isInvariant] at he
  | _ => simp [Expr.isInvariant] at he

/-- An operand that has no effects, and that nothing speaks for capturing, stays in place. -/
theorem Taken.inline_of_quiet {c : Capture} {later : List Expr} {o : Expr} {n n' : Nat}
    {v : Value} {stmts : List Stmt} (ho : Simulates cx I byRef o)
    (h : Taken cx c later o n v stmts n') (hquiet : o.hasEffects cx.metadata = false)
    (hlater : later.any (·.hasEffects cx.metadata) = false) (hc : c = {}) :
    stmts = [] ∧ n' = n := by
  subst hc
  cases h with
  | @intro w _ _ _ _ hlower hheld =>
    obtain ⟨hstmts, rfl⟩ := ho.quiet hquiet hlower
    have hcapture : o.mustCapture cx {} later w.toValue = false := by
      simp [Expr.mustCapture, hlater]
    rw [hcapture] at hheld
    cases hheld
    exact ⟨by simp [hstmts], rfl⟩

/-- An operand lowered in its turn keeps its meaning. If it is needed again, or if something
with effects follows, it has its value for good. -/
theorem Taken.simulated {c : Capture} {later : List Expr} {o : Expr} {n n' : Nat} {v : Value}
    {stmts : List Stmt} (ho : Simulates cx I byRef o) (h : Taken cx c later o n v stmts n')
    {s t : State I} (hagree : s.Agree cx.IsLocal t) :
    ∃ x t' s₁ s₂, Simulated cx I byRef o n { v with stmts } n' s t x t' s₁ s₂ ∧
      (c.reuse = true ∨ later.any (·.hasEffects cx.metadata) = true →
        ∀ s', Keeps cx byRef n' later s₁ s' → v.expr.eval I cx.names s' = some (x, s')) := by
  cases h with
  | @intro w m _ e stmts hlower hheld =>
    obtain ⟨x, t', s₁, s₂, hw⟩ := ho.simulated hlower hagree
    have hle := (ho.confined hlower).le
    cases hcapture : o.mustCapture cx c later w.toValue with
    | true =>
      rw [hcapture] at hheld
      cases hheld
      -- The value is in the temporary from now on.
      have htemp : ∀ s' : State I, (∀ k, k ≤ m + 1 → s'.vars (cx.temp k) =
          (s₂.set (cx.temp (m + 1)) x).vars (cx.temp k)) →
          (Script.Expr.ident (cx.temp (m + 1))).eval I cx.names s' = some (x, s') := by
        intro s' hs'
        rw [Script.Expr.eval, hs' (m + 1) le_rfl, State.vars_set_self]
      refine ⟨x, t', s₂.set (cx.temp (m + 1)) x, s₂.set (cx.temp (m + 1)) x, ?_, ?_⟩
      · refine
          { source := hw.source, run := ?_, expr := htemp _ fun _ _ => rfl
            agree := hw.agree.set_left (fun hlocal => hlocal _ rfl) x
            keeps_run := (hw.keeps_run.trans (hw.keeps_expr n)).set (by omega) x
            keeps_expr := fun _ => .refl _, stable := fun _ => htemp }
        rw [Script.run_append hw.run, Script.run_declare hw.expr]
      · exact fun _ s' hs' => htemp s' fun k hk => hs'.temps k hk
    | false =>
      rw [hcapture] at hheld
      cases hheld
      refine ⟨x, t', s₁, s₂, ?_, fun hneeded s' hs' => ?_⟩
      · simpa using
          { hw with
            stable := by simpa using hw.stable
            run := by simpa using hw.run : Simulated cx I byRef o n
              { w with stmts := w.stmts ++ [], stable := w.stable || false } n' s t x t' s₁ s₂ }
      · unfold Expr.mustCapture at hcapture
        rw [Bool.or_eq_false_iff] at hcapture
        cases hstable : w.stable with
        | true => exact hw.stable hstable s' fun k hk => hs'.temps k hk
        | false =>
          simp only [hstable, Bool.not_false, Bool.true_and, Bool.or_eq_false_iff] at hcapture
          cases hlater : later.any (·.hasEffects cx.metadata) with
          | true =>
            have hinvariant : o.isInvariant later = true := by simpa [hlater] using hcapture.1.1
            exact ((Lowers.of_lower hlower).eval_of_isInvariant hinvariant ho.avoidsTemps hs'
              hw.expr).2
          | false =>
            have hreuse : c.reuse = true := by simpa [hlater] using hneeded
            exact ((ho.confined hlower).eval_of_isReusable (by simpa [hreuse] using hcapture.2)
              hw.expr hs' hlater).2

/-- What stays in place and is not stable is in no wrong place. -/
theorem Taken.reordered_eq_false {c : Capture} {later : List Expr} {o : Expr} {n n' : Nat}
    {v : Value} {stmts : List Stmt} (h : Taken cx c later o n v stmts n')
    (hv : v.stable = false) : c.reordered = false := by
  cases h with
  | @intro w _ _ _ _ hlower hheld =>
    simp only [Bool.or_eq_false_iff] at hv
    have hcapture := hv.2
    unfold Expr.mustCapture at hcapture
    simp only [hv.1, Bool.not_false, Bool.true_and, Bool.or_eq_false_iff] at hcapture
    exact hcapture.1.2

/-! ## Operands one after the other -/

/-- Script that evaluates to the given values and leaves the state as it is. -/
def Script.Settled (names : RuntimeNames) (s : State I) (es : List Script.Expr)
    (xs : List I.Value) : Prop :=
  List.Forall₂ (fun e x => e.eval I names s = some (x, s)) es xs

namespace Script.Settled

variable {names : RuntimeNames} {s s' : State I} {es es' : List Script.Expr} {xs xs' : List I.Value}

theorem evalAll (h : Settled names s es xs) : Script.Expr.evalAll I names es s = some (xs, s) := by
  induction h with
  | nil => rfl
  | cons he _ ih => exact Script.Expr.evalAll_cons he ih

theorem append (h : Settled names s es xs) (h' : Settled names s es' xs') :
    Settled names s (es ++ es') (xs ++ xs') :=
  List.rel_append h h'

theorem eval_of_getElem? (h : Settled names s es xs) {i : Nat} {e : Script.Expr} {x : I.Value}
    (he : es[i]? = some e) (hx : xs[i]? = some x) : e.eval I names s = some (x, s) := by
  induction h generalizing i with
  | nil => cases he
  | cons hhead _ ih =>
    cases i with
    | zero =>
      cases he
      cases hx
      exact hhead
    | succ i => exact ih he hx

theorem append_inv (h : Settled names s (es ++ es') (xs ++ xs')) (hlen : xs.length = es.length) :
    Settled names s es xs ∧ Settled names s es' xs' := by
  induction es generalizing xs with
  | nil =>
    obtain rfl := List.length_eq_zero_iff.1 hlen
    exact ⟨.nil, h⟩
  | cons e es ih =>
    cases xs with
    | nil => simp at hlen
    | cons x xs =>
      cases h with
      | cons he hrest =>
        obtain ⟨h₁, h₂⟩ := ih hrest (by simpa using hlen)
        exact ⟨.cons he h₁, h₂⟩

/-- Script without events is settled where it has values. -/
theorem of_quiet (hes : ∀ e ∈ es, e.events names = [])
    (h : Script.Expr.evalAll I names es s = some (xs, s')) : s' = s ∧ Settled names s es xs := by
  induction es generalizing xs with
  | nil =>
    cases h
    exact ⟨rfl, .nil⟩
  | cons e es ih =>
    simp only [Script.Expr.evalAll, Option.bind_eq_bind, Option.bind_eq_some_iff,
      Option.some.injEq, Prod.mk.injEq] at h
    obtain ⟨⟨x, s₁⟩, he, ⟨xs', s₂⟩, hrest, rfl, rfl⟩ := h
    obtain rfl := e.eval_quiet (hes e List.mem_cons_self) he
    obtain ⟨rfl, hsettled⟩ := ih (fun e he => hes e (List.mem_cons_of_mem _ he)) hrest
    exact ⟨rfl, .cons he hsettled⟩

end Script.Settled

/-- The operands around the one at `i`, which is `o`: they have their values behind it, and if
they stand before it in the text, or do not mind, before it as well. -/
def HoldAround (cx : Context) (items : List (Capture × Expr)) (es : List Script.Expr)
    (xs : List I.Value) (i : Nat) (o : Expr) (s s' : State I) : Prop :=
  ∀ j c' o' e' x', j ≠ i → items[j]? = some (c', o') → es[j]? = some e' → xs[j]? = some x' →
    e'.eval I cx.names s' = some (x', s') ∧
      (j < i ∨ o'.isInvariant [o] = true → e'.eval I cx.names s = some (x', s))

/-- Operands in place, of which at most one does anything. The others can be evaluated
before or behind it; but what stands behind it in the text is as it should be only behind
it, unless it does not mind. -/
inductive Laid (cx : Context) (items : List (Capture × Expr)) (es : List Script.Expr)
    (xs : List I.Value) : State I → State I → Prop
  | still {s : State I} (h : Script.Settled cx.names s es xs) : Laid cx items es xs s s
  | moving {s s' : State I} {i : Nat} {c : Capture} {o : Expr} {e : Script.Expr} {x : I.Value}
      (hitem : items[i]? = some (c, o)) (hexpr : es[i]? = some e) (hvalue : xs[i]? = some x)
      (heval : e.eval I cx.names s = some (x, s')) (hreordered : c.reordered = false)
      (heffects : o.hasEffects cx.metadata = true)
      (hothers : HoldAround cx items es xs i o s s') : Laid cx items es xs s s'

/-- Operands lowered one after the other come to the values of the operands. The source is
at `t` and `t'`, the script is at `s`, at `s₁` when the statements have run, and at `s₂` in
the end. -/
structure SimulatedAll (cx : Context) (I : Interpretation) (byRef : String → Bool)
    (rest : List Expr) (reuse : Bool) (items : List (Capture × Expr)) (n : Nat)
    (vs : List Value) (stmts : List Stmt) (n' : Nat) (s t : State I) (xs : List I.Value)
    (t' s₁ s₂ : State I) : Prop where
  source : evalEach (Expr.eval cx I) (items.map (·.2)) t = some (xs, t')
  run : Script.run I cx.names stmts s = some s₁
  exprs : Script.Expr.evalAll I cx.names (vs.map (·.expr)) s₁ = some (xs, s₂)
  laid : Laid cx items (vs.map (·.expr)) xs s₁ s₂
  agree : s₂.Agree cx.IsLocal t'
  keeps_run : Keeps cx byRef n (items.map (·.2)) s s₁
  keeps_expr : ∀ m, Keeps cx byRef m (items.map (·.2)) s₁ s₂
  settled : reuse = true ∨ rest.any (·.hasEffects cx.metadata) = true → ∀ s',
    Keeps cx byRef n' rest s₁ s' → Script.Settled cx.names s' (vs.map (·.expr)) xs

section

variable {rest : List Expr} {items : List (Capture × Expr)} {n n' : Nat} {vs : List Value}
  {stmts : List Stmt}

/-- Operands without effects stay in place. -/
theorem TakenAll.inline_of_quiet (h : TakenAll cx rest items n vs stmts n')
    (hitems : ∀ e ∈ items.map (·.2), Simulates cx I byRef e) (hc : ∀ x ∈ items, x.1 = {})
    (hquiet : (items.map (·.2) ++ rest).any (·.hasEffects cx.metadata) = false) :
    stmts = [] ∧ n' = n := by
  induction h with
  | nil => exact ⟨rfl, rfl⟩
  | @cons c o items n m n' v vs stmts stmts' hhead _ ih =>
    simp only [List.map_cons, List.cons_append, List.any_cons, Bool.or_eq_false_iff] at hquiet
    obtain ⟨hstmts, hm⟩ := hhead.inline_of_quiet (hitems o List.mem_cons_self) hquiet.1 hquiet.2
      (hc _ List.mem_cons_self)
    obtain ⟨hstmts', hn⟩ := ih (fun e he => hitems e (List.mem_cons_of_mem _ he))
      (fun x hx => hc x (List.mem_cons_of_mem _ hx)) hquiet.2
    exact ⟨by rw [hstmts, hstmts', List.nil_append], hn.trans hm⟩

/-- Operands without effects are lowered to script without events. -/
theorem TakenAll.events_eq_nil (h : TakenAll cx rest items n vs stmts n')
    (hitems : ∀ e ∈ items.map (·.2), InOrder cx e)
    (hquiet : (items.map (·.2)).any (·.hasEffects cx.metadata) = false) :
    ∀ e ∈ vs.map (·.expr), e.events cx.names = [] := by
  have hfollows := h.follows hitems
  rw [events_eq_nil_of_any hitems (by simp [hquiet]), Follows.nil_iff,
    List.append_eq_nil_iff, List.flatMap_eq_nil_iff] at hfollows
  intro e he
  obtain ⟨v, hv, rfl⟩ := List.mem_map.1 he
  exact hfollows.2 v hv

/-- What is the same before and behind `o` has its value before `o` if it has it behind. -/
theorem TakenAll.eval_of_isInvariant (h : TakenAll cx rest items n vs stmts n')
    (hitems : ∀ e ∈ items.map (·.2), Simulates cx I byRef e) {o : Expr} {s s' : State I}
    (hkeeps : ∀ m, Keeps cx byRef m [o] s s') {j : Nat} {c' : Capture} {o' : Expr}
    {e' : Script.Expr} {x : I.Value} (hitem : items[j]? = some (c', o'))
    (hexpr : (vs.map (·.expr))[j]? = some e') (ho' : o'.isInvariant [o] = true)
    (heval : e'.eval I cx.names s' = some (x, s')) : e'.eval I cx.names s = some (x, s) := by
  induction h generalizing j with
  | nil => simp at hitem
  | @cons c o₁ items _ m _ v vs _ _ hhead _ ih =>
    cases j with
    | succ j =>
      exact ih (fun e he => hitems e (List.mem_cons_of_mem _ he)) (by simpa using hitem)
        (by simpa using hexpr)
    | zero =>
      simp only [List.getElem?_cons_zero, Option.some.injEq, Prod.mk.injEq] at hitem
      simp only [List.map_cons, List.getElem?_cons_zero, Option.some.injEq] at hexpr
      obtain ⟨rfl, rfl⟩ := hitem
      subst hexpr
      have ho₁ := hitems o₁ List.mem_cons_self
      cases hhead with
      | intro hlower hheld =>
        generalize Expr.mustCapture _ _ _ _ _ = captured at hheld
        cases hheld with
        | inline =>
          exact ((Lowers.of_lower hlower).eval_of_isInvariant ho' ho₁.avoidsTemps
            (hkeeps 0).symm heval).2
        | captured =>
          cases heval
          simp only [Script.Expr.eval, (hkeeps _).temps _ le_rfl]

/-- An operand that has its value for good stands before the others. -/
theorem Laid.cons {es : List Script.Expr} {xs : List I.Value} {s s' : State I}
    (h : Laid cx items es xs s s') {item : Capture × Expr} {e : Script.Expr} {x : I.Value}
    (hbefore : e.eval I cx.names s = some (x, s)) (hbehind : e.eval I cx.names s' = some (x, s')) :
    Laid cx (item :: items) (e :: es) (x :: xs) s s' := by
  cases h with
  | still h => exact .still (.cons hbefore h)
  | @moving _ i _ _ _ _ hitem hexpr hvalue heval hreordered heffects hothers =>
    refine .moving (i := i + 1) hitem hexpr hvalue heval hreordered heffects ?_
    intro j c' o' e' x' hj hitem' hexpr' hvalue'
    cases j with
    | zero =>
      cases hexpr'
      cases hvalue'
      exact ⟨hbehind, fun _ => hbefore⟩
    | succ j =>
      obtain ⟨hbehind', hbefore'⟩ := hothers j c' o' e' x' (by simpa using hj)
        (by simpa using hitem') (by simpa using hexpr') (by simpa using hvalue')
      exact ⟨hbehind', fun h => hbefore' (h.imp (by omega) id)⟩

section

variable {reuse : Bool} {c : Capture} {o : Expr} {v : Value} {stmts' : List Stmt} {m : Nat}
  {s t t₁ t' sa s₁ s₂ : State I} {x : I.Value} {xs : List I.Value}

/-- An operand stands in place before others that do nothing. -/
theorem Taken.laid (hhead : Taken cx c (items.map (·.2) ++ rest) o n v stmts m)
    (htail : TakenAll cx rest items m vs stmts' n')
    (ho : Simulates cx I byRef o) (hitems : ∀ e ∈ items.map (·.2), Simulates cx I byRef e)
    (hstable : v.stable = false) (heval : v.expr.eval I cx.names s₁ = some (x, s₂))
    (hkeeps : ∀ k, Keeps cx byRef k [o] s₁ s₂)
    (hsettled : Script.Settled cx.names s₂ (vs.map (·.expr)) xs) :
    Laid cx ((c, o) :: items) ((v :: vs).map (·.expr)) (x :: xs) s₁ s₂ := by
  cases heffects : o.hasEffects cx.metadata with
  | false =>
    have hv := ho.order.quiet heffects ▸ hhead.follows ho.order
    rw [Follows.nil_iff, List.append_eq_nil_iff] at hv
    obtain rfl := v.expr.eval_quiet hv.2 heval
    exact .still (.cons heval hsettled)
  | true =>
    refine .moving (i := 0) rfl rfl rfl heval (hhead.reordered_eq_false hstable) heffects ?_
    intro j c' o' e' x' hj hitem' hexpr' hvalue'
    cases j with
    | zero => exact absurd rfl hj
    | succ j =>
      have hbehind : e'.eval I cx.names s₂ = some (x', s₂) :=
        hsettled.eval_of_getElem? hexpr' hvalue'
      refine ⟨hbehind, fun h => ?_⟩
      exact htail.eval_of_isInvariant hitems hkeeps (by simpa using hitem')
        (by simpa using hexpr') (h.resolve_left (by omega)) hbehind

/-- An operand that has its value for good, and then others. -/
theorem SimulatedAll.cons (hhead : Simulated cx I byRef o n { v with stmts } m s t x t₁ sa sa)
    (htail : SimulatedAll cx I byRef rest reuse items m vs stmts' n' sa t₁ xs t' s₁ s₂)
    (hn : n ≤ m) (hn' : m ≤ n')
    (hhold : ∀ s', Keeps cx byRef m (items.map (·.2) ++ rest) sa s' →
      v.expr.eval I cx.names s' = some (x, s')) :
    SimulatedAll cx I byRef rest reuse ((c, o) :: items) n (v :: vs) (stmts ++ stmts') n' s t
      (x :: xs) t' s₁ s₂ := by
  have hkeeps₁ : Keeps cx byRef m (items.map (·.2) ++ rest) sa s₁ :=
    htail.keeps_run.of_subset le_rfl (List.subset_append_left ..)
  have hkeeps₂ : Keeps cx byRef m (items.map (·.2) ++ rest) sa s₂ :=
    hkeeps₁.trans ((htail.keeps_expr m).of_subset le_rfl (List.subset_append_left ..))
  have hsubset : items.map (·.2) ⊆ ((c, o) :: items).map (·.2) :=
    fun e he => List.mem_cons_of_mem _ he
  have hheadSubset : [o] ⊆ ((c, o) :: items).map (·.2) := fun e he =>
    List.mem_singleton.1 he ▸ List.mem_cons_self
  exact
    { source := evalEach_cons hhead.source htail.source
      run := (Script.run_append hhead.run).trans htail.run
      exprs := Script.Expr.evalAll_cons (hhold s₁ hkeeps₁) htail.exprs
      laid := htail.laid.cons (hhold s₁ hkeeps₁) (hhold s₂ hkeeps₂), agree := htail.agree
      keeps_run := (hhead.keeps_run.of_subset le_rfl hheadSubset).trans
        (htail.keeps_run.of_subset hn hsubset)
      keeps_expr := fun k => (htail.keeps_expr k).of_subset le_rfl hsubset
      settled := fun hneeded s' hs' => .cons (hhold s' (hkeeps₁.trans
        (hs'.of_subset hn' (List.subset_append_right ..)))) (htail.settled hneeded s' hs') }

end

theorem TakenAll.simulated {reuse : Bool} (h : TakenAll cx rest items n vs stmts n')
    (hitems : ∀ e ∈ items.map (·.2), Simulates cx I byRef e)
    (hreuse : ∀ x ∈ items, x.1.reuse = reuse)
    (hreordered : ∀ x ∈ items, x.1.reordered = true → x.2.hasEffects cx.metadata = true)
    {s t : State I} (hagree : s.Agree cx.IsLocal t) :
    ∃ xs t' s₁ s₂,
      SimulatedAll cx I byRef rest reuse items n vs stmts n' s t xs t' s₁ s₂ := by
  induction h generalizing s t with
  | nil =>
    exact ⟨[], t, s, s,
      { source := rfl, run := rfl, exprs := rfl, laid := .still .nil, agree := hagree
        keeps_run := .refl s, keeps_expr := fun _ => .refl s
        settled := fun _ _ _ => .nil }⟩
  | @cons c o items n m n' v vs stmts stmts' hhead htail ih =>
    have ho := hitems o List.mem_cons_self
    have hrest : ∀ e ∈ items.map (·.2), Simulates cx I byRef e :=
      fun e he => hitems e (List.mem_cons_of_mem _ he)
    have hn : n ≤ m := (hhead.confined ho.confined).le
    have hn' : m ≤ n' := (htail.confined fun e he => (hrest e he).confined).le
    obtain ⟨x, t₁, sa, sb, hhd, hsettled⟩ := hhead.simulated ho hagree
    have hrec := fun {s t : State I} (hagree : s.Agree cx.IsLocal t) =>
      ih hrest (fun x hx => hreuse x (List.mem_cons_of_mem _ hx))
        (fun x hx => hreordered x (List.mem_cons_of_mem _ hx)) hagree
    by_cases hset : v.stable = true ∨ c.reuse = true ∨
        (items.map (·.2) ++ rest).any (·.hasEffects cx.metadata) = true
    · have hhold : ∀ s' : State I, Keeps cx byRef m (items.map (·.2) ++ rest) sa s' →
          v.expr.eval I cx.names s' = some (x, s') := by
        intro s' hs'
        obtain hstable | hneeded := hset
        · exact hhd.stable hstable s' hs'.temps
        · exact hsettled hneeded s' hs'
      have hsame : sb = sa := by
        have := (hhold sa (.refl sa)).symm.trans hhd.expr
        simp only [Option.some.injEq, Prod.mk.injEq, true_and] at this
        exact this.symm
      subst hsame
      obtain ⟨xs, t', s₁, s₂, hall⟩ := hrec hhd.agree
      exact ⟨x :: xs, t', s₁, s₂, SimulatedAll.cons hhd hall hn hn' hhold⟩
    · -- Nothing behind the head does anything, so it may stay in place.
      simp only [not_or, Bool.not_eq_true] at hset
      obtain ⟨hstable, hcreuse, hlater⟩ := hset
      have hlater' := hlater
      rw [List.any_append, Bool.or_eq_false_iff] at hlater'
      obtain ⟨hlaterItems, hlaterRest⟩ := hlater'
      have hc : reuse = false := (hreuse (c, o) List.mem_cons_self).symm.trans hcreuse
      have hcaptures : ∀ y ∈ items, y.1 = {} := fun y hy =>
        Capture.eq_of_quiet ((hreuse y (List.mem_cons_of_mem _ hy)).trans hc)
          (hreordered y (List.mem_cons_of_mem _ hy))
          (by simpa using List.any_eq_false.1 hlaterItems y.2 (List.mem_map_of_mem hy))
      obtain ⟨rfl, rfl⟩ := htail.inline_of_quiet hrest hcaptures hlater
      obtain ⟨xs, t', s₁, s₂, hall⟩ := hrec hhd.agree
      cases hall.run
      have hquiet := htail.events_eq_nil (fun e he => (hrest e he).order) hlaterItems
      obtain ⟨rfl, hsettledAll⟩ := Script.Settled.of_quiet hquiet hall.exprs
      have hsubset : [o] ⊆ ((c, o) :: items).map (·.2) := fun e he =>
        List.mem_singleton.1 he ▸ List.mem_cons_self
      exact ⟨x :: xs, t', sa, s₂,
        { source := evalEach_cons hhd.source hall.source
          run := by simpa using hhd.run
          exprs := Script.Expr.evalAll_cons hhd.expr hall.exprs
          laid := hhead.laid htail ho hrest hstable hhd.expr hhd.keeps_expr hsettledAll
          agree := hall.agree
          keeps_run := hhd.keeps_run.of_subset le_rfl hsubset
          keeps_expr := fun k => (hhd.keeps_expr k).of_subset le_rfl hsubset
          settled := fun hneeded => by simp [hc, hlaterRest] at hneeded }⟩

end

end AssignmentLowering
