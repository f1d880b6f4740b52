import AssignmentLowering.Proofs.Effects.Quiet
import AssignmentLowering.Proofs.Meaning.Stores

/-!
# Lowering keeps the meaning

Where all values are shared and all members have names, running what an assignment is
lowered to leaves the state that evaluating the assignment leaves, up to temporaries, and
comes to the same value. All parts of the assignment must take their turns in script.
There are three ways in which they may fail to: statements of a right operand run
although an operator skips it, statements of a value run before a compound operator of
script reads the old value, and a value that is used twice overtakes the operands of its
target.

## Main definitions

* `Expr.IsPlain` — the fragment, for one expression.
* `Expr.InTurn` — the parts of an expression take their turns.
* `LoweredAssignment.run` — running what an assignment contributes.

## Main statements

* `Simulates.of_everywhere` — lowering an expression keeps its meaning.
* `lowerAssignment_keepsMeaning` — so does lowering an assignment.
-/

namespace AssignmentLowering

open Script (Stmt)

variable {I : Interpretation} {cx : Context} {byRef : String → Bool}

/-! ## The fragment -/

/-- An expression that reads, stores and passes values that are shared, through members that
have names. Variables are by reference throughout the body or not at all, and are not
spelled like temporaries. -/
structure Expr.IsPlain (cx : Context) (byRef : String → Bool) (e : Expr) : Prop where
  keepsOrder : e.keepsOrder cx.metadata = true
  avoidsTemps : e.avoidsTemps cx
  localVar : ∀ l, e.form = .place (.localVar l) → l.byRef = byRef l.name
  target : ∀ t, e.target cx.metadata cx.enclosing = .ok t → t.Shared cx.metadata
  call : ∀ r m args, e.form = .call r m args →
    (∀ template, cx.metadata.method m ≠ .inline template) ∧
      ∀ ty ∈ argTypes m.params args, (cx.metadata.semantics ty).tag? = none

/-- Whether the parts of an expression take their turns in script. -/
structure Expr.InTurn (cx : Context) (usage : Usage) (e : Expr) : Prop where
  /-- Nothing of a right operand that may be skipped happens in any case. -/
  right : ∀ op l r ty, e.form = .binary op l r ty → op.shortCircuits = true → r.Stays cx
  assign : ∀ a, e.form = .assign a → a.InTurn cx usage

section

variable {n n' : Nat} {s u : State I} {stmts : List Stmt}

theorem Target.Placed.of_plain {p : Place Expr} {span : Span} {t : Target Expr}
    (henclosing : cx.metadata.semantics cx.enclosing.ty = .reference)
    (ht : Target.ofPlace cx.metadata cx.enclosing Expr.ty span p = .ok t)
    (hplain : (⟨.place p, span⟩ : Expr).IsPlain cx byRef)
    (hparts : ∀ e ∈ p.operands ++ p.defaults, AssignmentLowering.Simulates cx I byRef e) :
    t.Placed cx I byRef :=
  .of_ofPlace henclosing ht hplain.keepsOrder hplain.avoidsTemps
    (fun l hl => hplain.localVar l (by rw [hl])) (hplain.target t ht) hparts

theorem Target.Placed.of_assign {a : Assignment Expr} {span : Span} {t : Target Expr}
    (henclosing : cx.metadata.semantics cx.enclosing.ty = .reference)
    (hplain : Expr.Everywhere (·.IsPlain cx byRef) ⟨.assign a, span⟩)
    (hparts : ∀ e ∈ (⟨.assign a, span⟩ : Expr).parts, AssignmentLowering.Simulates cx I byRef e)
    (ht : a.target.target cx.metadata cx.enclosing = .ok t) : t.Placed cx I byRef := by
  obtain ⟨p, hp, hplace⟩ := Expr.target_arranges ht
  exact .of_plain henclosing hplace (Expr.eq_of_place hp ▸ hplain.target.here)
    fun e he => hparts e (Expr.place_mem_parts (Expr.place?_of_place hp) span he)

/-! ## Forms -/

/-- What is evaluated for an expression assigns nothing that the expression does not. -/
theorem Keeps.of_operands {e : Expr} {es : List Expr} {s' : State I}
    (h : Keeps cx byRef n es s s') (hes : es ⊆ e.operands) : Keeps cx byRef n [e] s s' :=
  h.mono le_rfl fun _ hc _ hy =>
    ⟨e, List.mem_singleton_self e, Expr.writes_of_mem_operands (hes hc) hy⟩

theorem Addressed.simulated_load (hnames : cx.names.Distinct) {p : Place Expr} {span : Span}
    {t : Target Expr} {a : LoweredAddress} {load : Script.Expr} {fresh : Bool}
    (hthis : ∀ ty, p ≠ .this ty)
    (htarget : Target.ofPlace cx.metadata cx.enclosing Expr.ty span p = .ok t)
    (ht : t.Placed cx I byRef) (haddr : Addressed cx false [] t n a stmts n')
    (hload : t.load cx.names a.address = .ok load) (hagree : s.Agree cx.IsLocal u) :
    ∃ x u' s₁ s₂, Simulated cx I byRef ⟨.place p, span⟩ n
      { expr := load, fresh, stable := false, stmts } n' s u x u' s₁ s₂ := by
  obtain ⟨l, u₁, s₁, s₂, hloc⟩ := haddr.located ht.toSimulates hagree
  obtain ⟨x, s₃, hget, heval⟩ := Target.eval_load ht.wellFormed haddr.fits hnames ht.room
    ht.shared.getter hloc.finds hload
  obtain ⟨hvars, u₂, hget', hagree'⟩ :=
    Target.get_congr hloc.agree (fun _ => ht.isLocal) hget
  have hoperands : t.operands ⊆ (⟨.place p, span⟩ : Expr).operands := by
    rw [Target.operands_ofPlace htarget]
    exact List.Subset.refl _
  refine ⟨x, u₂, s₁, s₃,
    { source := ?_, run := hloc.run, expr := heval, agree := hagree'
      keeps_run := hloc.keeps_run.of_operands hoperands
      keeps_expr := fun k => ((hloc.keeps_expr k).of_operands hoperands).trans
        ⟨fun _ _ => congrFun hvars _, fun _ _ _ => congrFun hvars _⟩
      stable := fun h => by cases h }⟩
  simp [Expr.eval_load hthis htarget, hloc.source, hget']

/-- Values that are shared are handed over as they are. -/
theorem Context.handed_of_shared : ∀ {tys : List TypeRef} {vs : List Value},
    (∀ ty ∈ tys, (cx.metadata.semantics ty).tag? = none) → vs.length = tys.length →
      cx.handed tys vs = vs.map (·.expr)
  | [], [], _, _ => rfl
  | ty :: tys, v :: vs, htys, hlen => by
    have hrest : cx.handed tys vs = vs.map (·.expr) :=
      handed_of_shared (fun ty hty => htys ty (List.mem_cons_of_mem _ hty)) (by simpa using hlen)
    have hhead := cx.copied_of_shared (htys ty List.mem_cons_self) v.fresh 1 v.expr
    rw [List.map_cons, ← hrest, ← hhead]
    rfl

/-- A call in script is the call in source, on the values of the receiver and the arguments. -/
theorem Script.eval_callScript {ε : Type} (hnames : cx.names.Separated) (r : Receiver ε)
    (name : String)
    {objects vs : List Value} (hobjects : objects.length = r.object?.toList.length)
    {os xs : List I.Value} (hos : os.length = objects.length) {s' : State I}
    (h : Expr.evalAll I cx.names ((objects ++ vs).map (·.expr)) s = some (os ++ xs, s')) :
    (callScript cx.names r name (r.script objects) (vs.map (·.expr))).eval I cx.names s =
      some ((r.call cx.names (r.objectValue os.head?) name xs s'.heap).1,
        { s' with heap := (r.call cx.names (r.objectValue os.head?) name xs s'.heap).2 }) := by
  cases r with
  | object e =>
    obtain ⟨v, rfl⟩ := List.length_eq_one_iff.1 hobjects
    obtain ⟨o, rfl⟩ := List.length_eq_one_iff.1 hos
    simp only [List.singleton_append, List.map_cons, Expr.evalAll, Option.bind_eq_bind,
      Option.bind_eq_some_iff, Option.some.injEq, Prod.mk.injEq, List.cons.injEq] at h
    obtain ⟨⟨_, s₁⟩, hv, ⟨_, s₂⟩, hvs, ⟨rfl, rfl⟩, rfl⟩ := h
    exact Expr.eval_callMethod hv hvs
  | static owner =>
    obtain rfl := List.length_eq_zero_iff.1 hobjects
    obtain rfl := List.length_eq_zero_iff.1 hos
    exact Expr.eval_callMethod (o := I.typeHandle owner.name) rfl h
  | base declaring =>
    obtain rfl := List.length_eq_zero_iff.1 hobjects
    obtain rfl := List.length_eq_zero_iff.1 hos
    exact Expr.eval_callBase hnames h

theorem TakenAll.simulated_call (hnames : cx.names.Distinct) {r : Receiver Expr} {m : Method}
    {args : List Expr} {span : Span} {name : String} {objects vs : List Value}
    (hmethod : cx.metadata.method m = .method name)
    (hshared : ∀ ty ∈ argTypes m.params args, (cx.metadata.semantics ty).tag? = none)
    (hparts : ∀ e ∈ r.object?.toList ++ args, Simulates cx I byRef e)
    (htaken : TakenAll cx [] ((r.object?.toList ++ args).map ({}, ·)) n (objects ++ vs) stmts n')
    (hobjects : objects.length = r.object?.toList.length) (hagree : s.Agree cx.IsLocal u) :
    ∃ x u' s₁ s₂, Simulated cx I byRef ⟨.call r m args, span⟩ n
      { expr := callScript cx.names r name (r.script objects)
          (cx.handed (argTypes m.params args) vs),
        fresh := true, stable := false, stmts } n' s u x u' s₁ s₂ := by
  have hlen := htaken.length_handed m.params hobjects
  have hcaptures : ∀ x ∈ (r.object?.toList ++ args).map (({}, ·) : Expr → Capture × Expr),
      x.1 = {} := by
    intro x hx
    obtain ⟨e, -, rfl⟩ := List.mem_map.1 hx
    rfl
  obtain ⟨xs, u', s₁, s₂, hall⟩ := htaken.simulated (by rwa [map_snd_map_capture])
    (fun x hx => congrArg Capture.reuse (hcaptures x hx))
    (fun x hx hr => by simp [hcaptures x hx] at hr) hagree
  have hsource := hall.source
  rw [map_snd_map_capture] at hsource
  obtain ⟨os, ys, u₁, rfl, hos, hosource, hysource⟩ := evalEach_append hsource
  have hcall : (⟨.call r m args, span⟩ : Expr).eval cx I u =
      some ((r.call cx.names (r.objectValue os.head?) name ys u'.heap).1,
        { u' with heap := (r.call cx.names (r.objectValue os.head?) name ys u'.heap).2 }) := by
    rw [Expr.eval_call]
    simp only [callMeaning, hmethod, MethodBinding.name?, hosource, hysource,
      Option.bind_eq_bind, Option.bind_some]
  have heval := Script.eval_callScript hnames.1 r name hobjects (hos.trans hobjects.symm) hall.exprs
  rw [← cx.handed_of_shared hshared hlen, hall.agree.heap] at heval
  have hkeeps : ∀ {k : Nat} {s s' : State I},
      Keeps cx byRef k (((r.object?.toList ++ args).map
        (({}, ·) : Expr → Capture × Expr)).map (·.2)) s s' →
        Keeps cx byRef k [⟨.call r m args, span⟩] s s' := by
    intro k s s' h
    rw [map_snd_map_capture] at h
    exact h.of_operands (List.Subset.refl _)
  exact ⟨_, { u' with heap := _ }, s₁, _,
    { source := hcall, run := hall.run, expr := heval, agree := ⟨rfl, hall.agree.vars⟩
      keeps_run := hkeeps hall.keeps_run
      keeps_expr := fun k => (hkeeps (hall.keeps_expr k)).trans
        ⟨fun _ _ => rfl, fun _ _ _ => rfl⟩
      stable := fun h => by cases h }⟩

/-- Two operands, one after the other. The source is at `u`, `u₁` and `u₂`, the script at `s`,
at `s₁` when the statements have run, at `s₂` behind the left operand, and at `s₃`. -/
structure Paired (cx : Context) (I : Interpretation) (byRef : String → Bool) (left right : Expr)
    (n : Nat) (l r : Script.Expr) (stmts stmts' : List Stmt) (s u : State I) (x y : I.Value)
    (u₁ u₂ s₁ s₂ s₃ : State I) : Prop where
  sourceLeft : left.eval cx I u = some (x, u₁)
  sourceRight : right.eval cx I u₁ = some (y, u₂)
  run : Script.run I cx.names (stmts ++ stmts') s = some s₁
  exprLeft : l.eval I cx.names s₁ = some (x, s₂)
  exprRight : r.eval I cx.names s₂ = some (y, s₃)
  agree : s₃.Agree cx.IsLocal u₂
  /-- The right operand has changed nothing yet if its statements have not. -/
  between : Script.events cx.names stmts' = [] → s₂.Agree cx.IsLocal u₁
  keeps_run : Keeps cx byRef n [left, right] s s₁
  keeps_left : ∀ k, Keeps cx byRef k [left, right] s₁ s₂
  keeps_right : ∀ k, Keeps cx byRef k [left, right] s₂ s₃

theorem Taken.paired {left right : Expr} {l r : Value} {stmts' : List Stmt} {m : Nat}
    (hl : Simulates cx I byRef left) (hr : Simulates cx I byRef right)
    (hleft : Taken cx {} [right] left n l stmts m) (hright : Taken cx {} [] right m r stmts' n')
    (hagree : s.Agree cx.IsLocal u) :
    ∃ x y u₁ u₂ s₁ s₂ s₃,
      Paired cx I byRef left right n l.expr r.expr stmts stmts' s u x y u₁ u₂ s₁ s₂ s₃ := by
  obtain ⟨x, u₁, sa, sb, hx, hhold⟩ := hleft.simulated hl hagree
  have hn : n ≤ m := (hleft.confined hl.confined).le
  have hsubset : [left] ⊆ [left, right] := by simp
  have hsubset' : [right] ⊆ [left, right] := by simp
  cases heffects : right.hasEffects cx.metadata with
  | true =>
    -- The left operand has its value for good.
    have hhold' : ∀ s', Keeps cx byRef m [right] sa s' → l.expr.eval I cx.names s' = some (x, s') :=
      hhold (.inr (by simp [heffects]))
    have hsame : sa = sb := by
      have := (hhold' sa (.refl sa)).symm.trans hx.expr
      simpa using this
    subst hsame
    obtain ⟨y, u₂, s₁, s₃, hy, -⟩ := hright.simulated hr hx.agree
    have hnumbered := (hright.confined hr.confined).numbered
    exact ⟨x, y, u₁, u₂, s₁, s₁, s₃,
      { sourceLeft := hx.source, sourceRight := hy.source
        run := (Script.run_append hx.run).trans hy.run, exprLeft := hhold' s₁ hy.keeps_run
        exprRight := hy.expr, agree := hy.agree
        between := fun hquiet => (hnumbered.agree_of_quiet hquiet hy.run).trans hx.agree
        keeps_run := (hx.keeps_run.of_subset le_rfl hsubset).trans
          (hy.keeps_run.of_subset hn hsubset')
        keeps_left := fun _ => .refl s₁
        keeps_right := fun k => (hy.keeps_expr k).of_subset le_rfl hsubset' }⟩
  | false =>
    obtain ⟨rfl, rfl⟩ := hright.inline_of_quiet hr heffects rfl rfl
    obtain ⟨y, u₂, s₂, s₃, hy, -⟩ := hright.simulated hr hx.agree
    cases hy.run
    exact ⟨x, y, u₁, u₂, sa, sb, s₃,
      { sourceLeft := hx.source, sourceRight := hy.source, run := by simpa using hx.run
        exprLeft := hx.expr, exprRight := hy.expr, agree := hy.agree, between := fun _ => hx.agree
        keeps_run := hx.keeps_run.of_subset le_rfl hsubset
        keeps_left := fun k => (hx.keeps_expr k).of_subset le_rfl hsubset
        keeps_right := fun k => (hy.keeps_expr k).of_subset le_rfl hsubset' }⟩

/-- An operation comes to its value, also where it skips its right operand; statements of the
right operand must then do nothing. -/
theorem Paired.simulated {op : BinaryOp} {left right : Expr} {ty : TypeRef} {span : Span}
    {l r : Script.Expr} {stmts' : List Stmt} {x y : I.Value} {u₁ u₂ s₁ s₂ s₃ : State I}
    (h : Paired cx I byRef left right n l r stmts stmts' s u x y u₁ u₂ s₁ s₂ s₃)
    (hquiet : op.shortCircuits = true → Script.events cx.names stmts' = []) :
    ∃ z u' s₁ s₂, Simulated cx I byRef ⟨.binary op left right ty, span⟩ n
      { expr := .binary op l r, fresh := true, stable := false, stmts := stmts ++ stmts' } n'
      s u z u' s₁ s₂ := by
  have hoperands : [left, right] ⊆ (⟨.binary op left right ty, span⟩ : Expr).operands :=
    List.Subset.refl _
  cases hskips : I.skips op x with
  | true =>
    have hop : op.shortCircuits = true := by
      cases op <;> first | rfl | cases hskips
    exact ⟨x, u₁, s₁, s₂,
      { source := by simp [Expr.eval_binary, h.sourceLeft, hskips], run := h.run
        expr := by simp [Script.Expr.eval, h.exprLeft, hskips]
        agree := h.between (hquiet hop), keeps_run := h.keeps_run.of_operands hoperands
        keeps_expr := fun k => (h.keeps_left k).of_operands hoperands
        stable := fun h => by cases h }⟩
  | false =>
    exact ⟨I.binary op x y, u₂, s₁, s₃,
      { source := by simp [Expr.eval_binary, h.sourceLeft, h.sourceRight, hskips], run := h.run
        expr := by simp [Script.Expr.eval, h.exprLeft, h.exprRight, hskips]
        agree := h.agree, keeps_run := h.keeps_run.of_operands hoperands
        keeps_expr := fun k => ((h.keeps_left k).trans (h.keeps_right k)).of_operands hoperands
        stable := fun h => by cases h }⟩

/-- Lowering an expression keeps its meaning, if lowering its parts does and they take their
turns. -/
theorem Lowers.simulated (hnames : cx.names.Distinct)
    (henclosing : cx.metadata.semantics cx.enclosing.ty = .reference) {e : Expr} {w : Lowered}
    (hplain : e.Everywhere (·.IsPlain cx byRef)) (hturn : e.InTurn cx .used)
    (hparts : ∀ c ∈ e.parts, Simulates cx I byRef c) (h : Lowers cx e n w n')
    (hagree : s.Agree cx.IsLocal u) :
    ∃ x u' s₁ s₂, Simulated cx I byRef e n w n' s u x u' s₁ s₂ := by
  cases h with
  | literal =>
    exact ⟨_, u, s, s, { source := Expr.eval_literal .., run := rfl
                         expr := Literal.eval_script .., agree := hagree, keeps_run := .refl s
                         keeps_expr := fun _ => .refl s
                         stable := fun _ _ _ => Literal.eval_script .. }⟩
  | defaultValue =>
    exact ⟨_, u, s, s, { source := Expr.eval_defaultValue .., run := rfl
                         expr := cx.eval_defaultValue .., agree := hagree, keeps_run := .refl s
                         keeps_expr := fun _ => .refl s, stable := fun h => by cases h }⟩
  | this =>
    exact ⟨_, u, s, s, { source := Expr.eval_this .., run := rfl, expr := rfl, agree := hagree
                         keeps_run := .refl s, keeps_expr := fun _ => .refl s
                         stable := fun _ _ _ => rfl }⟩
  | load hthis htarget haddr hload =>
    have ht := Target.Placed.of_plain henclosing htarget hplain.here (by simpa using hparts)
    rw [haddr.passed_of_shared ht.shared] at hload
    rw [ht.shared.getter] at haddr
    exact haddr.simulated_load hnames hthis htarget ht hload hagree
  | call hmethod htaken hobjects =>
    obtain ⟨-, hshared⟩ := hplain.here.call _ _ _ rfl
    exact htaken.simulated_call hnames hmethod hshared hparts hobjects hagree
  | callInline hmethod => exact absurd hmethod ((hplain.here.call _ _ _ rfl).1 _)
  | @binary op left right _ _ _ _ _ _ _ htaken =>
    cases htaken with
    | cons hleft htail =>
      cases htail with
      | cons hright hnil =>
        cases hnil
        obtain ⟨x, y, u₁, u₂, s₁, s₂, s₃, hpaired⟩ := Taken.paired (hparts left (by simp))
          (hparts right (by simp)) hleft hright hagree
        rw [List.append_nil]
        refine hpaired.simulated fun hop => ?_
        obtain ⟨w, hlower, -, rfl⟩ := hright.of_last
        exact hturn.right op left right _ rfl hop hlower
  | @assign a span _ _ _ h =>
    obtain ⟨x, u', y, s₁, s₂, hsource, hrealized, hy⟩ :=
      h.realized hnames (hparts _ (Expr.value_mem_parts a span))
        (fun t ht => .of_assign henclosing hplain hparts ht) (hturn.assign a rfl) span hagree
    obtain rfl := hy rfl
    exact ⟨y, u', s₁, s₂, { hrealized with source := hsource }⟩

end

/-- Where all parts take their turns, lowering an expression keeps its meaning. -/
theorem Simulates.of_everywhere (hnames : cx.names.Distinct)
    (henclosing : cx.metadata.semantics cx.enclosing.ty = .reference) (e : Expr)
    (hplain : e.Everywhere (·.IsPlain cx byRef)) (hturn : e.Everywhere (·.InTurn cx .used)) :
    Simulates cx I byRef e := by
  induction e using Expr.inductParts with
  | step e ih =>
    have hparts : ∀ c ∈ e.parts, Simulates cx I byRef c := fun c hc =>
      ih c hc (hplain.part c hc) (hturn.part c hc)
    have hdefaults : e.Everywhere (·.defaultsAreConstant = true) :=
      hplain.mono fun _ h => Expr.defaultsAreConstant_of_keepsOrder h.keepsOrder
    exact
      { order := .of_everywhere hnames.1 e (hplain.mono fun _ h => h.keepsOrder)
        confined := LowersConfined.of_everywhere e (hplain.mono fun _ h => h.avoidsTemps)
        avoidsTemps := hplain.here.avoidsTemps
        quiet := fun hquiet _ _ _ h =>
          have hinline := LowersInline.of_not_hasEffects e hdefaults hquiet h
          ⟨hinline.stmts, hinline.temps⟩
        simulated := fun h _ _ hagree =>
          (Lowers.of_lower h).simulated hnames henclosing hplain hturn.here hparts hagree }

/-- Run what an assignment contributes: its statements, and then the expression for its value
if there is one. -/
def LoweredAssignment.run (I : Interpretation) (names : RuntimeNames) (out : LoweredAssignment)
    (s : State I) : Option (Option I.Value × State I) := do
  let s ← Script.run I names out.statements s
  match out.result with
  | none => some (none, s)
  | some e => do
    let (v, s) ← e.eval I names s
    some (some v, s)

/-- **Lowering keeps the meaning.** Take any interpretation of what members, operators, calls
and stores do, and any assignment in the fragment of shared values whose parts take
their turns. If it can be lowered, then it can be evaluated, and running what it is
lowered to ends with the same heap and the same local variables, and with its value if
that is wanted. -/
theorem lowerAssignment_keepsMeaning (hnames : cx.names.Distinct)
    (henclosing : cx.metadata.semantics cx.enclosing.ty = .reference) {usage : Usage}
    {a : Assignment Expr} {span : Span}
    (hplain : Expr.Everywhere (·.IsPlain cx byRef) ⟨.assign a, span⟩)
    (hturn : a.InTurn cx usage)
    (hparts : ∀ c ∈ (⟨.assign a, span⟩ : Expr).parts, c.Everywhere (·.InTurn cx .used))
    {n n' : Nat} {v : Lowered} (h : lowerAssignment cx usage a span n = .ok v n')
    {s u : State I} (hagree : s.Agree cx.IsLocal u) :
    ∃ x u' result s', (⟨.assign a, span⟩ : Expr).eval cx I u = some (x, u') ∧
      (LoweredAssignment.ofLowered usage v).run I cx.names s = some (result, s') ∧
      s'.Agree cx.IsLocal u' ∧ (usage = .used → result = some x) := by
  have hsimulates : ∀ c ∈ (⟨.assign a, span⟩ : Expr).parts, Simulates cx I byRef c :=
    fun c hc => .of_everywhere hnames henclosing c (hplain.part c hc) (hparts c hc)
  obtain ⟨x, u', y, s₁, s₂, hsource, hrealized, hy⟩ :=
    (LowersAssign.of_lowerAssignment h).realized hnames (hsimulates _ (Expr.value_mem_parts a span))
      (fun t ht => .of_assign henclosing hplain hsimulates ht) hturn span hagree
  cases usage with
  | used =>
    refine ⟨x, u', some y, s₂, hsource, ?_, hrealized.agree, fun _ => congrArg _ (hy rfl)⟩
    simp [LoweredAssignment.run, LoweredAssignment.ofLowered, hrealized.run, hrealized.expr]
  | discarded =>
    refine ⟨x, u', none, s₂, hsource, ?_, hrealized.agree, fun h => by cases h⟩
    have hrun : Script.run I cx.names (v.stmts ++ [.expr v.expr]) s = some s₂ :=
      (Script.run_append hrealized.run).trans (Script.run_expr hrealized.expr)
    simp [LoweredAssignment.run, LoweredAssignment.ofLowered, hrun]

/-! ## One interpretation, and a chain -/

namespace Sample

/-- Values are integers, and the heap is the members of a single object. A call comes to what
the member of its name holds, and leaves its first argument there, or the next number. -/
def interpretation : Interpretation where
  Value := Int
  Heap := String → Int
  null := 0
  bool b := if b then 1 else 0
  number _ := 0
  string _ := 0
  this := 0
  typeHandle _ := 0
  array _ := 0
  truthy v := v ≠ 0
  binary _ v w := v + w
  defaultValue _ := 0
  member _ name heap := heap name
  index _ _ _ := 0
  multiGet _ _ := 0
  setMember _ name v heap := Function.update heap name v
  setIndex _ _ _ heap := heap
  call _ name args heap :=
    (heap name, Function.update heap name (args.head?.getD (heap name + 1)))
  helper _ _ heap := (0, heap)

def start : State interpretation := ⟨fun _ => (0 : Int), fun _ => (0 : Int)⟩

variable {byRef : String → Bool}

/-- A place is plain if its target is shared and it is no local variable. -/
theorem isPlain_place {p : Place Expr} (hlocal : ∀ l, p ≠ .localVar l)
    (horder : (⟨.place p, {}⟩ : Expr).keepsOrder (metadata .reference) = true)
    (htarget : ∀ t, (⟨.place p, {}⟩ : Expr).target (metadata .reference)
      (context .reference).enclosing = .ok t → t.Shared (metadata .reference)) :
    (⟨.place p, {}⟩ : Expr).IsPlain (context .reference) byRef where
  keepsOrder := horder
  avoidsTemps l hl := absurd (Form.place.inj hl) (hlocal l)
  localVar l hl := absurd (Form.place.inj hl) (hlocal l)
  target := htarget
  call r m args h := by cases h

theorem isPlain_this : this.IsPlain (context .reference) byRef :=
  isPlain_place (fun l hl => by cases hl) rfl fun t ht => by cases ht

theorem isPlain_field (name : String) : (field name).IsPlain (context .reference) byRef :=
  isPlain_place (fun l hl => by cases hl) rfl fun t ht => by
    cases ht
    exact ⟨rfl, fun _ _ => rfl, rfl, rfl⟩

theorem isPlain_property (name : String) :
    (property name).IsPlain (context .reference) byRef :=
  isPlain_place (fun l hl => by cases hl) rfl fun t ht => by
    cases ht
    exact ⟨rfl, fun _ _ => rfl, rfl, rfl⟩

theorem isPlain_call (name : String) (args : List Expr) :
    (call name args).IsPlain (context .reference) byRef where
  keepsOrder := rfl
  avoidsTemps l hl := by cases hl
  localVar l hl := by cases hl
  target t ht := by cases ht
  call r m args h := by
    cases h
    exact ⟨fun _ h => (by cases h), fun _ _ => rfl⟩

theorem isPlain_assign (target : Expr) (op : AssignOp) (value : Expr) :
    (assign target op value).IsPlain (context .reference) byRef where
  keepsOrder := rfl
  avoidsTemps l hl := by cases hl
  localVar l hl := by cases hl
  target t ht := by cases ht
  call r m args h := by cases h

end Sample

open Sample in
theorem lowerAssignment_keepsMeaning_chain : ∃ v x u' result s',
    lowerAssignment (context .reference) .used
      ⟨field "f", .assign, assign (property "P") .addAssign (call "F" [])⟩ {} 0 = .ok v 2 ∧
      (assign (field "f") .assign (assign (property "P") .addAssign (call "F" []))).eval
        (context .reference) interpretation start = some (x, u') ∧
      (LoweredAssignment.ofLowered .used v).run interpretation (context .reference).names start =
        some (result, s') ∧
      s'.Agree (context .reference).IsLocal u' ∧ result = some x := by
  have hplain : Expr.Everywhere (·.IsPlain (context .reference) fun _ => false)
      (assign (field "f") .assign (assign (property "P") .addAssign (call "F" []))) :=
    everywhere_assign (isPlain_assign ..) (everywhere_field (isPlain_field _) isPlain_this)
      (everywhere_assign (isPlain_assign ..) (everywhere_property (isPlain_property _) isPlain_this)
        (everywhere_call (isPlain_call ..) isPlain_this (by simp)))
  have hthis : this.Everywhere (·.InTurn (context .reference) .used) :=
    everywhere_this ⟨fun _ _ _ _ h => (by cases h), fun _ h => (by cases h)⟩
  have hcall : (call "F" []).Everywhere (·.InTurn (context .reference) .used) :=
    everywhere_call ⟨fun _ _ _ _ h => (by cases h), fun _ h => (by cases h)⟩ hthis.here (by simp)
  have hproperty : (property "P").Everywhere (·.InTurn (context .reference) .used) :=
    everywhere_property ⟨fun _ _ _ _ h => (by cases h), fun _ h => (by cases h)⟩ hthis.here
  have hinner : (assign (property "P") .addAssign (call "F" [])).Everywhere
      (·.InTurn (context .reference) .used) := by
    refine everywhere_assign ⟨fun _ _ _ _ h => (by cases h), fun a ha => ?_⟩ hproperty hcall
    cases ha
    refine ⟨fun t op ht hop hnative => ?_, fun _ t ht hop => (by cases hop)⟩
    cases ht
    cases hnative
  have hturn : Assignment.InTurn (context .reference) .used
      ⟨field "f", .assign, assign (property "P") .addAssign (call "F" [])⟩ := by
    refine ⟨fun _ _ _ hop => (by cases hop), fun _ t ht _ hnative => ?_⟩
    cases ht
    cases hnative
  have hparts : ∀ c ∈ (assign (field "f") .assign
      (assign (property "P") .addAssign (call "F" []))).parts,
      c.Everywhere (·.InTurn (context .reference) .used) := by
    intro c hc
    obtain rfl | hc := List.mem_cons.1 hc
    · exact hthis
    · obtain rfl := List.mem_singleton.1 hc
      exact hinner
  have hlower : ∃ v, lowerAssignment (context .reference) .used
      ⟨field "f", .assign, assign (property "P") .addAssign (call "F" [])⟩ {} 0 = .ok v 2 :=
    ⟨_, rfl⟩
  obtain ⟨v, hv⟩ := hlower
  obtain ⟨x, u', result, s', heval, hrun, hagree, hresult⟩ :=
    lowerAssignment_keepsMeaning (by decide) rfl hplain hturn hparts hv (State.Agree.refl start)
  exact ⟨v, x, u', result, s', hv, heval, hrun, hagree, hresult rfl⟩

end AssignmentLowering
