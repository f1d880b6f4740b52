import AssignmentLowering.Proofs.Lowering.Untouched
import AssignmentLowering.Proofs.Meaning.Reached

/-!
# Stores keep their meaning

An assignment in script stores what the assignment in source stores, and comes to the same
value if that is wanted. A compound operator of script reads the old value where the
target is found, behind the statements of the value; so these must do nothing. Where
the target is read by a call, the old value is put into a temporary if the value has
effects.

## Main definitions

* `Assignment.InTurn` — the parts of an assignment take their turns.
* `RealizesAssign` — script that does what an assignment does.

## Main statements

* `LowersAssign.realized` — lowering an assignment keeps its meaning.
-/

namespace AssignmentLowering

open Script (Stmt)

variable {I : Interpretation} {cx : Context} {byRef : String → Bool}

/-! ## What a store leaves alone -/

namespace Target

variable {names : RuntimeNames} {t : Target Expr} {l : Location I} {s s' : State I} {v : I.Value}

theorem get_of_isNative (h : t.isNative = true) :
    t.get names l s = (t.reference names l s.vars).map fun place => (place.get s, s) := by
  unfold isNative at h
  unfold get getter? Storage.getter?
  cases hk : t.kind <;> cases hs : t.storage <;> simp [hk, hs] at h ⊢

theorem put_of_isNative (h : t.isNative = true) :
    t.put names l v s = (t.reference names l s.vars).map fun place => place.set s v := by
  unfold isNative at h
  unfold put setter? Storage.setter?
  cases hk : t.kind <;> cases hs : t.storage <;> simp [hk, hs] at h ⊢

theorem store_of_isNative (h : t.isNative = true) {a : Address} {place value : Script.Expr}
    (hplace : t.native names a = .ok place) :
    t.store names a value = .ok (.assign place value) := by
  unfold isNative at h
  unfold store setter? Storage.setter?
  cases hk : t.kind <;> cases hs : t.storage <;> simp [hk, hs, hplace, Except.map] at h ⊢

/-- Only a target that is a variable assigns one. -/
theorem vars_put (hput : t.put names l v s = some s') {y : String} (hy : t.kind ≠ .localVar y) :
    s'.vars y = s.vars y :=
  (put_congr (State.Agree.refl (p := fun _ => True) s) (fun _ _ => trivial) hput).1 y hy

end Target

section

variable {t : Target Expr} {a : Assignment Expr} {l : Location I} {v : I.Value} {n : Nat}
  {s s' : State I}

/-- What is evaluated for an assignment assigns nothing that the assignment does not. -/
theorem Keeps.assignment (htarget : a.target.target cx.metadata cx.enclosing = .ok t)
    (span : Span) (h : Keeps cx byRef n (t.operands ++ [a.value]) s s') :
    Keeps cx byRef n [⟨.assign a, span⟩] s s' := by
  refine h.mono le_rfl fun e he y hy => ⟨_, List.mem_singleton_self _, ?_⟩
  obtain ⟨p, hp, hplace⟩ := Expr.target_arranges htarget
  obtain he | he := List.mem_append.1 he
  · rw [Target.operands_ofPlace hplace] at he
    have hmem : e ∈ a.target.operands := by
      rw [Expr.operands, hp]
      exact he
    exact Expr.writes_of_mem_operands (c := a.target) (by simp [Expr.operands, Form.operands])
      (Expr.writes_of_mem_operands hmem hy)
  · obtain rfl := List.mem_singleton.1 he
    exact Expr.writes_of_mem_operands (by simp [Expr.operands, Form.operands]) hy

theorem Target.Placed.keeps_put (ht : t.Placed cx I byRef)
    (htarget : a.target.target cx.metadata cx.enclosing = .ok t) (span : Span)
    (hput : t.put cx.names l v s = some s') (m : Nat) :
    Keeps cx byRef m [⟨.assign a, span⟩] s s' := by
  refine ⟨fun k _ => Target.vars_put hput fun hk => (ht.localVar _ hk).1 k rfl,
    fun y _ hkept => Target.vars_put hput fun hy => ?_⟩
  obtain ⟨-, hbyRef, -⟩ := ht.localVar y hy
  obtain ⟨p, hp, hplace⟩ := Expr.target_arranges htarget
  obtain ⟨x, rfl, hx⟩ := (Classified.of_ofPlace hplace).exists_localVar (.inl hy)
  obtain h | h := hkept
  · simp [hbyRef] at h
  · have hwrites := h _ (List.mem_singleton_self _)
    rw [Expr.writes_eq, Bool.or_eq_false_iff] at hwrites
    simp [Expr.isLocal, hp, hx] at hwrites

theorem Target.Placed.vars_put (ht : t.Placed cx I byRef) (hnative : t.isNative = false)
    (hput : t.put cx.names l v s = some s') : s'.vars = s.vars := by
  funext y
  refine Target.vars_put hput fun hy => ?_
  simp [(ht.localVar y hy).2.2] at hnative

end

/-! ## Assignments -/

/-- An expression whose statements do nothing that can be noticed, wherever it is lowered. -/
def Expr.Stays (cx : Context) (e : Expr) : Prop :=
  ∀ {n n' : Nat} {w : Lowered}, e.lower cx n = .ok w n' → Script.events cx.names w.stmts = []

/-- Whether the parts of an assignment take their turns in script. Otherwise statements of the
value run before a compound operator of script reads the old value, or a value that is
used twice overtakes the operands of its target. -/
structure Assignment.InTurn (cx : Context) (usage : Usage) (a : Assignment Expr) : Prop where
  oldValue : ∀ t op, a.target.target cx.metadata cx.enclosing = .ok t → a.op.binary? = some op →
    t.isNative = true → a.value.Stays cx
  kept : usage = .used → ∀ t, a.target.target cx.metadata cx.enclosing = .ok t →
    a.op.binary? = none → t.isNative = false → t.Yields cx a.value

section

variable {usage : Usage} {a : Assignment Expr} {t : Target Expr} {n n' : Nat}
  {s u u' s₁ s₂ : State I} {x : I.Value}

/-- A store as a statement with its result behind it, or as the expression itself. -/
theorem Realized.finish {e : Expr} {stmts : List Stmt} {store : Script.Expr} {result : Value}
    {z : I.Value} (hrun : Script.run I cx.names stmts s = some s₁)
    (hstore : store.eval I cx.names s₁ = some (z, s₂)) (hagree : s₂.Agree cx.IsLocal u')
    (hkeeps : Keeps cx byRef n [e] s s₁) (hkeeps' : ∀ m, Keeps cx byRef m [e] s₁ s₂)
    (hresult : usage = .used → result.expr.eval I cx.names s₂ = some (x, s₂))
    (hstable : usage = .used → result.stable = true → ∀ s' : State I,
      (∀ k, k ≤ n' → s'.vars (cx.temp k) = s₂.vars (cx.temp k)) →
        result.expr.eval I cx.names s' = some (x, s')) :
    ∃ y s₁ s₂, Realized cx I byRef e n (usage.finish store result stmts) n' s y u' s₁ s₂ ∧
      (usage = .used → y = x) := by
  cases usage with
  | used =>
    exact ⟨x, s₂, s₂,
      { run := (Script.run_append hrun).trans (Script.run_expr hstore), expr := hresult rfl
        agree := hagree, keeps_run := hkeeps.trans (hkeeps' n), keeps_expr := fun _ => .refl s₂
        stable := hstable rfl }, fun _ => rfl⟩
  | discarded =>
    exact ⟨z, s₁, s₂,
      { run := hrun, expr := hstore, agree := hagree, keeps_run := hkeeps
        keeps_expr := hkeeps', stable := fun h => by cases h }, fun h => by cases h⟩

namespace Reached

variable {o : Expr} {c : Capture} {addr : LoweredAddress} {v : Value} {stmts stmts' : List Stmt}
  {l : Location I} {u₁ u₂ s₃ : State I}

/-- A variable that is held in a cell still holds it when the value is at hand. -/
theorem vars_cell (h : Reached cx I byRef t o c n addr v stmts stmts' n' s u l x u₁ u₂ s₁ s₂ s₃)
    (ht : t.Placed cx I byRef) {name : String} (hname : t.kind = .cell name) :
    s₃.vars name = s₂.vars name :=
  (h.keeps_expr 0).locals name (ht.isLocal (.inr hname)) (.inl (ht.cell name hname).2.1)

/-- What is found and then stored is stored in the source as well. -/
theorem stored (h : Reached cx I byRef t o c n addr v stmts stmts' n' s u l x u₁ u₂ s₁ s₂ s₃)
    (ht : t.Placed cx I byRef) (hfits : addr.address.Fits t) (hnames : cx.names.Distinct)
    {store : Script.Expr} (hstore : t.store cx.names addr.address v.expr = .ok store) :
    ∃ z s₄ u₃, store.eval I cx.names s₁ = some (z, s₄) ∧ t.put cx.names l x s₃ = some s₄ ∧
      t.put cx.names l x u₂ = some u₃ ∧ s₄.Agree cx.IsLocal u₃ ∧ (t.isNative = true → z = x) := by
  obtain ⟨z, s₄, hput, heval, hz⟩ := Target.eval_store ht.wellFormed hfits hnames ht.room
    ht.shared.setter h.finds h.expr (fun _ => h.vars_cell ht) hstore
  obtain ⟨-, u₃, hput', hagree⟩ :=
    Target.put_congr h.agree (fun _ hname => ht.isLocal (.inr hname)) hput
  exact ⟨z, s₄, u₃, heval, hput, hput', hagree, hz⟩

theorem keeps_all
    (h : Reached cx I byRef t o c n addr v stmts stmts' n' s u l x u₁ u₂ s₁ s₂ s₃) (m : Nat) :
    Keeps cx byRef m (t.operands ++ [o]) s₁ s₃ :=
  ((h.keeps_finds m).of_subset le_rfl (List.subset_append_left ..)).trans
    ((h.keeps_expr m).of_subset le_rfl (List.subset_append_right ..))

end Reached

variable {w : Lowered} {addr : LoweredAddress} {v : Value} {place : Script.Expr}
  {stmts stmts' : List Stmt} {m : Nat}

/-- What lowering an assignment owes to it. -/
def RealizesAssign (cx : Context) (I : Interpretation) (byRef : String → Bool) (usage : Usage)
    (a : Assignment Expr) (span : Span) (n : Nat) (w : Lowered) (n' : Nat) (s u : State I) : Prop :=
  ∃ x u' y s₁ s₂, (⟨.assign a, span⟩ : Expr).eval cx I u = some (x, u') ∧
    Realized cx I byRef ⟨.assign a, span⟩ n w n' s y u' s₁ s₂ ∧ (usage = .used → y = x)

theorem RealizesAssign.native (hnames : cx.names.Distinct) (ho : Simulates cx I byRef a.value)
    (ht : t.Placed cx I byRef) (htarget : a.target.target cx.metadata cx.enclosing = .ok t)
    (hop : a.op.binary? = none) (hnative : t.isNative = true)
    (haddr : Addressed cx false [a.value] t n addr stmts m)
    (htaken : Taken cx {} [] a.value m v stmts' n')
    (hplace : t.native cx.names addr.address = .ok place) (span : Span)
    (hagree : s.Agree cx.IsLocal u) :
    RealizesAssign cx I byRef usage a span n
      { expr := .assign place v.expr, fresh := v.fresh, stable := false, stmts := stmts ++ stmts' }
      n' s u := by
  obtain ⟨l, x, u₁, u₂, s₁, s₂, s₃, hr⟩ :=
    haddr.reached ht ho htaken rfl (fun h => by cases h) hagree
  obtain ⟨z, s₄, u₃, heval, hput, hput', hagree', hz⟩ :=
    hr.stored ht haddr.fits hnames (Target.store_of_isNative hnative hplace)
  refine ⟨x, u₃, z, s₁, s₄, ?_,
    { run := hr.run, expr := heval, agree := hagree'
      keeps_run := hr.keeps_run.assignment htarget span
      keeps_expr := fun k =>
        ((hr.keeps_all k).assignment htarget span).trans (ht.keeps_put htarget span hput k)
      stable := fun h => by cases h }, fun _ => hz hnative⟩
  simp [Expr.eval_assign htarget, hr.locate, storeMeaning, hop, hr.source, hput']

theorem RealizesAssign.byCall (hnames : cx.names.Distinct) (ho : Simulates cx I byRef a.value)
    (ht : t.Placed cx I byRef) (htarget : a.target.target cx.metadata cx.enclosing = .ok t)
    (hop : a.op.binary? = none) (hnative : t.isNative = false)
    (hyields : usage = .used → t.Yields cx a.value)
    (haddr : Addressed cx false [a.value] t n addr stmts m)
    (htaken : Taken cx ⟨usage.isUsed, false⟩ [] a.value m v stmts' n') {store : Script.Expr}
    (hstore : t.store cx.names addr.address v.expr = .ok store) (span : Span)
    (hagree : s.Agree cx.IsLocal u) :
    RealizesAssign cx I byRef usage a span n
      (usage.finish store ⟨v.expr, false, v.stable⟩ (stmts ++ stmts')) n' s u := by
  have hturn : usage.isUsed = true → a.value.hasEffects cx.metadata = true ∨
      (∀ {n n' : Nat} {w : Lowered}, a.value.lower cx n = .ok w n' →
        w.expr.isReusable = true) ∨ addr.address.events cx.names = [] := by
    intro hu
    have hused : usage = .used := by cases usage <;> simp [Usage.isUsed] at hu ⊢
    exact (hyields hused).imp id fun h => h.imp id fun h => h haddr
  obtain ⟨l, x, u₁, u₂, s₁, s₂, s₃, hr⟩ := haddr.reached ht ho htaken rfl hturn hagree
  obtain ⟨z, s₄, u₃, heval, hput, hput', hagree', -⟩ := hr.stored ht haddr.fits hnames hstore
  have hvars := ht.vars_put hnative hput
  have hsource : (⟨.assign a, span⟩ : Expr).eval cx I u = some (x, u₃) := by
    simp [Expr.eval_assign htarget, hr.locate, storeMeaning, hop, hr.source, hput']
  -- A value that is used twice has its value for good.
  have hresult : usage = .used → v.expr.eval I cx.names s₄ = some (x, s₄) := by
    intro hused
    have hreuse : usage.isUsed = true := by
      rw [hused]
      rfl
    have hsame := (hr.hold hreuse s₂ (.refl s₂)).symm.trans hr.expr
    simp only [Option.some.injEq, Prod.mk.injEq, true_and] at hsame
    have hvars' : s₄.vars = s₂.vars := by rw [hvars, hsame]
    exact hr.hold hreuse s₄ ⟨fun k _ => congrFun hvars' _, fun y _ _ => congrFun hvars' y⟩
  have hstable : v.stable = true → ∀ s' : State I,
      (∀ k, k ≤ n' → s'.vars (cx.temp k) = s₄.vars (cx.temp k)) →
        v.expr.eval I cx.names s' = some (x, s') := by
    refine fun hstable s' hs' => hr.stable hstable s' fun k hk => ?_
    rw [hs' k hk, hvars, (hr.keeps_all k).temps k le_rfl]
  have hfinish : ∃ y sa sb, Realized cx I byRef ⟨.assign a, span⟩ n
      (usage.finish store ⟨v.expr, false, v.stable⟩ (stmts ++ stmts')) n' s y u₃ sa sb ∧
        (usage = .used → y = x) :=
    Realized.finish hr.run heval hagree' (hr.keeps_run.assignment htarget span)
      (fun k =>
        ((hr.keeps_all k).assignment htarget span).trans (ht.keeps_put htarget span hput k))
      hresult fun _ => hstable
  obtain ⟨y, sa, sb, hrealized, hy⟩ := hfinish
  exact ⟨x, u₃, y, sa, sb, hsource, hrealized, hy⟩

theorem RealizesAssign.compoundNative (ho : Simulates cx I byRef a.value)
    (ht : t.Placed cx I byRef) (htarget : a.target.target cx.metadata cx.enclosing = .ok t)
    {op : BinaryOp} (hop : a.op.binary? = some op) (hnative : t.isNative = true)
    (hstays : a.value.Stays cx) (haddr : Addressed cx false [a.value] t n addr stmts m)
    (htaken : Taken cx {} [] a.value m v stmts' n')
    (hplace : t.native cx.names addr.address = .ok place) (span : Span)
    (hagree : s.Agree cx.IsLocal u) :
    RealizesAssign cx I byRef usage a span n
      { expr := .compoundAssign op place v.expr, fresh := true, stable := false,
        stmts := stmts ++ stmts' } n' s u := by
  obtain ⟨l, x, u₁, u₂, s₁, s₂, s₃, hr⟩ :=
    haddr.reached ht ho htaken rfl (fun h => by cases h) hagree
  obtain ⟨ref, href, hreference⟩ :=
    Target.eval_native ht.wellFormed haddr.fits ht.room hr.finds hplace
  -- The old value is read where the target is found, before the value changes anything.
  have hold : s₂.Agree cx.IsLocal u₁ := by
    obtain ⟨w, hlower, -, hstmts⟩ := htaken.of_last
    exact hr.old (hstmts ▸ hstays hlower)
  have hget : t.get cx.names l s₂ = some (ref.get s₂, s₂) := by
    rw [Target.get_of_isNative hnative, href]
    rfl
  obtain ⟨-, u₁', hget', hsame⟩ := Target.get_congr hold (fun _ => ht.isLocal) hget
  have hu₁ : u₁' = u₁ := by
    rw [Target.get_of_isNative hnative, Option.map_eq_some_iff] at hget'
    obtain ⟨_, -, h⟩ := hget'
    exact (congrArg Prod.snd h).symm
  subst hu₁
  have hput : t.put cx.names l (I.binary op (ref.get s₂) x) s₃ =
      some (ref.set s₃ (I.binary op (ref.get s₂) x)) := by
    rw [Target.put_of_isNative hnative, Target.reference_congr (fun _ => hr.vars_cell ht), href]
    rfl
  obtain ⟨-, u₃, hput', hagree'⟩ :=
    Target.put_congr hr.agree (fun _ hname => ht.isLocal (.inr hname)) hput
  refine ⟨I.binary op (ref.get s₂) x, u₃, _, s₁, _, ?_,
    { run := hr.run, expr := ?_, agree := hagree'
      keeps_run := hr.keeps_run.assignment htarget span
      keeps_expr := fun k =>
        ((hr.keeps_all k).assignment htarget span).trans (ht.keeps_put htarget span hput k)
      stable := fun h => by cases h }, fun _ => rfl⟩
  · simp [Expr.eval_assign htarget, hr.locate, storeMeaning, hop, hget', hr.source,
      hput']
  · simp [Script.Expr.eval, hreference, hr.expr]

/-- The old value of a target that is read by a call, combined with the value. The source is at
`u₁` when the target is found and at `u₂` in the end; the script is at `s₁` then, at `s₂`
when the statements have run, and at `s₃` in the end. -/
structure Combined (cx : Context) (I : Interpretation) (byRef : String → Bool) (t : Target Expr)
    (value : Expr) (op : BinaryOp) (n : Nat) (e : Script.Expr) (stmts : List Stmt) (n' : Nat)
    (l : Location I) (y : I.Value) (u₁ u₂ s₁ s₂ s₃ : State I) : Prop where
  source : ∃ old x u, t.get cx.names l u₁ = some (old, u) ∧
    value.eval cx I u = some (x, u₂) ∧ y = I.binary op old x
  run : Script.run I cx.names stmts s₁ = some s₂
  expr : e.eval I cx.names s₂ = some (y, s₃)
  agree : s₃.Agree cx.IsLocal u₂
  keeps_run : Keeps cx byRef n [value] s₁ s₂
  keeps_expr : ∀ m, Keeps cx byRef m [value] s₂ s₃

/-- The old value is read first: into a temporary if the value has effects, and in place if not,
where the value stands in place as well. -/
theorem Combined.of_held (hnames : cx.names.Distinct) (ho : Simulates cx I byRef a.value)
    (ht : t.Placed cx I byRef) {address : Address} (hfits : address.Fits t) {l : Location I}
    {u₁ s₁ : State I} (hfinds : address.Finds cx.names l s₁ s₁) (hagree : s₁.Agree cx.IsLocal u₁)
    {load old : Script.Expr} (hload : t.load cx.names address = .ok load)
    (hold : Held cx load n (a.value.hasEffects cx.metadata) old stmts m)
    (htaken : Taken cx {} [] a.value m v stmts' n') {op : BinaryOp}
    (hop : op.shortCircuits = false) :
    ∃ y u₂ s₂ s₃, Combined cx I byRef t a.value op n (.binary op old v.expr) (stmts ++ stmts') n'
      l y u₁ u₂ s₁ s₂ s₃ := by
  obtain ⟨before, so, hget, hread⟩ :=
    Target.eval_load ht.wellFormed hfits hnames ht.room ht.shared.getter hfinds hload
  obtain ⟨hvars, uo, hget', hagree'⟩ := Target.get_congr hagree (fun _ => ht.isLocal) hget
  have hkeeps : ∀ k, Keeps cx byRef k [a.value] s₁ so := fun _ =>
    ⟨fun _ _ => congrFun hvars _, fun _ _ _ => congrFun hvars _⟩
  have hskips : ∀ x, I.skips op x = false := by
    intro x
    cases op <;> simp [BinaryOp.shortCircuits] at hop <;> rfl
  cases heffects : a.value.hasEffects cx.metadata with
  | true =>
    rw [heffects] at hold
    cases hold
    obtain ⟨x, u₂, s₂, s₃, hv, -⟩ :=
      htaken.simulated ho (hagree'.set_left (fun hlocal => hlocal (n + 1) rfl) before)
    have htemp : s₂.vars (cx.temp (n + 1)) = before := by
      rw [hv.keeps_run.temps _ le_rfl, State.vars_set_self]
    refine ⟨I.binary op before x, u₂, s₂, s₃,
      { source := ⟨before, x, uo, hget', hv.source, rfl⟩
        run := (Script.run_append (Script.run_declare hread)).trans hv.run, expr := ?_
        agree := hv.agree
        keeps_run := ((hkeeps n).set (by omega) before).trans
          (hv.keeps_run.of_subset (by omega) (List.Subset.refl _))
        keeps_expr := hv.keeps_expr }⟩
    simp [Script.Expr.eval, htemp, hskips, hv.expr]
  | false =>
    rw [heffects] at hold
    cases hold
    obtain ⟨rfl, rfl⟩ := htaken.inline_of_quiet ho heffects rfl rfl
    obtain ⟨x, u₂, s₂, s₃, hv, -⟩ := htaken.simulated ho hagree'
    cases hv.run
    refine ⟨I.binary op before x, u₂, s₁, s₃,
      { source := ⟨before, x, uo, hget', hv.source, rfl⟩, run := rfl, expr := ?_
        agree := hv.agree, keeps_run := .refl s₁
        keeps_expr := fun k => (hkeeps k).trans (hv.keeps_expr k) }⟩
    simp [Script.Expr.eval, hread, hskips, hv.expr]

theorem Held.le {e x : Script.Expr} {flag : Bool} (h : Held cx e n flag x stmts n') : n ≤ n' := by
  cases h <;> omega

/-- An expression kept in place, or held in a temporary, keeps its value. -/
theorem Held.realized {o : Expr} {e x : Script.Expr} {flag : Bool} {y : I.Value} {s' : State I}
    (h : Held cx e n flag x stmts n') (heval : e.eval I cx.names s = some (y, s'))
    (hagree : s'.Agree cx.IsLocal u) (hkeeps : ∀ k, Keeps cx byRef k [o] s s') :
    ∃ s₁ s₂, Realized cx I byRef o n ⟨⟨x, false, flag⟩, stmts⟩ n' s y u s₁ s₂ := by
  cases h with
  | inline =>
    exact ⟨s, s', rfl, heval, hagree, .refl s, hkeeps, fun h => by cases h⟩
  | captured =>
    have htemp : ∀ s'' : State I, (∀ k, k ≤ n + 1 → s''.vars (cx.temp k) =
        (s'.set (cx.temp (n + 1)) y).vars (cx.temp k)) →
        (Script.Expr.ident (cx.temp (n + 1))).eval I cx.names s'' = some (y, s'') := by
      intro s'' hs''
      rw [Script.Expr.eval, hs'' (n + 1) le_rfl, State.vars_set_self]
    exact ⟨_, _, Script.run_declare heval, htemp _ fun _ _ => rfl,
      hagree.set_left (fun hlocal => hlocal _ rfl) y, (hkeeps n).set (by omega) y,
      fun _ => .refl _, fun _ => htemp⟩

theorem RealizesAssign.compoundByCall (hnames : cx.names.Distinct)
    (ho : Simulates cx I byRef a.value) (ht : t.Placed cx I byRef)
    (htarget : a.target.target cx.metadata cx.enclosing = .ok t) {op : BinaryOp}
    (hop : a.op.binary? = some op) (hnative : t.isNative = false)
    {load old new store : Script.Expr} {stmts₁ stmts₂ stmts₃ : List Stmt} {n₁ n₂ n₃ : Nat}
    (haddr : Addressed cx true [a.value] t n addr stmts n₁)
    (hload : t.load cx.names addr.address = .ok load)
    (hold : Held cx load n₁ (a.value.hasEffects cx.metadata) old stmts₁ n₂)
    (htaken : Taken cx {} [] a.value n₂ v stmts₂ n₃)
    (hnew : Held cx (.binary op old v.expr) n₃ usage.isUsed new stmts₃ n')
    (hstore : t.store cx.names addr.address new = .ok store) (span : Span)
    (hagree : s.Agree cx.IsLocal u) :
    RealizesAssign cx I byRef usage a span n
      (usage.finish store ⟨new, false, true⟩ (stmts ++ stmts₁ ++ stmts₂ ++ stmts₃)) n' s u := by
  obtain ⟨l, u₁, _, s₁, hloc⟩ := haddr.located ht.toSimulates hagree
  obtain rfl := hloc.eq_of_settled (.inl rfl)
  obtain ⟨y, u₂, s₂, s₃, hc⟩ := Combined.of_held hnames ho ht haddr.fits hloc.finds hloc.agree
    hload hold htaken (AssignOp.shortCircuits_binary? hop)
  obtain ⟨before, x, uo, hget, hsource, rfl⟩ := hc.source
  have hn : n ≤ n₁ := (haddr.confined ht.avoids).le
  have hn₃ : n₁ ≤ n₃ := hold.le.trans (htaken.confined ho.confined).le
  have hrun : Script.run I cx.names (stmts ++ stmts₁ ++ stmts₂) s = some s₂ := by
    rw [List.append_assoc]
    exact (Script.run_append hloc.run).trans hc.run
  obtain ⟨s₄, s₅, hsum⟩ := hnew.realized hc.expr hc.agree hc.keeps_expr
  -- The operands are used once more behind the statements of the value.
  have hkept : Keeps cx byRef n₁ [a.value] s₁ s₄ :=
    hc.keeps_run.trans (hsum.keeps_run.of_subset hn₃ (List.Subset.refl _))
  have hfinds := hloc.settled (.inl rfl) s₄ hkept
  have hcell : ∀ name, t.kind ≠ .cell name := fun name hname => by
    simp [(ht.cell name hname).2.2] at hnative
  obtain ⟨z, s₆, hput, heval, -⟩ := Target.eval_store ht.wellFormed haddr.fits hnames ht.room
    ht.shared.setter hfinds hsum.expr (fun name hname => absurd hname (hcell name)) hstore
  obtain ⟨-, u₃, hput', hagree'⟩ :=
    Target.put_congr hsum.agree (fun name hname => absurd hname (hcell name)) hput
  have hvars := ht.vars_put hnative hput
  have heval' : (⟨.assign a, span⟩ : Expr).eval cx I u = some (I.binary op before x, u₃) := by
    simp [Expr.eval_assign htarget, hloc.source, storeMeaning, hop, hget, hsource,
      hput']
  have hkeeps : Keeps cx byRef n (t.operands ++ [a.value]) s s₄ :=
    (hloc.keeps_run.of_subset le_rfl (List.subset_append_left ..)).trans
      (hkept.of_subset hn (List.subset_append_right ..))
  have hkeeps' : ∀ k, Keeps cx byRef k (t.operands ++ [a.value]) s₄ s₅ := fun k =>
    (hsum.keeps_expr k).of_subset le_rfl (List.subset_append_right ..)
  have hstable : usage = .used → ∀ s' : State I,
      (∀ k, k ≤ n' → s'.vars (cx.temp k) = s₆.vars (cx.temp k)) →
        new.eval I cx.names s' = some (I.binary op before x, s') := by
    rintro rfl s' hs'
    refine hsum.stable rfl s' fun k hk => ?_
    rw [hs' k hk, hvars, (hkeeps' k).temps k le_rfl]
  have hfinish : ∃ y sa sb, Realized cx I byRef ⟨.assign a, span⟩ n
      (usage.finish store ⟨new, false, true⟩ (stmts ++ stmts₁ ++ stmts₂ ++ stmts₃)) n' s y u₃
        sa sb ∧
        (usage = .used → y = I.binary op before x) :=
    Realized.finish ((Script.run_append hrun).trans hsum.run) heval hagree'
      (hkeeps.assignment htarget span)
      (fun k => ((hkeeps' k).assignment htarget span).trans (ht.keeps_put htarget span hput k))
      (fun hused => hstable hused s₆ fun _ _ => rfl) fun hused _ => hstable hused
  obtain ⟨y, sa, sb, hrealized, hy⟩ := hfinish
  exact ⟨_, u₃, y, sa, sb, heval', hrealized, hy⟩

/-- Lowering an assignment keeps its meaning if its parts take their turns. -/
theorem LowersAssign.realized (hnames : cx.names.Distinct) (ho : Simulates cx I byRef a.value)
    (htargets : ∀ t, a.target.target cx.metadata cx.enclosing = .ok t → t.Placed cx I byRef)
    (hturn : a.InTurn cx usage) (h : LowersAssign cx usage a n w n') (span : Span)
    (hagree : s.Agree cx.IsLocal u) : RealizesAssign cx I byRef usage a span n w n' s u := by
  cases h with
  | native htarget hop hnative _ haddr htaken hplace =>
    have ht := htargets _ htarget
    rw [cx.copied_of_shared ht.shared.ty]
    exact .native hnames ho ht htarget hop hnative haddr htaken hplace span hagree
  | readBack htarget _ _ hcopied =>
    simp [(htargets _ htarget).shared.ty] at hcopied
  | compoundNative htarget hop hnative haddr htaken hplace =>
    exact .compoundNative ho (htargets _ htarget) htarget hop hnative
      (hturn.oldValue _ _ htarget hop hnative) haddr htaken hplace span hagree
  | byCall htarget hop hnative haddr htaken hstore =>
    have ht := htargets _ htarget
    rw [haddr.passed_of_shared ht.shared, cx.copied_of_shared ht.shared.ty] at hstore
    rw [ht.shared.setter] at haddr
    simp only [ht.isReceiver, ht.shared.setter, Bool.not_false, Bool.and_true,
      Bool.or_false] at htaken
    rw [ht.isReceiver, if_neg Bool.false_ne_true]
    exact .byCall hnames ho ht htarget hop hnative
      (fun hused => hturn.kept hused _ htarget hop hnative) haddr htaken hstore span hagree
  | compoundByCall htarget hop hnative _ haddr hload hold htaken hnew hstore =>
    have ht := htargets _ htarget
    rw [haddr.passed_of_shared ht.shared] at hload
    rw [haddr.passed_of_shared ht.shared, cx.copied_of_shared ht.shared.ty] at hstore
    rw [ht.shared.setter, Bool.or_false] at hnew
    exact .compoundByCall hnames ho ht htarget hop hnative haddr hload hold htaken hnew hstore
      span hagree

end

end AssignmentLowering
