import AssignmentLowering.Proofs.Effects.Order

/-!
# What has no effects is lowered to nothing but its value

An expression whose evaluation goes unnoticed is lowered to one expression of script,
with no statements before it and no temporary. That expression only reads: it contains no
assignment, no text of a template, and no call but those of the two runtime functions
that compute nothing but a value. Every decision to leave an operand in place rests on
this. Defaults are left out by the question for effects, so they have to be constants.

## Main definitions

* `Script.Expr.Quiet` — script that only reads.
* `Inline` — operands lowered to quiet script alone.
* `Expr.defaultsAreConstant` — the condition on defaults, for one expression.

## Main statements

* `Addressed.staysInline`, `Target.quiet_load` — the operands of a place, and the place.
* `inline_of_not_hasEffects` — what has no effects is lowered to quiet script alone.
-/

namespace AssignmentLowering

open Script (Stmt)

namespace Script

/-- Script that only reads. The runtime functions that it may call get an element by
several indices and make a default value. -/
inductive Expr.Quiet (names : RuntimeNames) : Expr → Prop
  | null : Quiet names .null
  | bool (value : Bool) : Quiet names (.bool value)
  | number (value : Binary64) : Quiet names (.number value)
  | string (value : String) : Quiet names (.string value)
  | ident (name : String) : Quiet names (.ident name)
  | this : Quiet names .this
  | typeHandle (name : String) : Quiet names (.typeHandle name)
  | member {object : Expr} (hobject : Quiet names object) (name : String) :
      Quiet names (.member object name)
  | index {object i : Expr} (hobject : Quiet names object) (hi : Quiet names i) :
      Quiet names (.index object i)
  | array {items : List Expr} (hitems : ∀ e ∈ items, Quiet names e) : Quiet names (.array items)
  | binary {left right : Expr} (op : BinaryOp) (hleft : Quiet names left)
      (hright : Quiet names right) : Quiet names (.binary op left right)
  | multiGet {args : List Expr} (hargs : ∀ e ∈ args, Quiet names e) :
      Quiet names (.call (.ident names.multiGet) args)
  | defaultValue {args : List Expr} (hargs : ∀ e ∈ args, Quiet names e) :
      Quiet names (.call (.ident names.defaultValue) args)

end Script

/-- Operands lowered from `n` to `n'` that come to quiet script alone: there are no
statements, and no temporary is taken. -/
structure Inline (cx : Context) (n : Nat) (stmts : List Stmt) (es : List Script.Expr) (n' : Nat) :
    Prop where
  stmts : stmts = []
  temps : n' = n
  exprs : ∀ e ∈ es, e.Quiet cx.names

/-- Whether arguments left out stand for constants. -/
def Expr.defaultsAreConstant (e : Expr) : Bool :=
  match e.form with
  | .place p => p.defaults.all Expr.isConstant
  | _ => true

/-- An expression that is lowered to quiet script alone. -/
def LowersInline (cx : Context) (e : Expr) : Prop :=
  ∀ ⦃n n' : Nat⦄ ⦃w : Lowered⦄, e.lower cx n = .ok w n' → Inline cx n w.stmts [w.expr] n'

variable {cx : Context}

namespace Inline

variable {n n' n'' : Nat} {stmts stmts' : List Stmt} {es es' : List Script.Expr}

theorem nil : Inline cx n [] [] n := ⟨rfl, rfl, by simp⟩

theorem single {e : Script.Expr} (he : e.Quiet cx.names) : Inline cx n [] [e] n :=
  ⟨rfl, rfl, List.forall_mem_singleton.2 he⟩

theorem append (h : Inline cx n stmts es n') (h' : Inline cx n' stmts' es' n'') :
    Inline cx n (stmts ++ stmts') (es ++ es') n'' := by
  obtain ⟨rfl, rfl, hes⟩ := h
  obtain ⟨rfl, rfl, hes'⟩ := h'
  exact ⟨rfl, rfl, List.forall_mem_append.2 ⟨hes, hes'⟩⟩

/-- Quiet operands make a quiet whole. -/
theorem replace (h : Inline cx n stmts es n')
    (hes : (∀ e ∈ es, e.Quiet cx.names) → ∀ e ∈ es', e.Quiet cx.names) :
    Inline cx n stmts es' n' := ⟨h.stmts, h.temps, hes h.exprs⟩

end Inline

/-! ## Operands -/

/-- Nothing speaks for capturing an operand that is used once, if what follows has no
effects. -/
theorem Taken.staysInline {later : List Expr} {o : Expr} {n n' : Nat} {v : Value}
    {stmts : List Stmt} (ho : LowersInline cx o) (h : Taken cx {} later o n v stmts n')
    (hlater : later.any (·.hasEffects cx.metadata) = false) : Inline cx n stmts [v.expr] n' := by
  cases h with
  | @intro w _ _ _ _ hlower hheld =>
    have hcapture : o.mustCapture cx {} later w.toValue = false := by
      simp [Expr.mustCapture, hlater]
    rw [hcapture] at hheld
    cases hheld
    simpa using ho hlower

theorem TakenAll.staysInline {rest : List Expr} {items : List (Capture × Expr)} {n n' : Nat}
    {vs : List Value} {stmts : List Stmt} (h : TakenAll cx rest items n vs stmts n')
    (hitems : ∀ x ∈ items, x.1 = {} ∧ x.2.hasEffects cx.metadata = false ∧ LowersInline cx x.2)
    (hrest : rest.any (·.hasEffects cx.metadata) = false) :
    Inline cx n stmts (vs.map (·.expr)) n' := by
  induction h with
  | nil => exact .nil
  | @cons c o items _ _ _ _ _ _ _ hhead _ ih =>
    obtain ⟨⟨hc, -, ho⟩, hbehind⟩ := List.forall_mem_cons.1 hitems
    obtain rfl : c = {} := hc
    have hlater : (items.map (·.2) ++ rest).any (·.hasEffects cx.metadata) = false := by
      rw [List.any_append, hrest, Bool.or_false, List.any_map, List.any_eq_false]
      exact fun x hx => by simp [(hbehind x hx).2.1]
    exact (hhead.staysInline ho hlater).append (ih hbehind)

theorem Asides.staysInline {os : List Expr} {n n' : Nat} {ds : List Value} {stmts : List Stmt}
    (h : Asides cx false os n ds stmts n') (hos : ∀ o ∈ os, LowersInline cx o) :
    Inline cx n stmts (ds.map (·.expr)) n' := by
  induction h with
  | nil => exact .nil
  | cons hhead _ ih =>
    obtain ⟨ho, hos⟩ := List.forall_mem_cons.1 hos
    exact (hhead.staysInline ho rfl).append (ih hos)

/-- The operands of a target have no effects, and none of them ends up in a wrong place. -/
theorem Addressed.staysInline {t : Target Expr} {indices : List Expr} {a : LoweredAddress}
    {n n' : Nat} {stmts : List Stmt} (ht : Arranges t.args indices)
    (h : Addressed cx false [] t n a stmts n')
    (hquiet : ∀ e ∈ t.operands, e.hasEffects cx.metadata = false)
    (hoperands : ∀ e ∈ t.operands, LowersInline cx e)
    (homitted : ∀ e ∈ t.omitted, LowersInline cx e) :
    Inline cx n stmts (a.address.object.toList ++ a.address.args) n' := by
  obtain ⟨vs, ds, stmts₁, stmts₂, m, htaken, hasides, rfl, hperm, -⟩ := h.split ht
  have hitems : ∀ x ∈ t.captures cx.metadata false,
      x.1 = {} ∧ x.2.hasEffects cx.metadata = false ∧ LowersInline cx x.2 := by
    intro x hx
    have hmem : x.2 ∈ t.operands := by
      rw [← Target.map_snd_captures cx.metadata false t]
      exact List.mem_map_of_mem hx
    exact ⟨Capture.eq_of_quiet (Target.reuse_of_mem_captures hx)
      (Target.hasEffects_of_reordered hx) (hquiet _ hmem), hquiet _ hmem, hoperands _ hmem⟩
  have hall := (htaken.staysInline hitems rfl).append (hasides.staysInline homitted)
  exact hall.replace fun hes e he => hes e (hperm.mem_iff.1 he)

/-! ## Places -/

namespace Target

variable {ε : Type} {names : RuntimeNames} {t : Target ε} {a : Address}
  (ha : ∀ e ∈ a.object.toList ++ a.args, e.Quiet names)

include ha

theorem quiet_object : (t.object a).Quiet names := by
  unfold object
  cases hobject : a.object with
  | some e => exact ha e (by simp [hobject])
  | none =>
    cases t.staticOwner with
    | some owner => exact .typeHandle _
    | none => exact .this

theorem quiet_subscript {e : Script.Expr} (h : t.subscript a = .ok e) : e.Quiet names := by
  unfold subscript at h
  split at h
  case h_1 i hi =>
    cases h
    exact .index (quiet_object ha) (ha i (by simp [hi]))
  case h_2 => cases h

theorem quiet_native {e : Script.Expr} (h : t.native names a = .ok e) : e.Quiet names := by
  unfold native at h
  split at h
  case h_1 => cases h; exact .ident _
  case h_2 => cases h; exact .member (.ident _) _
  case h_3 | h_4 => cases h; exact .member (quiet_object ha) _
  case h_8 => cases h
  all_goals exact quiet_subscript ha h

/-- A target that is read without an accessor is read quietly. -/
theorem quiet_load (hgetter : t.getter? = none) {e : Script.Expr} (h : t.load names a = .ok e) :
    e.Quiet names := by
  unfold load at h
  split at h
  case h_1 => cases h; exact .this
  case h_2 =>
    cases h
    exact .multiGet (List.forall_mem_cons.2
      ⟨quiet_object ha, fun e he => ha e (List.mem_append_right _ he)⟩)
  case h_3 =>
    rw [hgetter] at h
    exact quiet_native ha h

end Target

theorem Literal.quiet_script {names : RuntimeNames} (value : Literal) :
    value.script.Quiet names := by
  cases value with
  | int value => exact .number _
  | double value => exact .number _
  | bool value => exact .bool _
  | string value => exact .string _
  | null => exact .null

theorem Context.quiet_defaultValue (cx : Context) (ty : TypeRef) :
    (cx.defaultValue ty).Quiet cx.names := by
  unfold defaultValue
  cases cx.metadata.semantics ty with
  | reference => exact .null
  | immutable | mutable => exact .defaultValue (List.forall_mem_singleton.2 (.typeHandle _))

/-! ## Expressions -/

theorem Expr.hasEffects_of_isConstant {md : Metadata} {e : Expr} (h : e.isConstant = true) :
    e.hasEffects md = false := by
  rw [Expr.hasEffects_eq]
  obtain ⟨form, span⟩ := e
  cases form with
  | literal | defaultValue => rfl
  | _ => cases h

theorem Expr.defaultsAreConstant_of_keepsOrder {md : Metadata} {e : Expr}
    (h : e.keepsOrder md = true) : e.defaultsAreConstant = true := by
  obtain ⟨form, span⟩ := e
  cases form with
  | place p => exact (Bool.and_eq_true_iff.1 h).1
  | _ => rfl

theorem Lowers.staysInline {e : Expr} {n n' : Nat} {w : Lowered}
    (hdefaults : e.defaultsAreConstant = true) (hquiet : e.hasEffects cx.metadata = false)
    (hparts : ∀ c ∈ e.parts, c.hasEffects cx.metadata = false → LowersInline cx c)
    (h : Lowers cx e n w n') : Inline cx n w.stmts [w.expr] n' := by
  rw [Expr.hasEffects_eq] at hquiet
  cases h with
  | @literal value => exact .single value.quiet_script
  | @defaultValue ty => exact .single (cx.quiet_defaultValue ty)
  | this => exact .single .this
  | call | callInline | assign => cases hquiet
  | @load p _ _ _ t addr load _ _ htarget haddr hload =>
    simp only [Form.hasEffects, Bool.or_eq_false_iff, List.any_eq_false] at hquiet
    obtain ⟨hruns, hoperands⟩ := hquiet
    -- No accessor is run, so the operands are used once and passed on as they are.
    have hgetter := (Classified.of_ofPlace htarget).getter?_eq_none hruns
    have hinline : t.getterIsInline = false := by simp [Target.getterIsInline, hgetter]
    have hpassed : addr.passed cx t.getter? 1 = addr.address := by
      simp [LoweredAddress.passed, hgetter]
    rw [hinline] at haddr
    rw [hpassed] at hload
    have hquietOperand : ∀ e ∈ t.operands, e.hasEffects cx.metadata = false := by
      intro e he
      rw [Target.operands_ofPlace htarget] at he
      simpa using hoperands e he
    have hall := haddr.staysInline (Target.ofPlace_arranges htarget).2 hquietOperand
      (fun e he => hparts e (by simp [← Target.operands_ofPlace htarget, he])
        (hquietOperand e he))
      (fun e he => by
        have hmem := Target.mem_defaults_of_mem_omitted htarget he
        exact hparts e (by simp [hmem])
          (Expr.hasEffects_of_isConstant (List.all_eq_true.1 hdefaults e hmem)))
    exact hall.replace fun hes => List.forall_mem_singleton.2 (Target.quiet_load hes hgetter hload)
  | @binary op left right ty span _ _ l r _ htaken =>
    simp only [Form.hasEffects, Bool.or_eq_false_iff] at hquiet
    have hitems : ∀ x ∈ [(({} : Capture), left), ({}, right)],
        x.1 = {} ∧ x.2.hasEffects cx.metadata = false ∧ LowersInline cx x.2 :=
      List.forall_mem_cons.2 ⟨⟨rfl, hquiet.1, hparts left (by simp) hquiet.1⟩,
        List.forall_mem_singleton.2 ⟨rfl, hquiet.2, hparts right (by simp) hquiet.2⟩⟩
    have hall := htaken.staysInline hitems rfl
    exact hall.replace fun hes => List.forall_mem_singleton.2
      (.binary op (hes l.expr (by simp)) (hes r.expr (by simp)))

theorem LowersInline.of_not_hasEffects (e : Expr)
    (hdefaults : e.Everywhere (·.defaultsAreConstant = true))
    (hquiet : e.hasEffects cx.metadata = false) : LowersInline cx e := by
  induction e using Expr.inductParts with
  | step e ih =>
    exact fun _ _ _ h => (Lowers.of_lower h).staysInline hdefaults.here hquiet
      fun c hc => ih c hc (hdefaults.part c hc)

/-- What has no effects is lowered to one expression that only reads, with no statements
before it and no temporary taken, whatever the metadata and the names. -/
theorem inline_of_not_hasEffects {cx : Context} {e : Expr} {n n' : Nat} {w : Lowered}
    (hdefaults : e.Everywhere (·.defaultsAreConstant = true))
    (hquiet : e.hasEffects cx.metadata = false) (h : e.lower cx n = .ok w n') :
    w.stmts = [] ∧ n' = n ∧ w.expr.Quiet cx.names := by
  obtain ⟨hstmts, htemps, hexprs⟩ := LowersInline.of_not_hasEffects e hdefaults hquiet h
  exact ⟨hstmts, htemps, hexprs _ List.mem_cons_self⟩

namespace Sample

/-- All indexers are native subscripts here. -/
def subscriptContext : Context :=
  { context .immutable with
    metadata := { metadata .immutable with property := fun _ => .subscript } }

/-- An indexer with its only argument left out, which stands for a default value. -/
def item : Expr :=
  ⟨.place (.indexer (.object this)
    (.resolved { name := "Item", owner := ty, ty, params := [⟨"index", ty⟩], isIndexer := true }
      [some ⟨.defaultValue ty, {}⟩]) [] ty), {}⟩

/-- An element found by two indices. -/
def gridElement : Expr := ⟨.place (.element (field "grid") [item, localVar "x"] ty), {}⟩

end Sample

open Sample in
theorem inline_of_not_hasEffects_gridElement :
    gridElement.hasEffects subscriptContext.metadata = false ∧
      ∃ w, gridElement.lower subscriptContext 2 = .ok w 2 ∧ w.stmts = [] ∧
        w.expr.Quiet subscriptContext.names := by
  have hdefault : Expr.Everywhere (·.defaultsAreConstant = true) ⟨.defaultValue ty, {}⟩ :=
    .intro rfl (by simp [Form.children, Form.operands])
  have hitem : item.Everywhere (·.defaultsAreConstant = true) :=
    .intro rfl (List.forall_mem_cons.2
      ⟨everywhere_this rfl, List.forall_mem_singleton.2 hdefault⟩)
  have hgrid : gridElement.Everywhere (·.defaultsAreConstant = true) :=
    .intro rfl (List.forall_mem_cons.2 ⟨everywhere_field rfl rfl,
      List.forall_mem_cons.2 ⟨hitem, List.forall_mem_singleton.2 (everywhere_localVar rfl)⟩⟩)
  obtain ⟨w, hw⟩ : ∃ w, gridElement.lower subscriptContext 2 = .ok w 2 := ⟨_, rfl⟩
  obtain ⟨hstmts, -, hquiet⟩ := inline_of_not_hasEffects hgrid rfl hw
  exact ⟨rfl, w, hw, hstmts, hquiet⟩

end AssignmentLowering
