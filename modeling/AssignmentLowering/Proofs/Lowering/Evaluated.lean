import AssignmentLowering.Proofs.Lowering.Numbering

/-!
# Where the statements of a subexpression end up

Statements are not conditional. Whatever statements a subexpression is lowered to, they
are among the statements of all that it is evaluated for, in one piece and in their
order, up to the output that is run from top to bottom.

## Main definitions

* `Expr.evaluated` — what is evaluated for an expression, one step down.
* `Expr.Evaluates` — what is evaluated for it, at any depth.
* `LowersWithin` — an expression is lowered, to statements among the given ones.

## Main statements

* `Lowers.within` — one step down.
* `Task.within` — at any depth, for all that is lowered in a body.
-/

namespace AssignmentLowering

open Script (Stmt)

/-- What is evaluated to find the target that an expression is: the operands of it, and the
defaults that stand in for arguments left out. -/
def Expr.addressing (cx : Context) (e : Expr) : List Expr :=
  match e.target cx.metadata cx.enclosing with
  | .ok t => t.operands ++ t.omitted
  | .error _ => []

/-- What is evaluated for an expression, one step down. -/
def Expr.evaluated (cx : Context) (e : Expr) : List Expr :=
  match e.form with
  | .literal .. | .defaultValue _ => []
  | .place _ => e.addressing cx
  | .call r _ args => r.object?.toList ++ args
  | .binary _ l r _ => [l, r]
  | .assign a => a.target.addressing cx ++ [a.value]

/-- The expression `d` is evaluated for `e`, or is `e`. -/
inductive Expr.Evaluates (cx : Context) : Expr → Expr → Prop
  | refl {e : Expr} : Evaluates cx e e
  | step {c d e : Expr} (hc : c ∈ e.evaluated cx) (hd : Evaluates cx c d) : Evaluates cx e d

variable {cx : Context}

/-- The expression is lowered at some point, and its statements are among the given ones. -/
def LowersWithin (cx : Context) (e : Expr) (stmts : List Stmt) : Prop :=
  ∃ m w m', e.lower cx m = .ok w m' ∧ w.stmts <:+: stmts

theorem LowersWithin.mono {e : Expr} {stmts stmts' : List Stmt} (h : LowersWithin cx e stmts)
    (hsub : stmts <:+: stmts') : LowersWithin cx e stmts' := by
  obtain ⟨m, w, m', hlower, hinfix⟩ := h
  exact ⟨m, w, m', hlower, hinfix.trans hsub⟩

section

variable {n n' : Nat} {stmts : List Stmt}

theorem Taken.within {c : Capture} {later : List Expr} {o : Expr} {v : Value}
    (h : Taken cx c later o n v stmts n') : LowersWithin cx o stmts := by
  cases h with
  | @intro w m _ _ _ hlower _ => exact ⟨n, w, m, hlower, (List.prefix_append ..).isInfix⟩

theorem TakenAll.within {rest : List Expr} {items : List (Capture × Expr)} {vs : List Value}
    (h : TakenAll cx rest items n vs stmts n') :
    ∀ o ∈ items.map (·.2), LowersWithin cx o stmts := by
  induction h with
  | nil => simp
  | cons hhead _ ih =>
    intro o ho
    rcases List.mem_cons.1 ho with rfl | ho
    · exact hhead.within.mono (List.prefix_append ..).isInfix
    · exact (ih o ho).mono (List.suffix_append ..).isInfix

theorem Asides.within {reuse : Bool} {os : List Expr} {ds : List Value}
    (h : Asides cx reuse os n ds stmts n') : ∀ o ∈ os, LowersWithin cx o stmts := by
  induction h with
  | nil => simp
  | cons hhead _ ih =>
    intro o ho
    rcases List.mem_cons.1 ho with rfl | ho
    · exact hhead.within.mono (List.prefix_append ..).isInfix
    · exact (ih o ho).mono (List.suffix_append ..).isInfix

theorem Addressed.within {reuse : Bool} {rest : List Expr} {t : Target Expr} {a : LoweredAddress}
    {indices : List Expr} (ht : Arranges t.args indices)
    (h : Addressed cx reuse rest t n a stmts n') :
    ∀ o ∈ t.operands ++ t.omitted, LowersWithin cx o stmts := by
  obtain ⟨vs, ds, stmts₁, stmts₂, m, htaken, hasides, rfl, -⟩ := h.split ht
  intro o ho
  rcases List.mem_append.1 ho with ho | ho
  · exact (htaken.within o (by simpa using ho)).mono (List.prefix_append ..).isInfix
  · exact (hasides.within o ho).mono (List.suffix_append ..).isInfix

end

theorem Expr.addressing_of_target {e : Expr} {t : Target Expr}
    (ht : e.target cx.metadata cx.enclosing = .ok t) :
    e.addressing cx = t.operands ++ t.omitted := by
  rw [addressing, ht]

/-- The current object is found without evaluating anything. -/
theorem Expr.addressing_this (ty : TypeRef) (span : Span) :
    addressing cx ⟨.place (.this ty), span⟩ = [] := by
  cases htarget : (⟨.place (.this ty), span⟩ : Expr).target cx.metadata cx.enclosing with
  | error e => rw [addressing, htarget]
  | ok t =>
    obtain ⟨p, hp, hplace⟩ := Expr.target_arranges htarget
    cases hp
    have homitted : ∀ e ∈ t.omitted, False := fun e he => by
      cases Target.mem_defaults_of_mem_omitted hplace he
    rw [addressing_of_target htarget, Target.operands_ofPlace hplace,
      List.eq_nil_iff_forall_not_mem.2 homitted]
    rfl

/-- What is evaluated for an expression is among its parts. -/
theorem Expr.evaluated_subset_parts (e : Expr) : e.evaluated cx ⊆ e.parts := by
  have haddressing : ∀ {e : Expr} {p : Place Expr}, e.form = .place p →
      e.addressing cx ⊆ p.operands ++ p.defaults := by
    intro e p hp c hc
    cases htarget : e.target cx.metadata cx.enclosing with
    | error err => simp [Expr.addressing, htarget] at hc
    | ok t =>
      obtain ⟨p', hp', hplace⟩ := Expr.target_arranges htarget
      obtain rfl : p = p' := by simpa [hp] using hp'
      rw [Expr.addressing_of_target htarget, Target.operands_ofPlace hplace] at hc
      obtain hc | hc := List.mem_append.1 hc
      · exact List.mem_append_left _ hc
      · exact List.mem_append_right _ (Target.mem_defaults_of_mem_omitted hplace hc)
  intro c hc
  obtain ⟨form, span⟩ := e
  cases form with
  | literal | defaultValue => cases hc
  | place p => exact haddressing rfl hc
  | call | binary => exact hc
  | assign a =>
    obtain hc | hc := List.mem_append.1 hc
    · cases hp : a.target.form with
      | place p => exact Expr.place_mem_parts (Expr.place?_of_place hp) span (haddressing hp hc)
      | _ => simp [Expr.addressing, Expr.target, hp, Form.place?, Target.classify] at hc
    · obtain rfl := List.mem_singleton.1 hc
      exact Expr.value_mem_parts a span

/-- What holds everywhere in an expression holds everywhere in what is evaluated for it. -/
theorem Expr.Everywhere.of_evaluates {p : Expr → Prop} {d e : Expr} (h : e.Everywhere p)
    (hd : e.Evaluates cx d) : d.Everywhere p := by
  induction hd with
  | refl => exact h
  | step hc _ ih => exact ih (h.part _ (Expr.evaluated_subset_parts _ hc))

theorem LowersAssign.within {usage : Usage} {a : Assignment Expr} {n n' : Nat} {w : Lowered}
    (h : LowersAssign cx usage a n w n') :
    ∀ c ∈ a.target.addressing cx ++ [a.value], LowersWithin cx c w.stmts := by
  -- The statements of the operands come first in every form, those of the value behind them.
  have hsplit : ∀ {t : Target Expr} {reuse : Bool} {addr : LoweredAddress} {c : Capture}
      {v : Value} {m m₁ m₂ m₃ : Nat} {stmts stmts' all : List Stmt},
      a.target.target cx.metadata cx.enclosing = .ok t →
      Addressed cx reuse [a.value] t m addr stmts m₁ →
      Taken cx c [] a.value m₂ v stmts' m₃ → stmts <:+: all → stmts' <:+: all →
      ∀ o ∈ a.target.addressing cx ++ [a.value], LowersWithin cx o all := by
    intro t reuse addr c v m m₁ m₂ m₃ stmts stmts' all htarget haddr htaken hsub hsub' o ho
    rcases List.mem_append.1 ho with ho | ho
    · obtain ⟨p, -, hplace⟩ := Expr.target_arranges htarget
      rw [Expr.addressing_of_target htarget] at ho
      exact (haddr.within (Target.ofPlace_arranges hplace).2 o ho).mono hsub
    · obtain rfl := List.mem_singleton.1 ho
      exact htaken.within.mono hsub'
  have hfinish : ∀ (store : Script.Expr) (result : Value) (stmts : List Stmt),
      stmts <:+: (usage.finish store result stmts).stmts := by
    intro store result stmts
    cases usage with
    | used => exact (List.prefix_append ..).isInfix
    | discarded => exact List.infix_refl _
  cases h with
  | native htarget _ _ _ haddr htaken _ =>
    exact hsplit htarget haddr htaken (List.prefix_append ..).isInfix
      (List.suffix_append ..).isInfix
  | readBack htarget _ _ _ haddr htaken _ =>
    refine hsplit htarget haddr htaken ?_ ⟨_, _, rfl⟩
    rw [List.append_assoc]
    exact (List.prefix_append ..).isInfix
  | compoundNative htarget _ _ haddr htaken _ =>
    exact hsplit htarget haddr htaken (List.prefix_append ..).isInfix
      (List.suffix_append ..).isInfix
  | byCall htarget _ _ haddr htaken _ =>
    exact hsplit htarget haddr htaken
      ((List.prefix_append ..).isInfix.trans (hfinish ..))
      ((List.suffix_append ..).isInfix.trans (hfinish ..))
  | @compoundByCall _ _ _ _ _ _ _ _ stmts stmts₁ stmts₂ stmts₃ _ _ _ _ htarget _ _ _ haddr _ _
      htaken _ _ =>
    have hfirst : stmts <:+: stmts ++ stmts₁ ++ stmts₂ ++ stmts₃ := by
      simp only [List.append_assoc]
      exact (List.prefix_append ..).isInfix
    exact hsplit htarget haddr htaken (hfirst.trans (hfinish ..))
      (List.IsInfix.trans ⟨_, _, rfl⟩ (hfinish ..))

/-- What is evaluated for an expression one step down is lowered to statements among those of
the expression. -/
theorem Lowers.within {e : Expr} {n n' : Nat} {w : Lowered} (h : Lowers cx e n w n') :
    ∀ c ∈ e.evaluated cx, LowersWithin cx c w.stmts := by
  cases h with
  | literal => simp [Expr.evaluated]
  | defaultValue => simp [Expr.evaluated]
  | @this ty span =>
    intro c hc
    rw [Expr.evaluated, Expr.addressing_this] at hc
    cases hc
  | @load p span _ _ t _ _ _ _ htarget haddr _ =>
    intro c hc
    have htarget' : (⟨.place p, span⟩ : Expr).target cx.metadata cx.enclosing = .ok t := htarget
    rw [Expr.evaluated, Expr.addressing_of_target htarget'] at hc
    exact haddr.within (Target.ofPlace_arranges htarget).2 c hc
  | call _ htaken _ =>
    intro c hc
    exact htaken.within c (by rwa [map_snd_map_capture])
  | callInline _ htaken _ _ =>
    intro c hc
    exact htaken.within c (by rwa [map_snd_map_capture])
  | binary htaken => exact fun c hc => htaken.within c hc
  | assign h => exact h.within

/-- What is evaluated for an expression, at any depth, is lowered to statements among those
of the expression. -/
theorem Expr.Evaluates.within {d e : Expr} (h : e.Evaluates cx d) {n n' : Nat} {w : Lowered}
    (hlower : e.lower cx n = .ok w n') : LowersWithin cx d w.stmts := by
  induction h generalizing n n' w with
  | refl => exact ⟨n, w, n', hlower, List.infix_refl _⟩
  | step hc _ ih =>
    obtain ⟨m, b, m', hb, hinfix⟩ := (Lowers.of_lower hlower).within _ hc
    exact (ih hb).mono hinfix

namespace Task

/-- What is lowered, as an expression. -/
def expr : Task → Expr
  | assignment _ _ a span => ⟨.assign a, span⟩
  | expression _ e => e

/-- Whether the value of what is lowered is wanted. -/
def usage : Task → Usage
  | assignment _ usage .. => usage
  | expression .. => .used

variable {t : Task} {n n' : Nat} {out : LoweredAssignment}

/-- What is evaluated for a task, one step down, is lowered to statements of the output. -/
theorem within_of_evaluated (h : t.lower n = .ok out n') :
    ∀ c ∈ t.expr.evaluated t.cx, LowersWithin t.cx c out.statements := by
  intro c hc
  cases t with
  | assignment cx usage a span =>
    obtain ⟨v, m, hlower, hpure⟩ := bind_ok h
    obtain ⟨rfl, rfl⟩ := pure_ok hpure
    refine ((LowersAssign.of_lowerAssignment hlower).within c hc).mono ?_
    cases usage with
    | used => exact List.infix_refl _
    | discarded => exact (List.prefix_append ..).isInfix
  | expression cx e =>
    obtain ⟨v, m, hlower, hpure⟩ := bind_ok h
    obtain ⟨rfl, rfl⟩ := pure_ok hpure
    exact (Lowers.of_lower hlower).within c hc

/-- What is evaluated for a task, at any depth, is lowered to statements that are run from top
to bottom with the others. Only the assignment itself may be lowered as a statement. -/
theorem within (h : t.lower n = .ok out n') {d : Expr} (hd : t.expr.Evaluates t.cx d)
    (hform : ∀ a, d.form ≠ .assign a) : LowersWithin t.cx d out.statements := by
  cases hd with
  | refl =>
    cases t with
    | assignment _ _ a _ => exact absurd rfl (hform a)
    | expression cx e =>
      obtain ⟨v, m, hlower, hpure⟩ := bind_ok h
      obtain ⟨rfl, rfl⟩ := pure_ok hpure
      exact ⟨n, v, _, hlower, List.infix_refl _⟩
  | step hc hd =>
    obtain ⟨k, b, k', hb, hinfix⟩ := within_of_evaluated h _ hc
    exact (hd.within hb).mono hinfix

end Task

end AssignmentLowering
