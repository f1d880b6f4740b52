import AssignmentLowering.Proofs.Lowering.Comparison
import AssignmentLowering.Proofs.Lowering.Sample
import AssignmentLowering.Proofs.Target.Normalized

/-!
# Lowering with bindings in normal form

Lowering asks metadata the same questions over and over. Here two runs are compared, one with
the answers as they are and one with all bindings in normal form. They come to the same, down
to the count of temporaries, unless the first one comes to an indexer whose candidates are
split; there it is refused, and the second one goes on.

## Main definitions

* `Expr.Splits` — an expression at which the runs part.
* `Task.normalize` — what is lowered, with answers in normal form.
* `Comparison.normalizing` — the runs that are compared.

## Main statements

* `Task.lower_settles` — the runs come to the same, or the first one is refused.
* `Task.lower_normalize` — when it makes no difference whether answers are in normal form.
-/

namespace AssignmentLowering

/-- Candidates for an indexer are split where the expression reads or assigns it. -/
def Expr.Splits (md : Metadata) (e : Expr) : Prop :=
  match e.form with
  | .place p => p.Splits md
  | .assign a => ∃ p, a.target.form = .place p ∧ p.Splits md
  | _ => False

/-- Candidates are split in what is evaluated for the expression. -/
def Expr.ReachesSplit (cx : Context) (e : Expr) : Prop :=
  ∃ d, e.Evaluates cx d ∧ d.Splits cx.metadata

/-- What is lowered, with answers in normal form. -/
def Task.normalize : Task → Task
  | .assignment cx usage a span => .assignment cx.normalize usage a span
  | .expression cx e => .expression cx.normalize e

/-- Runs with the answers as they are and in normal form, of which the first may be refused for
its candidates; this happens only if `Q`. -/
def Comparison.normalizing (cx : Context) (Q : Prop) : Comparison where
  cx := cx
  cx' := cx.normalize
  names := rfl
  tempStem := rfl
  semantics := rfl
  SameError := Eq
  same_refl _ := rfl
  Refusal e := Q ∧ ∃ owner span, e = .ambiguousCandidates owner span

namespace Comparison

variable {cx : Context} {Q : Prop}

/-- The answers about a place are the same in normal form, unless its candidates are split. -/
theorem comparable_normalizing {e : Expr} (h : e.Splits cx.metadata → Q) :
    (normalizing cx Q).Comparable e where
  effects := Expr.hasEffects_normalize cx.metadata e
  method _ _ _ _ := .same _
  place p hp span := by
    by_cases hsplits : p.Splits cx.metadata
    · have hQ : Q := by
        refine h ?_
        cases hp with
        | read => exact hsplits
        | assigned htarget => exact ⟨p, htarget, hsplits⟩
      obtain ⟨owner, herror⟩ : ∃ owner,
          Target.ofPlace cx.metadata cx.enclosing Expr.ty span p =
            .error (.ambiguousCandidates owner span) := Target.ofPlace_of_splits hsplits
      exact herror ▸ .refused ⟨hQ, owner, span, rfl⟩
    · exact (Target.ofPlace_normalize hsplits).symm ▸ .counterparts _

/-- Runs that settle come to the same, unless the first one is refused for its candidates. -/
theorem Settles.eq_or_refused {α : Type} {x y : LowerM α} (h : (normalizing cx Q).Settles x y)
    (n : Nat) : y n = x n ∨
      Q ∧ ∃ owner span m, x n = .error (.ambiguousCandidates owner span) m := by
  have hn := h n
  generalize x n = r, y n = r' at hn
  cases hn with
  | ok => exact .inl rfl
  | error h => exact .inl (by rw [h])
  | refused h =>
    obtain ⟨hQ, owner, span, rfl⟩ := h
    exact .inr ⟨hQ, owner, span, _, rfl⟩

end Comparison

/-- What is lowered comes to the same in normal form, unless it is refused for candidates among
what is evaluated. -/
theorem Task.lower_settles (t : Task) :
    (Comparison.normalizing t.cx (t.expr.ReachesSplit t.cx)).Settles t.lower t.normalize.lower := by
  have hcomparable : ∀ d, t.expr.Evaluates t.cx d →
      (Comparison.normalizing t.cx (t.expr.ReachesSplit t.cx)).Comparable d :=
    fun d hd => Comparison.comparable_normalizing fun hsplits => ⟨d, hd, hsplits⟩
  cases t with
  | expression cx e => exact (Comparison.alike hcomparable).settles.bind fun v => .refl _
  | assignment cx usage a span =>
    exact (Comparison.lowerAssignment_settles hcomparable).bind fun v => .refl _

section

variable {cx : Context}

theorem lowerAssignment_of_splits {a : Assignment Expr} {span : Span}
    (h : Expr.Splits cx.metadata ⟨.assign a, span⟩) (usage : Usage) (n : Nat) :
    ∃ e, lowerAssignment cx usage a span n = .error e n := by
  obtain ⟨p, hp, hsplits⟩ := h
  obtain ⟨owner, herror⟩ := Target.ofPlace_of_splits hsplits
  have htarget : a.target.target cx.metadata cx.enclosing =
      .error (.ambiguousCandidates owner a.target.span) := by
    rw [Expr.eq_of_place hp]
    exact herror
  unfold lowerAssignment lowerAssignmentOf
  simp only [Assignment.map, target_operand, htarget]
  exact ⟨_, rfl⟩

/-- Where candidates are split, nothing is lowered. -/
theorem Expr.lower_of_splits {e : Expr} (h : e.Splits cx.metadata) (n : Nat) :
    ∃ err, e.lower cx n = .error err n := by
  obtain ⟨form, span⟩ := e
  cases form with
  | place p =>
    obtain ⟨owner, herror⟩ := Target.ofPlace_of_splits h
    have hload : Expr.lower cx ⟨.place p, span⟩ = lowerLoad cx (p.map (operand cx)) span := by
      rw [lower_eq]
      cases p with
      | this ty => cases h
      | _ => rfl
    rw [hload, lowerLoad, Target.ofPlace_map (operand cx) fun e => ty_operand e, herror]
    exact ⟨_, rfl⟩
  | assign a =>
    rw [lower_eq]
    exact lowerAssignment_of_splits h .used n
  | _ => cases h

end

/-- What is evaluated in the course of a lowering that succeeds has no split candidates. -/
theorem Task.not_reachesSplit {t : Task} {n n' : Nat} {out : LoweredAssignment}
    (h : t.lower n = .ok out n') : ¬t.expr.ReachesSplit t.cx := by
  rintro ⟨d, hd, hsplits⟩
  cases hd with
  | step hc hd =>
    obtain ⟨k, w, k', hw, -⟩ := within_of_evaluated h _ hc
    obtain ⟨m, v, m', hv, -⟩ := hd.within hw
    obtain ⟨err, herr⟩ := Expr.lower_of_splits hsplits m
    cases herr.symm.trans hv
  | refl =>
    cases t with
    | assignment cx usage a span =>
      obtain ⟨v, m, hv, -⟩ := bind_ok h
      obtain ⟨err, herr⟩ := lowerAssignment_of_splits hsplits usage n
      cases herr.symm.trans hv
    | expression cx e =>
      obtain ⟨v, m, hv, -⟩ := bind_ok h
      obtain ⟨err, herr⟩ := Expr.lower_of_splits hsplits n
      cases herr.symm.trans hv

/-- **When it makes no difference whether answers are in normal form.** What is lowered from
answers in normal form is lowered to the same from the answers as they are, and what fails
fails with the same error, or else the answers as they are make it fail for its candidates,
somewhere among what is evaluated. Of what can be lowered in normal form, just that is refused
which has split candidates there. -/
theorem Task.lower_normalize (t : Task) (n : Nat) :
    (t.normalize.lower n = t.lower n ∨ t.expr.ReachesSplit t.cx ∧
      ∃ owner span m, t.lower n = .error (.ambiguousCandidates owner span) m) ∧
    ∀ out m, t.normalize.lower n = .ok out m →
      (t.lower n = .ok out m ↔ ¬t.expr.ReachesSplit t.cx) := by
  have hsettles := t.lower_settles.eq_or_refused n
  refine ⟨hsettles, fun out m hok => ⟨Task.not_reachesSplit, fun hsplit => ?_⟩⟩
  obtain heq | ⟨hreaches, -⟩ := hsettles
  · exact heq.symm.trans hok
  · exact absurd hreaches hsplit

namespace Sample

/-- The overload of an indexer whose parameter is called `key`. -/
def itemBy (key : String) : Property :=
  { name := "Item", owner := ty, ty, params := [⟨key, ty⟩], isIndexer := true }

/-- Both overloads are subscripts; of one of them this is said by its accessors. -/
def splitContext : Context :=
  { context .reference with
    metadata := { metadata .reference with
      property p := if p = itemBy "row" then .accessors .subscript .subscript else .subscript } }

/-- `this[d]`, where either overload may be meant. -/
def eitherItem : Expr :=
  ⟨.place (.indexer (.object this) (.candidates [itemBy "row", itemBy "key"])
    [⟨localVar "d", none, {}⟩] ty), {}⟩

/-- `x = this[d]` -/
def storeItem : Task :=
  .assignment splitContext .used ⟨localVar "x", .assign, eitherItem⟩ {}

theorem eitherItem_splits : eitherItem.Splits splitContext.metadata := by
  refine ⟨by simp, ?_, ⟨itemBy "key", by simp, rfl⟩, ⟨itemBy "row", by simp, rfl⟩⟩
  rw [List.forall_mem_cons, List.forall_mem_singleton]
  exact ⟨rfl, rfl⟩

end Sample

open Sample in
theorem Task.lower_normalize_storeItem :
    storeItem.normalize.lower 0 =
        .ok ⟨[], some (.assign (.ident "x") (.index .this (.ident "d")))⟩ 0 ∧
      storeItem.expr.ReachesSplit storeItem.cx ∧
      storeItem.lower 0 ≠ .ok ⟨[], some (.assign (.ident "x") (.index .this (.ident "d")))⟩ 0 := by
  have hok : storeItem.normalize.lower 0 =
      .ok ⟨[], some (.assign (.ident "x") (.index .this (.ident "d")))⟩ 0 := rfl
  have hreaches : storeItem.expr.ReachesSplit storeItem.cx :=
    ⟨eitherItem, .step (List.mem_append_right _ (List.mem_singleton_self _)) .refl,
      eitherItem_splits⟩
  exact ⟨hok, hreaches, fun hlower =>
    ((storeItem.lower_normalize 0).2 _ _ hok).1 hlower hreaches⟩

end AssignmentLowering
