import AssignmentLowering.Expr.Fold
import AssignmentLowering.Metadata.Basic

/-!
# Effects of expressions

Three questions decide how far an expression may be moved: whether evaluating it
does anything, whether it assigns a given local variable, and whether its value is
the same before and after the evaluation of others.

Calls and assignments have effects. So has the use of a property or an indexer that
runs an accessor; one that is a plain field, or a native subscript, has those of
its operands. Script text of unknown content counts as an accessor.

## Main definitions

* `Expr.hasEffects` — whether evaluation may be noticed.
* `Expr.writes` — whether a local variable is assigned.
* `Expr.isInvariant` — whether the value survives the evaluation of others.
-/

namespace AssignmentLowering

/-- Whether the indexer is a native subscript. Of several candidates the first
decides. -/
def IndexerTarget.isSubscript {ε : Type} (md : Metadata) : IndexerTarget ε → Bool
  | resolved p _ => md.binding p = .subscript
  | candidates ps => ps.head?.any fun p => md.binding p = .subscript

/-- Whether finding out what the place holds runs code, its operands aside. -/
def Place.runsCode {ε : Type} (md : Metadata) : Place ε → Bool
  | property _ p => !(md.binding p).isField
  | indexer _ t _ _ => !t.isSubscript md
  | _ => false

/-- Whether evaluating a form may be noticed, given which operands' may. -/
def Form.hasEffects {ε : Type} (md : Metadata) (effects : ε → Bool) : Form ε → Bool
  | literal .. | defaultValue _ => false
  | call .. | assign _ => true
  | place p => p.runsCode md || p.operands.any effects
  | binary _ l r _ => effects l || effects r

namespace Expr

/-- Whether evaluating the expression may be noticed. -/
def hasEffects (md : Metadata) : Expr → Bool :=
  fold fun form _ => form.hasEffects md (·.2)

/-- Whether the expression is the local variable `name`. -/
def isLocal (name : String) (e : Expr) : Bool :=
  match e.form with
  | .place (.localVar l) => l.name = name
  | _ => false

/-- Whether evaluating the expression assigns the local variable `name`. -/
def writes (name : String) : Expr → Bool :=
  fold fun form _ =>
    (match form with
      | .assign a => a.target.1.isLocal name
      | _ => false) || form.operands.any (·.2)

/-- Whether the expression has the same value before and after `later` are evaluated.
This is answered for constants, the current object and variables that nobody else
can reach; everything else is assumed to change. -/
def isInvariant (later : List Expr) (e : Expr) : Bool :=
  match e.form with
  | .literal .. | .defaultValue _ | .place (.this _) => true
  | .place (.localVar l) => !l.byRef && !later.any (·.writes l.name)
  | _ => false

theorem hasEffects_eq (md : Metadata) (e : Expr) :
    e.hasEffects md = e.form.hasEffects md (hasEffects md) := by
  have h : ∀ x : Form Expr,
      Form.hasEffects md (·.2) (x.map (withFold fun form _ => form.hasEffects md (·.2))) =
        x.hasEffects md (hasEffects md) := by
    intro x
    cases x with
    | place p =>
      cases p with
      | indexer r t args ty =>
        cases t <;> simp [Form.map, Place.map, IndexerTarget.map, Form.hasEffects,
          Place.runsCode, IndexerTarget.isSubscript, Place.operands, Place.object?,
          Place.indices, List.any_map, Function.comp_def, withFold, hasEffects,
          Option.toList_map]
      | _ =>
        simp [Form.map, Place.map, Form.hasEffects, Place.runsCode, Place.operands,
          Place.object?, Place.indices, List.any_map, Function.comp_def, withFold,
          hasEffects, Option.toList_map]
    | _ => rfl
  exact (fold_eq _ e).trans (h e.form)

theorem writes_eq (name : String) (e : Expr) :
    e.writes name =
      ((match e.form with
        | .assign a => a.target.isLocal name
        | _ => false) || e.operands.any (writes name)) := by
  have h : ∀ x : Form Expr, ∀ step : Form (Expr × Bool) → Span → Bool,
      (match x.map (withFold step) with
        | .assign a => a.target.1.isLocal name
        | _ => false) =
      (match x with
        | .assign a => a.target.isLocal name
        | _ => false) := by
    intro x step
    cases x <;> rfl
  rw [writes, fold_eq, h, Form.operands_map, List.any_map]
  rfl

end Expr
end AssignmentLowering
