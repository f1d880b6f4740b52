import AssignmentLowering.Proofs.Lowering.Renumbering
import AssignmentLowering.Proofs.Lowering.Sample
import AssignmentLowering.Proofs.Lowering.Temporaries
import Mathlib.Logic.Function.Basic

/-!
# Lowering does not depend on the numbering of temporaries

Temporaries may be called after another prefix, and they may be counted from another
number on, as they are after a lowering that failed. Neither makes a difference to what is
lowered: the same error, or as many statements and temporaries and the same flags. The
output itself is the same but for the names of temporaries, unless it is put together as
text or a variable of the program is taken for a temporary.

## Main definitions

* `Temporary.shift` — the renaming from one numbering to another.
* `SameUpToTemps` — two lowerings that come to the same but for temporaries.

## Main statements

* `lowering_sameUpToTemps` — two lowerings of one tree do.
-/

namespace AssignmentLowering

/-- The renaming that takes the `k`-th temporary behind the count `n` of one numbering to the
`k`-th behind the count `n'` of another, and leaves other names alone. -/
noncomputable def Temporary.shift (stem stem' : String) (n n' : Nat) : String → String :=
  Function.extend (fun k => name stem (n + k + 1)) (fun k => name stem' (n' + k + 1)) id

theorem Temporary.shift_name (stem stem' : String) (n n' k : Nat) :
    shift stem stem' n n' (name stem (n + k + 1)) = name stem' (n' + k + 1) := by
  have hinjective : Function.Injective fun k => name stem (n + k + 1) := by
    intro i j hij
    have := name_injective stem hij
    omega
  exact hinjective.extend_apply _ _ k

theorem Temporary.shift_of_ne {stem : String} {n : Nat} {x : String}
    (hx : ∀ k, x ≠ name stem k) (stem' : String) (n' : Nat) : shift stem stem' n n' x = x :=
  Function.extend_apply' _ _ x fun ⟨_, hk⟩ => hx _ hk.symm

/-- No text of a template takes part in evaluating an expression or in assigning to it, its
subexpressions aside. -/
structure Expr.Templateless (cx : Context) (e : Expr) : Prop where
  target : ∀ t, e.target cx.metadata cx.enclosing = .ok t →
    t.getterIsInline = false ∧ t.setterIsInline = false
  method : ∀ r m args, e.form = .call r m args →
    ∀ template, cx.metadata.method m ≠ .inline template

/-- Without templates, and with names of their own for variables, names are kept. -/
theorem Expr.Templateless.keepsNames {cx : Context} {e : Expr} (h : e.Templateless cx)
    (havoids : e.avoidsTemps cx) (stem : String) (n n' : Nat) :
    e.KeepsNames cx (Temporary.shift cx.tempStem stem n n') where
  target t ht := by
    obtain ⟨p, hp, hplace⟩ := Expr.target_arranges ht
    refine ⟨fun name hname => ?_, (h.target t ht).1, (h.target t ht).2⟩
    obtain ⟨l, rfl, rfl⟩ := (Classified.of_ofPlace hplace).exists_localVar hname
    exact Temporary.shift_of_ne (havoids l hp) stem n'
  method := h.method

/-- Two lowerings, at the counts `n` and `n'`, that fail with the same error, or succeed after
as many temporaries with as many statements and the same flags; if `plain`, the second one
comes to the first with its temporaries renamed. -/
inductive SameUpToTemps (stem stem' : String) (n n' : Nat) (plain : Prop) :
    EStateM.Result LoweringError Nat Lowered → EStateM.Result LoweringError Nat Lowered → Prop
  | ok {v v' : Lowered} {k : Nat} (hlength : v.stmts.length = v'.stmts.length)
      (hfresh : v.fresh = v'.fresh) (hstable : v.stable = v'.stable)
      (hrenamed : plain → v' = v.rename (Temporary.shift stem stem' n n')) :
      SameUpToTemps stem stem' n n' plain (.ok v (n + k)) (.ok v' (n' + k))
  | error {e : LoweringError} {m m' : Nat} :
      SameUpToTemps stem stem' n n' plain (.error e m) (.error e m')

namespace Renumbering

variable {cx : Context}

/-- The numbering by `stem` from the count `n'` on, besides that of `cx` from `n` on. -/
noncomputable def shifted (cx : Context) (stem : String) (n n' : Nat) (plain : Prop) :
    Renumbering cx where
  stem := stem
  first := n
  second := n'
  rename := Temporary.shift cx.tempStem stem n n'
  renames := Temporary.shift_name cx.tempStem stem n n'
  comparable := plain

theorem LowerEnds.sameUpToTemps {stem : String} {n n' : Nat} {plain : Prop}
    {r r' : EStateM.Result LoweringError Nat Lowered}
    (h : (shifted cx stem n n' plain).LowerEnds r r') :
    SameUpToTemps cx.tempStem stem n n' plain r r' := by
  cases h with
  | error => exact .error
  | @ok v v' k h hstmts =>
    refine .ok hstmts.shape h.fresh h.stable fun hplain => ?_
    obtain ⟨⟨e, fresh, stable⟩, stmts⟩ := v
    obtain ⟨⟨e', fresh', stable'⟩, stmts'⟩ := v'
    have hvalue := h.renamed hplain
    have hstmts' := hstmts.renamed hplain
    simp only [Value.rename, Value.mk.injEq] at hvalue hstmts'
    obtain ⟨rfl, rfl, rfl⟩ := hvalue
    subst hstmts'
    rfl

end Renumbering

/-- Whether what a tree is lowered to can be compared name by name. -/
def Expr.NamesApart (cx : Context) (e : Expr) : Prop :=
  e.Everywhere fun e => e.Templateless cx ∧ e.avoidsTemps cx

theorem Expr.NamesApart.keepsNames {cx : Context} {e : Expr} (h : e.NamesApart cx)
    (stem : String) (n n' : Nat) :
    e.Everywhere (·.KeepsNames cx (Temporary.shift cx.tempStem stem n n')) :=
  h.mono fun _ he => he.1.keepsNames he.2 stem n n'

/-- **Lowering does not depend on the numbering of temporaries.** For any two prefixes and any
two counts to start at, an expression, and an assignment whether its value is wanted or not,
fails with the same error or comes to as many statements, as many temporaries and the same
flags; and where no template takes part and no variable is spelled like a temporary, the
outputs are the same once the temporaries of one are replaced, in their order, by those of
the other. -/
theorem lowering_sameUpToTemps (cx : Context) (stem : String) (n n' : Nat) :
    (∀ e : Expr, SameUpToTemps cx.tempStem stem n n' (e.NamesApart cx)
      (e.lower cx n) (e.lower { cx with tempStem := stem } n')) ∧
    ∀ (usage : Usage) (a : Assignment Expr) (span : Span),
      SameUpToTemps cx.tempStem stem n n' (Expr.NamesApart cx ⟨.assign a, span⟩)
        (lowerAssignment cx usage a span n)
        (lowerAssignment { cx with tempStem := stem } usage a span n') := by
  constructor
  · intro e
    have h := Renumbering.lower_alike (R := .shifted cx stem n n' (e.NamesApart cx)) e
      fun hapart => hapart.keepsNames stem n n'
    exact (h 0).sameUpToTemps
  · intro usage a span
    have h := Renumbering.lowerAssignment_alike
      (R := .shifted cx stem n n' (Expr.NamesApart cx ⟨.assign a, span⟩)) usage a span
      fun hapart => hapart.keepsNames stem n n'
    exact (h 0).sameUpToTemps

theorem SameUpToTemps.eq_rename {stem stem' : String} {n n' m m' : Nat} {plain : Prop}
    {v v' : Lowered} (h : SameUpToTemps stem stem' n n' plain (.ok v m) (.ok v' m'))
    (hplain : plain) : v' = v.rename (Temporary.shift stem stem' n n') := by
  cases h with
  | ok _ _ _ hrenamed => exact hrenamed hplain

namespace Sample

/-- The members of the sample class are bound to fields and methods. -/
theorem templateless {semantics : CopySemantics} (e : Expr) :
    e.Templateless (context semantics) where
  target t ht := by
    obtain ⟨p, hp, hplace⟩ := Expr.target_arranges ht
    cases Classified.of_ofPlace hplace with
    | @property r _ _ hstorage | @resolved r _ _ _ _ _ _ hstorage
    | @candidates r _ _ _ _ _ hstorage =>
      cases hstorage
      cases r <;> exact ⟨rfl, rfl⟩
    | @field r => cases r <;> exact ⟨rfl, rfl⟩
    | _ => exact ⟨rfl, rfl⟩
  method _ _ _ _ _ h := by cases h

/-- A call whose value is kept in a temporary while it is stored. -/
def stored : Expr := assign (property "P") .assign (call "F" [])

/-- What `stored` is lowered to with the temporary `x`. -/
def storedBy (x : String) : Lowered :=
  { expr := .ident x, fresh := false, stable := true
    stmts := [.declare x (.callMethod .this "F" []),
      .expr (.callMethod .this "setP" [.ident x])] }

end Sample

open Sample in
theorem lowering_sameUpToTemps_stored :
    stored.lower (context .reference) 0 = .ok (storedBy "$tmp1") 1 ∧
      stored.lower { context .reference with tempStem := "$t" } 4 = .ok (storedBy "$t5") 5 ∧
      storedBy "$t5" = (storedBy "$tmp1").rename (Temporary.shift "$tmp" "$t" 0 4) := by
  have hfirst : stored.lower (context .reference) 0 = .ok (storedBy "$tmp1") 1 := by rfl
  have hsecond : stored.lower { context .reference with tempStem := "$t" } 4 =
      .ok (storedBy "$t5") 5 := by rfl
  have hall : stored.NamesApart (context .reference) := by
    refine everywhere_assign ?_ (everywhere_property ?_ ?_) (everywhere_call ?_ ?_ (by simp)) <;>
      exact ⟨templateless _, fun l hl => by cases hl⟩
  have hsame := (lowering_sameUpToTemps (context .reference) "$t" 0 4).1 stored
  rw [hfirst, hsecond] at hsame
  exact ⟨hfirst, hsecond, hsame.eq_rename hall⟩

end AssignmentLowering
