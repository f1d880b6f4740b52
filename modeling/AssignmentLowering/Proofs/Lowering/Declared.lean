import AssignmentLowering.Proofs.Expr.Annotate
import AssignmentLowering.Proofs.Lowering.Numbering

/-!
# Which names are declared

Statements declare temporaries and nothing else. A lowering that goes from one count of
temporaries to another declares those in between, each once and in the order of their
numbers. Nothing is asked of the variables of the program here; they may even be spelled
like temporaries.

## Main definitions

* `Declares` — statements that declare the temporaries between two counts.

## Main statements

* `LowersAssign.declares`, `Lowers.declares` — one step, from parts to whole.
* `LowersDeclaring.of_lower` — lowering declares what it takes.
-/

namespace AssignmentLowering

open Script (Stmt)

theorem Script.declared_append (stmts stmts' : List Stmt) :
    Script.declared (stmts ++ stmts') = Script.declared stmts ++ Script.declared stmts' :=
  List.filterMap_append

@[simp] theorem Script.declared_expr (e : Script.Expr) : Script.declared [.expr e] = [] := rfl

variable {cx : Context}

/-- Statements that declare the temporaries behind the `n`-th and up to the `n'`-th, in this
order, and nothing else. -/
structure Declares (cx : Context) (n : Nat) (stmts : List Stmt) (n' : Nat) : Prop where
  le : n ≤ n'
  declared : Script.declared stmts = (List.range' (n + 1) (n' - n)).map cx.temp

namespace Declares

variable {n n' n'' : Nat} {stmts stmts' : List Stmt}

theorem nil (n : Nat) : Declares cx n [] n := ⟨le_rfl, by simp [Script.declared]⟩

theorem append (h : Declares cx n stmts n') (h' : Declares cx n' stmts' n'') :
    Declares cx n (stmts ++ stmts') n'' := by
  have hle := h.le
  have hle' := h'.le
  refine ⟨hle.trans hle', ?_⟩
  have hstart : n' + 1 = n + 1 + (n' - n) := by omega
  have hcount : n'' - n = (n' - n) + (n'' - n') := by omega
  rw [Script.declared_append, h.declared, h'.declared, hstart, hcount, ← List.map_append,
    List.range'_append_1]

theorem held {e x : Script.Expr} {flag : Bool} (h : Held cx e n flag x stmts n') :
    Declares cx n stmts n' := by
  cases h with
  | inline => exact nil n
  | captured => exact ⟨Nat.le_succ n, by simp [Script.declared, Script.Stmt.declared?]⟩

theorem push (h : Declares cx n stmts n') (e : Script.Expr) :
    Declares cx n (stmts ++ [.expr e]) n' := by
  refine ⟨h.le, ?_⟩
  rw [Script.declared_append, Script.declared_expr, List.append_nil, h.declared]

theorem finish (h : Declares cx n stmts n') (usage : Usage) (store : Script.Expr)
    (result : Value) : Declares cx n (usage.finish store result stmts).stmts n' := by
  cases usage with
  | used => exact h.push store
  | discarded => exact h

theorem composes : Composes cx fun n stmts _ n' => Declares cx n stmts n' where
  nil := nil
  append := append
  perm _ h := h
  held h hheld := h.append (held hheld)

/-- As many names are declared as temporaries are taken. -/
theorem count_eq (h : Declares cx n stmts n') : n' = n + (Script.declared stmts).length := by
  have hle := h.le
  rw [h.declared, List.length_map, List.length_range']
  omega

theorem exists_temp (h : Declares cx n stmts n') {x : String} (hx : x ∈ Script.declared stmts) :
    ∃ k, 0 < k ∧ x = cx.temp k := by
  rw [h.declared] at hx
  obtain ⟨k, hk, rfl⟩ := List.mem_map.1 hx
  rw [List.mem_range'_1] at hk
  exact ⟨k, by omega, rfl⟩

end Declares

/-- An expression whose lowering declares the temporaries that it takes. -/
def LowersDeclaring (cx : Context) (e : Expr) : Prop :=
  ∀ ⦃n n' : Nat⦄ ⦃w : Lowered⦄, e.lower cx n = .ok w n' → Declares cx n w.stmts n'

variable {n n' : Nat} {w : Lowered}

theorem Addressed.declares {reuse : Bool} {rest : List Expr} {p : Place Expr} {span : Span}
    {t : Target Expr} {a : LoweredAddress} {stmts : List Stmt}
    (hplace : Target.ofPlace cx.metadata cx.enclosing Expr.ty span p = .ok t)
    (hparts : ∀ e ∈ p.operands ++ p.defaults, LowersDeclaring cx e)
    (h : Addressed cx reuse rest t n a stmts n') : Declares cx n stmts n' :=
  Declares.composes.addressed (Target.ofPlace_arranges hplace).2
    (fun o ho _ _ _ h => hparts o
      (List.mem_append_left _ (Target.operands_ofPlace hplace ▸ ho)) h)
    (fun o ho _ _ _ h => hparts o
      (List.mem_append_right _ (Target.mem_defaults_of_mem_omitted hplace ho)) h) h

theorem LowersAssign.declares {usage : Usage} {a : Assignment Expr} {span : Span}
    (hparts : ∀ e ∈ (⟨.assign a, span⟩ : Expr).parts, LowersDeclaring cx e)
    (h : LowersAssign cx usage a n w n') : Declares cx n w.stmts n' := by
  have htaken {c : Capture} {m m' : Nat} {v : Value} {stmts : List Stmt}
      (h : Taken cx c [] a.value m v stmts m') : Declares cx m stmts m' :=
    Declares.composes.taken (fun hv => hparts _ (Expr.value_mem_parts a span) hv) h
  have haddressed {t : Target Expr} {reuse : Bool} {addr : LoweredAddress} {m m' : Nat}
      {stmts : List Stmt} (htarget : a.target.target cx.metadata cx.enclosing = .ok t)
      (h : Addressed cx reuse [a.value] t m addr stmts m') : Declares cx m stmts m' := by
    obtain ⟨p, hp, hplace⟩ := Expr.target_arranges htarget
    exact h.declares hplace fun e he =>
      hparts e (Expr.place_mem_parts (Expr.place?_of_place hp) span he)
  cases h with
  | native htarget _ _ _ haddr hvalue _ => exact (haddressed htarget haddr).append (htaken hvalue)
  | readBack htarget _ _ _ haddr hvalue _ =>
    exact ((haddressed htarget haddr).append (htaken hvalue)).push _
  | byCall htarget _ _ haddr hvalue _ =>
    exact ((haddressed htarget haddr).append (htaken hvalue)).finish ..
  | compoundNative htarget _ _ haddr hvalue _ =>
    exact (haddressed htarget haddr).append (htaken hvalue)
  | compoundByCall htarget _ _ _ haddr _ hold hvalue hnew _ =>
    exact ((((haddressed htarget haddr).append (.held hold)).append (htaken hvalue)).append
      (.held hnew)).finish ..

theorem Lowers.declares {e : Expr} (hparts : ∀ c ∈ e.parts, LowersDeclaring cx c)
    (h : Lowers cx e n w n') : Declares cx n w.stmts n' := by
  have htaken {c : Capture} (es : List Expr) {vs : List Value} {stmts : List Stmt} {m : Nat}
      (hes : es = e.parts) (h : TakenAll cx [] (es.map (c, ·)) n vs stmts m) :
      Declares cx n stmts m :=
    Declares.composes.takenAll
      (fun o ho _ _ _ hlower => hparts o (hes ▸ map_snd_map_capture c es ▸ ho) hlower) h
  cases h with
  | literal | defaultValue | this => exact .nil n
  | load _ htarget haddr _ => exact haddr.declares htarget hparts
  | call _ hall _ => exact htaken _ rfl hall
  | callInline _ hall _ _ => exact htaken _ rfl hall
  | @binary _ left right _ _ _ _ _ _ _ hall => exact htaken [left, right] rfl hall
  | assign h => exact h.declares hparts

/-- Lowering takes temporaries only to declare them, and declares nothing else. -/
theorem LowersDeclaring.of_lower (e : Expr) : LowersDeclaring cx e := by
  induction e using Expr.inductParts with
  | step e ih => exact fun _ _ _ h => (Lowers.of_lower h).declares ih

end AssignmentLowering
