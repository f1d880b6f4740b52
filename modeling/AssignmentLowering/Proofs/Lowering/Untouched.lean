import AssignmentLowering.Proofs.Effects.Quiet
import AssignmentLowering.Proofs.Lowering.Declared

/-!
# Which variables lowering leaves alone

Whether an expression writes a variable is looked up in the expression, before anything is
lowered. What it answers is true of the output: where no write is found, the variable is
nowhere assigned, neither in a statement moved to the front nor deep in an expression, and
no statement declares it. Only a target that is a variable comes out as an identifier,
and all else that gets a value is a member, an element, the argument of a call, or a
temporary. A variable that is spelled like a temporary has no such promise.

The text of templates is not looked into; it stands for code of its own.

## Main definitions

* `Untouched` — script that leaves a variable alone.

## Main statements

* `Expr.writes_of_mem_parts` — what an expression does not write none of its parts writes.
* `untouched_of_not_writes` — what is not written is left alone.
-/

namespace AssignmentLowering

open Script (Stmt)

/-! ## Writes of parts -/

namespace Expr

variable {x : String}

theorem writes_of_mem_operands {c e : Expr} (h : c ∈ e.operands) {y : String}
    (hy : c.writes y = true) : e.writes y = true := by
  rw [writes_eq, Bool.or_eq_true, List.any_eq_true]
  exact .inr ⟨c, h, hy⟩

theorem writes_of_isConstant {e : Expr} (h : e.isConstant = true) : e.writes x = false := by
  rw [writes_eq]
  obtain ⟨form, span⟩ := e
  cases form with
  | literal | defaultValue => rfl
  | _ => cases h

/-- What addresses a place does not write what the place does not write. -/
theorem writes_of_mem_place {e : Expr} {p : Place Expr} (hp : e.form = .place p)
    (hdefaults : e.defaultsAreConstant = true) (hx : e.writes x = false) :
    ∀ c ∈ p.operands ++ p.defaults, c.writes x = false := by
  intro c hc
  obtain ⟨form, span⟩ := e
  obtain rfl : form = .place p := hp
  obtain hc | hc := List.mem_append.1 hc
  · exact Bool.eq_false_iff.2 fun hwrites =>
      Bool.eq_false_iff.1 hx (writes_of_mem_operands hc hwrites)
  · exact writes_of_isConstant (List.all_eq_true.1 hdefaults c hc)

/-- What an expression does not write none of its parts writes. -/
theorem writes_of_mem_parts {e : Expr} (hdefaults : e.Everywhere (·.defaultsAreConstant = true))
    (hx : e.writes x = false) : ∀ c ∈ e.parts, c.writes x = false := by
  have hoperands : ∀ c ∈ e.operands, c.writes x = false := fun c hc =>
    Bool.eq_false_iff.2 fun hwrites => Bool.eq_false_iff.1 hx (writes_of_mem_operands hc hwrites)
  obtain ⟨form, span⟩ := e
  cases form with
  | place p => exact writes_of_mem_place rfl hdefaults.here hx
  | assign a =>
    have htarget : a.target.writes x = false :=
      hoperands _ (by simp [Expr.operands, Form.operands])
    have hvalue : a.value.writes x = false :=
      hoperands _ (by simp [Expr.operands, Form.operands])
    cases hp : a.target.form with
    | place p =>
      rw [parts_assign (place?_of_place hp)]
      exact List.forall_mem_append.2 ⟨writes_of_mem_place hp hdefaults.target.here htarget,
        List.forall_mem_singleton.2 hvalue⟩
    | _ => simpa [parts, place?, hp, Form.place?] using hvalue
  | _ => exact hoperands

/-- The variable that an assignment writes is not one that it does not write. -/
theorem assignedIs_of_not_writes {e : Expr} (hx : e.writes x = false) :
    e.assignedIs (· ≠ x) := by
  rintro a ha l hl rfl
  have hlocal : a.target.isLocal l.name = true := by simp [isLocal, hl]
  rw [writes_eq, ha] at hx
  simp [hlocal] at hx

end Expr

/-! ## Lowering -/

variable {cx : Context} {x : String}

/-- Statements, and an expression evaluated behind them, that leave the variable `x` alone:
nothing in them is an assignment to the identifier `x`, and no statement declares it. -/
structure Untouched (x : String) (stmts : List Stmt) (e : Script.Expr) : Prop where
  declared : x ∉ Script.declared stmts
  stmts : x ∉ Script.assigned stmts
  expr : x ∉ e.assigned

theorem Untouched.of_assignsOnly {n n' : Nat} {stmts : List Stmt} {e : Script.Expr}
    (hx : ∀ k, 0 < k → x ≠ cx.temp k) (hassigns : AssignsOnly (· ≠ x) stmts [e])
    (hdeclares : Declares cx n stmts n') : Untouched x stmts e where
  declared h := by
    obtain ⟨k, hpos, hk⟩ := hdeclares.exists_temp h
    exact hx k hpos hk
  stmts h := by
    obtain ⟨s, hs, hmem⟩ := List.mem_flatMap.1 h
    exact hassigns.stmts s hs x hmem rfl
  expr h := hassigns.exprs e List.mem_cons_self x h rfl

theorem LowersAssigning.of_not_writes (e : Expr)
    (hdefaults : e.Everywhere (·.defaultsAreConstant = true)) (hx : e.writes x = false) :
    LowersAssigning cx (· ≠ x) e := by
  induction e using Expr.inductParts with
  | step e ih =>
    intro n n' w h
    have hparts : ∀ c ∈ e.parts, LowersAssigning cx (· ≠ x) c := fun c hc =>
      ih c hc (hdefaults.part c hc) (Expr.writes_of_mem_parts hdefaults hx c hc)
    exact (Lowers.of_lower h).assignsOnly (Expr.assignedIs_of_not_writes hx) hparts

theorem LowersAssign.assignsOnly_of_not_writes {usage : Usage} {a : Assignment Expr} {span : Span}
    {n n' : Nat} {w : Lowered}
    (hdefaults : Expr.Everywhere (·.defaultsAreConstant = true) ⟨.assign a, span⟩)
    (hx : (⟨.assign a, span⟩ : Expr).writes x = false) (h : LowersAssign cx usage a n w n') :
    AssignsOnly (· ≠ x) w.stmts [w.expr] := by
  have hparts : ∀ c ∈ (⟨.assign a, span⟩ : Expr).parts, LowersAssigning cx (· ≠ x) c :=
    fun c hc => LowersAssigning.of_not_writes c (hdefaults.part c hc)
      (Expr.writes_of_mem_parts hdefaults hx c hc)
  exact h.assignsOnly (hparts _ (Expr.value_mem_parts a span))
    fun t ht => .of_assign (Expr.assignedIs_of_not_writes hx a rfl) hparts ht

/-- An invariant variable is written by nothing that is still to come. -/
theorem Expr.writes_of_isInvariant {l : Local} {span : Span} {later : List Expr}
    (h : (⟨.place (.localVar l), span⟩ : Expr).isInvariant later = true) :
    ∀ o ∈ later, o.writes l.name = false := by
  simp only [isInvariant, Bool.and_eq_true, Bool.not_eq_true', List.any_eq_false] at h
  exact fun o ho => by simpa using h.2 o ho

/-- A variable that an expression or an assignment does not write is left alone by what
comes of it, unless it is spelled like a temporary. So a variable that counts as invariant
is left alone by what comes of the operands after it. -/
theorem untouched_of_not_writes {cx : Context} {x : String} (hx : ∀ k, 0 < k → x ≠ cx.temp k) :
    (∀ (e : Expr) (n : Nat) {n' : Nat} {w : Lowered},
      e.Everywhere (·.defaultsAreConstant = true) → e.writes x = false →
      e.lower cx n = .ok w n' → Untouched x w.stmts w.expr) ∧
    (∀ (usage : Usage) (a : Assignment Expr) (span : Span) (n : Nat) {n' : Nat} {w : Lowered},
      Expr.Everywhere (·.defaultsAreConstant = true) ⟨.assign a, span⟩ →
      (⟨.assign a, span⟩ : Expr).writes x = false →
      lowerAssignment cx usage a span n = .ok w n' → Untouched x w.stmts w.expr) ∧
    (∀ (ty : TypeRef) (span : Span) (later : List Expr),
      (⟨.place (.localVar { name := x, ty, byRef := false }), span⟩ : Expr).isInvariant later =
        true →
      ∀ o ∈ later, o.Everywhere (·.defaultsAreConstant = true) →
        ∀ (n : Nat) {n' : Nat} {w : Lowered}, o.lower cx n = .ok w n' →
          Untouched x w.stmts w.expr) := by
  have hexpr : ∀ (e : Expr) (n : Nat) {n' : Nat} {w : Lowered},
      e.Everywhere (·.defaultsAreConstant = true) → e.writes x = false →
      e.lower cx n = .ok w n' → Untouched x w.stmts w.expr :=
    fun e n _ _ hdefaults hwrites h => .of_assignsOnly hx
      (LowersAssigning.of_not_writes e hdefaults hwrites h) (LowersDeclaring.of_lower e h)
  refine ⟨hexpr, fun usage a span n n' w hdefaults hwrites h => ?_,
    fun ty span later hinvariant o ho hdefaults n _ _ h => ?_⟩
  · have hlowers := LowersAssign.of_lowerAssignment h
    have hparts : ∀ c ∈ (⟨.assign a, span⟩ : Expr).parts, LowersDeclaring cx c :=
      fun c _ => LowersDeclaring.of_lower c
    exact .of_assignsOnly hx (hlowers.assignsOnly_of_not_writes hdefaults hwrites)
      (hlowers.declares hparts)
  · exact hexpr o n hdefaults (Expr.writes_of_isInvariant hinvariant o ho) h

namespace Sample

/-- No number makes a variable of the name of a temporary: those begin otherwise. -/
theorem ne_temp (k : Nat) (_ : 0 < k) : "x" ≠ (context .reference).temp k := by
  intro h
  have hhead := congrArg (fun s : String => s.toList.head?) h
  simp [context, Context.temp, Temporary.name] at hhead

/-- A variable is assigned what a call returns that is handed another. -/
def copyOver : Assignment Expr := ⟨localVar "y", .assign, call "F" [localVar "x"]⟩

end Sample

open Sample in
theorem untouched_of_not_writes_copyOver :
    let cx := context .reference
    let e : Expr := ⟨.assign copyOver, {}⟩
    (∃ w n, e.lower cx 0 = .ok w n ∧ Untouched "x" w.stmts w.expr) ∧
      (∃ w n, lowerAssignment cx .discarded copyOver {} 0 = .ok w n ∧
        Untouched "x" w.stmts w.expr) ∧
      (localVar "x").isInvariant [e] = true ∧
      ∃ w n, e.lower cx 3 = .ok w n ∧ Untouched "x" w.stmts w.expr := by
  intro cx e
  obtain ⟨hexpr, hassignment, hlater⟩ := untouched_of_not_writes ne_temp
  have hdefaults : e.Everywhere (·.defaultsAreConstant = true) :=
    everywhere_assign rfl (everywhere_localVar rfl)
      (everywhere_call rfl rfl (List.forall_mem_singleton.2 (everywhere_localVar rfl)))
  have hinvariant : (localVar "x").isInvariant [e] = true := by decide
  refine ⟨⟨_, _, rfl, ?_⟩, ⟨_, _, rfl, ?_⟩, hinvariant, _, _, rfl, ?_⟩
  · exact hexpr e 0 hdefaults (by decide) rfl
  · exact hassignment .discarded copyOver {} 0 hdefaults (by decide) rfl
  · exact hlater ty {} [e] hinvariant e List.mem_cons_self hdefaults 3 rfl

end AssignmentLowering
