import AssignmentLowering.Proofs.Lowering.Assigned
import AssignmentLowering.Proofs.Lowering.Count
import AssignmentLowering.Proofs.Lowering.Sample
import AssignmentLowering.Proofs.Lowering.Temporaries

/-!
# Temporaries through a whole body

The assignments and expressions of a body are lowered one after the other and share one
count of temporaries. Each of them declares the temporaries it is given, in the order of
their numbers, mentions none before its declaration and assigns to none. Since the count
never goes back, not even where a lowering fails, no temporary of the body is declared
twice.

## Main definitions

* `Script.declared` — the names that statements declare.
* `LoweredAssignment.NumbersTemps` — output that treats its temporaries in this way.
* `Task`, `runTasks` — what is lowered in a body, and lowering it.

## Main statements

* `Task.numbersTemps` — one lowering.
* `runTasks_numbersTemps` — a whole body.
-/

namespace AssignmentLowering

open Script (Stmt)

/-- The name that a statement declares, if it is a declaration. -/
def Script.Stmt.declared? : Stmt → Option String
  | .declare name _ => some name
  | .expr _ => none

/-- The names that statements declare, from top to bottom. -/
def Script.declared (stmts : List Stmt) : List String := stmts.filterMap Stmt.declared?

/-- Output that declares the temporaries behind the `n`-th and up to the `n'`-th, in this
order, mentions each of them only behind its declaration, and assigns to none of them. -/
structure LoweredAssignment.NumbersTemps (stem : String) (n n' : Nat) (out : LoweredAssignment) :
    Prop where
  declared : Script.declared out.statements =
    (List.range' (n + 1) (n' - n)).map (Temporary.name stem)
  mentioned : ∀ x ∈ Script.declared out.statements, ∃ before value behind,
    out.statements = before ++ .declare x value :: behind ∧
      Script.mentions x before = 0 ∧ value.mentions x = 0
  assigned : ∀ x ∈ Script.declared out.statements,
    x ∉ Script.assigned out.statements ∧ ∀ e ∈ out.result, x ∉ e.assigned
  /-- The temporaries of other outputs are not mentioned at all. -/
  others : ∀ k, ¬(n < k ∧ k ≤ n') → Script.mentions (Temporary.name stem k) out.statements = 0 ∧
    ∀ e ∈ out.result, e.mentions (Temporary.name stem k) = 0

/-- Something to lower in a body: an assignment, or an expression for its value. -/
inductive Task where
  | assignment (cx : Context) (usage : Usage) (a : Assignment Expr) (span : Span)
  | expression (cx : Context) (e : Expr)

namespace Task

def cx : Task → Context
  | assignment cx .. | expression cx _ => cx

/-- What is lowered, and for what. -/
def lower : Task → LowerM LoweredAssignment
  | assignment cx usage a span => do
    let v ← lowerAssignment cx usage a span
    pure (.ofLowered usage v)
  | expression cx e => do
    let v ← e.lower cx
    pure (.ofLowered .used v)

/-- No local variable in what is lowered is spelled like a temporary. -/
def AvoidsTemps : Task → Prop
  | assignment cx _ a span => Expr.Everywhere (·.avoidsTemps cx) ⟨.assign a, span⟩
  | expression cx e => e.Everywhere (·.avoidsTemps cx)

end Task

/-- How a lowering ended: the counts of temporaries before and behind it, and its output,
unless it failed. -/
structure Outcome where
  before : Nat
  after : Nat
  output : Option LoweredAssignment

/-- The names that the output of a lowering declares. -/
def Outcome.declared (o : Outcome) : List String :=
  o.output.toList.flatMap fun out => Script.declared out.statements

def Task.run (t : Task) (n : Nat) : Outcome :=
  match t.lower n with
  | .ok out n' => ⟨n, n', some out⟩
  | .error _ n' => ⟨n, n', none⟩

/-- Lower one thing after the other, each at the count where the one before it ended. -/
def runTasks : Nat → List Task → List Outcome
  | _, [] => []
  | n, t :: rest => t.run n :: runTasks (t.run n).after rest

/-! ## Statements that declare temporaries in turn -/

namespace Numbered

variable {cx : Context} {n n' : Nat} {stmts : List Stmt}

theorem declared_eq (h : Numbered cx n stmts n') :
    Script.declared stmts = (List.range' (n + 1) (n' - n)).map cx.temp := by
  induction h with
  | nil => simp [Script.declared]
  | expr _ _ ih => exact ih
  | @declare n n' e stmts _ hrest ih =>
    have hle := hrest.le
    have hcount : n' - n = n' - (n + 1) + 1 := by omega
    rw [hcount, List.range'_succ, List.map_cons, ← ih]
    rfl

theorem exists_temp (h : Numbered cx n stmts n') {x : String} (hx : x ∈ Script.declared stmts) :
    ∃ k, x = cx.temp k ∧ n < k ∧ k ≤ n' := by
  have hle := h.le
  rw [h.declared_eq] at hx
  obtain ⟨k, hk, rfl⟩ := List.mem_map.1 hx
  rw [List.mem_range'_1] at hk
  exact ⟨k, rfl, by omega, by omega⟩

/-- A temporary is not mentioned before it is declared. -/
theorem mentioned (h : Numbered cx n stmts n') {x : String} (hx : x ∈ Script.declared stmts) :
    ∃ before value behind, stmts = before ++ .declare x value :: behind ∧
      Script.mentions x before = 0 ∧ value.mentions x = 0 := by
  induction h with
  | nil => cases hx
  | @expr n n' e stmts he hrest ih =>
    obtain ⟨k, rfl, hk, -⟩ := hrest.exists_temp hx
    obtain ⟨before, value, behind, rfl, hbefore, hvalue⟩ := ih hx
    refine ⟨.expr e :: before, value, behind, rfl, ?_, hvalue⟩
    rw [← List.singleton_append, Script.mentions_append, Script.mentions_expr, he k hk, hbefore]
  | @declare n n' e stmts he hrest ih =>
    obtain rfl | hx := List.mem_cons.1 hx
    · exact ⟨[], e, stmts, rfl, rfl, he (n + 1) (by omega)⟩
    · obtain ⟨k, rfl, hk, -⟩ := hrest.exists_temp hx
      obtain ⟨before, value, behind, rfl, hbefore, hvalue⟩ := ih hx
      refine ⟨.declare (cx.temp (n + 1)) e :: before, value, behind, rfl, ?_, hvalue⟩
      rw [← List.singleton_append, Script.mentions_append, Script.mentions_declare,
        he k (by omega), hbefore]

end Numbered

/-! ## One lowering -/

/-- To avoid the names of temporaries is to be of a name that is none. -/
theorem Expr.Everywhere.localIs_of_avoidsTemps {cx : Context} {e : Expr}
    (h : e.Everywhere (·.avoidsTemps cx)) : e.Everywhere (·.localIs fun x => ∀ k, x ≠ cx.temp k) :=
  h.mono fun _ havoids => havoids

section

variable {cx : Context} {n n' : Nat}

theorem Confined.ofLowered {v : Lowered} (h : Confined cx n n' v.stmts [v.expr]) (usage : Usage) :
    Confined cx n n' (LoweredAssignment.ofLowered usage v).statements
      (LoweredAssignment.ofLowered usage v).result.toList := by
  cases usage with
  | used => exact h
  | discarded => exact h.push

theorem AssignsOnly.ofLowered {p : String → Prop} {v : Lowered}
    (h : AssignsOnly p v.stmts [v.expr]) (usage : Usage) :
    AssignsOnly p (LoweredAssignment.ofLowered usage v).statements
      (LoweredAssignment.ofLowered usage v).result.toList := by
  cases usage with
  | used => exact h
  | discarded => exact h.push

/-- Output that keeps to its temporaries and assigns to no temporary. -/
theorem LoweredAssignment.NumbersTemps.of_confined {out : LoweredAssignment}
    (hconfined : Confined cx n n' out.statements out.result.toList)
    (hassigns : AssignsOnly (fun x => ∀ k, x ≠ cx.temp k) out.statements out.result.toList) :
    out.NumbersTemps cx.tempStem n n' where
  declared := hconfined.numbered.declared_eq
  mentioned _ hx := hconfined.numbered.mentioned hx
  assigned x hx := by
    obtain ⟨k, rfl, -⟩ := hconfined.numbered.exists_temp hx
    constructor
    · intro hmem
      obtain ⟨s, hs, hmem⟩ := List.mem_flatMap.1 hmem
      exact hassigns.stmts s hs _ hmem k rfl
    · intro e he hmem
      exact hassigns.exprs e (Option.mem_toList.2 he) _ hmem k rfl
  others k hk := by
    refine ⟨hconfined.stmts k hk, fun e he => ?_⟩
    have hzero := hconfined.exprs k hk
    rw [Option.mem_def.1 he, Option.toList_some, Script.mentionsAll_singleton] at hzero
    exact hzero

theorem lowerAssignment_confined {usage : Usage} {a : Assignment Expr} {span : Span} {v : Lowered}
    (havoids : Expr.Everywhere (·.avoidsTemps cx) ⟨.assign a, span⟩)
    (h : lowerAssignment cx usage a span n = .ok v n') : Confined cx n n' v.stmts [v.expr] := by
  have hparts : ∀ e ∈ (⟨.assign a, span⟩ : Expr).parts, LowersConfined cx e :=
    fun e he => LowersConfined.of_everywhere e (havoids.part e he)
  exact (LowersAssign.of_lowerAssignment h).confined (hparts _ (Expr.value_mem_parts a span))
    fun t ht => .of_assign havoids hparts ht

theorem lowerAssignment_assignsOnly {p : String → Prop} {usage : Usage} {a : Assignment Expr}
    {span : Span} {v : Lowered} (hlocal : Expr.Everywhere (·.localIs p) ⟨.assign a, span⟩)
    (h : lowerAssignment cx usage a span n = .ok v n') : AssignsOnly p v.stmts [v.expr] := by
  have hparts : ∀ e ∈ (⟨.assign a, span⟩ : Expr).parts, LowersAssigning cx p e :=
    fun e he => LowersAssigning.of_everywhere e (hlocal.part e he)
  exact (LowersAssign.of_lowerAssignment h).assignsOnly (hparts _ (Expr.value_mem_parts a span))
    fun t ht => .of_assign hlocal.target.here hparts ht

end

/-- What a lowering declares, mentions and assigns, if it succeeds. -/
theorem Task.numbersTemps {t : Task} (havoids : t.AvoidsTemps) {n n' : Nat}
    {out : LoweredAssignment} (h : t.lower n = .ok out n') :
    out.NumbersTemps t.cx.tempStem n n' := by
  cases t with
  | assignment cx usage a span =>
    obtain ⟨v, m, hlower, hpure⟩ := bind_ok h
    obtain ⟨rfl, rfl⟩ := pure_ok hpure
    have havoids : Expr.Everywhere (·.avoidsTemps cx) ⟨.assign a, span⟩ := havoids
    exact .of_confined ((lowerAssignment_confined havoids hlower).ofLowered usage)
      ((lowerAssignment_assignsOnly havoids.localIs_of_avoidsTemps hlower).ofLowered usage)
  | expression cx e =>
    obtain ⟨v, m, hlower, hpure⟩ := bind_ok h
    obtain ⟨rfl, rfl⟩ := pure_ok hpure
    have havoids : e.Everywhere (·.avoidsTemps cx) := havoids
    exact .of_confined ((LowersConfined.of_everywhere e havoids hlower).ofLowered .used)
      ((LowersAssigning.of_everywhere e havoids.localIs_of_avoidsTemps hlower).ofLowered .used)

/-- A lowering gives no temporary back, even if it fails. -/
theorem Task.le_stateAfter_lower (t : Task) (n : Nat) : n ≤ stateAfter t.lower n := by
  have hmap : ∀ {x : LowerM Lowered} {f : Lowered → LoweredAssignment}, n ≤ stateAfter x n →
      n ≤ stateAfter (x >>= fun v => pure (f v)) n := by
    intro x f hx
    rw [stateAfter_bind]
    unfold stateAfter at hx
    cases hn : x n with
    | ok v m => rwa [hn] at hx
    | error e m => rwa [hn] at hx
  cases t with
  | assignment cx usage a span => exact hmap (lowerAssignment_advances usage a span n)
  | expression cx e => exact hmap (e.operand_advances n)

/-! ## A whole body -/

section

variable {stem : String}

/-- One step of a run. -/
theorem Task.run_numbersTemps {t : Task} (hstem : t.cx.tempStem = stem) (havoids : t.AvoidsTemps)
    (n : Nat) :
    (t.run n).before = n ∧ n ≤ (t.run n).after ∧
      ∀ out ∈ (t.run n).output, out.NumbersTemps stem n (t.run n).after := by
  have hle := t.le_stateAfter_lower n
  unfold stateAfter at hle
  unfold run
  cases h : t.lower n with
  | ok out n' =>
    rw [h] at hle
    refine ⟨rfl, hle, fun out' hout => ?_⟩
    obtain rfl := Option.some.inj hout
    exact hstem ▸ t.numbersTemps havoids h
  | error e n' =>
    rw [h] at hle
    exact ⟨rfl, hle, fun out hout => by cases hout⟩

/-- The names declared in a step are those of the temporaries counted in it. -/
theorem Outcome.exists_temp {o : Outcome} (h : ∀ out ∈ o.output, out.NumbersTemps stem o.before
    o.after) {x : String} (hx : x ∈ o.declared) :
    ∃ k, x = Temporary.name stem k ∧ o.before < k ∧ k ≤ o.after := by
  obtain ⟨out, hout, hx⟩ := List.mem_flatMap.1 hx
  rw [(h out (Option.mem_toList.1 hout)).declared] at hx
  obtain ⟨k, hk, rfl⟩ := List.mem_map.1 hx
  rw [List.mem_range'_1] at hk
  exact ⟨k, rfl, by omega, by omega⟩

theorem Outcome.nodup_declared {o : Outcome}
    (h : ∀ out ∈ o.output, out.NumbersTemps stem o.before o.after) : o.declared.Nodup := by
  unfold declared
  cases hout : o.output with
  | none => exact List.nodup_nil
  | some out =>
    rw [Option.toList_some, List.flatMap_singleton, (h out hout).declared]
    exact List.Nodup.map (Temporary.name_injective stem) List.nodup_range'

/-- The names declared in a run that starts at the count `n` are all different, and they are
those of temporaries behind the `n`-th. -/
theorem runTasks_declared {tasks : List Task} (hstem : ∀ t ∈ tasks, t.cx.tempStem = stem)
    (havoids : ∀ t ∈ tasks, t.AvoidsTemps) (n : Nat) :
    ((runTasks n tasks).flatMap Outcome.declared).Nodup ∧
      ∀ x ∈ (runTasks n tasks).flatMap Outcome.declared,
        ∃ k, x = Temporary.name stem k ∧ n < k := by
  induction tasks generalizing n with
  | nil => exact ⟨List.nodup_nil, fun x hx => by cases hx⟩
  | cons t tasks ih =>
    obtain ⟨ht, hrest⟩ := List.forall_mem_cons.1 hstem
    obtain ⟨havoid, havoids⟩ := List.forall_mem_cons.1 havoids
    obtain ⟨hbefore, hle, hout⟩ := t.run_numbersTemps ht havoid n
    obtain ⟨hnodup, htail⟩ := ih hrest havoids (t.run n).after
    have hout' : ∀ out ∈ (t.run n).output, out.NumbersTemps stem (t.run n).before
        (t.run n).after := hbefore.symm ▸ hout
    simp only [runTasks, List.flatMap_cons]
    refine ⟨List.Nodup.append (Outcome.nodup_declared hout') hnodup ?_, fun x hx => ?_⟩
    · intro x hx hx'
      obtain ⟨k, rfl, -, hk⟩ := Outcome.exists_temp hout' hx
      obtain ⟨k', hname, hk'⟩ := htail _ hx'
      have := Temporary.name_injective stem hname
      omega
    · obtain hx | hx := List.mem_append.1 hx
      · obtain ⟨k, rfl, hk, -⟩ := Outcome.exists_temp hout' hx
        exact ⟨k, rfl, hbefore ▸ hk⟩
      · obtain ⟨k, rfl, hk⟩ := htail x hx
        exact ⟨k, rfl, by omega⟩

/-- Through a whole body, with failures in it or not, each output declares the temporaries
counted for it, in their order, mentions them only behind their declarations and assigns to
none of them; and all temporaries of the body have different names. -/
theorem runTasks_numbersTemps (tasks : List Task) (n : Nat)
    (hstem : ∀ t ∈ tasks, t.cx.tempStem = stem) (havoids : ∀ t ∈ tasks, t.AvoidsTemps) :
    (∀ o ∈ runTasks n tasks, o.before ≤ o.after ∧
      ∀ out ∈ o.output, out.NumbersTemps stem o.before o.after) ∧
    ((runTasks n tasks).flatMap Outcome.declared).Nodup := by
  refine ⟨?_, (runTasks_declared hstem havoids n).1⟩
  induction tasks generalizing n with
  | nil => simp [runTasks]
  | cons t tasks ih =>
    obtain ⟨ht, hrest⟩ := List.forall_mem_cons.1 hstem
    obtain ⟨havoid, havoids⟩ := List.forall_mem_cons.1 havoids
    obtain ⟨hbefore, hle, hout⟩ := t.run_numbersTemps ht havoid n
    refine List.forall_mem_cons.2 ⟨?_, ih (t.run n).after hrest havoids⟩
    rw [hbefore]
    exact ⟨hle, hout⟩

end

namespace Sample

/-- A call whose value is kept in a temporary. -/
def kept : Expr := assign (property "P") .assign (call "F" [])

/-- An element without an index is no place to read, but that is noticed only behind `kept`. -/
def failing : Expr := ⟨.binary .add kept ⟨.place (.dynamicIndex this []), {}⟩ ty, {}⟩

/-- Two lowerings that succeed, and between them one that takes a temporary and fails. -/
def body : List Task :=
  [.assignment (context .reference) .used ⟨property "P", .assign, call "F" []⟩ {},
    .expression (context .reference) failing,
    .assignment (context .reference) .discarded ⟨field "f", .assign, kept⟩ {}]

end Sample

open Sample in
theorem runTasks_numbersTemps_body :
    (runTasks 0 body).map (fun o => (o.before, o.after, o.declared)) =
      [(0, 1, ["$tmp1"]), (1, 2, []), (2, 3, ["$tmp3"])] ∧
    (∀ o ∈ runTasks 0 body, o.before ≤ o.after ∧
      ∀ out ∈ o.output, out.NumbersTemps "$tmp" o.before o.after) ∧
    ((runTasks 0 body).flatMap Outcome.declared).Nodup := by
  have hkept : kept.Everywhere (·.avoidsTemps (context .reference)) := by
    refine everywhere_assign ?_ (everywhere_property ?_ ?_) (everywhere_call ?_ ?_ (by simp)) <;>
      intro l hl <;> cases hl
  have hthis : this.Everywhere (·.avoidsTemps (context .reference)) :=
    everywhere_this fun l hl => by cases hl
  have hfailing : failing.Everywhere (·.avoidsTemps (context .reference)) := by
    refine .intro (fun l hl => by cases hl) (List.forall_mem_cons.2 ⟨hkept, ?_⟩)
    refine List.forall_mem_singleton.2 (.intro (fun l hl => by cases hl) ?_)
    simpa [Form.children, Place.operands, Place.defaults, Place.object?, Place.indices] using hthis
  have hfield : (assign (field "f") .assign kept).Everywhere
      (·.avoidsTemps (context .reference)) := by
    refine everywhere_assign ?_ (everywhere_field ?_ ?_) hkept <;> intro l hl <;> cases hl
  refine ⟨by decide, runTasks_numbersTemps body 0 (by decide) ?_⟩
  exact List.forall_mem_cons.2 ⟨hkept, List.forall_mem_cons.2
    ⟨hfailing, List.forall_mem_singleton.2 hfield⟩⟩

end AssignmentLowering
