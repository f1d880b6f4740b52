import AssignmentLowering.Lowering.Expr
import AssignmentLowering.Proofs.Target.CallSite

/-!
# What a sequence of operands comes to

A successful step on a sequence is described by a relation between what goes in and
what comes out, with the statements it adds and the temporaries it takes. The
relations say all that later arguments need, so that no proof about lowering opens
the steps themselves.

## Main definitions

* `Held` — a value kept in place or held in a new temporary.
* `Taken`, `TakenAll` — operands lowered in their turn.
* `Filled` — arguments put in declared order, with defaults for those left out.
* `Addressed` — the operands of a target, lowered.
* `Composes` — a property that passes from operands to sequences of them.

## Main statements

* `Composes.takenAll`, `Composes.addressed` — how it passes.
* `next_ok`, `lowerAddress_ok` — what the steps do when they succeed.
-/

namespace AssignmentLowering

open Script (Stmt)
open Sequence (next capture push)

/-- The expression that a statement evaluates. -/
def Script.Stmt.value : Stmt → Script.Expr
  | .expr e | .declare _ e => e

/-- The name of the `n`-th temporary of a body. -/
def Context.temp (cx : Context) (n : Nat) : String := Temporary.name cx.tempStem n

/-- Whether an operand, lowered to `v`, has to be captured before `later` are lowered. -/
def Expr.mustCapture (cx : Context) (c : Capture) (o : Expr) (later : List Expr) (v : Value) :
    Bool :=
  (!v.stable && ((later.any (·.hasEffects cx.metadata) && !o.isInvariant later) ||
    c.reordered)) || (c.reuse && !v.expr.isReusable)

/-- Whether an argument has effects and ends up behind a later one that minds them. -/
def Expr.isReorderHazard (md : Metadata) (declared : Nat) (o : Expr)
    (later : List (Nat × Expr)) : Bool :=
  o.hasEffects md && later.any fun x => x.1 < declared && !x.2.isInvariant [o]

/-- The written arguments of a target with the reasons to capture them. -/
def callSiteCaptures (md : Metadata) (reuse : Bool) : List (Nat × Expr) → List (Capture × Expr)
  | [] => []
  | (declared, o) :: later =>
    (⟨reuse, o.isReorderHazard md declared later⟩, o) :: callSiteCaptures md reuse later

/-- The expression `e` kept in place, or held in the next temporary. -/
inductive Held (cx : Context) (e : Script.Expr) (n : Nat) :
    Bool → Script.Expr → List Stmt → Nat → Prop
  | inline : Held cx e n false e [] n
  | captured : Held cx e n true (.ident (cx.temp (n + 1)))
      [.declare (cx.temp (n + 1)) e] (n + 1)

/-- The operand `o` lowered in its turn, with `later` still to come. -/
inductive Taken (cx : Context) (c : Capture) (later : List Expr) (o : Expr) (n : Nat) :
    Value → List Stmt → Nat → Prop
  | intro {w : Lowered} {m n' : Nat} {e : Script.Expr} {stmts : List Stmt}
      (hlower : o.lower cx n = .ok w m)
      (hheld : Held cx w.expr m (o.mustCapture cx c later w.toValue) e stmts n') :
      Taken cx c later o n ⟨e, w.fresh, w.stable || o.mustCapture cx c later w.toValue⟩
        (w.stmts ++ stmts) n'

/-- Operands lowered one after the other, with `rest` still to come. -/
inductive TakenAll (cx : Context) (rest : List Expr) :
    List (Capture × Expr) → Nat → List Value → List Stmt → Nat → Prop
  | nil {n : Nat} : TakenAll cx rest [] n [] [] n
  | cons {c : Capture} {o : Expr} {items : List (Capture × Expr)} {n n' n'' : Nat} {v : Value}
      {vs : List Value} {stmts stmts' : List Stmt}
      (hhead : Taken cx c (items.map (·.2) ++ rest) o n v stmts n')
      (htail : TakenAll cx rest items n' vs stmts' n'') :
      TakenAll cx rest ((c, o) :: items) n (v :: vs) (stmts ++ stmts') n''

/-- Arguments in declared order: those written have their values among `vs`, by their
position; the others are lowered now. -/
inductive Filled (cx : Context) (reuse : Bool) (vs : List Value) :
    List (IndexArg Expr) → Nat → List IndexValue → List Stmt → Nat → Prop
  | nil {n : Nat} : Filled cx reuse vs [] n [] [] n
  | written {a : IndexArg Expr} {args : List (IndexArg Expr)} {i n n' : Nat} {v : Value}
      {xs : List IndexValue} {stmts : List Stmt}
      (hposition : a.position = some i) (hvalue : vs[i]? = some v)
      (hrest : Filled cx reuse vs args n xs stmts n') :
      Filled cx reuse vs (a :: args) n (⟨v.expr, a.ty, v.fresh⟩ :: xs) stmts n'
  | omitted {a : IndexArg Expr} {args : List (IndexArg Expr)} {n n' n'' : Nat} {v : Value}
      {xs : List IndexValue} {stmts stmts' : List Stmt}
      (hposition : a.position = none) (hvalue : Taken cx ⟨reuse, false⟩ [] a.value n v stmts n')
      (hrest : Filled cx reuse vs args n' xs stmts' n'') :
      Filled cx reuse vs (a :: args) n (⟨v.expr, a.ty, v.fresh⟩ :: xs) (stmts ++ stmts') n''

/-- The defaults among arguments in declared order: those of arguments left out. -/
def omittedOf {ε : Type} (args : List (IndexArg ε)) : List ε :=
  (args.filter fun a => a.position.isNone).map (·.value)

/-- The defaults that stand in for arguments left out, in declared order. -/
def Target.omitted {ε : Type} (t : Target ε) : List ε := omittedOf t.args

/-- Defaults lowered one after the other, each with nothing to come. -/
inductive Asides (cx : Context) (reuse : Bool) :
    List Expr → Nat → List Value → List Stmt → Nat → Prop
  | nil {n : Nat} : Asides cx reuse [] n [] [] n
  | cons {o : Expr} {os : List Expr} {n n' n'' : Nat} {v : Value} {vs : List Value}
      {stmts stmts' : List Stmt} (hhead : Taken cx ⟨reuse, false⟩ [] o n v stmts n')
      (htail : Asides cx reuse os n' vs stmts' n'') :
      Asides cx reuse (o :: os) n (v :: vs) (stmts ++ stmts') n''

/-- The operands of a target with the reasons to capture them. -/
def Target.captures (md : Metadata) (reuse : Bool) (t : Target Expr) : List (Capture × Expr) :=
  t.receiver.toList.map (⟨reuse, false⟩, ·) ++ callSiteCaptures md reuse t.callSite

/-- The operands of a target lowered, with `rest` still to come. -/
inductive Addressed (cx : Context) (reuse : Bool) (rest : List Expr) (t : Target Expr) (n : Nat) :
    LoweredAddress → List Stmt → Nat → Prop
  | intro {objects vs : List Value} {xs : List IndexValue} {stmts stmts' : List Stmt}
      {n' n'' : Nat}
      (htaken : TakenAll cx rest (t.captures cx.metadata reuse) n (objects ++ vs) stmts n')
      (hobjects : objects.length = t.receiver.toList.length)
      (hfilled : Filled cx reuse vs t.args n' xs stmts' n'') :
      Addressed cx reuse rest t n ⟨objects.head?.map (·.expr), xs⟩ (stmts ++ stmts') n''

/-- Operands in script as many as the target has. -/
structure Address.Fits {ε : Type} (t : Target ε) (a : Address) : Prop where
  object : a.object.isSome = t.receiver.isSome
  args : a.args.length = t.args.length

/-! ## The steps -/

variable {cx : Context}

theorem Target.mem_defaults_of_mem_omitted {ε : Type} {md : Metadata}
    {enclosing : EnclosingMember} {typeOf : ε → TypeRef} {span : Span} {p : Place ε} {t : Target ε}
    (ht : Target.ofPlace md enclosing typeOf span p = .ok t) {e : ε} (he : e ∈ t.omitted) :
    e ∈ p.defaults := by
  obtain ⟨a, ha, rfl⟩ := List.mem_map.1 he
  obtain ⟨hmem, hnone⟩ := List.mem_filter.1 ha
  exact Target.omitted_mem_defaults ht hmem (by simpa using hnone)

@[simp] theorem Target.omitted_map {ε δ : Type} (f : ε → δ) (t : Target ε) :
    (t.map f).omitted = t.omitted.map f := by
  simp [omitted, omittedOf, List.filter_map, Function.comp_def]

@[simp] theorem ty_operand (e : Expr) : (e.operand cx).ty = e.ty := by simp [Operand.ty]

@[simp] theorem hasEffects_operand (md : Metadata) (e : Expr) :
    (e.operand cx).hasEffects md = e.hasEffects md := by simp [Operand.hasEffects]

theorem mustCapture_operand (c : Capture) (o : Expr) (later : List Expr) (v : Value) :
    Sequence.mustCapture cx c (o.operand cx) (later.map (Expr.operand cx)) v =
      o.mustCapture cx c later v := by
  simp [Sequence.mustCapture, Expr.mustCapture, Function.comp_def]

theorem isReorderHazard_operand (md : Metadata) (declared : Nat) (o : Expr)
    (later : List (Nat × Expr)) :
    isReorderHazard md declared (o.operand cx) (later.map (Prod.map id (Expr.operand cx))) =
      o.isReorderHazard md declared later := by
  simp [isReorderHazard, Expr.isReorderHazard, Function.comp_def]

@[simp] theorem map_snd_map_capture (c : Capture) (es : List Expr) :
    (es.map (c, ·)).map (·.2) = es := by
  simp [Function.comp_def]

@[simp] theorem map_snd_callSiteCaptures (md : Metadata) (reuse : Bool)
    (written : List (Nat × Expr)) :
    (callSiteCaptures md reuse written).map (·.2) = written.map (·.2) := by
  induction written with
  | nil => rfl
  | cons x written ih => simp [callSiteCaptures, ih]

/-- The operands of a target are captured in the order in which they are evaluated. -/
@[simp] theorem Target.map_snd_captures (md : Metadata) (reuse : Bool) (t : Target Expr) :
    (t.captures md reuse).map (·.2) = t.operands := by
  simp [Target.captures, Target.operands, Function.comp_def]

theorem TakenAll.length_eq {rest : List Expr} {items : List (Capture × Expr)} {n n' : Nat}
    {vs : List Value} {stmts : List Stmt} (h : TakenAll cx rest items n vs stmts n') :
    vs.length = items.length := by
  induction h with
  | nil => rfl
  | cons _ _ ih => simp [ih]

/-- The operands of a target come to one value each. -/
theorem TakenAll.length_operands {rest : List Expr} {t : Target Expr} {reuse : Bool} {n n' : Nat}
    {vs : List Value} {stmts : List Stmt}
    (h : TakenAll cx rest (t.captures cx.metadata reuse) n vs stmts n') :
    vs.length = t.operands.length := by
  rw [h.length_eq, ← Target.map_snd_captures cx.metadata reuse, List.length_map]

/-- The written arguments of a target come to one value each. -/
theorem TakenAll.length_callSite {rest indices : List Expr} {t : Target Expr} {reuse : Bool}
    {n n' : Nat} {vs : List Value} {stmts : List Stmt} (ht : Arranges t.args indices)
    (h : TakenAll cx rest (callSiteCaptures cx.metadata reuse t.callSite) n vs stmts n') :
    vs.length = indices.length := by
  rw [h.length_eq, ← Target.map_snd_callSite ht, ← map_snd_callSiteCaptures cx.metadata reuse,
    List.length_map]

theorem Filled.length_eq {reuse : Bool} {vs : List Value} {args : List (IndexArg Expr)}
    {n n' : Nat} {xs : List IndexValue} {stmts : List Stmt}
    (h : Filled cx reuse vs args n xs stmts n') : xs.length = args.length := by
  induction h with
  | nil => rfl
  | written _ _ _ ih => simp [ih]
  | omitted _ _ _ ih => simp [ih]

theorem Filled.map_ty {reuse : Bool} {vs : List Value} {args : List (IndexArg Expr)}
    {n n' : Nat} {xs : List IndexValue} {stmts : List Stmt}
    (h : Filled cx reuse vs args n xs stmts n') : xs.map (·.ty) = args.map (·.ty) := by
  induction h with
  | nil => rfl
  | written _ _ _ ih => simp [ih]
  | omitted _ _ _ ih => simp [ih]

/-- What stands on the right of a relation between lists has something on the left. -/
theorem exists_of_forall₂ {α β : Type} {R : α → β → Prop} {as : List α} {bs : List β}
    (h : List.Forall₂ R as bs) {b : β} (hb : b ∈ bs) : ∃ a ∈ as, R a b := by
  induction h with
  | nil => cases hb
  | cons hhead _ ih =>
    obtain rfl | hb := List.mem_cons.1 hb
    · exact ⟨_, List.mem_cons_self, hhead⟩
    · obtain ⟨a, ha, hR⟩ := ih hb
      exact ⟨a, List.mem_cons_of_mem _ ha, hR⟩

/-- What stands on the left of a relation between lists has something at its place on the
right. -/
theorem exists_getElem?_of_forall₂ {α β : Type} {R : α → β → Prop} {as : List α} {bs : List β}
    (h : List.Forall₂ R as bs) {i : Nat} {a : α} (ha : as[i]? = some a) :
    ∃ b, bs[i]? = some b ∧ R a b := by
  induction h generalizing i with
  | nil => cases ha
  | cons hhead _ ih =>
    cases i with
    | zero =>
      cases ha
      exact ⟨_, rfl, hhead⟩
    | succ i => exact ih ha

/-- Arguments in declared order are the values of the written ones, in some order, and those
of the defaults; each of them is the value of its own argument. -/
theorem Filled.split {reuse : Bool} {vs : List Value} {args : List (IndexArg Expr)} {n n' : Nat}
    {xs : List IndexValue} {stmts : List Stmt} (h : Filled cx reuse vs args n xs stmts n') :
    ∃ ds, Asides cx reuse (omittedOf args) n ds stmts n' ∧
      (xs.map (·.expr)).Perm
        (((args.filterMap (·.position)).filterMap (vs[·]?)).map (·.expr) ++
          ds.map (·.expr)) ∧
      List.Forall₂ (fun a x => ∃ v : Value, x = ⟨v.expr, a.ty, v.fresh⟩ ∧
        ((∃ i, a.position = some i ∧ vs[i]? = some v) ∨
          (a.position = none ∧ (a.value, v) ∈ (omittedOf args).zip ds))) args xs := by
  induction h with
  | nil => exact ⟨[], .nil, .nil, .nil⟩
  | @written a args i _ _ v xs _ hposition hvalue _ ih =>
    obtain ⟨ds, hasides, hperm, hxs⟩ := ih
    have homitted : omittedOf (a :: args) = omittedOf args := by simp [omittedOf, hposition]
    rw [homitted]
    refine ⟨ds, hasides, ?_, .cons ⟨v, rfl, .inl ⟨i, hposition, hvalue⟩⟩ hxs⟩
    simpa [hposition, hvalue] using hperm
  | @omitted a args _ _ _ v xs _ _ hposition htaken _ ih =>
    obtain ⟨ds, hasides, hperm, hxs⟩ := ih
    have homitted : omittedOf (a :: args) = a.value :: omittedOf args := by
      simp [omittedOf, hposition]
    rw [homitted]
    refine ⟨v :: ds, .cons htaken hasides, ?_,
      .cons ⟨v, rfl, .inr ⟨hposition, List.mem_cons_self⟩⟩ ?_⟩
    · simp only [List.map_cons, List.filterMap_cons, hposition]
      exact (hperm.cons _).trans List.perm_middle.symm
    · exact hxs.imp fun b x ⟨v', hx, hv⟩ =>
        ⟨v', hx, hv.imp id fun hd => ⟨hd.1, List.mem_cons_of_mem _ hd.2⟩⟩

section

variable {reuse : Bool} {rest : List Expr} {t : Target Expr} {n n' : Nat} {a : LoweredAddress}
  {stmts : List Stmt}

/-- The operands of a target lower to as many. -/
theorem Addressed.fits (h : Addressed cx reuse rest t n a stmts n') : a.address.Fits t := by
  cases h with
  | @intro objects _ _ _ _ _ _ _ hobjects hfilled =>
    constructor
    · simp only [LoweredAddress.address, Option.isSome_map]
      cases objects with
      | nil => cases hr : t.receiver <;> simp [hr] at hobjects ⊢
      | cons v objects => cases hr : t.receiver <;> simp [hr] at hobjects ⊢
    · simpa [LoweredAddress.address] using hfilled.length_eq

theorem Addressed.map_ty (h : Addressed cx reuse rest t n a stmts n') :
    a.args.map (·.ty) = t.args.map (·.ty) := by
  cases h with
  | intro _ _ hfilled => exact hfilled.map_ty

theorem Addressed.fits_passed (h : Addressed cx reuse rest t n a stmts n')
    (accessor : Option Accessor) (uses : Nat) : (a.passed cx accessor uses).Fits t := by
  have hfits := h.fits
  unfold LoweredAddress.passed
  split
  · exact ⟨hfits.object, by simpa [LoweredAddress.address] using hfits.args⟩
  · exact hfits

/-- The operands of a target in script are the values of its operands and of the defaults
that it takes, in some order; the object is the value of the receiver, and each argument is
the value of its own operand. -/
theorem Addressed.split {indices : List Expr} (ht : Arranges t.args indices)
    (h : Addressed cx reuse rest t n a stmts n') :
    ∃ vs ds stmts₁ stmts₂ m,
      TakenAll cx rest (t.captures cx.metadata reuse) n vs stmts₁ m ∧
        Asides cx reuse t.omitted m ds stmts₂ n' ∧ stmts = stmts₁ ++ stmts₂ ∧
        (a.address.object.toList ++ a.address.args).Perm
          (vs.map (·.expr) ++ ds.map (·.expr)) ∧
        List.Forall₂ (fun e x => ∃ v : Value, x = v.expr ∧ (e, v) ∈ t.operands.zip vs)
          t.receiver.toList a.object.toList ∧
        List.Forall₂ (fun arg x => ∃ v : Value, x = ⟨v.expr, arg.ty, v.fresh⟩ ∧
          ((arg.value, v) ∈ t.operands.zip vs ∨ (arg.value, v) ∈ t.omitted.zip ds))
          t.args a.args := by
  cases h with
  | @intro objects vs xs stmts₁ stmts₂ m _ htaken hobjects hfilled =>
    obtain ⟨ds, hasides, hperm, hxs⟩ := hfilled.split
    have hsite := Target.map_snd_callSite ht
    have hlen : vs.length = indices.length := by
      have hall := htaken.length_operands
      simp only [Target.operands, hsite, List.length_append] at hall
      omega
    have hzip : t.operands.zip (objects ++ vs) =
        t.receiver.toList.zip objects ++ indices.zip vs := by
      rw [Target.operands, hsite, List.zip_append hobjects.symm]
    refine ⟨_, ds, stmts₁, stmts₂, m, htaken, hasides, rfl, ?_, ?_, ?_⟩
    · have hwritten : ((t.args.filterMap (·.position)).filterMap (vs[·]?)).Perm vs := by
        have := ht.positions.filterMap (vs[·]?)
        rwa [filterMap_range_getElem?, ← hlen, List.take_length] at this
      have hobject : (objects.head?.map (·.expr)).toList = objects.map (·.expr) := by
        rcases objects with _ | ⟨v, _ | ⟨v', objects⟩⟩
        · rfl
        · rfl
        · cases hr : t.receiver <;> simp [hr] at hobjects
      simp only [LoweredAddress.address, hobject, List.map_append, List.append_assoc]
      exact (hperm.trans ((hwritten.map _).append_right _)).append_left _
    · rw [hzip]
      cases hr : t.receiver with
      | none =>
        obtain rfl := List.length_eq_zero_iff.1 (by simpa [hr] using hobjects)
        exact .nil
      | some e =>
        obtain ⟨v, rfl⟩ := List.length_eq_one_iff.1 (by simpa [hr] using hobjects)
        exact .cons ⟨v, rfl, by simp⟩ .nil
    · rw [hzip]
      refine ((List.forall₂_and_left (p := (· ∈ t.args)) _ _).2 ⟨fun _ ha => ha, hxs⟩).imp ?_
      rintro arg x ⟨harg, v, rfl, hv⟩
      refine ⟨v, rfl, hv.imp ?_ And.right⟩
      rintro ⟨i, hposition, hvalue⟩
      -- The value of a written argument stands where the argument stands in the text.
      refine List.mem_append_right _ (List.mem_of_getElem? (i := i) ?_)
      simp [List.zip, List.getElem?_zipWith, ht.value_eq arg harg i hposition, hvalue]

end

theorem Taken.inline {c : Capture} {later : List Expr} {o : Expr} {n m : Nat} {w : Lowered}
    (hw : o.lower cx n = .ok w m) (hc : o.mustCapture cx c later w.toValue = false) :
    Taken cx c later o n w.toValue w.stmts m := by
  have hheld : Held cx w.expr m false w.expr [] m := .inline
  rw [← hc] at hheld
  simpa [hc] using Taken.intro hw hheld

theorem Taken.captured {c : Capture} {later : List Expr} {o : Expr} {n m : Nat} {w : Lowered}
    (hw : o.lower cx n = .ok w m) (hc : o.mustCapture cx c later w.toValue = true) :
    Taken cx c later o n ⟨.ident (cx.temp (m + 1)), w.fresh, true⟩
      (w.stmts ++ [.declare (cx.temp (m + 1)) w.expr]) (m + 1) := by
  have hheld : Held cx w.expr m true _ _ _ := .captured
  rw [← hc] at hheld
  simpa [hc] using Taken.intro hw hheld

/-- A last operand that is used once stays in place. -/
theorem Taken.of_last {o : Expr} {n n' : Nat} {v : Value} {stmts : List Stmt}
    (h : Taken cx {} [] o n v stmts n') :
    ∃ w : Lowered, o.lower cx n = .ok w n' ∧ v = w.toValue ∧ stmts = w.stmts := by
  cases h with
  | @intro w _ _ _ _ hlower hheld =>
    have hinline : o.mustCapture cx {} [] w.toValue = false := by simp [Expr.mustCapture]
    rw [hinline] at hheld ⊢
    cases hheld
    exact ⟨w, hlower, by simp, by simp⟩

/-- What is needed more than once can be evaluated again unnoticed. -/
theorem Taken.isReusable {c : Capture} {later : List Expr} {o : Expr} {n n' : Nat} {v : Value}
    {stmts : List Stmt} (h : Taken cx c later o n v stmts n') (hc : c.reuse = true) :
    v.expr.isReusable = true := by
  cases h with
  | @intro w _ _ _ _ hlower hheld =>
    cases hcapture : o.mustCapture cx c later w.toValue with
    | true =>
      rw [hcapture] at hheld
      cases hheld
      rfl
    | false =>
      rw [hcapture] at hheld
      cases hheld
      unfold Expr.mustCapture at hcapture
      rw [Bool.or_eq_false_iff] at hcapture
      simpa [hc] using hcapture.2

theorem TakenAll.isReusable {rest : List Expr} {items : List (Capture × Expr)} {n n' : Nat}
    {vs : List Value} {stmts : List Stmt} (h : TakenAll cx rest items n vs stmts n')
    (hitems : ∀ x ∈ items, x.1.reuse = true) : ∀ v ∈ vs, v.expr.isReusable = true := by
  induction h with
  | nil => simp
  | cons hhead _ ih =>
    intro v hv
    obtain rfl | hv := List.mem_cons.1 hv
    · exact hhead.isReusable (hitems _ List.mem_cons_self)
    · exact ih (fun x hx => hitems x (List.mem_cons_of_mem _ hx)) v hv

/-- If all of them are needed more than once. -/
theorem TakenAll.isReusable_of_reuse {rest os : List Expr} {n n' : Nat} {vs : List Value}
    {stmts : List Stmt} (h : TakenAll cx rest (os.map (⟨true, false⟩, ·)) n vs stmts n') :
    ∀ v ∈ vs, v.expr.isReusable = true := by
  refine h.isReusable fun x hx => ?_
  obtain ⟨e, -, rfl⟩ := List.mem_map.1 hx
  rfl

theorem Asides.isReusable {os : List Expr} {n n' : Nat} {ds : List Value} {stmts : List Stmt}
    (h : Asides cx true os n ds stmts n') : ∀ v ∈ ds, v.expr.isReusable = true := by
  induction h with
  | nil => simp
  | cons hhead _ ih =>
    intro v hv
    obtain rfl | hv := List.mem_cons.1 hv
    · exact hhead.isReusable rfl
    · exact ih v hv

theorem Target.reuse_of_mem_captures {md : Metadata} {reuse : Bool} {t : Target Expr}
    {x : Capture × Expr}
    (h : x ∈ t.captures md reuse) : x.1.reuse = reuse := by
  have hcallSite : ∀ written, x ∈ callSiteCaptures md reuse written → x.1.reuse = reuse := by
    intro written
    induction written with
    | nil => simp [callSiteCaptures]
    | cons y written ih =>
      intro hx
      obtain rfl | hx := List.mem_cons.1 hx
      · rfl
      · exact ih hx
  obtain hx | hx := List.mem_append.1 h
  · obtain ⟨e, -, rfl⟩ := List.mem_map.1 hx
    rfl
  · exact hcallSite _ hx

theorem getElem?_callSiteCaptures (md : Metadata) (reuse : Bool) :
    ∀ (written : List (Nat × Expr)) (i : Nat), (callSiteCaptures md reuse written)[i]? =
      written[i]?.map fun x => (⟨reuse, x.2.isReorderHazard md x.1 (written.drop (i + 1))⟩, x.2)
  | [], i => by simp [callSiteCaptures]
  | (declared, o) :: written, 0 => by simp [callSiteCaptures]
  | (declared, o) :: written, i + 1 => by
    simpa [callSiteCaptures] using getElem?_callSiteCaptures md reuse written i

/-- Only what has effects can be put in a wrong place. -/
theorem Target.hasEffects_of_reordered {md : Metadata} {reuse : Bool} {t : Target Expr}
    {x : Capture × Expr} (h : x ∈ t.captures md reuse) (hx : x.1.reordered = true) :
    x.2.hasEffects md = true := by
  obtain hmem | hmem := List.mem_append.1 h
  · obtain ⟨e, -, rfl⟩ := List.mem_map.1 hmem
    cases hx
  · obtain ⟨i, hi⟩ := List.mem_iff_getElem?.1 hmem
    rw [getElem?_callSiteCaptures, Option.map_eq_some_iff] at hi
    obtain ⟨y, -, rfl⟩ := hi
    simp only [Expr.isReorderHazard, Bool.and_eq_true] at hx
    exact hx.1

/-- Nothing speaks for capturing an operand that is used once and has no effects. -/
theorem Capture.eq_of_quiet {md : Metadata} {item : Capture × Expr}
    (hreuse : item.1.reuse = false)
    (hreordered : item.1.reordered = true → item.2.hasEffects md = true)
    (hquiet : item.2.hasEffects md = false) : item.1 = {} := by
  obtain ⟨⟨reuse, reordered⟩, o⟩ := item
  cases hreuse
  cases reordered with
  | false => rfl
  | true => exact absurd (hreordered rfl) (by simp [hquiet])

/-- The operands of a target that are needed more than once. -/
theorem Addressed.isReusable {rest : List Expr} {t : Target Expr} {n n' : Nat}
    {a : LoweredAddress} {stmts : List Stmt} {indices : List Expr} (ht : Arranges t.args indices)
    (h : Addressed cx true rest t n a stmts n') :
    ∀ e ∈ a.address.object.toList ++ a.address.args, e.isReusable = true := by
  obtain ⟨vs, ds, stmts₁, stmts₂, m, htaken, hasides, rfl, hperm, -⟩ := h.split ht
  intro e he
  obtain he | he := List.mem_append.1 (hperm.mem_iff.1 he)
  · obtain ⟨v, hv, rfl⟩ := List.mem_map.1 he
    exact htaken.isReusable (fun x hx => Target.reuse_of_mem_captures hx) v hv
  · obtain ⟨d, hd, rfl⟩ := List.mem_map.1 he
    exact hasides.isReusable d hd

/-- Operands with others to come, and then those. -/
theorem TakenAll.append {rest : List Expr} {items items' : List (Capture × Expr)}
    {n n' n'' : Nat} {vs vs' : List Value} {stmts stmts' : List Stmt}
    (h : TakenAll cx (items'.map (·.2) ++ rest) items n vs stmts n')
    (h' : TakenAll cx rest items' n' vs' stmts' n'') :
    TakenAll cx rest (items ++ items') n (vs ++ vs') (stmts ++ stmts') n'' := by
  induction h with
  | nil => exact h'
  | cons hhead _ ih =>
    rw [List.append_assoc]
    refine .cons ?_ (ih h')
    simpa using hhead

/-! ## From operands to sequences of operands -/

/-- A property of operands lowered from one count of temporaries to another, with their
statements and expressions. If it composes, it holds of operands lowered one after the other
as soon as it holds of each. -/
structure Composes (cx : Context)
    (R : Nat → List Stmt → List Script.Expr → Nat → Prop) : Prop where
  nil : ∀ n, R n [] [] n
  append : ∀ {n n' n'' : Nat} {stmts stmts' : List Stmt} {es es' : List Script.Expr},
    R n stmts es n' → R n' stmts' es' n'' → R n (stmts ++ stmts') (es ++ es') n''
  perm : ∀ {n n' : Nat} {stmts : List Stmt} {es es' : List Script.Expr},
    es.Perm es' → R n stmts es n' → R n stmts es' n'
  held : ∀ {n m m' : Nat} {stmts stmts' : List Stmt} {e x : Script.Expr} {flag : Bool},
    R n stmts [e] m → Held cx e m flag x stmts' m' → R n (stmts ++ stmts') [x] m'

namespace Composes

variable {R : Nat → List Stmt → List Script.Expr → Nat → Prop} {rest : List Expr} {n n' : Nat}
  {stmts : List Stmt}

theorem taken (hR : Composes cx R) {c : Capture} {o : Expr} {v : Value}
    (ho : ∀ {n n' : Nat} {w : Lowered}, o.lower cx n = .ok w n' → R n w.stmts [w.expr] n')
    (h : Taken cx c rest o n v stmts n') : R n stmts [v.expr] n' := by
  cases h with
  | intro hlower hheld => exact hR.held (ho hlower) hheld

theorem takenAll (hR : Composes cx R) {items : List (Capture × Expr)} {vs : List Value}
    (hitems : ∀ o ∈ items.map (·.2), ∀ {n n' : Nat} {w : Lowered},
      o.lower cx n = .ok w n' → R n w.stmts [w.expr] n')
    (h : TakenAll cx rest items n vs stmts n') : R n stmts (vs.map (·.expr)) n' := by
  induction h with
  | nil => exact hR.nil _
  | cons hhead _ ih =>
    exact hR.append (hR.taken (hitems _ List.mem_cons_self) hhead)
      (ih fun o ho => hitems o (List.mem_cons_of_mem _ ho))

theorem asides (hR : Composes cx R) {reuse : Bool} {os : List Expr} {ds : List Value}
    (hos : ∀ o ∈ os, ∀ {n n' : Nat} {w : Lowered},
      o.lower cx n = .ok w n' → R n w.stmts [w.expr] n')
    (h : Asides cx reuse os n ds stmts n') : R n stmts (ds.map (·.expr)) n' := by
  induction h with
  | nil => exact hR.nil _
  | cons hhead _ ih =>
    exact hR.append (hR.taken (hos _ List.mem_cons_self) hhead)
      (ih fun o ho => hos o (List.mem_cons_of_mem _ ho))

theorem addressed (hR : Composes cx R) {reuse : Bool} {t : Target Expr} {a : LoweredAddress}
    {indices : List Expr} (ht : Arranges t.args indices)
    (hoperands : ∀ o ∈ t.operands, ∀ {n n' : Nat} {w : Lowered},
      o.lower cx n = .ok w n' → R n w.stmts [w.expr] n')
    (homitted : ∀ o ∈ t.omitted, ∀ {n n' : Nat} {w : Lowered},
      o.lower cx n = .ok w n' → R n w.stmts [w.expr] n')
    (h : Addressed cx reuse rest t n a stmts n') :
    R n stmts (a.address.object.toList ++ a.address.args) n' := by
  obtain ⟨vs, ds, stmts₁, stmts₂, m, htaken, hasides, rfl, hperm, -⟩ := h.split ht
  have hvs := hR.takenAll (by simpa using hoperands) htaken
  exact hR.perm hperm.symm (hR.append hvs (hR.asides homitted hasides))

end Composes

/-- A sequence at the count `n` with the operands `pending` to come. -/
def sequenceOf (cx : Context) (n : Nat) (pending : List Expr) (stmts : List Stmt) : Sequence :=
  ⟨n, pending.map (Expr.operand cx), stmts⟩

theorem temps_sequenceOf (cx : Context) (n : Nat) (pending : List Expr)
    (stmts : List Stmt) : (sequenceOf cx n pending stmts).temps = n := rfl

/-- A step followed by another succeeds if both do. -/
theorem bind_ok {ε σ α β : Type} {x : EStateM ε σ α} {f : α → EStateM ε σ β} {s s' : σ} {b : β}
    (h : (x >>= f) s = .ok b s') : ∃ a s₁, x s = .ok a s₁ ∧ f a s₁ = .ok b s' := by
  rw [bind_apply] at h
  cases hx : x s with
  | ok a s₁ => exact ⟨a, s₁, rfl, by simpa [hx] using h⟩
  | error e s₁ => simp [hx] at h

theorem liftExcept_ok {σ α : Type} {x : Except LoweringError α} {s s' : σ} {a : α}
    (h : liftExcept x s = .ok a s') : x = .ok a ∧ s' = s := by
  cases x with
  | ok b => cases h; exact ⟨rfl, rfl⟩
  | error e => cases h

theorem pure_ok {ε σ α : Type} {s s' : σ} {a b : α}
    (h : (pure a : EStateM ε σ α) s = .ok b s') : b = a ∧ s' = s := by
  cases h
  exact ⟨rfl, rfl⟩

theorem ite_ok {ε σ α : Type} {c : Prop} [Decidable c] {x y : EStateM ε σ α} {s s' : σ} {a : α}
    (h : (if c then x else y) s = .ok a s') : c ∧ x s = .ok a s' ∨ ¬c ∧ y s = .ok a s' := by
  by_cases hc : c
  · rw [if_pos hc] at h
    exact .inl ⟨hc, h⟩
  · rw [if_neg hc] at h
    exact .inr ⟨hc, h⟩

/-- A value that is captured or not, as a flag says. -/
theorem held_ok {flag : Bool} {e x : Script.Expr} {s s' : Sequence}
    (h : (if flag then capture cx e else pure e : SequenceM Script.Expr) s = .ok x s') :
    ∃ stmts n', Held cx e s.temps flag x stmts n' ∧
      s' = { s with temps := n', stmts := s.stmts ++ stmts } := by
  cases flag with
  | true =>
    cases h
    exact ⟨_, _, .captured, rfl⟩
  | false =>
    obtain ⟨rfl, rfl⟩ := pure_ok h
    exact ⟨_, _, .inline, by simp⟩

theorem aside_ok {o : Expr} {v : Value} {s s' : Sequence}
    (h : Sequence.aside (o.operand cx) s = .ok v s') :
    ∃ w m, o.lower cx s.temps = .ok w m ∧ v = w.toValue ∧
      s' = { s with temps := m, stmts := s.stmts ++ w.stmts } := by
  unfold Sequence.aside at h
  cases hw : (o.operand cx).lower s.temps with
  | ok w m =>
    rw [hw] at h
    cases h
    exact ⟨w, m, hw, rfl, rfl⟩
  | error e m =>
    rw [hw] at h
    cases h

/-- The next operand is lowered, and captured if it must be. -/
theorem next_ok {c : Capture} {o : Expr} {later : List Expr} {n : Nat} {stmts₀ : List Stmt}
    {v : Value} {s' : Sequence}
    (h : next cx c (sequenceOf cx n (o :: later) stmts₀) = .ok v s') :
    ∃ stmts n', Taken cx c later o n v stmts n' ∧
      s' = sequenceOf cx n' later (stmts₀ ++ stmts) := by
  have hpending : (sequenceOf cx n (o :: later) stmts₀).pending =
      o.operand cx :: later.map (Expr.operand cx) := rfl
  rw [Sequence.next_apply_cons cx c hpending] at h
  cases ha : Sequence.aside (o.operand cx)
      { sequenceOf cx n (o :: later) stmts₀ with pending := later.map (Expr.operand cx) } with
  | error e s => simp [ha] at h
  | ok w' s =>
    obtain ⟨w, m, hw, rfl, rfl⟩ := aside_ok ha
    change o.lower cx n = .ok w m at hw
    simp only [ha, mustCapture_operand] at h
    cases hc : o.mustCapture cx c later w.toValue with
    | true =>
      simp only [hc, if_true] at h
      cases h
      exact ⟨_, _, .captured hw hc, by simp [sequenceOf, Context.temp]⟩
    | false =>
      simp only [hc] at h
      cases h
      exact ⟨_, _, .inline hw hc, by simp [sequenceOf]⟩

/-- An operand lowered aside is one with nothing to come. -/
theorem lowerAside_ok {reuse : Bool} {o : Expr} {v : Value} {s s' : Sequence}
    (h : lowerAside cx reuse (o.operand cx) s = .ok v s') :
    ∃ w stmts n', Taken cx ⟨reuse, false⟩ [] o s.temps w stmts n' ∧
      v.expr = w.expr ∧ v.fresh = w.fresh ∧
      s' = { s with temps := n', stmts := s.stmts ++ stmts } := by
  obtain ⟨v₁, s₁, ha, h⟩ := bind_ok h
  obtain ⟨w, m, hw, rfl, rfl⟩ := aside_ok ha
  have hc : o.mustCapture cx ⟨reuse, false⟩ [] w.toValue = (reuse && !w.expr.isReusable) := by
    simp [Expr.mustCapture]
  cases hf : (reuse && !w.expr.isReusable) with
  | true =>
    simp only [hf, if_true] at h
    obtain ⟨e, s₂, hcap, h⟩ := bind_ok h
    cases hcap
    obtain ⟨rfl, rfl⟩ := pure_ok h
    exact ⟨_, _, _, .captured hw (hc.trans hf), rfl, rfl, by simp [Context.temp]⟩
  | false =>
    simp only [hf] at h
    obtain ⟨rfl, rfl⟩ := pure_ok h
    exact ⟨_, _, _, .inline hw (hc.trans hf), rfl, rfl, by simp⟩

theorem lowerCallSite_ok {reuse : Bool} {rest : List Expr} (written : List (Nat × Expr)) :
    ∀ {n : Nat} {stmts₀ : List Stmt} {r : List (Nat × Value)} {s' : Sequence},
      lowerCallSite cx reuse (written.map (Prod.map id (Expr.operand cx)))
        (sequenceOf cx n (written.map (·.2) ++ rest) stmts₀) = .ok r s' →
      ∃ vs stmts n',
        TakenAll cx rest (callSiteCaptures cx.metadata reuse written) n vs stmts n' ∧
        r = (written.map (·.1)).zip vs ∧ s' = sequenceOf cx n' rest (stmts₀ ++ stmts) := by
  induction written with
  | nil =>
    intro n stmts₀ r s' h
    obtain ⟨rfl, rfl⟩ := pure_ok h
    exact ⟨[], [], n, .nil, rfl, by simp⟩
  | cons x written ih =>
    obtain ⟨declared, o⟩ := x
    intro n stmts₀ r s' h
    simp only [List.map_cons, Prod.map_apply, id_eq, lowerCallSite,
      isReorderHazard_operand] at h
    obtain ⟨v, s₁, hnext, h⟩ := bind_ok h
    obtain ⟨stmts, n₁, htaken, rfl⟩ := next_ok hnext
    obtain ⟨r', s₂, hrest, h⟩ := bind_ok h
    obtain ⟨vs, stmts', n₂, htail, rfl, rfl⟩ := ih hrest
    obtain ⟨rfl, rfl⟩ := pure_ok h
    refine ⟨v :: vs, stmts ++ stmts', n₂, .cons ?_ htail, rfl, by simp⟩
    simpa using htaken

theorem lowerArgs_ok {reuse : Bool} {supplied : List (Nat × Value)} {vs : List Value}
    (args : List (IndexArg Expr)) :
    ∀ {declared : Nat} {xs : List IndexValue} {s s' : Sequence},
      (∀ j a, args[j]? = some a →
        supplied.lookup (declared + j) = a.position.bind (vs[·]?)) →
      (∀ a ∈ args, ∀ i, a.position = some i → i < vs.length) →
      lowerArgs cx reuse supplied declared (args.map (IndexArg.map (Expr.operand cx))) s =
        .ok xs s' →
      ∃ stmts n', Filled cx reuse vs args s.temps xs stmts n' ∧
        s' = { s with temps := n', stmts := s.stmts ++ stmts } := by
  induction args with
  | nil =>
    intro declared xs s s' _ _ h
    obtain ⟨rfl, rfl⟩ := pure_ok h
    exact ⟨[], _, .nil, by simp⟩
  | cons a args ih =>
    intro declared xs s s' hlookup hlt h
    simp only [List.map_cons, lowerArgs, IndexArg.value_map, IndexArg.ty_map] at h
    have hhead := hlookup 0 a rfl
    have hlookup' : ∀ j a', args[j]? = some a' →
        supplied.lookup (declared + 1 + j) = a'.position.bind (vs[·]?) := by
      intro j a' ha'
      have := hlookup (j + 1) a' (by simpa using ha')
      rwa [← Nat.add_assoc, Nat.add_right_comm] at this
    have hlt' : ∀ b ∈ args, ∀ i, b.position = some i → i < vs.length :=
      fun b hb => hlt b (List.mem_cons_of_mem _ hb)
    rw [Nat.add_zero] at hhead
    cases hp : a.position with
    | some i =>
      have hi : i < vs.length := hlt a List.mem_cons_self i hp
      rw [hp, Option.bind_some, List.getElem?_eq_getElem hi] at hhead
      simp only [hhead] at h
      obtain ⟨v, s₁, hfirst, hafter⟩ := bind_ok h
      obtain ⟨rfl, rfl⟩ := pure_ok hfirst
      obtain ⟨xs', s₂, hrest, hlast⟩ := bind_ok hafter
      obtain ⟨rfl, rfl⟩ := pure_ok hlast
      obtain ⟨stmts', n₂, hfilled, rfl⟩ := ih hlookup' hlt' hrest
      exact ⟨stmts', n₂, .written hp (List.getElem?_eq_getElem hi) hfilled, rfl⟩
    | none =>
      rw [hp, Option.bind_none] at hhead
      simp only [hhead] at h
      obtain ⟨v, s₁, hfirst, h⟩ := bind_ok h
      obtain ⟨w, stmts, n₁, htaken, he, hf, rfl⟩ := lowerAside_ok hfirst
      obtain ⟨xs', s₂, hrest, h⟩ := bind_ok h
      obtain ⟨rfl, rfl⟩ := pure_ok h
      obtain ⟨stmts', n₂, hfilled, rfl⟩ := ih hlookup' hlt' hrest
      refine ⟨stmts ++ stmts', n₂, ?_, by simp⟩
      rw [he, hf]
      exact .omitted hp htaken hfilled

/-- The object is taken first, if there is one. -/
theorem lowerObject_ok {reuse : Bool} {rest : List Expr} {t : Target Expr} {n : Nat}
    {stmts₀ : List Stmt} {object : Option Script.Expr} {s' : Sequence}
    (h : lowerObject cx reuse (t.map (Expr.operand cx))
      (sequenceOf cx n (t.operands ++ rest) stmts₀) = .ok object s') :
    ∃ objects stmts n',
      TakenAll cx (t.callSite.map (·.2) ++ rest)
        (t.receiver.toList.map (⟨reuse, false⟩, ·)) n objects stmts n' ∧
      objects.length = t.receiver.toList.length ∧ object = objects.head?.map (·.expr) ∧
      s' = sequenceOf cx n' (t.callSite.map (·.2) ++ rest) (stmts₀ ++ stmts) := by
  simp only [lowerObject, Target.receiver_map] at h
  cases hr : t.receiver with
  | none =>
    simp only [hr, Option.map_none] at h
    obtain ⟨rfl, rfl⟩ := pure_ok h
    exact ⟨[], [], n, .nil, rfl, rfl, by simp [Target.operands, hr]⟩
  | some e =>
    simp only [hr, Option.map_some] at h
    obtain ⟨v, s, hnext, h⟩ := bind_ok h
    obtain ⟨rfl, rfl⟩ := pure_ok h
    rw [Target.operands, hr, Option.toList_some, List.singleton_append, List.cons_append]
      at hnext
    obtain ⟨stmts, n₁, htaken, rfl⟩ := next_ok hnext
    exact ⟨[v], stmts ++ [], n₁, .cons htaken .nil, rfl, rfl, by simp⟩

/-- Lowering the operands of a target, at a sequence that starts with them. -/
theorem lowerAddress_ok {reuse : Bool} {rest : List Expr} {t : Target Expr}
    {indices : List Expr} (ht : Arranges t.args indices) {n : Nat} {stmts₀ : List Stmt}
    {a : LoweredAddress} {s' : Sequence}
    (h : lowerAddress cx reuse (t.map (Expr.operand cx))
      (sequenceOf cx n (t.operands ++ rest) stmts₀) = .ok a s') :
    ∃ stmts n', Addressed cx reuse rest t n a stmts n' ∧
      s' = sequenceOf cx n' rest (stmts₀ ++ stmts) := by
  obtain ⟨object, s₁, hobject, h⟩ := bind_ok h
  obtain ⟨supplied, s₂, hsupplied, h⟩ := bind_ok h
  obtain ⟨xs, s₃, hxs, h⟩ := bind_ok h
  obtain ⟨rfl, rfl⟩ := pure_ok h
  rw [Target.callSite_map] at hsupplied
  rw [Target.args_map] at hxs
  obtain ⟨objects, stmts, n₁, hobjects, hlen, rfl, rfl⟩ := lowerObject_ok hobject
  obtain ⟨vs, stmts', n₂, hvs, rfl, rfl⟩ := lowerCallSite_ok t.callSite hsupplied
  have hvlen := hvs.length_callSite ht
  obtain ⟨stmts'', n₃, hfilled, rfl⟩ := lowerArgs_ok t.args
    (fun j a ha => by simpa using ht.lookup_zip hvlen ha)
    (fun a ha i hi => hvlen ▸ ht.position_lt ha hi) hxs
  rw [← map_snd_callSiteCaptures cx.metadata reuse] at hobjects
  have htaken := hobjects.append hvs
  exact ⟨(stmts ++ stmts') ++ stmts'', n₃,
    .intro htaken hlen hfilled, by simp [sequenceOf]⟩

end AssignmentLowering
