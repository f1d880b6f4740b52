import AssignmentLowering.Lowering.Expr
import AssignmentLowering.Proofs.Target.Indexed

/-!
# Operands taken by index

A sequence forgets the operands it has taken. A cursor keeps them all and counts instead;
what is still to come is what stands behind the position. Here operands are taken, and
arguments put in declared order, by plain indices into lists, where an access beyond the
end is an error of its own. Every such step does what the step on the sequence does, so
none of them ever makes that error.

## Main definitions

* `Cursor`, `CursorM` — all operands with the index of the next, and steps on them.
* `Indexed.next`, `Indexed.lowerAddress`, `Indexed.lowerCallArgs` — the steps by index.
* `Tracks` — a step on cursors that does what a step on sequences does.

## Main statements

* `tracks_next`, `tracks_lowerAddress`, `tracks_lowerCallArgs` — the steps by
  index do.
-/

namespace AssignmentLowering

/-- All operands of a sequence, the index of the next, and the statements so far. -/
structure Cursor where
  temps : Nat
  operands : List Operand
  position : Nat := 0
  stmts : List Script.Stmt := []

/-- Steps on a cursor. -/
abbrev CursorM := EStateM LoweringError Cursor

/-- What is still to come stands behind the position. -/
def Cursor.toSequence (c : Cursor) : Sequence := ⟨c.temps, c.operands.drop c.position, c.stmts⟩

namespace Indexed

variable {α : Type}

/-! ## Steps -/

/-- Add a statement at the end. -/
def push (stmt : Script.Stmt) : CursorM Unit :=
  modify fun c => { c with stmts := c.stmts ++ [stmt] }

/-- Hold the value of an expression in a new temporary and name that instead. -/
def capture (cx : Context) (e : Script.Expr) : CursorM Script.Expr := fun c =>
  let name := Temporary.name cx.tempStem (c.temps + 1)
  .ok (.ident name) { c with temps := c.temps + 1, stmts := c.stmts ++ [.declare name e] }

/-- Lower an operand that is not in the sequence. -/
def aside (o : Operand) : CursorM Value := fun c =>
  match o.lower c.temps with
  | .ok v temps => .ok v.toValue { c with temps, stmts := c.stmts ++ v.stmts }
  | .error e temps => .error e { c with temps }

/-- Whether an operand from the index on has effects. -/
def effectsFrom (cx : Context) (c : Cursor) (i : Nat) : Except LoweringError Bool :=
  (itemsFrom (c.operands.map (·.hasEffects cx.metadata)) i).map (·.any id)

/-- Whether an operand still to come has effects. -/
def remainingHasEffects (cx : Context) : CursorM Bool := do
  let c ← get
  liftExcept (effectsFrom cx c (min c.position c.operands.length))

/-- Lower the operand at the position. -/
def next (cx : Context) (c : Capture) : CursorM Value := do
  let s ← get
  match s.operands[s.position]? with
  | none => throw (.internal .operandsExhausted {})
  | some o =>
    modify fun s => { s with position := s.position + 1 }
    let v ← aside o
    let later ← liftExcept (itemsFrom s.operands (s.position + 1))
    let effects ← liftExcept (effectsFrom cx s (s.position + 1))
    let endangered := effects && !o.expr.isInvariant (later.map (·.expr))
    if (!v.stable && (endangered || c.reordered)) || (c.reuse && !v.expr.isReusable) then
      return ⟨← capture cx v.expr, v.fresh, true⟩
    else
      return v

/-- Whether the argument at an index of the text has effects and ends up behind a later
one that minds them. -/
def isReorderHazard (md : Metadata) (supplied : List Operand) (order : List Nat)
    (position : Nat) : Except LoweringError Bool := do
  let current ← item supplied position
  if current.hasEffects md then
    (List.range' (position + 1) (supplied.length - (position + 1))).anyM fun later => do
      let declared ← item order position
      let declared' ← item order later
      if declared' < declared then
        let o ← item supplied later
        .ok (!o.expr.isInvariant [current.expr])
      else
        .ok false
  else
    .ok false

/-- Lower the written arguments from an index of the text on, each into the slot of its
declared index. -/
def lowerCallSite (cx : Context) (reuse : Bool) (supplied : List Operand) (order : List Nat) :
    List (Nat × Nat) → List (Option Value) → CursorM (List (Option Value))
  | [], slots => pure slots
  | (declared, position) :: rest, slots => do
    let reordered ← liftExcept (isReorderHazard cx.metadata supplied order position)
    let v ← next cx ⟨reuse, reordered⟩
    let slots ← liftExcept (setItem slots declared (some v))
    lowerCallSite cx reuse supplied order rest slots

/-- Lower an operand apart from the sequence, so that it can be used more than once if
need be. -/
def lowerAside (cx : Context) (reuse : Bool) (o : Operand) : CursorM Value := do
  let v ← aside o
  if reuse && !v.expr.isReusable then
    pure { v with expr := ← capture cx v.expr }
  else
    pure v

/-- The arguments in declared order: those in their slots, the others lowered now. -/
def lowerArgs (cx : Context) (reuse : Bool) :
    List (Option Value × IndexArg Operand) → CursorM (List IndexValue)
  | [] => pure []
  | (slot, arg) :: rest => do
    let v ← match slot with
      | some v => pure v
      | none => lowerAside cx reuse arg.value
    let vs ← lowerArgs cx reuse rest
    pure (⟨v.expr, arg.ty, v.fresh⟩ :: vs)

/-- Lower the object of a target, if it has one. -/
def lowerObject (cx : Context) (reuse : Bool) (t : Target Operand) :
    CursorM (Option Script.Expr) :=
  match t.receiver with
  | some _ => do
    let v ← next cx ⟨reuse, false⟩
    pure (some v.expr)
  | none => pure none

/-- Lower the operands of a target, with a slot for each of its arguments. -/
def lowerAddress (cx : Context) (reuse : Bool) (t : Target Operand) :
    CursorM LoweredAddress := do
  let object ← lowerObject cx reuse t
  let supplied ← liftExcept (written t)
  let slots ← lowerCallSite cx reuse supplied (order t) (order t).zipIdx (t.args.map fun _ => none)
  let args ← lowerArgs cx reuse (slots.zip t.args)
  pure ⟨object, args⟩

/-- The object of a call. -/
def lowerReceiver (cx : Context) (c : Capture) : Receiver Operand → CursorM Script.Expr
  | .object _ => do
    let v ← next cx c
    pure v.expr
  | .static owner => pure (.typeHandle owner.name)
  | .base _ => pure .this

/-- The arguments of a call from an index on, each as its parameter gets it. -/
def lowerCallArgs (cx : Context) (c : Capture) (params : List Param) :
    List (Operand × Nat) → CursorM (List Script.Expr)
  | [] => pure []
  | (o, i) :: rest => do
    let v ← next cx c
    let ty := (params[i]?.map (·.ty)).getD o.ty
    let vs ← lowerCallArgs cx c params rest
    pure (cx.copied ty v.fresh 1 v.expr :: vs)

end Indexed

/-! ## Simulation -/

/-- What comes of a step on a cursor, seen as a step on the sequence. -/
def onSequence {α : Type} :
    EStateM.Result LoweringError Cursor α → EStateM.Result LoweringError Sequence α
  | .ok a c => .ok a c.toSequence
  | .error e c => .error e c.toSequence

/-- A step on cursors does what a step on sequences does. -/
def Tracks {α : Type} (x : CursorM α) (y : SequenceM α) : Prop :=
  ∀ c, y c.toSequence = onSequence (x c)

section

variable {α β : Type} {cx : Context}

theorem tracks_pure (a : α) : Tracks (pure a) (pure a) := fun _ => rfl

theorem tracks_liftExcept (x : Except LoweringError α) :
    Tracks (liftExcept x) (liftExcept x) := by
  intro c
  cases x <;> rfl

/-- Steps in turn, where the first on cursors gives `g a` for each result `a` of the first on
sequences. -/
theorem Tracks.bind_map {γ : Type} {x : CursorM γ} {y : SequenceM α} {g : α → γ}
    {f : γ → CursorM β} {h : α → SequenceM β}
    (hx : Tracks x (y >>= fun a => pure (g a)))
    (hf : ∀ a s s', y s = .ok a s' → Tracks (f (g a)) (h a)) :
    Tracks (x >>= f) (y >>= h) := by
  intro c
  have hc := hx c
  rw [bind_apply] at hc
  rw [bind_apply, bind_apply]
  cases hy : y c.toSequence with
  | error e s =>
    rw [hy] at hc
    cases hxc : x c with
    | error e' c' =>
      rw [hxc] at hc
      cases hc
      rfl
    | ok b c' =>
      rw [hxc] at hc
      cases hc
  | ok a s =>
    rw [hy] at hc
    cases hxc : x c with
    | error e' c' =>
      rw [hxc] at hc
      cases hc
    | ok b c' =>
      rw [hxc] at hc
      cases hc
      exact hf a _ _ hy c'

theorem Tracks.bind {x : CursorM α} {y : SequenceM α} {f : α → CursorM β}
    {g : α → SequenceM β} (h : Tracks x y) (hf : ∀ a, Tracks (f a) (g a)) :
    Tracks (x >>= f) (y >>= g) :=
  Tracks.bind_map (g := id) (by rwa [show (fun a => pure (id a)) = (pure : α → SequenceM α)
    from rfl, bind_pure]) fun a _ _ _ => hf a

theorem Tracks.ite {c : Prop} [Decidable c] {x x' : CursorM α} {y y' : SequenceM α}
    (h : Tracks x y) (h' : Tracks x' y') :
    Tracks (if c then x else x') (if c then y else y') := by
  split
  · exact h
  · exact h'

theorem tracks_push (stmt : Script.Stmt) :
    Tracks (Indexed.push stmt) (Sequence.push stmt) := fun _ => rfl

theorem tracks_capture (e : Script.Expr) :
    Tracks (Indexed.capture cx e) (Sequence.capture cx e) := fun _ => rfl

theorem tracks_aside (o : Operand) : Tracks (Indexed.aside o) (Sequence.aside o) := by
  intro c
  unfold Indexed.aside Sequence.aside
  change (match o.lower c.temps with | .ok v temps => _ | .error e temps => _) = _
  cases o.lower c.temps <;> rfl

theorem effectsFrom_eq {c : Cursor} {i : Nat} (h : i ≤ c.operands.length) :
    Indexed.effectsFrom cx c i =
      .ok ((c.operands.drop i).any (·.hasEffects cx.metadata)) := by
  rw [Indexed.effectsFrom, Indexed.itemsFrom_eq (by simpa using h)]
  simp [Except.map, ← List.map_drop]

/-- Whether effects are to come is seen in the operands behind the position. -/
theorem tracks_remainingHasEffects :
    Tracks (Indexed.remainingHasEffects cx) (do return (← get).pendingHasEffects cx) := by
  intro c
  have hdrop : c.operands.drop (min c.position c.operands.length) =
      c.operands.drop c.position := by
    rcases Nat.le_total c.position c.operands.length with h | h
    · rw [Nat.min_eq_left h]
    · rw [Nat.min_eq_right h, List.drop_eq_nil_of_le h, List.drop_eq_nil_of_le (Nat.le_refl _)]
  change _ = onSequence
    (liftExcept (Indexed.effectsFrom cx c (min c.position c.operands.length)) c)
  rw [effectsFrom_eq (Nat.min_le_right _ _), hdrop]
  rfl

/-- A value that is captured or not, with what follows. -/
theorem tracks_held_bind {flag : Bool} {e : Script.Expr} {f : Script.Expr → CursorM α}
    {g : Script.Expr → SequenceM α} (h : ∀ x, Tracks (f x) (g x)) :
    Tracks (if flag then Indexed.capture cx e >>= f else pure e >>= f)
      (if flag then Sequence.capture cx e >>= g else pure e >>= g) :=
  ((tracks_capture e).bind h).ite ((tracks_pure e).bind h)

/-- A value that is captured if effects are to come, with what follows. -/
theorem tracks_guarded_bind {e : Script.Expr} {f : Script.Expr → CursorM α}
    {g : Script.Expr → SequenceM α} (h : ∀ x, Tracks (f x) (g x)) :
    Tracks
      (Indexed.remainingHasEffects cx >>= fun effects =>
        if effects then Indexed.capture cx e >>= f else pure e >>= f)
      (get >>= fun s =>
        if s.pendingHasEffects cx then Sequence.capture cx e >>= g else pure e >>= g) :=
  tracks_remainingHasEffects.bind fun _ => tracks_held_bind h

/-- The operand at the position is lowered, and captured if it must be before those behind
it are lowered. -/
theorem Indexed.next_apply (c : Capture) {s : Cursor} {o : Operand}
    (h : s.operands[s.position]? = some o) :
    Indexed.next cx c s =
      match Indexed.aside o { s with position := s.position + 1 } with
      | .error e s => .error e s
      | .ok v s' =>
        if Sequence.mustCapture cx c o (s.operands.drop (s.position + 1)) v then
          (Indexed.capture cx v.expr >>= fun e => pure ⟨e, v.fresh, true⟩) s'
        else .ok v s' := by
  have hle : s.position + 1 ≤ s.operands.length := (List.getElem?_eq_some_iff.1 h).1
  rw [Indexed.next, bind_apply]
  change (match s.operands[s.position]? with | none => _ | some o => _ : CursorM Value) s = _
  rw [h]
  dsimp only
  rw [bind_apply]
  change (Indexed.aside o >>= _) { s with position := s.position + 1 } = _
  rw [bind_apply]
  cases Indexed.aside o { s with position := s.position + 1 } with
  | error e s' => rfl
  | ok v s' =>
    simp only [Indexed.itemsFrom_eq hle, effectsFrom_eq hle]
    change (if Sequence.mustCapture cx c o (s.operands.drop (s.position + 1)) v then
      (Indexed.capture cx v.expr >>= fun e => pure ⟨e, v.fresh, true⟩) else pure v :
        CursorM Value) s' = _
    split <;> rfl

/-- Taking the operand at the position takes the first of those to come. -/
theorem tracks_next (c : Capture) : Tracks (Indexed.next cx c) (Sequence.next cx c) := by
  intro s
  cases hget : s.operands[s.position]? with
  | none =>
    have hpending : s.toSequence.pending = [] :=
      List.drop_eq_nil_of_le (List.getElem?_eq_none_iff.1 hget)
    rw [Sequence.next_apply_nil cx c hpending, Indexed.next, bind_apply]
    change _ = onSequence
      ((match s.operands[s.position]? with | none => _ | some o => _ : CursorM Value) s)
    rw [hget]
    rfl
  | some o =>
    obtain ⟨hlt, hat⟩ := List.getElem?_eq_some_iff.1 hget
    have hpending : s.toSequence.pending = o :: s.operands.drop (s.position + 1) := by
      rw [← hat]
      exact List.drop_eq_getElem_cons hlt
    have haside :
        Sequence.aside o { s.toSequence with pending := s.operands.drop (s.position + 1) } =
          onSequence (Indexed.aside o { s with position := s.position + 1 }) :=
      tracks_aside o { s with position := s.position + 1 }
    rw [Sequence.next_apply_cons cx c hpending, Indexed.next_apply c hget, haside]
    cases Indexed.aside o { s with position := s.position + 1 } with
    | error e s' => rfl
    | ok v s' =>
      dsimp only [onSequence]
      split <;> rfl

/-! ## Arguments -/

/-- Looking through the later arguments by index finds what looking through them does. -/
theorem anyM_range'_eq {β : Type} {p : Nat → Except LoweringError Bool} {q : β → Bool}
    (later : List β) :
    ∀ {k : Nat}, (∀ (j : Nat) b, later[j]? = some b → p (k + j) = .ok (q b)) →
      (List.range' k later.length).anyM p = .ok (later.any q) := by
  induction later with
  | nil => intro k _; rfl
  | cons b later ih =>
    intro k h
    have hrest : (List.range' (k + 1) later.length).anyM p = .ok (later.any q) := by
      refine ih fun j b' hb' => ?_
      rw [Nat.add_assoc, Nat.add_comm 1]
      exact h (j + 1) b' (by simpa using hb')
    rw [List.length_cons, List.range'_succ, List.anyM_cons, hrest]
    rw [show p k = .ok (q b) from h 0 b rfl, List.any_cons]
    cases q b <;> rfl

/-- The hazard of an argument, seen in the lists of all of them. -/
theorem isReorderHazard_eq (md : Metadata) {site earlier later : List (Nat × Operand)}
    {declared : Nat} {o : Operand} (hsite : site = earlier ++ (declared, o) :: later) :
    Indexed.isReorderHazard md (site.map (·.2)) (site.map (·.1)) earlier.length =
      .ok (isReorderHazard md declared o later) := by
  have hat : site[earlier.length]? = some (declared, o) := by simp [hsite]
  have hcurrent := Indexed.item_eq
    (show (site.map (·.2))[earlier.length]? = some o by simp [hat])
  have hdeclared := Indexed.item_eq
    (show (site.map (·.1))[earlier.length]? = some declared by simp [hat])
  have hlength : (site.map (·.2)).length - (earlier.length + 1) = later.length := by
    simp [hsite]
    omega
  unfold Indexed.isReorderHazard isReorderHazard
  simp only [hcurrent, hdeclared, hlength, bind, Except.bind]
  cases o.hasEffects md with
  | false => rfl
  | true =>
    refine anyM_range'_eq later fun j x hx => ?_
    have hlater : site[earlier.length + 1 + j]? = some x := by
      rw [hsite, List.getElem?_append_right (by omega)]
      simpa [show earlier.length + 1 + j - earlier.length = j + 1 by omega] using hx
    have hindex := Indexed.item_eq
      (show (site.map (·.1))[earlier.length + 1 + j]? = some x.1 by simp [hlater])
    have hoperand := Indexed.item_eq
      (show (site.map (·.2))[earlier.length + 1 + j]? = some x.2 by simp [hlater])
    simp only [hindex, hoperand]
    by_cases hlt : x.1 < declared <;> simp [hlt]

/-- Slots filled with values by their declared indices. -/
def filled (slots : List (Option Value)) (vs : List (Nat × Value)) : List (Option Value) :=
  vs.foldl (fun slots x => slots.set x.1 (some x.2)) slots

theorem length_filled (vs : List (Nat × Value)) :
    ∀ slots : List (Option Value), (filled slots vs).length = slots.length := by
  induction vs with
  | nil => intro slots; rfl
  | cons x vs ih => intro slots; exact (ih _).trans (List.length_set ..)

/-- Slots hold what looking up their indices finds. -/
theorem getElem?_filled {vs : List (Nat × Value)} :
    ∀ {slots : List (Option Value)} {i : Nat}, (vs.map (·.1)).Nodup → i < slots.length →
      (filled slots vs)[i]? = some ((vs.lookup i).or (slots[i]?.join)) := by
  induction vs with
  | nil =>
    intro slots i _ hi
    simp [filled, hi]
  | cons x vs ih =>
    intro slots i hnodup hi
    obtain ⟨d, v⟩ := x
    obtain ⟨hnot, hrest⟩ := List.nodup_cons.1 hnodup
    have hstep : filled slots ((d, v) :: vs) = filled (slots.set d (some v)) vs := rfl
    rw [hstep, ih hrest (by simpa using hi)]
    by_cases hd : d = i
    · subst hd
      have hnone : vs.lookup d = none := by
        rw [List.lookup_eq_none_iff]
        intro y hy
        have hne : d ≠ y.1 := fun heq => hnot (List.mem_map.2 ⟨y, hy, heq.symm⟩)
        simpa using hne
      simp [hnone, hi]
    · have hne : (i == d) = false := by simpa using Ne.symm hd
      rw [List.lookup_cons, hne, List.getElem?_set_ne hd]

/-- The results of lowering the written arguments go with their declared indices. -/
theorem map_fst_of_lowerCallSite {reuse : Bool} (site : List (Nat × Operand)) :
    ∀ {vs : List (Nat × Value)} {s s' : Sequence},
      lowerCallSite cx reuse site s = .ok vs s' → vs.map (·.1) = site.map (·.1) := by
  induction site with
  | nil =>
    intro vs s s' h
    cases h
    rfl
  | cons x site ih =>
    obtain ⟨declared, o⟩ := x
    intro vs s s' h
    rw [lowerCallSite, bind_apply] at h
    split at h
    · rw [bind_apply] at h
      split at h
      next hrest =>
        cases h
        simp [ih hrest]
      · cases h
    · cases h

/-- Filling slots by index puts the written arguments where they belong. -/
theorem tracks_lowerCallSite {reuse : Bool} {site : List (Nat × Operand)} :
    ∀ {later earlier : List (Nat × Operand)} {slots : List (Option Value)},
      site = earlier ++ later → (∀ x ∈ later, x.1 < slots.length) →
      Tracks
        (Indexed.lowerCallSite cx reuse (site.map (·.2)) (site.map (·.1))
          ((later.map (·.1)).zipIdx earlier.length) slots)
        (lowerCallSite cx reuse later >>= fun vs => pure (filled slots vs)) := by
  intro later
  induction later with
  | nil =>
    intro earlier slots _ _
    exact tracks_pure slots
  | cons x later ih =>
    obtain ⟨declared, o⟩ := x
    intro earlier slots hsite hbound
    obtain ⟨hd, hrest⟩ := List.forall_mem_cons.1 hbound
    simp only [List.map_cons, List.zipIdx_cons, Indexed.lowerCallSite, lowerCallSite,
      isReorderHazard_eq cx.metadata hsite, bind_assoc, pure_bind]
    refine (tracks_next _).bind fun v => ?_
    rw [Indexed.setItem_eq hd]
    have hmoved : earlier.length + 1 = (earlier ++ [(declared, o)]).length := by simp
    rw [hmoved]
    exact ih (by simp [hsite]) (by simpa using hrest)

theorem tracks_lowerAside (reuse : Bool) (o : Operand) :
    Tracks (Indexed.lowerAside cx reuse o) (lowerAside cx reuse o) :=
  (tracks_aside o).bind fun v =>
    ((tracks_capture v.expr).bind fun _ => tracks_pure _).ite (tracks_pure v)

/-- Arguments from slots are those found by looking up their declared indices. -/
theorem tracks_lowerArgs {reuse : Bool} {supplied : List (Nat × Value)}
    (args : List (IndexArg Operand)) :
    ∀ {slots : List (Option Value)} {declared : Nat}, slots.length = args.length →
      (∀ j < args.length, slots[j]? = some (supplied.lookup (declared + j))) →
      Tracks (Indexed.lowerArgs cx reuse (slots.zip args))
        (lowerArgs cx reuse supplied declared args) := by
  induction args with
  | nil =>
    intro slots declared hlen _
    rw [List.zip_nil_right]
    exact tracks_pure []
  | cons a args ih =>
    intro slots declared hlen hslots
    cases slots with
    | nil => cases hlen
    | cons slot slots =>
      have hslot : slot = supplied.lookup declared := by
        simpa using hslots 0 (Nat.zero_lt_succ _)
      have hrest : Tracks (Indexed.lowerArgs cx reuse (slots.zip args))
          (lowerArgs cx reuse supplied (declared + 1) args) := by
        refine ih (Nat.succ.inj hlen) fun j hj => ?_
        rw [Nat.add_assoc, Nat.add_comm 1]
        exact hslots (j + 1) (Nat.succ_lt_succ hj)
      simp only [List.zip_cons_cons, Indexed.lowerArgs, lowerArgs, hslot]
      cases supplied.lookup declared with
      | none =>
        exact (tracks_lowerAside reuse a.value).bind fun v => hrest.bind fun vs =>
          tracks_pure _
      | some v => exact (tracks_pure v).bind fun v => hrest.bind fun vs => tracks_pure _

theorem tracks_lowerObject (reuse : Bool) (t : Target Operand) :
    Tracks (Indexed.lowerObject cx reuse t) (lowerObject cx reuse t) := by
  unfold Indexed.lowerObject lowerObject
  cases t.receiver with
  | none => exact tracks_pure none
  | some o => exact (tracks_next _).bind fun v => tracks_pure _

/-- Lowering the operands of a target by index does what lowering them does. -/
theorem tracks_lowerAddress (reuse : Bool) (t : Target Operand) :
    Tracks (Indexed.lowerAddress cx reuse t) (lowerAddress cx reuse t) := by
  unfold Indexed.lowerAddress lowerAddress
  rw [Indexed.written_eq]
  refine (tracks_lowerObject reuse t).bind fun object => ?_
  have hsite : Tracks
      (Indexed.lowerCallSite cx reuse (t.callSite.map (·.2)) (Indexed.order t)
        (Indexed.order t).zipIdx (t.args.map fun _ => none))
      (lowerCallSite cx reuse t.callSite >>= fun vs =>
        pure (filled (t.args.map fun _ => none) vs)) :=
    tracks_lowerCallSite (List.nil_append _).symm fun x hx => by
      simpa using Indexed.lt_of_mem_callSite hx
  refine hsite.bind_map fun supplied s s' hsupplied => ?_
  have hnodup : (supplied.map (·.1)).Nodup :=
    map_fst_of_lowerCallSite _ hsupplied ▸ Indexed.nodup_order t
  have hargs : Tracks
      (Indexed.lowerArgs cx reuse ((filled (t.args.map fun _ => none) supplied).zip t.args))
      (lowerArgs cx reuse supplied 0 t.args) := by
    refine tracks_lowerArgs t.args (by simp [length_filled]) fun j hj => ?_
    rw [getElem?_filled hnodup (by simpa using hj)]
    simp [hj]
  exact hargs.bind fun vs => tracks_pure _

theorem tracks_lowerReceiver (c : Capture) (r : Receiver Operand) :
    Tracks (Indexed.lowerReceiver cx c r) (lowerReceiver cx c r) := by
  cases r with
  | object o => exact (tracks_next c).bind fun v => tracks_pure _
  | static owner => exact tracks_pure _
  | base declaring => exact tracks_pure _

/-- Parameters found by index are those met one by one. -/
theorem tracks_lowerCallArgs (c : Capture) {params : List Param} (args : List Operand) :
    ∀ {i : Nat}, Tracks (Indexed.lowerCallArgs cx c params (args.zipIdx i))
      (lowerCallArgs cx c (params.drop i) args) := by
  induction args with
  | nil => intro i; exact tracks_pure []
  | cons o args ih =>
    intro i
    rw [List.zipIdx_cons, Indexed.lowerCallArgs, lowerCallArgs, List.head?_drop, List.tail_drop]
    exact (tracks_next c).bind fun v => ih.bind fun vs => tracks_pure _

end
end AssignmentLowering
