import AssignmentLowering.Lowering.Session
import AssignmentLowering.Proofs.Lowering.Declared
import AssignmentLowering.Proofs.Lowering.Failure

/-!
# Chains of assignments that nest

In `t₁ = t₂ = ⋯ = v` every target but the last has effects behind it, and effects are a
reason to capture what stands before them. Still nothing is captured where the targets are
assigned by the language itself and addressed by constants, the current object, and
variables that the rest of the chain leaves alone: then the chain comes out as it is
written, in one expression.

## Main definitions

* `Expr.plain?` — the script of an expression that stays in place whatever follows.
* `Link`, `chain` — a chain of assignments, however long.
* `Target.Direct`, `Nests` — targets and chains that need no statements.

## Main statements

* `writes_chain` — a chain writes what its links and its value write.
* `Session.assign_chain` — a chain that nests is lowered to a nested assignment.
-/

namespace AssignmentLowering

open Script (Stmt)

variable {cx : Context}

/-! ## Plain operands -/

/-- The script of an expression whose value needs no accessor, no call and no cell: a
constant, a default value, the current object or a local variable. -/
def Expr.plain? (cx : Context) (e : Expr) : Option Script.Expr :=
  match e.form with
  | .literal value _ => some value.script
  | .defaultValue ty => some (cx.defaultValue ty)
  | .place (.this _) => some .this
  | .place (.localVar l) => if l.byRef then none else some (.ident l.name)
  | _ => none

/-- The operands of a target in script, if they are plain. -/
def Target.plainAddress (cx : Context) (t : Target Expr) : Address :=
  ⟨t.receiver.bind (Expr.plain? cx), t.args.filterMap fun a => a.value.plain? cx⟩

/-- None of the expressions `later` writes the variable that the expression is, if it is
one. -/
def Expr.KeptBy (later : List Expr) (o : Expr) : Prop :=
  ∀ l, o.form = .place (.localVar l) → ∀ e ∈ later, e.writes l.name = false

namespace Expr

variable {e : Expr} {x : Script.Expr}

/-- There are four sorts of plain expressions. -/
theorem plain?_cases (h : e.plain? cx = some x) :
    (∃ value ty, e.form = .literal value ty ∧ x = value.script) ∨
      (∃ ty, e.form = .defaultValue ty ∧ x = cx.defaultValue ty) ∨
      (∃ ty, e.form = .place (.this ty) ∧ x = .this) ∨
      ∃ l, e.form = .place (.localVar l) ∧ l.byRef = false ∧ x = .ident l.name := by
  unfold plain? at h
  split at h
  case h_1 value ty hform => exact .inl ⟨value, ty, hform, (Option.some.inj h).symm⟩
  case h_2 ty hform => exact .inr (.inl ⟨ty, hform, (Option.some.inj h).symm⟩)
  case h_3 ty hform => exact .inr (.inr (.inl ⟨ty, hform, (Option.some.inj h).symm⟩))
  case h_4 l hform =>
    split at h
    · cases h
    · next hl => exact .inr (.inr (.inr ⟨l, hform, by simpa using hl, (Option.some.inj h).symm⟩))
  case h_5 => cases h

theorem operands_of_plain (h : (e.plain? cx).isSome = true) : e.operands = [] := by
  obtain ⟨x, hx⟩ := Option.isSome_iff_exists.1 h
  unfold operands
  obtain ⟨_, _, hform, -⟩ | ⟨_, hform, -⟩ | ⟨_, hform, -⟩ | ⟨_, hform, -⟩ := plain?_cases hx <;>
    rw [hform] <;> rfl

theorem hasEffects_of_plain (md : Metadata) (h : (e.plain? cx).isSome = true) :
    e.hasEffects md = false := by
  obtain ⟨x, hx⟩ := Option.isSome_iff_exists.1 h
  rw [hasEffects_eq]
  obtain ⟨_, _, hform, -⟩ | ⟨_, hform, -⟩ | ⟨_, hform, -⟩ | ⟨_, hform, -⟩ := plain?_cases hx <;>
    rw [hform] <;> rfl

theorem writes_of_plain (name : String) (h : (e.plain? cx).isSome = true) :
    e.writes name = false := by
  rw [writes_eq, operands_of_plain h]
  obtain ⟨x, hx⟩ := Option.isSome_iff_exists.1 h
  obtain ⟨_, _, hform, -⟩ | ⟨_, hform, -⟩ | ⟨_, hform, -⟩ | ⟨_, hform, -⟩ := plain?_cases hx <;>
    rw [hform] <;> rfl

/-- A plain expression has the same value before and after expressions that do not write
it. -/
theorem isInvariant_of_plain {later : List Expr} (h : (e.plain? cx).isSome = true)
    (hkept : e.KeptBy later) : e.isInvariant later = true := by
  obtain ⟨x, hx⟩ := Option.isSome_iff_exists.1 h
  unfold isInvariant
  obtain ⟨_, _, hform, -⟩ | ⟨_, hform, -⟩ | ⟨_, hform, -⟩ | ⟨l, hform, hl, -⟩ := plain?_cases hx
  · rw [hform]
  · rw [hform]
  · rw [hform]
  · simpa [hform, hl] using hkept l hform

/-- A plain expression is lowered to its script, and nothing else. -/
theorem lower_of_plain (h : e.plain? cx = some x) (n : Nat) :
    ∃ w : Lowered, e.lower cx n = .ok w n ∧ w.expr = x ∧ w.stmts = [] := by
  obtain ⟨form, span⟩ := e
  rw [lower_eq]
  obtain ⟨value, ty, hform, rfl⟩ | ⟨ty, hform, rfl⟩ | ⟨ty, hform, rfl⟩ | ⟨l, hform, hl, rfl⟩ :=
    plain?_cases h
  · obtain rfl : form = _ := hform
    exact ⟨_, rfl, rfl, rfl⟩
  · obtain rfl : form = _ := hform
    exact ⟨_, rfl, rfl, rfl⟩
  · obtain rfl : form = _ := hform
    exact ⟨_, rfl, rfl, rfl⟩
  · obtain rfl : form = _ := hform
    obtain ⟨name, ty, byRef⟩ := l
    obtain rfl : byRef = false := hl
    exact ⟨_, rfl, rfl, rfl⟩

end Expr

/-! ## Targets addressed by plain operands -/

section

variable {n n' : Nat} {stmts : List Stmt} {rest : List Expr}

/-- A plain operand stays in place if nothing to come writes it. -/
theorem Taken.of_plain {later : List Expr} {o : Expr} {v : Value} {x : Script.Expr}
    (hplain : o.plain? cx = some x) (hkept : o.KeptBy later)
    (h : Taken cx {} later o n v stmts n') : v.expr = x ∧ stmts = [] ∧ n' = n := by
  cases h with
  | intro hlower hheld =>
    obtain ⟨w, hw, rfl, hnil⟩ := Expr.lower_of_plain hplain n
    rw [hw] at hlower
    obtain ⟨rfl, rfl⟩ := EStateM.Result.ok.inj hlower
    have hstays : o.mustCapture cx {} later w.toValue = false := by
      have hsome : (o.plain? cx).isSome = true := by rw [hplain, Option.isSome_some]
      have hinvariant := Expr.isInvariant_of_plain hsome hkept
      simp [Expr.mustCapture, hinvariant]
    rw [hstays] at hheld
    cases hheld
    exact ⟨rfl, by simp [hnil], rfl⟩

/-- So do plain operands that are taken one after the other. -/
theorem TakenAll.of_plain {items : List (Capture × Expr)} {vs : List Value}
    (hitems : ∀ x ∈ items, x.1 = {} ∧ (x.2.plain? cx).isSome = true ∧ x.2.KeptBy rest)
    (h : TakenAll cx rest items n vs stmts n') :
    vs.map (fun v => some v.expr) = items.map (fun x => x.2.plain? cx) ∧
      stmts = [] ∧ n' = n := by
  induction h with
  | nil => exact ⟨rfl, rfl, rfl⟩
  | @cons c o items _ _ _ v vs _ _ hhead _ ih =>
    obtain ⟨⟨rfl, hsome, hkept⟩, htail⟩ := List.forall_mem_cons.1 hitems
    obtain ⟨x, hx⟩ := Option.isSome_iff_exists.1 hsome
    have hall : o.KeptBy (items.map (·.2) ++ rest) := by
      intro l hl e he
      obtain he | he := List.mem_append.1 he
      · obtain ⟨y, hy, rfl⟩ := List.mem_map.1 he
        exact Expr.writes_of_plain l.name (htail y hy).2.1
      · exact hkept l hl e he
    obtain ⟨rfl, rfl, rfl⟩ := hhead.of_plain hx hall
    obtain ⟨hvs, rfl, rfl⟩ := ih htail
    exact ⟨by simp [hvs, hx], rfl, rfl⟩

/-- Plain defaults stay in place as well; the arguments written are where they were. -/
theorem Filled.of_plain {vs : List Value} {args : List (IndexArg Expr)} {xs : List IndexValue}
    (hplain : ∀ a ∈ args, (a.value.plain? cx).isSome = true)
    (hwritten : ∀ a ∈ args, ∀ i v, a.position = some i → vs[i]? = some v →
      a.value.plain? cx = some v.expr)
    (h : Filled cx false vs args n xs stmts n') :
    xs.map (·.expr) = args.filterMap (fun a => a.value.plain? cx) ∧ stmts = [] ∧ n' = n := by
  induction h with
  | nil => exact ⟨rfl, rfl, rfl⟩
  | written hposition hvalue _ ih =>
    obtain ⟨hhead, htail⟩ := List.forall_mem_cons.1 hwritten
    obtain ⟨hxs, rfl, rfl⟩ := ih (List.forall_mem_cons.1 hplain).2 htail
    exact ⟨by simp [hxs, hhead _ _ hposition hvalue], rfl, rfl⟩
  | omitted _ htaken _ ih =>
    obtain ⟨hhead, htail⟩ := List.forall_mem_cons.1 hplain
    obtain ⟨x, hx⟩ := Option.isSome_iff_exists.1 hhead
    obtain ⟨rfl, rfl, rfl⟩ := Taken.of_plain hx (fun _ _ _ he => by cases he) htaken
    obtain ⟨hxs, rfl, rfl⟩ := ih htail (List.forall_mem_cons.1 hwritten).2
    exact ⟨by simp [hxs, hx], rfl, rfl⟩

/-- Without effects among them, operands are lowered in their places. -/
theorem Target.capture_of_plain {t : Target Expr}
    (hplain : ∀ o ∈ t.operands, (o.plain? cx).isSome = true) {x : Capture × Expr}
    (hx : x ∈ t.captures cx.metadata false) : x.1 = {} := by
  have hcallSite (written : List (Nat × Expr))
      (hwritten : ∀ o ∈ written.map (·.2), (o.plain? cx).isSome = true) :
      x ∈ callSiteCaptures cx.metadata false written → x.1 = {} := by
    induction written with
    | nil => simp [callSiteCaptures]
    | cons y written ih =>
      obtain ⟨hhead, htail⟩ := List.forall_mem_cons.1 hwritten
      intro hx
      obtain rfl | hx := List.mem_cons.1 hx
      · simp [Expr.isReorderHazard, Expr.hasEffects_of_plain cx.metadata hhead]
      · exact ih htail hx
  obtain hx | hx := List.mem_append.1 hx
  · obtain ⟨e, -, rfl⟩ := List.mem_map.1 hx
    rfl
  · exact hcallSite _ (fun o ho => hplain o (List.mem_append_right _ ho)) hx

/-- A target addressed by plain operands that nothing behind them writes is found without a
statement. -/
theorem Addressed.of_plain {t : Target Expr} {a : LoweredAddress} {indices : List Expr}
    (ht : Arranges t.args indices)
    (hplain : ∀ o ∈ t.operands ++ t.omitted, (o.plain? cx).isSome = true)
    (hkept : ∀ o ∈ t.operands, o.KeptBy rest) (h : Addressed cx false rest t n a stmts n') :
    a.address = t.plainAddress cx ∧ stmts = [] ∧ n' = n := by
  obtain ⟨hoperands, homitted⟩ := List.forall_mem_append.1 hplain
  have hcaptures : ∀ x ∈ t.captures cx.metadata false,
      x.1 = {} ∧ (x.2.plain? cx).isSome = true ∧ x.2.KeptBy rest := by
    intro x hx
    have hmem : x.2 ∈ t.operands :=
      Target.map_snd_captures cx.metadata false t ▸ List.mem_map_of_mem hx
    exact ⟨Target.capture_of_plain hoperands hx, hoperands _ hmem, hkept _ hmem⟩
  cases h with
  | @intro objects vs xs _ _ _ _ htaken hobjects hfilled =>
    obtain ⟨hvalues, rfl, rfl⟩ := htaken.of_plain hcaptures
    have hall : objects.map (fun v => some v.expr) ++ vs.map (fun v => some v.expr) =
        t.receiver.toList.map (Expr.plain? cx) ++ indices.map (Expr.plain? cx) := by
      rw [← List.map_append, hvalues, ← Target.map_snd_callSite ht, ← List.map_append,
        ← Target.operands, ← Target.map_snd_captures cx.metadata false, List.map_map]
      rfl
    obtain ⟨hobject, hvs⟩ := List.append_inj hall (by simpa using hobjects)
    -- The value of a written argument stands where the argument stands in the text.
    have hwritten : ∀ a ∈ t.args, ∀ i v, a.position = some i → vs[i]? = some v →
        a.value.plain? cx = some v.expr := by
      intro a ha i v hposition hvalue
      have hat := congrArg (·[i]?) hvs
      simpa [hvalue, ht.value_eq a ha i hposition] using hat.symm
    have hargs : ∀ a ∈ t.args, (a.value.plain? cx).isSome = true := by
      intro a ha
      cases hp : a.position with
      | none => exact homitted _ (List.mem_map_of_mem (List.mem_filter.2 ⟨ha, by simp [hp]⟩))
      | some i =>
        have hmem := List.mem_of_getElem? (ht.value_eq a ha i hp)
        rw [← Target.map_snd_callSite ht] at hmem
        exact hoperands _ (List.mem_append_right _ hmem)
    obtain ⟨hxs, rfl, rfl⟩ := hfilled.of_plain hargs hwritten
    refine ⟨?_, rfl, rfl⟩
    have hobject' : objects.head?.map (·.expr) = t.receiver.bind (Expr.plain? cx) := by
      cases hr : t.receiver with
      | none => simpa [hr] using hobject
      | some e =>
        obtain ⟨v, rfl, hv⟩ : ∃ v, objects = [v] ∧ some v.expr = e.plain? cx := by
          simpa [hr, List.map_eq_singleton_iff] using hobject
        exact hv
    simp [LoweredAddress.address, Target.plainAddress, hxs, hobject']

end

/-! ## Chains -/

/-- A link of a chain of assignments: a target, and where the assignment to it stands. -/
structure Link where
  target : Expr
  span : Span

/-- The assignment of a value to the target of a link. -/
def Link.assign (l : Link) (value : Expr) : Expr := ⟨.assign ⟨l.target, .assign, value⟩, l.span⟩

/-- The links from the left to the right, and at the end the value: `t₁ = (t₂ = ⋯ = value)`. -/
def chain (links : List Link) (value : Expr) : Expr := links.foldr Link.assign value

/-- The target of a link as it stands on the left of `=`, if its operands are plain. -/
def Link.place (cx : Context) (l : Link) : Except LoweringError Script.Expr := do
  let t ← l.target.target cx.metadata cx.enclosing
  t.native cx.names (t.plainAddress cx)

/-- A target that needs no statements where it is assigned what `later` links and a value
come to: it may stand on the left of `=`, what it holds may be shared, and it is addressed by
constants, the current object and variables that are not assigned behind it. -/
structure Target.Direct (cx : Context) (later : List Link) (value : Expr) (t : Target Expr) :
    Prop where
  native : t.isNative = true
  index : t.storage = .subscript → t.args.length = 1
  shared : (cx.metadata.semantics t.ty).tag? = none
  plain : ∀ o ∈ t.operands ++ t.omitted, (o.plain? cx).isSome = true
  kept : ∀ o ∈ t.operands ++ t.omitted, ∀ l, o.form = .place (.localVar l) →
    (∀ k ∈ later, k.target.isLocal l.name = false) ∧ value.writes l.name = false

/-- A chain whose targets need no statements. -/
inductive Nests (cx : Context) (value : Expr) : List Link → Prop
  | nil : Nests cx value []
  | cons {l : Link} {later : List Link} {t : Target Expr}
      (htarget : l.target.target cx.metadata cx.enclosing = .ok t)
      (hdirect : t.Direct cx later value) (hlater : Nests cx value later) :
      Nests cx value (l :: later)

/-- A target that is addressed by plain operands writes nothing by being evaluated. -/
theorem Expr.writes_of_target {e : Expr} {t : Target Expr}
    (ht : e.target cx.metadata cx.enclosing = .ok t)
    (hplain : ∀ o ∈ t.operands, (o.plain? cx).isSome = true) (name : String) :
    e.writes name = false := by
  obtain ⟨p, hp, hplace⟩ := target_arranges ht
  have hoperands : e.operands = t.operands := by
    rw [Target.operands_ofPlace hplace, operands, hp]
    rfl
  rw [writes_eq, hp, hoperands, Bool.false_or, List.any_eq_false]
  intro o ho
  rw [writes_of_plain name (hplain o ho)]
  exact Bool.false_ne_true

/-- A chain writes the variables among its targets and those that its value writes. -/
theorem writes_chain {links : List Link} {value : Expr} (h : Nests cx value links)
    {name : String} (htargets : ∀ k ∈ links, k.target.isLocal name = false)
    (hvalue : value.writes name = false) : (chain links value).writes name = false := by
  induction h with
  | nil => exact hvalue
  | @cons l later t htarget hdirect _ ih =>
    obtain ⟨hhead, htail⟩ := List.forall_mem_cons.1 htargets
    have htarget' := Expr.writes_of_target htarget
      (fun o ho => hdirect.plain o (List.mem_append_left _ ho)) name
    have hrest : (later.foldr Link.assign value).writes name = false := ih htail
    rw [Expr.writes_eq]
    simp [chain, Link.assign, Expr.operands, Form.operands, hhead, htarget', hrest]

/-- A target that may stand on the left of `=` and takes as many indices as it is given can be
written there. -/
theorem Classified.exists_native {md : Metadata} {typeOf : Expr → TypeRef} {span : Span}
    {p : Place Expr} {t : Target Expr} (h : Classified md typeOf span p t)
    (hnative : t.isNative = true) (hindex : t.storage = .subscript → t.args.length = 1)
    (names : RuntimeNames) {a : Address} (ha : a.args.length = t.args.length) :
    ∃ place, t.native names a = .ok place := by
  have hsubscript (hlen : t.args.length = 1) : ∃ place, t.subscript a = .ok place := by
    obtain ⟨i, hi⟩ := List.length_eq_one_iff.1 (ha.trans hlen)
    exact ⟨_, by rw [Target.subscript, hi]⟩
  cases h with
  | @localVar l =>
    unfold Target.native Target.plain
    cases l.byRef <;> exact ⟨_, rfl⟩
  | this => cases hnative
  | @field r => cases r <;> exact ⟨_, rfl⟩
  | @property r _ storage hstorage hne =>
    cases storage with
    | direct => exact absurd hstorage (PropertyBinding.storage?_ne_direct _)
    | field name => cases r <;> exact ⟨_, rfl⟩
    | accessors getter setter => cases r <;> cases hnative
    | subscript => exact absurd rfl hne
  | @resolved r _ _ _ _ storage _ hstorage _ | @candidates r _ _ _ _ storage hstorage =>
    cases storage with
    | direct => exact absurd hstorage (PropertyBinding.storage?_ne_direct _)
    | field name => cases r <;> exact ⟨_, rfl⟩
    | accessors getter setter => cases r <;> cases hnative
    | subscript => cases r <;> exact hsubscript (hindex rfl)
  | element => exact hsubscript rfl
  | multiElement => cases hnative
  | dynamicMember => exact ⟨_, rfl⟩
  | dynamicIndex harity => exact hsubscript (by simp [IndexArg.inOrder, harity])

/-- What is plain is lowered without error. -/
theorem Expr.failure?_of_plain {o : Expr} (h : (o.plain? cx).isSome = true) :
    o.failure? cx = none := by
  obtain ⟨x, hx⟩ := Option.isSome_iff_exists.1 h
  obtain ⟨w, hw, -⟩ := lower_of_plain hx 0
  rw [← o.failureAt_lower 0, failureAt, hw]

namespace Target.Direct

variable {l : Link} {later : List Link} {value : Expr} {t : Target Expr}

/-- The rest of the chain leaves alone what addresses the target. -/
theorem kept_chain (hdirect : t.Direct cx later value) (hlater : Nests cx value later) :
    ∀ o ∈ t.operands, o.KeptBy [chain later value] := by
  intro o ho x hx e he
  obtain rfl := List.mem_singleton.1 he
  obtain ⟨htargets, hvalue⟩ := hdirect.kept o (List.mem_append_left _ ho) x hx
  exact writes_chain hlater htargets hvalue

/-- Nothing can go wrong in an assignment to the target but in its value. -/
theorem failure? (hdirect : t.Direct cx later value)
    (htarget : l.target.target cx.metadata cx.enclosing = .ok t) {v : Expr}
    (hvalue : v.failure? cx = none) : (l.assign v).failure? cx = none := by
  obtain ⟨p, -, hplace⟩ := Expr.target_arranges htarget
  have hoperands : (t.operands ++ t.omitted).findSome? (Expr.failure? cx) = none :=
    List.findSome?_eq_none_iff.2 fun o ho => Expr.failure?_of_plain (hdirect.plain o ho)
  have hstore : t.storeFailure? cx.names = none := by
    obtain ⟨place, hnative⟩ := (Classified.of_ofPlace hplace).exists_native hdirect.native
      hdirect.index cx.names t.blank_fits.args
    rw [← failureOf_native_eq cx.names hdirect.native blank_fits, hnative, failureOf_ok]
  rw [Link.assign, Expr.failure?_assign]
  simp [htarget, Except.map, assignFailure?, AssignOp.binary?, hoperands, hvalue, hstore]

/-- An assignment to the target is one assignment in script, whether or not its value is
wanted, if the rest of the chain is lowered without statements. -/
theorem lowerAssignment {n : Nat} {w : Lowered}
    (hdirect : t.Direct cx later value)
    (htarget : l.target.target cx.metadata cx.enclosing = .ok t) (hlater : Nests cx value later)
    (hlower : (chain later value).lower cx n = .ok w n) (hstmts : w.stmts = []) (usage : Usage) :
    ∃ place, l.place cx = .ok place ∧
      AssignmentLowering.lowerAssignment cx usage ⟨l.target, .assign, chain later value⟩ l.span n =
        .ok { expr := .assign place w.expr, fresh := w.fresh, stable := false } n := by
  have hnone : failureAt (AssignmentLowering.lowerAssignment cx usage
      ⟨l.target, .assign, chain later value⟩ l.span) n = none := by
    rw [failureAt_lowerAssignment]
    refine hdirect.failure? htarget ?_
    rw [← Expr.failureAt_lower _ n, failureAt, hlower]
  cases hrun : AssignmentLowering.lowerAssignment cx usage
      ⟨l.target, .assign, chain later value⟩ l.span n with
  | error e m =>
    rw [failureAt, hrun] at hnone
    cases hnone
  | ok v m =>
    cases LowersAssign.of_lowerAssignment hrun with
    | @native _ _ _ place _ _ _ _ htarget' _ _ _ haddr hvalue hplace =>
      obtain rfl := Except.ok.inj (htarget.symm.trans htarget')
      obtain ⟨p, -, hofPlace⟩ := Expr.target_arranges htarget
      obtain ⟨haddress, rfl, rfl⟩ := haddr.of_plain (ofPlace_arranges hofPlace).2
        hdirect.plain (hdirect.kept_chain hlater)
      obtain ⟨w', hlower', rfl, rfl⟩ := hvalue.of_last
      obtain ⟨rfl, rfl⟩ := EStateM.Result.ok.inj (hlower.symm.trans hlower')
      rw [haddress] at hplace
      refine ⟨place, ?_, ?_⟩
      · rw [Link.place, htarget]
        exact hplace
      · rw [cx.copied_of_shared hdirect.shared, hstmts]
        rfl
    | readBack htarget' _ _ hshared =>
      obtain rfl := Except.ok.inj (htarget.symm.trans htarget')
      simp [hdirect.shared] at hshared
    | byCall htarget' _ hnative =>
      obtain rfl := Except.ok.inj (htarget.symm.trans htarget')
      exact absurd hdirect.native (by rw [hnative]; exact Bool.false_ne_true)
    | compoundNative _ hop => cases hop
    | compoundByCall _ hop => cases hop

end Target.Direct

section

variable {value : Expr} {n : Nat} {w : Lowered}

/-- A chain that nests is lowered without statements if its value is. -/
theorem lower_chain {links : List Link} (h : Nests cx value links)
    (hlower : value.lower cx n = .ok w n) (hstmts : w.stmts = []) :
    ∃ places v, links.mapM (Link.place cx) = .ok places ∧
      (chain links value).lower cx n = .ok v n ∧ v.stmts = [] ∧
      v.expr = places.foldr .assign w.expr := by
  induction h with
  | nil => exact ⟨[], w, rfl, hlower, hstmts, rfl⟩
  | @cons l later t htarget hdirect hlater ih =>
    obtain ⟨places, v, hplaces, hrest, hnil, hv⟩ := ih
    obtain ⟨place, hplace, hrun⟩ := hdirect.lowerAssignment htarget hlater hrest hnil .used
    have hlink : (chain (l :: later) value).lower cx n = _ :=
      (congrFun (Expr.lower_eq cx (l.assign (chain later value))) n).trans hrun
    refine ⟨place :: places, _, ?_, hlink, rfl, ?_⟩
    · simp [List.mapM_cons, hplace, hplaces, bind, Except.bind, pure, Except.pure]
    · simp [hv]

end

/-- **A chain of assignments comes out as it is written.** If no link of it needs a statement,
and neither does its value, then lowering it for its effects succeeds, takes no temporaries,
reports nothing, and yields one statement: the assignments nested as they are in the chain,
with the targets as they stand on the left of `=` and the value innermost. -/
theorem Session.assign_chain {l : Link} {later : List Link} {value : Expr} {s : Session}
    {w : Lowered} {n : Nat} (h : Nests cx value (l :: later))
    (hlower : value.lower cx s.temps = .ok w n) (hstmts : w.stmts = []) :
    ∃ places, (l :: later).mapM (Link.place cx) = .ok places ∧
      Session.assign cx .discarded ⟨l.target, .assign, chain later value⟩ l.span s =
        (⟨[.expr (places.foldr .assign w.expr)], none⟩, s) := by
  obtain rfl : n = s.temps := by
    have hcount := (LowersDeclaring.of_lower value hlower).count_eq
    rw [hcount, hstmts]
    rfl
  cases h with
  | cons htarget hdirect hlater =>
    obtain ⟨places, v, hplaces, hrest, hnil, hv⟩ := lower_chain hlater hlower hstmts
    obtain ⟨place, hplace, hrun⟩ := hdirect.lowerAssignment htarget hlater hrest hnil .discarded
    refine ⟨place :: places, ?_, ?_⟩
    · simp [List.mapM_cons, hplace, hplaces, bind, Except.bind, pure, Except.pure]
    · rw [Session.assign, hrun, hv]
      rfl

open Sample

/-- The links of `o.p = x = …`. -/
def memberAndLocal : List Link :=
  [⟨⟨.place (.dynamicMember (localVar "o") "p"), {}⟩, {}⟩, ⟨localVar "x", {}⟩]

/-- In `o.p = x = F()` the variable `o` is not assigned behind it, so it stays in place. -/
theorem Session.assign_chain_member :
    Nests (context .reference) (call "F" []) memberAndLocal ∧
      ∃ places, memberAndLocal.mapM (Link.place (context .reference)) = .ok places ∧
        Session.assign (context .reference) .discarded
            ⟨⟨.place (.dynamicMember (localVar "o") "p"), {}⟩, .assign,
              chain [⟨localVar "x", {}⟩] (call "F" [])⟩ {} {} =
          (⟨[.expr (places.foldr .assign (.callMethod .this "F" []))], none⟩, {}) := by
  have hx : Nests (context .reference) (call "F" []) [⟨localVar "x", {}⟩] := by
    refine .cons rfl ⟨rfl, by simp [Target.plain], rfl, by decide, fun o ho => ?_⟩ .nil
    cases ho
  have hall : Nests (context .reference) (call "F" []) memberAndLocal := by
    refine .cons rfl ⟨rfl, by simp, rfl, by decide, fun o ho l hl => ?_⟩ hx
    obtain rfl := List.mem_singleton.1 ho
    cases hl
    exact ⟨by decide, rfl⟩
  exact ⟨hall, Session.assign_chain hall rfl rfl⟩

end AssignmentLowering
