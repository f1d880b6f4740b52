import AssignmentLowering.Proofs.Effects.Conservation
import AssignmentLowering.Proofs.Script.Rename

/-!
# The arguments of an indexer

Whoever reads an indexer or assigns to it hands its arguments on: as the index of a
subscript, as arguments of a method, or to a template that may leave them out. Metadata may
also bind an indexer to a field. Then the access is that of a member, which has no place for
arguments: what is left of them is what they needed statements for.

## Main definitions

* `Script.Expr.indices` — what script that accesses something by indices hands on.
* `Target.HandsOn` — an access hands an argument on where its parameter is declared.
* `Expr.ValueIn` — the value of an expression, in place or in its temporary.
* `Access`, `Access.KeepsArguments` — reading or assigning, without loss of arguments.

## Main statements

* `Access.keepsArguments_iff` — arguments are lost exactly if the indexer is bound to a field.
-/

namespace AssignmentLowering

open Script (Stmt)

/-! ## What an access hands on -/

namespace Script.Expr

/-- What script that reads or writes something by indices hands on as these, and behind them
the value if it is an argument too: the index of a subscript, or the arguments of a call. -/
def indices : Expr → List Expr
  | .index _ i => [i]
  | .call (.member _ _) args => args
  | .call (.ident _) [.typeHandle _, .string _, .array [], .array (_ :: args)] => args
  | .assign target _ | .compoundAssign _ target _ => target.indices
  | _ => []

/-- The value that script stores: the right side of an assignment, or the last argument. -/
def stored? : Expr → Option Expr
  | .assign _ value => some value
  | e => e.indices.getLast?

@[simp] theorem indices_callMethod (object : Expr) (name : String) (args : List Expr) :
    (callMethod object name args).indices = args := by simp [callMethod, indices]

@[simp] theorem indices_callBase (names : RuntimeNames) (declaring : TypeRef) (name : String)
    (args : List Expr) : (callBase names declaring name args).indices = args := by
  simp [callBase, indices]

end Script.Expr

/-- The access hands `y` on as the argument that is declared at `d`. Text has it wherever the
template of the accessor names that parameter. -/
inductive Target.HandsOn (t : Target Expr) (d : Nat) (y : Script.Expr) : Script.Expr → Prop
  | operand {access : Script.Expr} (h : access.indices[d]? = some y) : HandsOn t d y access
  | text {template text : String} {operand? : String → Option Script.Expr}
      (haccessor : t.getter? = some (.inline template) ∨ t.setter? = some (.inline template))
      (htext : Template.substitute template t.span operand? = .ok text)
      (hoperand : ∀ name, name ≠ "this" → name ≠ "value" →
        Template.index? t.paramNames name = some d → operand? name = some y) :
      HandsOn t d y (.verbatim text)

namespace Target

variable {t : Target Expr} {names : RuntimeNames} {a : Address} {d : Nat}
  {y access value : Script.Expr}

/-- A member and an assignment to it have no place for arguments. -/
theorem not_handsOn (hindices : access.indices = []) (htext : ∀ text, access ≠ .verbatim text) :
    ¬t.HandsOn d y access := by
  rintro (h | _)
  · rw [hindices] at h
    cases h
  · exact htext _ rfl

/-- An argument of a subscript is the only one. -/
theorem handsOn_subscript (h : t.subscript a = .ok access) (hy : a.args[d]? = some y) :
    access.indices[d]? = some y := by
  unfold subscript at h
  split at h
  case h_1 i hi =>
    cases h
    rwa [Script.Expr.indices, ← hi]
  case h_2 => cases h

/-- An accessor is handed the arguments, and behind them the value. -/
theorem handsOn_useAccessor {accessor : Accessor} {value? : Option Script.Expr}
    (haccessor : t.getter? = some accessor ∨ t.setter? = some accessor)
    (h : t.useAccessor names a value? accessor = .ok access) (hy : a.args[d]? = some y) :
    t.HandsOn d y access := by
  have hd : d < a.args.length := (List.getElem?_eq_some_iff.1 hy).1
  cases accessor with
  | method name =>
    refine .operand ?_
    simp only [useAccessor] at h
    cases hdispatch : t.dispatch with
    | dynamic | bound =>
      simp only [hdispatch, Except.ok.injEq] at h
      subst h
      simpa [List.getElem?_append_left hd] using hy
  | inline template =>
    simp only [useAccessor] at h
    cases htext : Template.substitute template t.span (t.operand? a value?) with
    | error err => simp [htext, Except.map] at h
    | ok text =>
      simp only [htext, Except.map, Except.ok.injEq] at h
      subst h
      refine .text haccessor htext fun name hthis hvalue hindex => ?_
      simp [operand?, hthis, hvalue, hindex, hy]
  | subscript =>
    simp only [useAccessor] at h
    cases hplace : t.subscript a with
    | error err => simp [hplace, Except.map] at h
    | ok place =>
      simp only [hplace, Except.map, Except.ok.injEq] at h
      subst h
      have hindices := handsOn_subscript hplace hy
      cases value? <;> exact .operand hindices

variable (hkind : t.kind = .indexer) (hfield : ∀ name, t.storage ≠ .field name)

include hkind hfield

/-- An indexer that stands on the left of an assignment is a subscript. -/
theorem handsOn_native (h : t.native names a = .ok access) (hy : a.args[d]? = some y) :
    access.indices[d]? = some y := by
  unfold native at h
  rw [hkind] at h
  cases hstorage : t.storage with
  | field name => exact absurd hstorage (hfield name)
  | subscript => exact handsOn_subscript (by simpa [hstorage] using h) hy
  | direct | accessors => simp [hstorage] at h

theorem handsOn_load (h : t.load names a = .ok access) (hy : a.args[d]? = some y) :
    t.HandsOn d y access := by
  unfold load at h
  simp only [hkind] at h
  cases hg : t.getter? with
  | some getter => exact handsOn_useAccessor (.inl hg) (by simpa [hg] using h) hy
  | none => exact .operand (handsOn_native hkind hfield (by simpa [hg] using h) hy)

theorem handsOn_store (h : t.store names a value = .ok access) (hy : a.args[d]? = some y) :
    t.HandsOn d y access := by
  unfold store at h
  simp only [hkind] at h
  cases hs : t.setter? with
  | some setter => exact handsOn_useAccessor (.inr hs) (by simpa [hs] using h) hy
  | none =>
    cases hplace : t.native names a with
    | error err => simp [hs, hplace, Except.map] at h
    | ok place =>
      simp only [hs, hplace, Except.map, Except.ok.injEq] at h
      subst h
      have hindices := handsOn_native hkind hfield hplace hy
      exact .operand hindices

omit hfield

/-- Script that reads an indexer can not be evaluated again unnoticed. -/
theorem isReusable_load (h : t.load names a = .ok access) : access.isReusable = false := by
  unfold load at h
  simp only [hkind] at h
  cases hg : t.getter? with
  | some getter => exact isReusable_useAccessor (by simpa [hg] using h)
  | none => rw [isReusable_native (by simpa [hg] using h), isVariable, hkind]

/-- A store that is no text stores the value. -/
theorem stored?_store (h : t.store names a value = .ok access)
    (hinline : t.setterIsInline = false) : access.stored? = some value := by
  unfold store at h
  simp only [hkind] at h
  cases hs : t.setter? with
  | none =>
    cases hplace : t.native names a with
    | error err => simp [hs, hplace, Except.map] at h
    | ok place =>
      simp only [hs, hplace, Except.map, Except.ok.injEq] at h
      subst h
      rfl
  | some setter =>
    simp only [hs] at h
    cases setter with
    | inline template => simp [setterIsInline, hs, Accessor.isInline] at hinline
    | method name =>
      simp only [useAccessor] at h
      cases hdispatch : t.dispatch with
      | dynamic | bound =>
        simp only [hdispatch, Except.ok.injEq] at h
        subst h
        simp [Script.Expr.stored?, Script.Expr.callMethod, callBase, Script.Expr.indices]
    | subscript =>
      simp only [useAccessor] at h
      cases hplace : t.subscript a with
      | error err => simp [hplace, Except.map] at h
      | ok place =>
        simp only [hplace, Except.map, Except.ok.injEq] at h
        subst h
        rfl

end Target

/-! ## Values and the temporaries for them -/

/-- The expression `x` is `e`, or the variable that the statements declare for it. -/
def Script.Denotes (stmts : List Stmt) (e x : Script.Expr) : Prop :=
  x = e ∨ ∃ name, x = .ident name ∧ .declare name e ∈ stmts

variable {cx : Context}

/-- The expression `x` is what `e` is lowered to, or the temporary for it, and all that `e`
needs statements for is done in `stmts`. -/
def Expr.ValueIn (cx : Context) (stmts : List Stmt) (e : Expr) (x : Script.Expr) : Prop :=
  ∃ m b m', e.lower cx m = .ok b m' ∧ b.stmts <:+: stmts ∧ Script.Denotes stmts b.expr x

theorem Script.Denotes.mono {stmts stmts' : List Stmt} {e x : Script.Expr}
    (h : Denotes stmts e x) (hsub : stmts <:+: stmts') : Denotes stmts' e x :=
  h.imp id fun ⟨name, hx, hmem⟩ => ⟨name, hx, hsub.subset hmem⟩

theorem Expr.ValueIn.mono {stmts stmts' : List Stmt} {e : Expr} {x : Script.Expr}
    (h : e.ValueIn cx stmts x) (hsub : stmts <:+: stmts') : e.ValueIn cx stmts' x := by
  obtain ⟨m, b, m', hlower, hinfix, hdenotes⟩ := h
  exact ⟨m, b, m', hlower, hinfix.trans hsub, hdenotes.mono hsub⟩

theorem Held.denotes {e x : Script.Expr} {n n' : Nat} {flag : Bool} {stmts : List Stmt}
    (h : Held cx e n flag x stmts n') : Script.Denotes stmts e x := by
  cases h with
  | inline => exact .inl rfl
  | captured => exact .inr ⟨_, rfl, List.mem_singleton_self _⟩

theorem Taken.valueIn {c : Capture} {later : List Expr} {o : Expr} {n n' : Nat} {v : Value}
    {stmts : List Stmt} (h : Taken cx c later o n v stmts n') : o.ValueIn cx stmts v.expr := by
  cases h with
  | @intro w m _ e held hlower hheld =>
    exact ⟨n, w, m, hlower, (List.prefix_append ..).isInfix,
      hheld.denotes.mono (List.suffix_append ..).isInfix⟩

theorem TakenAll.valueIn {rest : List Expr} {items : List (Capture × Expr)} {n n' : Nat}
    {vs : List Value} {stmts : List Stmt} (h : TakenAll cx rest items n vs stmts n') {j : Nat}
    {o : Expr} {v : Value} (ho : (items.map (·.2))[j]? = some o) (hv : vs[j]? = some v) :
    o.ValueIn cx stmts v.expr := by
  induction h generalizing j with
  | nil => cases ho
  | cons hhead _ ih =>
    cases j with
    | zero =>
      cases ho
      cases hv
      exact hhead.valueIn.mono (List.prefix_append ..).isInfix
    | succ j => exact (ih ho hv).mono (List.suffix_append ..).isInfix

/-- A written argument, in declared order, is the value at its position in the text. -/
theorem Filled.getElem? {reuse : Bool} {vs : List Value} {args : List (IndexArg Expr)}
    {n n' : Nat} {xs : List IndexValue} {stmts : List Stmt}
    (h : Filled cx reuse vs args n xs stmts n') {d i : Nat} {arg : IndexArg Expr}
    (harg : args[d]? = some arg) (hi : arg.position = some i) :
    ∃ v, vs[i]? = some v ∧ xs[d]? = some ⟨v.expr, arg.ty, v.fresh⟩ := by
  induction h generalizing d with
  | nil => cases harg
  | written hposition hvalue _ ih =>
    cases d with
    | zero =>
      cases harg
      cases hposition.symm.trans hi
      exact ⟨_, hvalue, rfl⟩
    | succ d => exact ih harg
  | omitted hposition _ _ ih =>
    cases d with
    | zero =>
      cases harg
      cases hposition.symm.trans hi
    | succ d => exact ih harg

/-- Each written argument of a target has its value where its parameter is declared. -/
theorem Addressed.exists_arg {reuse : Bool} {rest : List Expr} {t : Target Expr} {n n' : Nat}
    {a : LoweredAddress} {stmts : List Stmt} {indices : List Expr} (ht : Arranges t.args indices)
    (h : Addressed cx reuse rest t n a stmts n') {i : Nat} {e : Expr}
    (he : indices[i]? = some e) :
    ∃ (d : Nat) (ty : TypeRef) (x : IndexValue), t.args[d]? = some ⟨e, ty, some i⟩ ∧
      a.args[d]? = some x ∧ e.ValueIn cx stmts x.expr := by
  obtain ⟨d, ⟨value, ty, position⟩, harg, hposition⟩ :=
    ht.exists_position (List.getElem?_eq_some_iff.1 he).1
  obtain rfl : position = some i := hposition
  have hvalue := ht.value_eq _ (List.mem_of_getElem? harg) i rfl
  obtain rfl : e = value := by simpa [he] using hvalue
  cases h with
  | @intro objects vs xs stmts₁ stmts₂ m _ htaken hobjects hfilled =>
    obtain ⟨v, hv, hx⟩ := hfilled.getElem? harg rfl
    have hoperand : ((t.captures cx.metadata reuse).map (·.2))[objects.length + i]? = some e := by
      rw [Target.map_snd_captures, Target.operands, Target.map_snd_callSite ht, hobjects,
        List.getElem?_append_right (Nat.le_add_right ..), Nat.add_sub_cancel_left, he]
    have hheld : (objects ++ vs)[objects.length + i]? = some v := by
      rw [List.getElem?_append_right (Nat.le_add_right ..), Nat.add_sub_cancel_left, hv]
    exact ⟨d, ty, _, harg, hx,
      (htaken.valueIn hoperand hheld).mono (List.prefix_append ..).isInfix⟩

/-- An accessor is passed the arguments, or copies of them. -/
theorem LoweredAddress.exists_passed {a : LoweredAddress} (accessor : Option Accessor)
    (uses : Nat) {d : Nat} {x : IndexValue} (hx : a.args[d]? = some x) :
    ∃ y, (a.passed cx accessor uses).args[d]? = some y ∧
      (y = x.expr ∨ ∃ tag, y = clone cx.names x.expr tag) := by
  obtain ⟨f, hf, hcopy⟩ := LoweredAddress.exists_args_passed a accessor uses
  exact ⟨f x, by simp [hf, hx], hcopy x⟩

/-! ## Accesses -/

/-- Reading a place, or an assignment to one. -/
inductive Access where
  | read (p : Place Expr) (span : Span)
  | write (usage : Usage) (a : Assignment Expr) (span : Span)

namespace Access

def expr : Access → Expr
  | read p span => ⟨.place p, span⟩
  | write _ a span => ⟨.assign a, span⟩

def place? : Access → Option (Place Expr)
  | read p _ => some p
  | write _ a _ => a.target.place?

def target (cx : Context) : Access → Except LoweringError (Target Expr)
  | read p span => Target.ofPlace cx.metadata cx.enclosing Expr.ty span p
  | write _ a _ => a.target.target cx.metadata cx.enclosing

def lower (cx : Context) : Access → LowerM Lowered
  | read p span => Expr.lower cx ⟨.place p, span⟩
  | write usage a span => lowerAssignment cx usage a span

/-- The events of an access, those of its target's operands aside. -/
def ownEvents (cx : Context) (t : Target Expr) : Access → List (Event TypeRef)
  | read _ _ => t.readEvents
  | write _ a _ => storeEvents cx.names a.op t (a.value.events cx)

/-- The operator that combines the old value with another, if there is one. -/
def op? : Access → Option BinaryOp
  | read _ _ => none
  | write _ a _ => a.op.binary?

end Access

namespace Lowered

/-- The script that does the access: the last statement where the expression behind it only
mentions the value, and else the expression. -/
def access (w : Lowered) : Script.Expr :=
  match w.stmts.getLast? with
  | some s => if w.expr.isReusable then s.value else w.expr
  | none => w.expr

/-- The operator is applied to `load`, or to the variable for it, and its value is declared or
stored. -/
def Combines (op : BinaryOp) (load : Script.Expr) (w : Lowered) : Prop :=
  ∃ old right, Script.Denotes w.stmts load old ∧
    ((∃ name, .declare name (.binary op old right) ∈ w.stmts) ∨
      w.access.stored? = some (.binary op old right))

theorem access_eq_expr {w : Lowered} (h : w.expr.isReusable = false) : w.access = w.expr := by
  unfold access
  cases w.stmts.getLast? <;> simp [h]

end Lowered

/-- Every written argument is handed on where its parameter is declared: its value, or the
temporary for it, maybe as a copy. -/
def HandsAll (cx : Context) (p : Place Expr) (t : Target Expr) (stmts : List Stmt)
    (access : Script.Expr) : Prop :=
  ∀ i e, p.indices[i]? = some e →
    ∃ d ty x y, t.args[d]? = some ⟨e, ty, some i⟩ ∧ e.ValueIn cx stmts x ∧
      (y = x ∨ ∃ tag, y = clone cx.names x tag) ∧ t.HandsOn d y access

/-- No argument of the access is lost. -/
structure Access.KeepsArguments (cx : Context) (access : Access) (p : Place Expr)
    (t : Target Expr) (w : Lowered) : Prop where
  /-- All events of the operands, the arguments among them, happen once. -/
  once : t.Retains cx (access.ownEvents cx t)
    (Script.events cx.names w.stmts ++ w.expr.events cx.names)
  /-- The arguments are handed on to what reads or writes. -/
  handsAll : HandsAll cx p t w.stmts w.access
  /-- Where one call reads the old value and another writes, both are handed them. -/
  old : ∀ op, access.op? = some op → t.isNative = false →
    ∃ load, w.Combines op load ∧ HandsAll cx p t w.stmts load

/-! ## Indexers -/

section

variable {p : Place Expr} {span : Span} {t : Target Expr} {usage : Usage} {a : Assignment Expr}
  {n n' : Nat} {w : Lowered}

theorem Usage.access_finish {usage : Usage} {store : Script.Expr} {result : Value}
    {stmts : List Stmt} (hstore : store.isReusable = false)
    (hresult : usage = .used → result.expr.isReusable = true) :
    (usage.finish store result stmts).access = store := by
  cases usage with
  | used => simp [Usage.finish, Lowered.access, hresult rfl, Stmt.value]
  | discarded => exact Lowered.access_eq_expr hstore

theorem Usage.infix_finish (usage : Usage) (store : Script.Expr) (result : Value)
    (stmts : List Stmt) : stmts <:+: (usage.finish store result stmts).stmts := by
  cases usage with
  | used => exact (List.prefix_append ..).isInfix
  | discarded => exact List.infix_refl _

theorem HandsAll.mono {stmts stmts' : List Stmt} {access : Script.Expr}
    (h : HandsAll cx p t stmts access) (hsub : stmts <:+: stmts') :
    HandsAll cx p t stmts' access := by
  intro i e he
  obtain ⟨d, ty, x, y, harg, hvalue, hy, hands⟩ := h i e he
  exact ⟨d, ty, x, y, harg, hvalue.mono hsub, hy, hands⟩

variable {reuse : Bool} {rest : List Expr} {addr : LoweredAddress} {stmts : List Stmt}
  {access : Script.Expr}

/-- What is handed the operands of a target hands its arguments on. -/
theorem Addressed.handsAll (ht : Arranges t.args p.indices)
    (haddr : Addressed cx reuse rest t n addr stmts n') (accessor : Option Accessor) (uses : Nat)
    (hands : ∀ {d y}, (addr.passed cx accessor uses).args[d]? = some y → t.HandsOn d y access) :
    HandsAll cx p t stmts access := by
  intro i e he
  obtain ⟨d, ty, x, harg, hx, hvalue⟩ := haddr.exists_arg ht he
  obtain ⟨y, hy, hcopy⟩ := LoweredAddress.exists_passed accessor uses hx
  exact ⟨d, ty, x.expr, y, harg, hvalue, hcopy, hands hy⟩

variable (ht : Arranges t.args p.indices) (hkind : t.kind = .indexer)
  (hfield : ∀ name, t.storage ≠ .field name)

include ht hkind hfield

/-- What reading an indexer is lowered to hands the arguments on. -/
theorem Lowers.handsAll (htarget : Target.ofPlace cx.metadata cx.enclosing Expr.ty span p = .ok t)
    (h : Lowers cx ⟨.place p, span⟩ n w n') : HandsAll cx p t w.stmts w.access := by
  cases h with
  | this =>
    cases Classified.of_ofPlace htarget
    cases hkind
  | load _ htarget' haddr hload =>
    cases htarget.symm.trans htarget'
    rw [Lowered.access_eq_expr (Target.isReusable_load hkind hload)]
    exact haddr.handsAll ht _ 1 fun hy => Target.handsOn_load hkind hfield hload hy

/-- What an assignment to an indexer is lowered to hands the arguments on. -/
theorem LowersAssign.handsAll (htarget : a.target.target cx.metadata cx.enclosing = .ok t)
    (h : LowersAssign cx usage a n w n') : HandsAll cx p t w.stmts w.access := by
  have hnative : ∀ {reuse : Bool} {addr : LoweredAddress} {stmts : List Stmt} {n₁ : Nat}
      {place : Script.Expr}, Addressed cx reuse [a.value] t n addr stmts n₁ →
      t.native cx.names addr.address = .ok place → stmts <:+: w.stmts →
      w.expr.isReusable = false → w.expr.indices = place.indices →
      HandsAll cx p t w.stmts w.access := by
    intro reuse addr stmts n₁ place haddr hplace hsub hreusable hindices
    rw [Lowered.access_eq_expr hreusable]
    refine (haddr.handsAll ht none 1 fun hy => .operand ?_).mono hsub
    rw [hindices]
    exact Target.handsOn_native hkind hfield hplace hy
  cases h with
  | native htarget' _ _ _ haddr _ hplace =>
    cases htarget.symm.trans htarget'
    exact hnative haddr hplace (List.prefix_append ..).isInfix rfl rfl
  | readBack htarget' _ _ _ haddr _ hplace =>
    cases htarget.symm.trans htarget'
    refine hnative haddr hplace ?_ ?_ rfl
    · rw [List.append_assoc]
      exact (List.prefix_append ..).isInfix
    · rw [Target.isReusable_native hplace, Target.isVariable, hkind]
  | compoundNative htarget' _ _ haddr _ hplace =>
    cases htarget.symm.trans htarget'
    exact hnative haddr hplace (List.prefix_append ..).isInfix rfl rfl
  | byCall htarget' _ _ haddr htaken hstore =>
    cases htarget.symm.trans htarget'
    have hreceiver : t.isReceiver = false := by simp [Target.isReceiver, hkind]
    rw [Usage.access_finish (Target.isReusable_store hstore) ?_]
    · exact ((haddr.handsAll ht _ 1 fun hy => Target.handsOn_store hkind hfield hstore hy).mono
        (List.prefix_append ..).isInfix).mono (Usage.infix_finish ..)
    · rintro rfl
      rw [hreceiver]
      exact htaken.isReusable (by simp [hreceiver, Usage.isUsed])
  | compoundByCall htarget' _ _ _ haddr _ _ _ hnew hstore =>
    cases htarget.symm.trans htarget'
    rw [Usage.access_finish (Target.isReusable_store hstore) ?_]
    · refine ((haddr.handsAll ht _ 2 fun hy =>
        Target.handsOn_store hkind hfield hstore hy).mono ?_).mono (Usage.infix_finish ..)
      simp only [List.append_assoc]
      exact (List.prefix_append ..).isInfix
    · rintro rfl
      cases hnew
      rfl

/-- Where one call reads and another writes, the first is handed the arguments too. -/
theorem LowersAssign.handsAll_old (htarget : a.target.target cx.metadata cx.enclosing = .ok t)
    {op : BinaryOp} (hop : a.op.binary? = some op) (hnative : t.isNative = false)
    (h : LowersAssign cx usage a n w n') :
    ∃ load, w.Combines op load ∧ HandsAll cx p t w.stmts load := by
  cases h with
  | native _ hop' | readBack _ hop' | byCall _ hop' => cases hop.symm.trans hop'
  | compoundNative htarget' _ hnative' =>
    cases htarget.symm.trans htarget'
    cases hnative.symm.trans hnative'
  | @compoundByCall _ _ _ v load old new store stmts stmts₁ stmts₂ stmts₃ _ _ n₃ _ htarget' hop' _ _
      haddr hload hold _ hnew hstore =>
    cases htarget.symm.trans htarget'
    cases hop.symm.trans hop'
    have hsub : stmts ++ stmts₁ ++ stmts₂ ++ stmts₃ <:+:
        (usage.finish store ⟨new, false, true⟩ (stmts ++ stmts₁ ++ stmts₂ ++ stmts₃)).stmts :=
      Usage.infix_finish ..
    refine ⟨load, ⟨old, v.expr, hold.denotes.mono (List.IsInfix.trans ⟨stmts, stmts₂ ++ stmts₃, ?_⟩
      hsub), ?_⟩, (haddr.handsAll ht _ 2 fun hy =>
        Target.handsOn_load hkind hfield hload hy).mono (List.IsInfix.trans
          ⟨[], stmts₁ ++ stmts₂ ++ stmts₃, ?_⟩ hsub)⟩
    · simp
    · cases hheld : usage.isUsed || t.setterIsInline with
      | true =>
        rw [hheld] at hnew
        cases hnew
        exact .inl ⟨cx.temp (n₃ + 1), hsub.subset (by simp)⟩
      | false =>
        rw [hheld] at hnew
        cases hnew
        rw [Bool.or_eq_false_iff] at hheld
        have hstored := Target.stored?_store hkind hstore hheld.2
        right
        rw [Usage.access_finish (Target.isReusable_store hstore)
          (fun hu => by simp [hu, Usage.isUsed] at hheld), hstored]
        simp [Context.copied, copied, CopySemantics.cloneTag?, hheld.1]
    · simp

omit ht hfield

/-- Where the indexer is bound to a field, reading it is reading a member. -/
theorem Lowers.not_handsOn
    (htarget : Target.ofPlace cx.metadata cx.enclosing Expr.ty span p = .ok t) {name : String}
    (hname : t.storage = .field name) (h : Lowers cx ⟨.place p, span⟩ n w n')
    {d : Nat} {y : Script.Expr} : ¬t.HandsOn d y w.access := by
  cases h with
  | this =>
    cases Classified.of_ofPlace htarget
    cases hkind
  | @load _ _ _ _ _ addr load _ _ htarget' haddr hload =>
    cases htarget.symm.trans htarget'
    have hgetter : t.getter? = none := by simp [Target.getter?, hname, Storage.getter?]
    have hmember : Script.Expr.member (t.object addr.address) name = load := by
      simpa [Target.load, hkind, hgetter, Target.native, hname, LoweredAddress.passed] using hload
    rw [Lowered.access_eq_expr (Target.isReusable_load hkind hload), ← hmember]
    exact Target.not_handsOn rfl (by simp)

/-- Where the indexer is bound to a field, a member is assigned. -/
theorem LowersAssign.not_handsOn (htarget : a.target.target cx.metadata cx.enclosing = .ok t)
    {name : String} (hname : t.storage = .field name) (h : LowersAssign cx usage a n w n')
    {d : Nat} {y : Script.Expr} : ¬t.HandsOn d y w.access := by
  have hmember : ∀ {addr : LoweredAddress} {place : Script.Expr},
      t.native cx.names addr.address = .ok place →
        place = .member (t.object addr.address) name := by
    intro addr place hplace
    simpa [Target.native, hkind, hname, eq_comm] using hplace
  have hnative : t.isNative = true := by simp [Target.isNative, hkind, hname]
  cases h with
  | native htarget' _ _ _ _ _ hplace =>
    cases htarget.symm.trans htarget'
    obtain rfl := hmember hplace
    rw [Lowered.access_eq_expr rfl]
    exact Target.not_handsOn rfl (by simp)
  | readBack htarget' _ _ _ _ _ hplace =>
    cases htarget.symm.trans htarget'
    obtain rfl := hmember hplace
    rw [Lowered.access_eq_expr rfl]
    exact Target.not_handsOn rfl (by simp)
  | compoundNative htarget' _ _ _ _ hplace =>
    cases htarget.symm.trans htarget'
    obtain rfl := hmember hplace
    rw [Lowered.access_eq_expr rfl]
    exact Target.not_handsOn rfl (by simp)
  | byCall htarget' _ hnative' | compoundByCall htarget' _ hnative' =>
    cases htarget.symm.trans htarget'
    cases hnative.symm.trans hnative'

end

/-- What metadata binds an indexer to is what its target is stored as. -/
theorem Classified.indexer {md : Metadata} {span : Span} {r : Receiver Expr}
    {target : IndexerTarget Expr} {written : List (Argument Expr)} {ty : TypeRef} {t : Target Expr}
    (h : Classified md Expr.ty span (.indexer r target written ty) t) :
    t.kind = .indexer ∧ ((∃ name, t.storage = .field name) ↔
      (Place.indexer r target written ty).isFieldIndexer md = true) := by
  have hbinding : ∀ {q : Property} {storage : Storage}, (md.property q).storage? = some storage →
      ((∃ name, storage = .field name) ↔ (md.binding q).isField = true) := by
    intro q storage hstorage
    unfold PropertyBinding.storage? at hstorage
    change _ ↔ (md.property q).normalized.isField = true
    cases hn : (md.property q).normalized <;>
      simp [hn] at hstorage <;> simp [← hstorage, PropertyBinding.isField]
  cases h with
  | resolved hstorage _ | candidates hstorage =>
    have hiff := hbinding hstorage
    cases r <;> exact ⟨rfl, by simpa [Place.isFieldIndexer, Target.through] using hiff⟩

section

variable {access : Access} {r : Receiver Expr} {target : IndexerTarget Expr}
  {written : List (Argument Expr)} {ty : TypeRef} {n n' : Nat} {w : Lowered}

/-- What lowering an access of an indexer comes to, by how the indexer is stored. -/
theorem Access.of_lower (hnames : cx.names.Separated) {p : Place Expr}
    (hindexer : p = .indexer r target written ty) (hplace : access.place? = some p)
    (hparts : ∀ e ∈ access.expr.parts, Conserves cx e) (h : access.lower cx n = .ok w n') :
    ∃ t span, access.target cx = .ok t ∧
      Target.ofPlace cx.metadata cx.enclosing Expr.ty span p = .ok t ∧
      (t.HasRoom ∨ t.callSite = [] → t.Retains cx (access.ownEvents cx t)
        (Script.events cx.names w.stmts ++ w.expr.events cx.names)) ∧
      ((∀ name, t.storage ≠ .field name) → HandsAll cx p t w.stmts w.access ∧
        ∀ op, access.op? = some op → t.isNative = false →
          ∃ load, w.Combines op load ∧ HandsAll cx p t w.stmts load) ∧
      (∀ name, t.storage = .field name → ∀ d y, ¬t.HandsOn d y w.access) := by
  have hkind : ∀ {t : Target Expr} {span : Span},
      Target.ofPlace cx.metadata cx.enclosing Expr.ty span p = .ok t → t.kind = .indexer := by
    rintro t span ht
    subst hindexer
    exact (Classified.of_ofPlace ht).indexer.1
  cases access with
  | read p' span =>
    obtain rfl : p' = p := by simpa [place?] using hplace
    have hlowers := Lowers.of_lower h
    have hthis : ∀ ty, p' ≠ .this ty := by simp [hindexer]
    obtain ⟨t, ht⟩ : ∃ t, Target.ofPlace cx.metadata cx.enclosing Expr.ty span p' = .ok t := by
      cases hlowers with
      | this => exact absurd rfl (hthis _)
      | load _ htarget => exact ⟨_, htarget⟩
    have harr := (Target.ofPlace_arranges ht).2
    exact ⟨t, span, ht, ht,
      fun hroom => hlowers.retains hnames hthis ht (.of_ofPlace ht hparts) hroom,
      fun hfield => ⟨hlowers.handsAll harr (hkind ht) hfield ht, fun op hop => nomatch hop⟩,
      fun name hname d y => hlowers.not_handsOn (hkind ht) ht hname⟩
  | write usage a span =>
    have hlowers := LowersAssign.of_lowerAssignment h
    obtain ⟨t, htarget⟩ := hlowers.exists_target
    obtain ⟨p', hp, ht⟩ := Expr.target_arranges htarget
    obtain rfl : p' = p := Option.some.inj ((Expr.place?_of_place hp).symm.trans hplace)
    have harr := (Target.ofPlace_arranges ht).2
    have hconserving : t.Conserving cx := .of_ofPlace ht fun e he =>
      hparts e (Expr.place_mem_parts hplace span he)
    have hvalue : Conserves cx a.value := hparts _ (Expr.value_mem_parts a span)
    exact ⟨t, a.target.span, htarget, ht,
      fun hroom => hlowers.retains hnames hvalue htarget hconserving hroom,
      fun hfield => ⟨hlowers.handsAll harr (hkind ht) hfield htarget,
        fun op hop hnative => hlowers.handsAll_old harr (hkind ht) hfield htarget hop hnative⟩,
      fun name hname d y => hlowers.not_handsOn (hkind ht) htarget hname⟩

/-- **When an access of an indexer keeps its arguments.** Let an indexer be read, or assigned
to by plain or compound assignment, with its value wanted or not, chosen when the program is
compiled or run, and bound to script in whatever way; and let no indexer that is accessed to
evaluate the operands be bound to a field. If the access can be lowered, then all events of its
operands happen once and every written argument is handed on, if and only if the indexer is
not bound to a field or no argument is written. -/
theorem Access.keepsArguments_iff (hnames : cx.names.Separated)
    (hplace : access.place? = some (.indexer r target written ty))
    (hroom : ∀ e ∈ access.expr.parts, e.Everywhere (·.hasRoom cx.metadata = true))
    (h : access.lower cx n = .ok w n') :
    ∃ t, access.target cx = .ok t ∧
      (access.KeepsArguments cx (.indexer r target written ty) t w ↔
        (Place.indexer r target written ty).isFieldIndexer cx.metadata = false ∨
          written = []) := by
  obtain ⟨t, span, htarget, ht, hretains, hhands, hlost⟩ := of_lower hnames rfl hplace
    (fun e he => Conserves.of_everywhere hnames e (hroom e he)) h
  have hclassified := Classified.of_ofPlace ht
  obtain ⟨-, hfield⟩ := hclassified.indexer
  have harr : Arranges t.args (written.map (·.value)) := (Target.ofPlace_arranges ht).2
  refine ⟨t, htarget, fun hkeeps => ?_, fun hcases => ?_⟩
  · -- A first argument would be handed on, for which a member has no place.
    by_contra hnot
    rw [not_or, Bool.not_eq_false, ← hfield] at hnot
    obtain ⟨⟨name, hname⟩, hwritten⟩ := hnot
    obtain ⟨first, rest, rfl⟩ := List.exists_cons_of_ne_nil hwritten
    obtain ⟨d, _, _, y, -, -, -, hands⟩ := hkeeps.handsAll 0 first.value rfl
    exact hlost name hname d y hands
  · have hstored : t.HasRoom ∨ t.callSite = [] := by
      refine hcases.imp (fun hfree name hname => hclassified.args_eq_nil hfree hname)
        fun hnone => ?_
      subst hnone
      simpa using Target.map_snd_callSite harr
    by_cases hname : ∃ name, t.storage = .field name
    · -- There is no argument to be handed on.
      have hnone : written = [] := by
        obtain hfree | hnone := hcases
        · rw [hfield.1 hname] at hfree
          cases hfree
        · exact hnone
      subst hnone
      obtain ⟨name, hname⟩ := hname
      refine ⟨hretains hstored, fun i e he => (by cases he), fun op _ hnative => ?_⟩
      simp [Target.isNative, hclassified.indexer.1, hname] at hnative
    · obtain ⟨hall, hold⟩ := hhands (not_exists.1 hname)
      exact ⟨hretains hstored, hall, hold⟩

end

namespace Sample

/-- `this[F()]`, an indexer that is run by two methods. -/
def indexed : Place Expr :=
  .indexer (.object this)
    (.resolved { name := "Item", owner := ty, ty, params := [⟨"index", ty⟩] } [none])
    [{ value := call "F" [] }] ty

/-- `this[F()] += G()`, with its value wanted. -/
def indexedSum : Access := .write .used ⟨⟨.place indexed, {}⟩, .addAssign, call "G" []⟩ {}

end Sample

open Sample in
theorem Access.keepsArguments_iff_indexed : ∃ w t,
    indexedSum.lower (context .reference) 0 = .ok w 3 ∧
      indexedSum.target (context .reference) = .ok t ∧
      indexedSum.KeepsArguments (context .reference) indexed t w := by
  obtain ⟨w, hw⟩ : ∃ w, indexedSum.lower (context .reference) 0 = .ok w 3 := ⟨_, rfl⟩
  have hroom : ∀ e ∈ indexedSum.expr.parts,
      e.Everywhere (·.hasRoom (context .reference).metadata = true) := by
    have hcall : ∀ name, (call name []).Everywhere
        (·.hasRoom (context .reference).metadata = true) :=
      fun name => everywhere_call rfl rfl (by simp)
    have hparts : indexedSum.expr.parts = [this, call "F" [], call "G" []] := rfl
    have hthis : this.Everywhere (·.hasRoom (context .reference).metadata = true) :=
      everywhere_this rfl
    rw [hparts]
    simp [hthis, hcall]
  obtain ⟨t, ht, hiff⟩ := Access.keepsArguments_iff (by decide) rfl hroom hw
  exact ⟨w, t, hw, ht, hiff.2 (.inl rfl)⟩

end AssignmentLowering
