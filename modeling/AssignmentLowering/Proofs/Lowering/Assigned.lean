import AssignmentLowering.Proofs.Expr.Annotate
import AssignmentLowering.Proofs.Lowering.Forms

/-!
# Which identifiers are assigned

The output assigns to identifiers only where a local variable of the program is the
target of an assignment. All other targets are members, elements and calls, and a
temporary gets its value where it is declared.

## Main definitions

* `Script.Expr.assigned` — the identifiers that an expression assigns to.
* `AssignsOnly` — statements and expressions that assign only to certain identifiers.
* `Expr.localIs` — the local variable that an expression is.

## Main statements

* `LowersAssigning.of_everywhere` — lowering assigns only to the program's variables.
-/

namespace AssignmentLowering

open Script (Stmt)

namespace Script

/-- The identifier that an expression is, if it is one. -/
def Expr.identifier? : Expr → Option String
  | .ident name => some name
  | _ => none

mutual

/-- The identifiers that an expression assigns to. Text made from a template is opaque and
assigns to nothing. -/
def Expr.assigned : Expr → List String
  | .null | .bool _ | .number _ | .string _ | .ident _ | .this | .typeHandle _
  | .verbatim _ => []
  | .member object _ => object.assigned
  | .index object i => object.assigned ++ i.assigned
  | .call callee args => callee.assigned ++ Expr.allAssigned args
  | .array items => Expr.allAssigned items
  | .assign target value | .compoundAssign _ target value =>
    target.identifier?.toList ++ target.assigned ++ value.assigned
  | .binary _ left right => left.assigned ++ right.assigned

def Expr.allAssigned : List Expr → List String
  | [] => []
  | e :: rest => e.assigned ++ Expr.allAssigned rest

end

/-- The identifiers that statements assign to. -/
def assigned (stmts : List Stmt) : List String := stmts.flatMap fun s => s.value.assigned

/-- An expression that assigns only to identifiers of `p`. -/
def Expr.AssignsOnly (p : String → Prop) (e : Expr) : Prop := ∀ x ∈ e.assigned, p x

variable {p : String → Prop}

@[simp] theorem Expr.allAssigned_eq (es : List Expr) :
    Expr.allAssigned es = es.flatMap Expr.assigned := by
  induction es with
  | nil => rfl
  | cons e es ih => simp [Expr.allAssigned, ih]

namespace Expr.AssignsOnly

attribute [local simp] assigned

theorem of_isReusable {e : Expr} (h : e.isReusable = true) : e.AssignsOnly p := by
  cases e with
  | member | index | call | array | assign | compoundAssign | binary | verbatim => cases h
  | _ => simp [AssignsOnly]

@[simp] theorem ident (name : String) : (Expr.ident name).AssignsOnly p := of_isReusable rfl

@[simp] theorem this : Expr.this.AssignsOnly p := of_isReusable rfl

@[simp] theorem typeHandle (name : String) : (Expr.typeHandle name).AssignsOnly p :=
  of_isReusable rfl

@[simp] theorem verbatim (text : String) : (Expr.verbatim text).AssignsOnly p := by
  simp [AssignsOnly]

@[simp] theorem member_iff {o : Expr} {name : String} :
    (Expr.member o name).AssignsOnly p ↔ o.AssignsOnly p := by
  simp [AssignsOnly]

@[simp] theorem index_iff {o i : Expr} :
    (Expr.index o i).AssignsOnly p ↔ o.AssignsOnly p ∧ i.AssignsOnly p := by
  simp [AssignsOnly, or_imp, forall_and]

@[simp] theorem call_iff {c : Expr} {args : List Expr} :
    (Expr.call c args).AssignsOnly p ↔ c.AssignsOnly p ∧ ∀ e ∈ args, e.AssignsOnly p := by
  simp only [AssignsOnly, assigned, allAssigned_eq, List.mem_append, List.mem_flatMap, or_imp,
    forall_and, forall_exists_index, and_imp]
  exact and_congr_right fun _ => ⟨fun h e he x hx => h x e he hx, fun h x e he hx => h e he x hx⟩

@[simp] theorem binary_iff {op : BinaryOp} {l r : Expr} :
    (Expr.binary op l r).AssignsOnly p ↔ l.AssignsOnly p ∧ r.AssignsOnly p := by
  simp [AssignsOnly, or_imp, forall_and]

@[simp] theorem assign_iff {t v : Expr} :
    (Expr.assign t v).AssignsOnly p ↔
      (∀ x ∈ t.identifier?, p x) ∧ t.AssignsOnly p ∧ v.AssignsOnly p := by
  simp [AssignsOnly, or_imp, forall_and]

@[simp] theorem compoundAssign_iff {op : BinaryOp} {t v : Expr} :
    (Expr.compoundAssign op t v).AssignsOnly p ↔
      (∀ x ∈ t.identifier?, p x) ∧ t.AssignsOnly p ∧ v.AssignsOnly p := by
  simp [AssignsOnly, or_imp, forall_and]

@[simp] theorem copied_iff {names : RuntimeNames} {s : CopySemantics} {fresh : Bool}
    {uses : Nat} {e : Expr} :
    (copied names s fresh uses e).AssignsOnly p ↔ e.AssignsOnly p := by
  unfold copied
  cases s.cloneTag? fresh uses <;> simp [clone]

theorem callBase {names : RuntimeNames} {declaring : TypeRef} {name : String} {args : List Expr}
    (hargs : ∀ e ∈ args, e.AssignsOnly p) :
    (AssignmentLowering.callBase names declaring name args).AssignsOnly p := by
  rw [AssignmentLowering.callBase, call_iff]
  refine ⟨ident _, ?_⟩
  simpa [AssignsOnly, or_imp, forall_and] using fun x e he hx => hargs e he x hx

end Expr.AssignsOnly
end Script

/-- Operands that assign only to identifiers of `p`. -/
def Address.AssignsOnly (p : String → Prop) (a : Address) : Prop :=
  ∀ e ∈ a.object.toList ++ a.args, e.AssignsOnly p

namespace Target

variable {ε : Type} {names : RuntimeNames} {t : Target ε} {a : Address} {p : String → Prop}
  (ha : a.AssignsOnly p)

include ha

theorem assignsOnly_object : (t.object a).AssignsOnly p := by
  unfold object
  cases hobject : a.object with
  | some e => exact ha e (by simp [hobject])
  | none => cases t.staticOwner <;> simp

theorem assignsOnly_subscript {place : Script.Expr} (h : t.subscript a = .ok place) :
    place.identifier? = none ∧ place.AssignsOnly p := by
  unfold subscript at h
  split at h
  case h_1 i hi =>
    cases h
    exact ⟨rfl, Script.Expr.AssignsOnly.index_iff.2
      ⟨assignsOnly_object ha, ha i (by simp [hi])⟩⟩
  case h_2 => cases h

/-- A target that is an identifier in script is a local variable. -/
theorem native_assignsOnly {place : Script.Expr} (h : t.native names a = .ok place) :
    (∀ x ∈ place.identifier?, t.kind = .localVar x) ∧ place.AssignsOnly p := by
  unfold native at h
  split at h
  case h_1 _ name hkind =>
    cases h
    exact ⟨fun x hx => by cases hx; exact hkind, .ident name⟩
  case h_2 =>
    cases h
    exact ⟨by simp [Script.Expr.identifier?], by simp⟩
  case h_3 | h_4 =>
    cases h
    exact ⟨by simp [Script.Expr.identifier?], by simpa using assignsOnly_object ha⟩
  case h_8 => cases h
  all_goals
    obtain ⟨hnone, hplace⟩ := assignsOnly_subscript ha h
    exact ⟨by simp [hnone], hplace⟩

theorem assignsOnly_native (hlocal : ∀ x, t.kind = .localVar x → p x) {place : Script.Expr}
    (h : t.native names a = .ok place) :
    (∀ x ∈ place.identifier?, p x) ∧ place.AssignsOnly p := by
  obtain ⟨hidentifier, honly⟩ := native_assignsOnly ha h
  exact ⟨fun x hx => hlocal x (hidentifier x hx), honly⟩

theorem assignsOnly_useAccessor {value : Option Script.Expr} {accessor : Accessor}
    (hvalue : ∀ v ∈ value, v.AssignsOnly p) {e : Script.Expr}
    (h : t.useAccessor names a value accessor = .ok e) : e.AssignsOnly p := by
  have hargs : ∀ e ∈ a.args ++ value.toList, e.AssignsOnly p := by
    intro e he
    obtain he | he := List.mem_append.1 he
    · exact ha e (List.mem_append_right _ he)
    · exact hvalue e (Option.mem_toList.1 he)
  cases accessor with
  | method name =>
    simp only [useAccessor] at h
    cases hd : t.dispatch with
    | dynamic =>
      simp only [hd, Except.ok.injEq] at h
      subst h
      simpa [Script.Expr.callMethod] using ⟨assignsOnly_object ha, by simpa using hargs⟩
    | bound declaring =>
      simp only [hd, Except.ok.injEq] at h
      subst h
      exact .callBase hargs
  | inline template =>
    simp only [useAccessor] at h
    cases htext : Template.substitute template t.span (t.operand? a value) with
    | error err => simp [htext, Except.map] at h
    | ok text =>
      simp only [htext, Except.map, Except.ok.injEq] at h
      subst h
      exact .verbatim text
  | subscript =>
    simp only [useAccessor] at h
    cases hplace : t.subscript a with
    | error err => simp [hplace, Except.map] at h
    | ok place =>
      simp only [hplace, Except.map, Except.ok.injEq] at h
      obtain ⟨hnone, honly⟩ := assignsOnly_subscript ha hplace
      cases value with
      | none => subst h; exact honly
      | some v =>
        subst h
        exact Script.Expr.AssignsOnly.assign_iff.2 ⟨by simp [hnone], honly, hvalue v rfl⟩

/-- To read a target is to assign nothing besides what its operands assign. -/
theorem assignsOnly_load {e : Script.Expr} (h : t.load names a = .ok e) :
    e.AssignsOnly p := by
  unfold load at h
  split at h
  case h_1 => cases h; exact .this
  case h_2 =>
    cases h
    rw [Script.Expr.AssignsOnly.call_iff, List.forall_mem_cons]
    exact ⟨.ident _, assignsOnly_object ha, fun e he => ha e (List.mem_append_right _ he)⟩
  case h_3 =>
    split at h
    · exact assignsOnly_useAccessor ha (by simp) h
    · exact (native_assignsOnly ha h).2

theorem assignsOnly_store (hlocal : ∀ x, t.kind = .localVar x → p x) {value e : Script.Expr}
    (hvalue : value.AssignsOnly p) (h : t.store names a value = .ok e) : e.AssignsOnly p := by
  unfold store at h
  split at h
  case h_1 => cases h; simpa using hvalue
  case h_2 =>
    cases h
    have hargs : ∀ e ∈ a.args, e.AssignsOnly p := fun e he => ha e (List.mem_append_right _ he)
    simpa [or_imp, forall_and] using ⟨assignsOnly_object ha, hargs, hvalue⟩
  case h_3 =>
    split at h
    · exact assignsOnly_useAccessor ha (by simpa using hvalue) h
    · cases hplace : t.native names a with
      | error err => simp [hplace, Except.map] at h
      | ok place =>
        simp only [hplace, Except.map, Except.ok.injEq] at h
        subst h
        obtain ⟨hidentifier, honly⟩ := assignsOnly_native ha hlocal hplace
        exact Script.Expr.AssignsOnly.assign_iff.2 ⟨hidentifier, honly, hvalue⟩

end Target

/-! ## Lowering -/

variable {cx : Context} {p : String → Prop}

/-- Statements, and expressions evaluated behind them, that assign only to identifiers
of `p`. -/
structure AssignsOnly (p : String → Prop) (stmts : List Stmt) (es : List Script.Expr) :
    Prop where
  stmts : ∀ s ∈ stmts, s.value.AssignsOnly p
  exprs : ∀ e ∈ es, e.AssignsOnly p

theorem AssignsOnly.append {stmts stmts' : List Stmt} {es es' : List Script.Expr}
    (h : AssignsOnly p stmts es) (h' : AssignsOnly p stmts' es') :
    AssignsOnly p (stmts ++ stmts') (es ++ es') :=
  ⟨List.forall_mem_append.2 ⟨h.stmts, h'.stmts⟩, List.forall_mem_append.2 ⟨h.exprs, h'.exprs⟩⟩

theorem AssignsOnly.push {stmts : List Stmt} {e : Script.Expr} {es : List Script.Expr}
    (h : AssignsOnly p stmts (e :: es)) : AssignsOnly p (stmts ++ [.expr e]) es := by
  obtain ⟨he, hes⟩ := List.forall_mem_cons.1 h.exprs
  refine ⟨fun s hs => ?_, hes⟩
  obtain hs | hs := List.mem_append.1 hs
  · exact h.stmts s hs
  · cases List.mem_singleton.1 hs
    exact he

theorem Held.assignsOnly {e x : Script.Expr} {n n' : Nat} {flag : Bool}
    {stmts stmts' : List Stmt} {es : List Script.Expr} (h : Held cx e n flag x stmts' n')
    (he : AssignsOnly p stmts (e :: es)) : AssignsOnly p (stmts ++ stmts') (x :: es) := by
  cases h with
  | inline => simpa using he
  | captured =>
    obtain ⟨hhead, hes⟩ := List.forall_mem_cons.1 he.exprs
    refine ⟨fun s hs => ?_, List.forall_mem_cons.2 ⟨.ident _, hes⟩⟩
    obtain hs | hs := List.mem_append.1 hs
    · exact he.stmts s hs
    · cases List.mem_singleton.1 hs
      exact hhead

theorem AssignsOnly.composes : Composes cx fun _ stmts es _ => AssignsOnly p stmts es where
  nil _ := ⟨by simp, by simp⟩
  append h h' := h.append h'
  perm hperm h := ⟨h.stmts, fun e he => h.exprs e (hperm.mem_iff.2 he)⟩
  held h hheld := hheld.assignsOnly h

/-- A store as a statement, with its result behind it, or as the expression itself. -/
theorem AssignsOnly.finish {usage : Usage} {store : Script.Expr} {result : Value}
    {stmts : List Stmt} (h : AssignsOnly p stmts [store, result.expr]) :
    AssignsOnly p (usage.finish store result stmts).stmts
      [(usage.finish store result stmts).expr] := by
  cases usage with
  | used => exact h.push
  | discarded => exact ⟨h.stmts, fun e he => h.exprs e (by simp_all [Usage.finish])⟩

/-- An expression whose lowering assigns only to identifiers of `p`. -/
def LowersAssigning (cx : Context) (p : String → Prop) (e : Expr) : Prop :=
  ∀ {n n' : Nat} {w : Lowered}, e.lower cx n = .ok w n' → AssignsOnly p w.stmts [w.expr]

/-- The name of the local variable that an expression is, if it is one, is of `p`. -/
def Expr.localIs (p : String → Prop) (e : Expr) : Prop :=
  ∀ l, e.form = .place (.localVar l) → p l.name

/-- The name of the local variable that an expression assigns, if it assigns one, is of
`p`. -/
def Expr.assignedIs (p : String → Prop) (e : Expr) : Prop :=
  ∀ a, e.form = .assign a → a.target.localIs p

theorem Expr.assignedIs_of_everywhere {p : String → Prop} {e : Expr}
    (h : e.Everywhere (·.localIs p)) : e.assignedIs p := by
  intro a ha
  obtain ⟨form, span⟩ := e
  cases ha
  exact h.target.here

/-- What is known about a target when assignments to identifiers are looked for. -/
structure Target.Assigning (cx : Context) (p : String → Prop) (t : Target Expr) : Prop where
  arranges : ∃ indices, Arranges t.args indices
  localVar : ∀ x, t.kind = .localVar x → p x
  operands : ∀ e ∈ t.operands, LowersAssigning cx p e
  omitted : ∀ e ∈ t.omitted, LowersAssigning cx p e

theorem Addressed.assignsOnly {reuse : Bool} {rest : List Expr} {t : Target Expr} {n n' : Nat}
    {a : LoweredAddress} {stmts : List Stmt} (ht : t.Assigning cx p)
    (h : Addressed cx reuse rest t n a stmts n') :
    AssignsOnly p stmts (a.address.object.toList ++ a.address.args) := by
  obtain ⟨indices, harr⟩ := ht.arranges
  exact AssignsOnly.composes.addressed harr ht.operands ht.omitted h

theorem Taken.assignsOnly {c : Capture} {later : List Expr} {o : Expr} {n n' : Nat} {v : Value}
    {stmts : List Stmt} (ho : LowersAssigning cx p o) (h : Taken cx c later o n v stmts n') :
    AssignsOnly p stmts [v.expr] :=
  AssignsOnly.composes.taken ho h

theorem TakenAll.assignsOnly {rest : List Expr} {items : List (Capture × Expr)} {n n' : Nat}
    {vs : List Value} {stmts : List Stmt}
    (hitems : ∀ e ∈ items.map (·.2), LowersAssigning cx p e)
    (h : TakenAll cx rest items n vs stmts n') : AssignsOnly p stmts (vs.map (·.expr)) :=
  AssignsOnly.composes.takenAll hitems h

theorem LoweredAddress.assignsOnly_passed {a : LoweredAddress} (h : a.address.AssignsOnly p)
    (accessor : Option Accessor) (uses : Nat) : (a.passed cx accessor uses).AssignsOnly p := by
  unfold LoweredAddress.passed
  split
  · intro e he
    obtain he | he := List.mem_append.1 he
    · exact h e (List.mem_append_left _ he)
    · obtain ⟨v, hv, rfl⟩ := List.mem_map.1 he
      have hmem := List.mem_map_of_mem (f := IndexValue.expr) hv
      exact Script.Expr.AssignsOnly.copied_iff.2 (h _ (List.mem_append_right _ hmem))
  · exact h

theorem LowersAssign.assignsOnly {usage : Usage} {a : Assignment Expr} {n n' : Nat}
    {w : Lowered} (hvalue : LowersAssigning cx p a.value)
    (htargets : ∀ t, a.target.target cx.metadata cx.enclosing = .ok t → t.Assigning cx p)
    (h : LowersAssign cx usage a n w n') : AssignsOnly p w.stmts [w.expr] := by
  cases h with
  | native htarget _ _ _ haddr htaken hplace =>
    have ht := htargets _ htarget
    have hall := (haddr.assignsOnly ht).append (htaken.assignsOnly hvalue)
    obtain ⟨hobject, hv⟩ := List.forall_mem_append.1 hall.exprs
    obtain ⟨hidentifier, honly⟩ := Target.assignsOnly_native hobject ht.localVar hplace
    refine ⟨hall.stmts, List.forall_mem_singleton.2 ?_⟩
    simpa [Context.copied] using ⟨hidentifier, honly, hv _ List.mem_cons_self⟩
  | readBack htarget _ _ _ haddr htaken hplace =>
    have ht := htargets _ htarget
    have hall := (haddr.assignsOnly ht).append (htaken.assignsOnly hvalue)
    obtain ⟨hobject, hv⟩ := List.forall_mem_append.1 hall.exprs
    obtain ⟨hidentifier, honly⟩ := Target.assignsOnly_native hobject ht.localVar hplace
    refine AssignsOnly.push ⟨hall.stmts, ?_⟩
    simpa [Context.copied] using ⟨⟨hidentifier, honly, hv _ List.mem_cons_self⟩, honly⟩
  | compoundNative htarget _ _ haddr htaken hplace =>
    have ht := htargets _ htarget
    have hall := (haddr.assignsOnly ht).append (htaken.assignsOnly hvalue)
    obtain ⟨hobject, hv⟩ := List.forall_mem_append.1 hall.exprs
    obtain ⟨hidentifier, honly⟩ := Target.assignsOnly_native hobject ht.localVar hplace
    refine ⟨hall.stmts, List.forall_mem_singleton.2 ?_⟩
    simpa using ⟨hidentifier, honly, hv _ List.mem_cons_self⟩
  | @byCall t _ v _ _ _ _ _ htarget _ _ haddr htaken hstore =>
    have ht := htargets _ htarget
    have hall := (haddr.assignsOnly ht).append (htaken.assignsOnly hvalue)
    obtain ⟨hobject, hv⟩ := List.forall_mem_append.1 hall.exprs
    have hresult : v.expr.AssignsOnly p := hv _ List.mem_cons_self
    have honly := Target.assignsOnly_store (LoweredAddress.assignsOnly_passed hobject _ _)
      ht.localVar (Script.Expr.AssignsOnly.copied_iff.2 hresult) hstore
    have hfinal : (if t.isReceiver then (⟨.this, false, true⟩ : Value) else
        ⟨v.expr, false, v.stable⟩).expr.AssignsOnly p := by
      split
      · exact .this
      · exact hresult
    exact AssignsOnly.finish ⟨hall.stmts,
      List.forall_mem_cons.2 ⟨honly, List.forall_mem_singleton.2 hfinal⟩⟩
  | @compoundByCall _ op _ v _ old _ _ _ _ _ _ _ _ _ _ htarget _ _ _ haddr hload hold htaken hnew
      hstore =>
    have ht := htargets _ htarget
    have haddress := haddr.assignsOnly ht
    have hloaded := Target.assignsOnly_load
      (LoweredAddress.assignsOnly_passed haddress.exprs _ _) hload
    have hread : AssignsOnly p _ [_] := ⟨haddress.stmts, List.forall_mem_singleton.2 hloaded⟩
    have hboth := (hold.assignsOnly hread).append (htaken.assignsOnly hvalue)
    have hcombined : AssignsOnly p _ [.binary op old v.expr] :=
      ⟨hboth.stmts, by simpa using hboth.exprs⟩
    have hresult := hnew.assignsOnly hcombined
    have hnewOnly := hresult.exprs _ List.mem_cons_self
    have honly := Target.assignsOnly_store
      (LoweredAddress.assignsOnly_passed haddress.exprs _ _) ht.localVar
      (Script.Expr.AssignsOnly.copied_iff.2 hnewOnly) hstore
    exact AssignsOnly.finish ⟨hresult.stmts, by simpa using ⟨honly, hnewOnly⟩⟩

/-- The target of a place is the local variable that the place is, or none. -/
theorem Target.Assigning.of_ofPlace {pl : Place Expr} {span : Span} {t : Target Expr}
    (ht : Target.ofPlace cx.metadata cx.enclosing Expr.ty span pl = .ok t)
    (hlocal : (⟨.place pl, span⟩ : Expr).localIs p)
    (hparts : ∀ e ∈ pl.operands ++ pl.defaults, LowersAssigning cx p e) : t.Assigning cx p where
  arranges := ⟨_, (Target.ofPlace_arranges ht).2⟩
  localVar x hx := by
    obtain ⟨l, rfl, rfl⟩ := (Classified.of_ofPlace ht).exists_localVar (.inl hx)
    exact hlocal l rfl
  operands e he := hparts e (List.mem_append_left _ (Target.operands_ofPlace ht ▸ he))
  omitted e he := hparts e (List.mem_append_right _ (Target.mem_defaults_of_mem_omitted ht he))

theorem Target.Assigning.of_assign {a : Assignment Expr} {span : Span} {t : Target Expr}
    (hlocal : a.target.localIs p)
    (hparts : ∀ e ∈ (⟨.assign a, span⟩ : Expr).parts, LowersAssigning cx p e)
    (ht : a.target.target cx.metadata cx.enclosing = .ok t) : t.Assigning cx p := by
  obtain ⟨pl, hp, hplace⟩ := Expr.target_arranges ht
  exact .of_ofPlace hplace (fun l hl => hlocal l (hp.trans hl))
    fun e he => hparts e (Expr.place_mem_parts (Expr.place?_of_place hp) span he)

theorem Context.assignsOnly_handed {vs : List Value} (hvs : ∀ v ∈ vs, v.expr.AssignsOnly p)
    (tys : List TypeRef) : ∀ e ∈ cx.handed tys vs, e.AssignsOnly p := by
  intro e he
  rw [Context.handed, ← List.map_uncurry_zip_eq_zipWith] at he
  obtain ⟨x, hx, rfl⟩ := List.mem_map.1 he
  exact Script.Expr.AssignsOnly.copied_iff.2 (hvs x.2 (List.of_mem_zip hx).2)

/-- What addresses a place assigns only to identifiers of `p`, if the operands do. -/
theorem Addressed.assignsOnly_of_ofPlace {reuse : Bool} {rest : List Expr} {pl : Place Expr}
    {span : Span} {t : Target Expr} {n n' : Nat} {a : LoweredAddress} {stmts : List Stmt}
    (ht : Target.ofPlace cx.metadata cx.enclosing Expr.ty span pl = .ok t)
    (hparts : ∀ e ∈ pl.operands ++ pl.defaults, LowersAssigning cx p e)
    (h : Addressed cx reuse rest t n a stmts n') :
    AssignsOnly p stmts (a.address.object.toList ++ a.address.args) :=
  AssignsOnly.composes.addressed (Target.ofPlace_arranges ht).2
    (fun e he => hparts e (List.mem_append_left _ (Target.operands_ofPlace ht ▸ he)))
    (fun e he => hparts e
      (List.mem_append_right _ (Target.mem_defaults_of_mem_omitted ht he))) h

theorem Lowers.assignsOnly {e : Expr} {n n' : Nat} {w : Lowered}
    (hassigned : e.assignedIs p) (hparts : ∀ c ∈ e.parts, LowersAssigning cx p c)
    (h : Lowers cx e n w n') : AssignsOnly p w.stmts [w.expr] := by
  cases h with
  | @literal value =>
    exact ⟨by simp, by cases value <;> simpa using .of_isReusable rfl⟩
  | @defaultValue ty =>
    refine ⟨by simp, List.forall_mem_singleton.2 ?_⟩
    unfold Context.defaultValue
    cases cx.metadata.semantics ty with
    | reference => exact .of_isReusable rfl
    | _ => simp
  | this => exact ⟨by simp, by simp⟩
  | load _ htarget haddr hload =>
    have hall := haddr.assignsOnly_of_ofPlace htarget (by simpa using hparts)
    exact ⟨hall.stmts, List.forall_mem_singleton.2 (Target.assignsOnly_load
      (LoweredAddress.assignsOnly_passed hall.exprs _ _) hload)⟩
  | @call r m args _ _ _ name objects vs _ _ htaken _ =>
    have hall := htaken.assignsOnly (by rwa [map_snd_map_capture])
    have hvs : ∀ v ∈ objects ++ vs, v.expr.AssignsOnly p :=
      fun v hv => hall.exprs _ (List.mem_map_of_mem hv)
    obtain ⟨hobjects, hargs⟩ := List.forall_mem_append.1 hvs
    have hhanded := cx.assignsOnly_handed hargs (argTypes m.params args)
    refine ⟨hall.stmts, List.forall_mem_singleton.2 ?_⟩
    cases r with
    | base => exact .callBase hhanded
    | static => simpa [callScript, Receiver.script, Script.Expr.callMethod] using hhanded
    | object =>
      cases objects with
      | nil => simpa [callScript, Receiver.script, Script.Expr.callMethod] using hhanded
      | cons v objects =>
        simpa [callScript, Receiver.script, Script.Expr.callMethod] using
          ⟨hobjects v List.mem_cons_self, hhanded⟩
  | callInline _ htaken =>
    have hall := htaken.assignsOnly (by rwa [map_snd_map_capture])
    exact ⟨hall.stmts, by simp⟩
  | binary htaken =>
    have hall := htaken.assignsOnly (by simpa using hparts)
    exact ⟨hall.stmts, by simpa using hall.exprs⟩
  | @assign a span _ _ _ h =>
    exact h.assignsOnly (hparts _ (Expr.value_mem_parts a span))
      fun t ht => .of_assign (hassigned a rfl) hparts ht

/-- Lowering assigns only to the variables of the program. -/
theorem LowersAssigning.of_everywhere (e : Expr) (hlocal : e.Everywhere (·.localIs p)) :
    LowersAssigning cx p e := by
  induction e using Expr.inductParts with
  | step e ih =>
    intro n n' w h
    exact (Lowers.of_lower h).assignsOnly (Expr.assignedIs_of_everywhere hlocal)
      fun c hc => ih c hc (hlocal.part c hc)

end AssignmentLowering
