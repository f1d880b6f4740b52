import AssignmentLowering.Proofs.Lowering.Forms
import AssignmentLowering.Proofs.Expr.Annotate
import AssignmentLowering.Proofs.Script.Calls

/-!
# The results of stores

A store by a call has a result of no use: what a setter returns, if anything, is not the
value of the assignment. In the output every such call is a statement, or the whole
expression for an assignment whose value is not wanted. Nothing else contains one. For this
the names of setters and of the helpers that store must be told from all others.

## Main definitions

* `Script.storeCall` — the calls that store.
* `RuntimeNames.StoresApart`, `Expr.SettersApart` — they can be told from other calls.
* `Stores` — statements in which stores stand alone, and expressions without any.
* `Lowered.KeepsStoresApart` — what an assignment is lowered to uses no store.

## Main statements

* `UsesNoStore.of_everywhere` — lowering an expression for its value uses no store.
* `LowersAssign.stores` — lowering an assignment uses none either.
-/

namespace AssignmentLowering

open Script (Stmt)

/-! ## The calls that store -/

namespace Script

/-- Calls of setters, and of the helpers that store an element or overwrite an object. -/
def storeCall (names : RuntimeNames) (setters : List String) : CallKind := fun callee args =>
  callsMethod names setters callee args || callee = .ident names.multiSet ||
    callee = .ident names.shallowCopy

/-- No list, which lowering makes only to hand it to a helper. -/
def Expr.isArray : Expr → Bool
  | .array _ => true
  | _ => false

/-- Without a list among the arguments, nobody is told to call a method of a base type. -/
theorem baseMethod?_eq_none {object : Expr} {args : List Expr}
    (h : ∀ e ∈ args, e.isArray = false) : baseMethod? (object :: args) = none := by
  unfold baseMethod?
  split
  case h_1 heq =>
    cases heq
    simpa [Expr.isArray] using h (.array []) (by simp)
  case h_2 => rfl

end Script

/-- The helpers that store have names of their own. -/
def RuntimeNames.StoresApart (names : RuntimeNames) : Prop :=
  ∀ helper ∈ [names.multiSet, names.shallowCopy],
    helper ∉ [names.clone, names.multiGet, names.callBase, names.defaultValue]

instance (names : RuntimeNames) : Decidable names.StoresApart :=
  inferInstanceAs (Decidable (∀ _ ∈ _, _))

/-- The properties that a place may be bound to. -/
def Place.properties {ε : Type} : Place ε → List Property
  | .property _ p | .indexer _ (.resolved p _) _ _ => [p]
  | .indexer _ (.candidates ps) _ _ => ps
  | _ => []

/-- In the outermost form the names of setters are among `setters`, and those of getters and
methods are not. -/
structure Expr.SettersApart (md : Metadata) (setters : List String) (e : Expr) : Prop where
  getter : ∀ pl, e.form = .place pl → ∀ p ∈ pl.properties, ∀ name setter,
    md.binding p = .accessors (.method name) setter → name ∉ setters
  setter : ∀ pl, e.form = .place pl → ∀ p ∈ pl.properties, ∀ getter name,
    md.binding p = .accessors getter (.method name) → name ∈ setters
  method : ∀ r m args, e.form = .call r m args → ∀ name,
    md.method m = .method name → name ∉ setters

/-- A target has both accessors or none. -/
theorem Target.exists_accessors {ε : Type} {t : Target ε} {getter : Accessor}
    (h : t.getter? = some getter) : ∃ setter, t.storage = .accessors getter setter := by
  unfold getter? Storage.getter? at h
  split at h
  case h_1 g s hstorage =>
    cases h
    exact ⟨s, hstorage⟩
  all_goals cases h

/-- The accessors of a target are those of a property of its place. -/
theorem Classified.exists_property {ε : Type} {md : Metadata} {typeOf : ε → TypeRef}
    {span : Span} {pl : Place ε} {t : Target ε} (h : Classified md typeOf span pl t)
    {getter setter : Accessor} (ht : t.storage = .accessors getter setter) :
    ∃ p ∈ pl.properties, md.binding p = .accessors getter setter := by
  have hbinding : ∀ {p : Property}, (md.property p).storage? = some (.accessors getter setter) →
      md.binding p = .accessors getter setter := by
    intro p hp
    unfold PropertyBinding.storage? at hp
    unfold Metadata.binding
    cases hn : (md.property p).normalized <;> simp_all
  cases h with
  | @localVar l => cases ht
  | property hstorage | resolved hstorage | candidates hstorage =>
    cases ht
    exact ⟨_, by simp [Place.properties], hbinding hstorage⟩
  | _ => cases ht

/-! ## Reading is no store -/

section

variable {names : RuntimeNames} {setters : List String}

/-- A helper that does not store is none that does, and calls no setter unless told to. -/
theorem storeCall_helper (hnames : names.StoresApart) {helper : String}
    (hhelper : helper ∈ [names.clone, names.multiGet, names.callBase, names.defaultValue])
    {args : List Script.Expr} (hargs : ∀ name ∈ Script.baseMethod? args, name ∉ setters) :
    Script.storeCall names setters (.ident helper) args = false := by
  have hset : helper ≠ names.multiSet := fun heq => hnames _ (by simp) (heq ▸ hhelper)
  have hcopy : helper ≠ names.shallowCopy := fun heq => hnames _ (by simp) (heq ▸ hhelper)
  simpa [Script.storeCall, Script.callsMethod, hset, hcopy] using fun _ => hargs

theorem sparesCopies_storeCall (hnames : names.StoresApart) :
    (Script.storeCall names setters).SparesCopies names :=
  fun _ _ => storeCall_helper hnames (by simp) (by simp [Script.baseMethod?])

theorem isCallOf_callBase (hnames : names.StoresApart) {name : String} (hname : name ∉ setters)
    (declaring : TypeRef) (args : List Script.Expr) :
    (callBase names declaring name args).isCallOf (Script.storeCall names setters) = false :=
  storeCall_helper hnames (by simp) (by simpa [Script.baseMethod?] using hname)

theorem isCallOf_callMethod {name : String} (hname : name ∉ setters) (object : Script.Expr)
    (args : List Script.Expr) :
    (Script.Expr.callMethod object name args).isCallOf (Script.storeCall names setters) =
      false := by
  simp [Script.Expr.callMethod, Script.Expr.isCallOf, Script.storeCall, Script.callsMethod, hname]

/-- An expression without stores, and no list. -/
structure Script.Expr.StoreFree (names : RuntimeNames) (setters : List String)
    (e : Script.Expr) : Prop where
  calls : e.calls (storeCall names setters) = 0
  isArray : e.isArray = false

theorem Script.Expr.StoreFree.of_isReusable {e : Script.Expr} (h : e.isReusable = true) :
    e.StoreFree names setters :=
  ⟨calls_of_isReusable _ h, by cases e <;> first | rfl | cases h⟩

theorem Script.Expr.StoreFree.copied (h : names.StoresApart) {e : Script.Expr}
    (he : e.StoreFree names setters) (s : CopySemantics) (fresh : Bool) (uses : Nat) :
    (AssignmentLowering.copied names s fresh uses e).StoreFree names setters := by
  refine ⟨by rw [(sparesCopies_storeCall h).calls_copied, he.calls], ?_⟩
  unfold AssignmentLowering.copied
  cases s.cloneTag? fresh uses with
  | none => exact he.isArray
  | some tag => rfl

theorem Script.Expr.StoreFree.assign {target value : Script.Expr}
    (ht : target.StoreFree names setters) (hv : value.StoreFree names setters) :
    (Script.Expr.assign target value).StoreFree names setters :=
  ⟨by rw [Script.Expr.calls, ht.calls, hv.calls], rfl⟩

theorem Script.Expr.StoreFree.compoundAssign {op : BinaryOp} {target value : Script.Expr}
    (ht : target.StoreFree names setters) (hv : value.StoreFree names setters) :
    (Script.Expr.compoundAssign op target value).StoreFree names setters :=
  ⟨by rw [Script.Expr.calls, ht.calls, hv.calls], rfl⟩

theorem Script.Expr.StoreFree.binary {op : BinaryOp} {l r : Script.Expr}
    (hl : l.StoreFree names setters) (hr : r.StoreFree names setters) :
    (Script.Expr.binary op l r).StoreFree names setters :=
  ⟨by rw [Script.Expr.calls, hl.calls, hr.calls], rfl⟩

/-- Operands without stores. -/
def Address.StoreFree (names : RuntimeNames) (setters : List String) (a : Address) : Prop :=
  ∀ e ∈ a.object.toList ++ a.args, e.StoreFree names setters

theorem Address.StoreFree.calls {a : Address} (ha : a.StoreFree names setters) :
    a.calls (Script.storeCall names setters) = 0 := by
  rw [Address.calls, List.sum_eq_zero_iff_forall_eq_nat, List.forall_mem_map]
  exact fun e he => (ha e he).calls

namespace Target

variable {ε : Type} {t : Target ε} {a : Address}

/-- Without stores among the operands, a store has none strictly inside. -/
theorem callsBelow_store_eq_zero (ha : a.StoreFree names setters) {value e : Script.Expr}
    (hvalue : value.StoreFree names setters) (h : t.store names a value = .ok e) :
    e.callsBelow (Script.storeCall names setters) = 0 := by
  have hle := callsBelow_store (k := Script.storeCall names setters) h
  rw [ha.calls, hvalue.calls] at hle
  omega

theorem storeFree_native (ha : a.StoreFree names setters) {place : Script.Expr}
    (h : t.native names a = .ok place) : place.StoreFree names setters := by
  have hle := calls_native (k := Script.storeCall names setters) h
  rw [ha.calls] at hle
  refine ⟨by omega, ?_⟩
  unfold native subscript at h
  grind [Script.Expr.isArray]

/-- Reading by a getter is no store. -/
theorem isCallOf_useAccessor (hnames : names.StoresApart) {accessor : Accessor}
    (haccessor : ∀ name, accessor = .method name → name ∉ setters) {e : Script.Expr}
    (h : t.useAccessor names a none accessor = .ok e) :
    e.isCallOf (Script.storeCall names setters) = false ∧ e.isArray = false := by
  cases accessor with
  | method name =>
    have hname := haccessor name rfl
    simp only [useAccessor] at h
    cases hd : t.dispatch with
    | dynamic =>
      simp only [hd, Except.ok.injEq] at h
      subst h
      exact ⟨isCallOf_callMethod hname _ _, rfl⟩
    | bound declaring =>
      simp only [hd, Except.ok.injEq] at h
      subst h
      exact ⟨isCallOf_callBase hnames hname _ _, rfl⟩
  | inline template =>
    simp only [useAccessor] at h
    cases htext : Template.substitute template t.span (t.operand? a none) with
    | error err => simp [htext, Except.map] at h
    | ok text =>
      simp only [htext, Except.map, Except.ok.injEq] at h
      subst h
      exact ⟨rfl, rfl⟩
  | subscript =>
    simp only [useAccessor, subscript] at h
    split at h
    · cases h
      exact ⟨rfl, rfl⟩
    · cases h

theorem storeFree_load (hnames : names.StoresApart) (ha : a.StoreFree names setters)
    (hgetter : ∀ name, t.getter? = some (.method name) → name ∉ setters) {e : Script.Expr}
    (h : t.load names a = .ok e) : e.StoreFree names setters := by
  have hbelow := callsBelow_load (k := Script.storeCall names setters) h
  rw [ha.calls] at hbelow
  have hfree : e.isCallOf (Script.storeCall names setters) = false → e.isArray = false →
      e.StoreFree names setters := by
    intro hroot harray
    refine ⟨?_, harray⟩
    rw [Script.Expr.calls_eq, hroot]
    simpa using hbelow
  unfold load at h
  split at h
  case h_1 => cases h; exact hfree rfl rfl
  case h_2 =>
    cases h
    have hargs : ∀ e ∈ a.args, e.isArray = false :=
      fun e he => (ha e (List.mem_append_right _ he)).isArray
    refine hfree (storeCall_helper hnames (by simp) ?_) rfl
    rw [Script.baseMethod?_eq_none hargs]
    simp
  case h_3 =>
    split at h
    case h_1 getter hsome =>
      obtain ⟨hroot, harray⟩ := isCallOf_useAccessor hnames
        (fun name hname => hgetter name (hname ▸ hsome)) h
      exact hfree hroot harray
    case h_2 => exact storeFree_native ha h

end Target
end

/-! ## Stores stand alone -/

variable {cx : Context} {setters : List String}

/-- Statements in which stores stand alone, and expressions evaluated behind them that have
none. -/
structure Stores (cx : Context) (setters : List String) (stmts : List Stmt)
    (es : List Script.Expr) : Prop where
  stmts : ∀ s ∈ stmts, s.StandsAlone (Script.storeCall cx.names setters)
  exprs : ∀ e ∈ es, e.StoreFree cx.names setters

namespace Stores

theorem append {stmts stmts' : List Stmt} {es es' : List Script.Expr}
    (h : Stores cx setters stmts es) (h' : Stores cx setters stmts' es') :
    Stores cx setters (stmts ++ stmts') (es ++ es') :=
  ⟨List.forall_mem_append.2 ⟨h.stmts, h'.stmts⟩, List.forall_mem_append.2 ⟨h.exprs, h'.exprs⟩⟩

/-- A store behind the others may be a statement of its own. -/
theorem push {stmts : List Stmt} {es : List Script.Expr} (h : Stores cx setters stmts es)
    {store : Script.Expr} (hstore : store.callsBelow (Script.storeCall cx.names setters) = 0) :
    Stores cx setters (stmts ++ [.expr store]) es :=
  ⟨List.forall_mem_append.2 ⟨h.stmts, List.forall_mem_singleton.2 hstore⟩, h.exprs⟩

theorem held {e x : Script.Expr} {n n' : Nat} {flag : Bool} {stmts stmts' : List Stmt}
    {es : List Script.Expr} (h : Stores cx setters stmts (e :: es))
    (hheld : Held cx e n flag x stmts' n') : Stores cx setters (stmts ++ stmts') (x :: es) := by
  obtain ⟨hhead, hes⟩ := List.forall_mem_cons.1 h.exprs
  cases hheld with
  | inline => simpa using h
  | captured =>
    exact ⟨List.forall_mem_append.2 ⟨h.stmts, List.forall_mem_singleton.2 hhead.calls⟩,
      List.forall_mem_cons.2 ⟨.of_isReusable rfl, hes⟩⟩

theorem composes : Composes cx fun _ stmts es _ => Stores cx setters stmts es where
  nil _ := ⟨by simp, by simp⟩
  append h h' := h.append h'
  perm hperm h := ⟨h.stmts, fun e he => h.exprs e (hperm.mem_iff.2 he)⟩
  held h hheld := h.held hheld

end Stores

/-- An expression whose lowering for its value uses no store. -/
def UsesNoStore (cx : Context) (setters : List String) (e : Expr) : Prop :=
  ∀ {n n' : Nat} {w : Lowered}, e.lower cx n = .ok w n' → Stores cx setters w.stmts [w.expr]

/-- What is known about a target when stores are looked for. -/
structure Target.StoresApart (cx : Context) (setters : List String) (t : Target Expr) : Prop where
  arranges : ∃ indices, Arranges t.args indices
  getter : ∀ name, t.getter? = some (.method name) → name ∉ setters
  operands : ∀ e ∈ t.operands, UsesNoStore cx setters e
  omitted : ∀ e ∈ t.omitted, UsesNoStore cx setters e

theorem Addressed.stores {reuse : Bool} {rest : List Expr} {t : Target Expr} {n n' : Nat}
    {a : LoweredAddress} {stmts : List Stmt} (ht : t.StoresApart cx setters)
    (h : Addressed cx reuse rest t n a stmts n') :
    Stores cx setters stmts (a.address.object.toList ++ a.address.args) := by
  obtain ⟨indices, harr⟩ := ht.arranges
  exact Stores.composes.addressed harr ht.operands ht.omitted h

theorem Taken.stores {c : Capture} {later : List Expr} {o : Expr} {n n' : Nat} {v : Value}
    {stmts : List Stmt} (ho : UsesNoStore cx setters o) (h : Taken cx c later o n v stmts n') :
    Stores cx setters stmts [v.expr] :=
  Stores.composes.taken ho h

theorem TakenAll.stores {rest : List Expr} {items : List (Capture × Expr)} {n n' : Nat}
    {vs : List Value} {stmts : List Stmt}
    (hitems : ∀ e ∈ items.map (·.2), UsesNoStore cx setters e)
    (h : TakenAll cx rest items n vs stmts n') : Stores cx setters stmts (vs.map (·.expr)) :=
  Stores.composes.takenAll hitems h

theorem LoweredAddress.storeFree_passed (hnames : cx.names.StoresApart) {a : LoweredAddress}
    (h : a.address.StoreFree cx.names setters) (accessor : Option Accessor) (uses : Nat) :
    (a.passed cx accessor uses).StoreFree cx.names setters := by
  unfold LoweredAddress.passed
  split
  · intro e he
    obtain he | he := List.mem_append.1 he
    · exact h e (List.mem_append_left _ he)
    · obtain ⟨v, hv, rfl⟩ := List.mem_map.1 he
      have hmem := List.mem_map_of_mem (f := IndexValue.expr) hv
      exact (h _ (List.mem_append_right _ hmem)).copied hnames _ _ _
  · exact h

/-- What an assignment is lowered to. It may be a store as a whole if its value is not
wanted. -/
structure Lowered.KeepsStoresApart (cx : Context) (setters : List String) (usage : Usage)
    (w : Lowered) : Prop where
  stmts : ∀ s ∈ w.stmts, s.StandsAlone (Script.storeCall cx.names setters)
  used : usage = .used → w.expr.StoreFree cx.names setters
  below : w.expr.callsBelow (Script.storeCall cx.names setters) = 0

theorem Stores.keepsStoresApart {usage : Usage} {w : Lowered}
    (h : Stores cx setters w.stmts [w.expr]) : w.KeepsStoresApart cx setters usage := by
  have hfree := h.exprs w.expr List.mem_cons_self
  have hcalls := hfree.calls
  rw [Script.Expr.calls_eq] at hcalls
  exact ⟨h.stmts, fun _ => hfree, by omega⟩

theorem Stores.finish {usage : Usage} {store : Script.Expr} {result : Value} {stmts : List Stmt}
    (h : Stores cx setters stmts [result.expr])
    (hstore : store.callsBelow (Script.storeCall cx.names setters) = 0) :
    (usage.finish store result stmts).KeepsStoresApart cx setters usage := by
  cases usage with
  | used => exact Stores.keepsStoresApart (h.push hstore)
  | discarded => exact ⟨h.stmts, nofun, hstore⟩

theorem LowersAssign.stores (hnames : cx.names.StoresApart) {usage : Usage}
    {a : Assignment Expr} {n n' : Nat} {w : Lowered} (hvalue : UsesNoStore cx setters a.value)
    (htargets : ∀ t, a.target.target cx.metadata cx.enclosing = .ok t →
      t.StoresApart cx setters)
    (h : LowersAssign cx usage a n w n') : w.KeepsStoresApart cx setters usage := by
  cases h with
  | native htarget _ _ _ haddr htaken hplace =>
    have hall := (haddr.stores (htargets _ htarget)).append (htaken.stores hvalue)
    obtain ⟨hobject, hv⟩ := List.forall_mem_append.1 hall.exprs
    have hstored := (hv _ List.mem_cons_self).copied hnames
    exact Stores.keepsStoresApart ⟨hall.stmts, List.forall_mem_singleton.2
      ((Target.storeFree_native hobject hplace).assign (hstored ..))⟩
  | readBack htarget _ _ _ haddr htaken hplace =>
    have hall := (haddr.stores (htargets _ htarget)).append (htaken.stores hvalue)
    obtain ⟨hobject, hv⟩ := List.forall_mem_append.1 hall.exprs
    have hstored := (hv _ List.mem_cons_self).copied hnames
    have hread := Target.storeFree_native hobject hplace
    exact Stores.keepsStoresApart (Stores.push ⟨hall.stmts, List.forall_mem_singleton.2 hread⟩
      (hread.assign (hstored ..)).calls)
  | compoundNative htarget _ _ haddr htaken hplace =>
    have hall := (haddr.stores (htargets _ htarget)).append (htaken.stores hvalue)
    obtain ⟨hobject, hv⟩ := List.forall_mem_append.1 hall.exprs
    exact Stores.keepsStoresApart ⟨hall.stmts, List.forall_mem_singleton.2
      ((Target.storeFree_native hobject hplace).compoundAssign (hv _ List.mem_cons_self))⟩
  | @byCall t _ v _ _ _ _ _ htarget _ _ haddr htaken hstore =>
    have hall := (haddr.stores (htargets _ htarget)).append (htaken.stores hvalue)
    obtain ⟨hobject, hv⟩ := List.forall_mem_append.1 hall.exprs
    have hresult : (if t.isReceiver then (⟨.this, false, true⟩ : Value) else
        ⟨v.expr, false, v.stable⟩).expr.StoreFree cx.names setters := by
      split
      · exact .of_isReusable rfl
      · exact hv _ List.mem_cons_self
    exact Stores.finish ⟨hall.stmts, List.forall_mem_singleton.2 hresult⟩
      (Target.callsBelow_store_eq_zero (LoweredAddress.storeFree_passed hnames hobject _ _)
        ((hv _ List.mem_cons_self).copied hnames _ _ _) hstore)
  | @compoundByCall t op _ v _ old _ _ _ _ _ _ _ _ _ _ htarget _ _ _ haddr hload hold htaken
      hnew hstore =>
    have ht := htargets _ htarget
    have haddress := haddr.stores ht
    have hloaded := Target.storeFree_load hnames
      (LoweredAddress.storeFree_passed hnames haddress.exprs _ _) ht.getter hload
    have hread : Stores cx setters _ [_] :=
      ⟨haddress.stmts, List.forall_mem_singleton.2 hloaded⟩
    have hboth := (hread.held hold).append (htaken.stores hvalue)
    obtain ⟨hleft, hright⟩ := List.forall_mem_append.1 hboth.exprs
    have hcombined : Stores cx setters _ [.binary op old v.expr] :=
      ⟨hboth.stmts, List.forall_mem_singleton.2
        ((hleft _ List.mem_cons_self).binary (hright _ List.mem_cons_self))⟩
    have hresult := hcombined.held hnew
    exact hresult.finish
      (Target.callsBelow_store_eq_zero
        (LoweredAddress.storeFree_passed hnames haddress.exprs _ _)
        ((hresult.exprs _ List.mem_cons_self).copied hnames _ _ _) hstore)

theorem Target.StoresApart.of_ofPlace {pl : Place Expr} {span : Span} {t : Target Expr}
    (ht : Target.ofPlace cx.metadata cx.enclosing Expr.ty span pl = .ok t)
    (hnames : (⟨.place pl, span⟩ : Expr).SettersApart cx.metadata setters)
    (hparts : ∀ e ∈ pl.operands ++ pl.defaults, UsesNoStore cx setters e) :
    t.StoresApart cx setters where
  arranges := ⟨_, (Target.ofPlace_arranges ht).2⟩
  getter name hname := by
    obtain ⟨setter, hstorage⟩ := Target.exists_accessors hname
    obtain ⟨p, hp, hbinding⟩ := (Classified.of_ofPlace ht).exists_property hstorage
    exact hnames.getter pl rfl p hp name setter hbinding
  operands e he := hparts e (List.mem_append_left _ (Target.operands_ofPlace ht ▸ he))
  omitted e he := hparts e (List.mem_append_right _ (Target.mem_defaults_of_mem_omitted ht he))

theorem Target.StoresApart.of_assign {a : Assignment Expr} {span : Span} {t : Target Expr}
    (hnames : Expr.Everywhere (·.SettersApart cx.metadata setters) ⟨.assign a, span⟩)
    (hparts : ∀ e ∈ (⟨.assign a, span⟩ : Expr).parts, UsesNoStore cx setters e)
    (ht : a.target.target cx.metadata cx.enclosing = .ok t) : t.StoresApart cx setters := by
  obtain ⟨pl, hp, hplace⟩ := Expr.target_arranges ht
  exact .of_ofPlace hplace (Expr.eq_of_place hp ▸ hnames.target.here)
    fun e he => hparts e (Expr.place_mem_parts (Expr.place?_of_place hp) span he)

theorem Context.storeFree_handed (hnames : cx.names.StoresApart) {vs : List Value}
    (hvs : ∀ v ∈ vs, v.expr.StoreFree cx.names setters) (tys : List TypeRef) :
    ∀ e ∈ cx.handed tys vs, e.StoreFree cx.names setters := by
  intro e he
  rw [Context.handed, ← List.map_uncurry_zip_eq_zipWith] at he
  obtain ⟨x, hx, rfl⟩ := List.mem_map.1 he
  exact (hvs x.2 (List.of_mem_zip hx).2).copied hnames _ _ _

/-- A call of a method that is no setter is no store. -/
theorem storeFree_callScript (hnames : cx.names.StoresApart) {r : Receiver Expr} {name : String}
    (hname : name ∉ setters) {object : Script.Expr} {args : List Script.Expr}
    (hobject : object.StoreFree cx.names setters)
    (hargs : ∀ e ∈ args, e.StoreFree cx.names setters) :
    (callScript cx.names r name object args).StoreFree cx.names setters := by
  have hzero : (args.map (Script.Expr.calls (Script.storeCall cx.names setters))).sum = 0 := by
    rw [List.sum_eq_zero_iff_forall_eq_nat, List.forall_mem_map]
    exact fun e he => (hargs e he).calls
  cases r with
  | base declaring =>
    refine ⟨?_, rfl⟩
    rw [callScript, Script.Expr.calls_eq, isCallOf_callBase hnames hname,
      Script.Expr.callsBelow_callBase, hzero]
    rfl
  | object | static =>
    refine ⟨?_, rfl⟩
    rw [callScript, Script.Expr.calls_eq, isCallOf_callMethod hname,
      Script.Expr.callsBelow_callMethod, hzero, hobject.calls]
    rfl

theorem Receiver.storeFree_script {ε : Type} {r : Receiver ε} {objects : List Value}
    {names : RuntimeNames} (h : ∀ v ∈ objects, v.expr.StoreFree names setters) :
    (r.script objects).StoreFree names setters := by
  unfold script
  split
  · exact h _ List.mem_cons_self
  · exact .of_isReusable rfl
  · exact .of_isReusable rfl

theorem Lowers.stores (hnames : cx.names.StoresApart) {e : Expr} {n n' : Nat} {w : Lowered}
    (hplay : e.Everywhere (·.SettersApart cx.metadata setters))
    (hparts : ∀ c ∈ e.parts, UsesNoStore cx setters c) (h : Lowers cx e n w n') :
    Stores cx setters w.stmts [w.expr] := by
  cases h with
  | @literal value =>
    exact ⟨by simp, List.forall_mem_singleton.2 (.of_isReusable (by cases value <;> rfl))⟩
  | @defaultValue ty =>
    refine ⟨by simp, List.forall_mem_singleton.2 ?_⟩
    unfold Context.defaultValue
    cases cx.metadata.semantics ty with
    | reference => exact .of_isReusable rfl
    | _ =>
      have hhelper : Script.storeCall cx.names setters (.ident cx.names.defaultValue)
          [.typeHandle ty.name] = false :=
        storeCall_helper hnames (by simp) (by simp [Script.baseMethod?])
      exact ⟨by simp [Script.Expr.calls, hhelper], rfl⟩
  | this => exact ⟨by simp, List.forall_mem_singleton.2 (.of_isReusable rfl)⟩
  | load _ htarget haddr hload =>
    have ht := Target.StoresApart.of_ofPlace htarget hplay.here (by simpa using hparts)
    have hall := haddr.stores ht
    exact ⟨hall.stmts, List.forall_mem_singleton.2 (Target.storeFree_load hnames
      (LoweredAddress.storeFree_passed hnames hall.exprs _ _) ht.getter hload)⟩
  | @call r m args _ _ _ name objects vs _ hmethod htaken _ =>
    have hall := htaken.stores (by rwa [map_snd_map_capture])
    have hvs : ∀ v ∈ objects ++ vs, v.expr.StoreFree cx.names setters :=
      fun v hv => hall.exprs _ (List.mem_map_of_mem hv)
    obtain ⟨hobjects, hargs⟩ := List.forall_mem_append.1 hvs
    exact ⟨hall.stmts, List.forall_mem_singleton.2 (storeFree_callScript hnames
      (hplay.here.method r m args rfl name hmethod) (Receiver.storeFree_script hobjects)
      (cx.storeFree_handed hnames hargs _))⟩
  | callInline _ htaken =>
    have hall := htaken.stores (by rwa [map_snd_map_capture])
    exact ⟨hall.stmts, List.forall_mem_singleton.2 ⟨rfl, rfl⟩⟩
  | @binary _ _ _ _ _ _ _ l r _ htaken =>
    have hall := htaken.stores (by simpa using hparts)
    have hl := hall.exprs l.expr (by simp)
    exact ⟨hall.stmts, List.forall_mem_singleton.2 (hl.binary (hall.exprs r.expr (by simp)))⟩
  | @assign a span _ _ _ h =>
    have hassigned := h.stores hnames (hparts _ (Expr.value_mem_parts a span))
      fun t ht => .of_assign hplay hparts ht
    exact ⟨hassigned.stmts, List.forall_mem_singleton.2 (hassigned.used rfl)⟩

/-- No store is used in lowering an expression for its value. -/
theorem UsesNoStore.of_everywhere (hnames : cx.names.StoresApart) (e : Expr)
    (hplay : e.Everywhere (·.SettersApart cx.metadata setters)) : UsesNoStore cx setters e := by
  induction e using Expr.inductParts with
  | step e ih =>
    intro n n' w h
    exact (Lowers.of_lower h).stores hnames hplay fun c hc => ih c hc (hplay.part c hc)

end AssignmentLowering
