import AssignmentLowering.Proofs.Effects.Handover

/-!
# When operands are copied that are handed over

A call, an accessor that reads and an accessor that writes are handed operands. A copy of a
value read from storage is made where the value is handed over. So it is made behind the
statements of all operands, those of later ones too, and behind every value that is handed
over before it; and what these do to the storage shows in the copy.

## Main definitions

* `Site` — script that hands operands over, and the statements that are run before it.

## Main statements

* `Site.handover` — how operands are handed over.
* `Site.copiesFirst_iff` — when the copy of an operand that was read from storage is made
  before the effects of all later operands.
-/

namespace AssignmentLowering

open Script (Stmt Moment)

variable {cx : Context}

/-- Whether an expression reads storage, and no code is run for it. -/
def Expr.readsStorage (md : Metadata) (e : Expr) : Bool :=
  match e.form with
  | .place p => !p.runsCode md
  | _ => false

/-- What is read from storage is not fresh. -/
theorem Expr.fresh_of_readsStorage {o : Expr} (ho : o.readsStorage cx.metadata = true)
    {n n' : Nat} {w : Lowered} (h : o.lower cx n = .ok w n') : w.fresh = false := by
  obtain ⟨form, span⟩ := o
  cases form with
  | place p =>
    cases Lowers.of_lower h with
    | this => rfl
    | load _ htarget _ _ =>
      have hgetter := (Classified.of_ofPlace htarget).getter?_eq_none
        (by simpa [Expr.readsStorage] using ho)
      simp [Target.loadIsFresh, hgetter]
  | _ => cases ho

/-- Script that hands the operands `os`, in the order of their evaluation, over at the types
`tys`, in the order of handing over. The types are those of parameters and of what is
stored; objects are handed over at none. -/
inductive Site (cx : Context) :
    List Expr → List (Option TypeRef) → List Stmt → Script.Expr → Prop
  /-- A call, behind its statements. -/
  | call {r : Receiver Expr} {m : Method} {args : List Expr} {span : Span} {n n' : Nat}
      {w : Lowered} (h : Expr.lower cx ⟨.call r m args, span⟩ n = .ok w n') :
      Site cx (r.object?.toList ++ args)
        (r.object?.toList.map (fun _ => none) ++ (argTypes m.params args).map some) w.stmts w.expr
  /-- Reading with an accessor, behind its statements. -/
  | load {p : Place Expr} {span : Span} {t : Target Expr} {n n' : Nat} {w : Lowered}
      (htarget : Target.ofPlace cx.metadata cx.enclosing Expr.ty span p = .ok t)
      (hcode : t.loadIsFresh = true) (h : Expr.lower cx ⟨.place p, span⟩ n = .ok w n') :
      Site cx (t.operands ++ t.omitted) t.handedTypes w.stmts w.expr
  /-- Reading the old value for a compound assignment, behind the statements of the target. -/
  | reload {a : Assignment Expr} {t : Target Expr} {n n' : Nat} {addr : LoweredAddress}
      {stmts : List Stmt} {load : Script.Expr}
      (htarget : a.target.target cx.metadata cx.enclosing = .ok t) (hcode : t.loadIsFresh = true)
      (haddr : Addressed cx true [a.value] t n addr stmts n')
      (hload : t.load cx.names (addr.passed cx t.getter? 2) = .ok load) :
      Site cx (t.operands ++ t.omitted) t.handedTypes stmts load
  /-- Writing with an accessor, behind the statements of the target and the value. -/
  | store {usage : Usage} {a : Assignment Expr} {span : Span} {t : Target Expr} {n n' : Nat}
      {w : Lowered} {store : Script.Expr} {result : Value} {stmts : List Stmt}
      (htarget : a.target.target cx.metadata cx.enclosing = .ok t)
      (hcode : t.setter?.any Accessor.runsCode = true)
      (h : lowerAssignment cx usage a span n = .ok w n')
      (hfinish : w = usage.finish store result stmts) :
      Site cx (t.operands ++ t.omitted ++ [a.value]) (t.handedTypes ++ [some t.ty]) stmts store

/-! ## Calls -/

/-- Arguments of a call are handed over in their order. -/
theorem gives_handed (wv : List Lowered) : ∀ (wo : List Lowered) {tys : List TypeRef},
    wv.length = tys.length →
      List.Forall₂ (Handover.Gives cx (wo ++ wv))
        ((cx.handed tys (wv.map (·.toValue))).zipIdx wo.length) (tys.map some) := by
  induction wv with
  | nil =>
    intro wo tys hlen
    rw [List.length_nil, eq_comm, List.length_eq_zero_iff] at hlen
    subst hlen
    exact .nil
  | cons w wv ih =>
    intro wo tys hlen
    cases tys with
    | nil => cases hlen
    | cons ty tys =>
      have htail : wv.length = tys.length := by simpa using hlen
      have hrest := ih (wo ++ [w]) htail
      simp only [List.append_assoc, List.singleton_append, List.length_append,
        List.length_singleton] at hrest
      exact .cons ⟨w, by simp, 1, rfl⟩ hrest

/-- The object of a call is handed over as it is. -/
theorem gives_objects {object? : Option Expr} {wo : List Lowered}
    (hlen : wo.length = object?.toList.length) (wv : List Lowered) :
    List.Forall₂ (Handover.Gives cx (wo ++ wv)) ((wo.map (·.toValue)).map (·.expr)).zipIdx
      (object?.toList.map fun _ => none) := by
  cases object? with
  | none =>
    rw [Option.toList_none, List.length_nil, List.length_eq_zero_iff] at hlen
    subst hlen
    exact .nil
  | some e =>
    rw [Option.toList_some, List.length_singleton, List.length_eq_one_iff] at hlen
    obtain ⟨w, rfl⟩ := hlen
    exact .cons ⟨w, rfl, rfl⟩ .nil

/-- A call that is bound to a name hands its operands over and comes to its effect. -/
theorem moments_callScript (hnames : cx.names.Separated) {r : Receiver Expr} {name : String}
    {objects : List Value} {args : List Script.Expr}
    (hobjects : objects.length = r.object?.toList.length) :
    (callScript cx.names r name (r.script objects) args).moments cx.names =
      (objects.map (·.expr) ++ args).flatMap (Script.Expr.moments cx.names) ++
        [.effect ⟨r.callLabel name, args⟩] := by
  cases r with
  | object e =>
    match objects, hobjects with
    | [v], _ => simp [callScript, Receiver.script, Receiver.callLabel]
  | static owner =>
    rw [Receiver.object?, Option.toList_none, List.length_nil, List.length_eq_zero_iff] at hobjects
    simp [callScript, Receiver.script, hobjects, Script.Expr.moments, Receiver.callLabel]
  | base declaring =>
    rw [Receiver.object?, Option.toList_none, List.length_nil, List.length_eq_zero_iff] at hobjects
    simp [callScript, hobjects, Script.Expr.moments_callBase hnames, Receiver.callLabel]

/-- Operands of a call, lowered in their order, are handed over in it. -/
theorem TakenAll.handover {r : Receiver Expr} {args : List Expr} {c : Capture} {n n' : Nat}
    {objects vs : List Value} {stmts : List Stmt} {tys : List TypeRef} {call : Script.Expr}
    (h : TakenAll cx [] ((r.object?.toList ++ args).map (c, ·)) n (objects ++ vs) stmts n')
    (hobjects : objects.length = r.object?.toList.length) (hlen : vs.length = tys.length)
    (hruns : ∀ H : Handover, H.handed.map (·.1) = objects.map (·.expr) ++ cx.handed tys vs →
      H.Runs cx.names call) :
    ∃ H : Handover, H.Of cx (r.object?.toList ++ args)
      (r.object?.toList.map (fun _ => none) ++ tys.map some) stmts call := by
  obtain ⟨ws, hshares, hws, rfl⟩ := h.shares .nil
  rw [map_snd_map_capture, List.append_nil, List.append_nil] at hshares
  obtain ⟨wo, wv, rfl, rfl, rfl⟩ := List.map_eq_append_iff.1 hws
  have hcount := hshares.length_eq
  refine ⟨⟨wo ++ wv, ((wo.map (·.toValue)).map (·.expr) ++
    cx.handed tys (wv.map (·.toValue))).zipIdx⟩, hshares, rfl, ?_, ?_, hruns _ ?_⟩
  · rw [List.zipIdx_map_snd, ← hcount, ← List.range_eq_range']
    refine .of_eq (congrArg _ ?_)
    simp only [List.length_map] at hlen
    simp [Context.handed, hlen]
  · rw [List.zipIdx_append]
    refine List.rel_append ?_ ?_
    · exact gives_objects (by simpa using hobjects) wv
    · simpa using gives_handed wv wo (by simpa using hlen)
  · rw [List.zipIdx_map_fst]

/-- A call hands its operands over. -/
theorem Lowers.handover_call (hnames : cx.names.Separated) {r : Receiver Expr} {m : Method}
    {args : List Expr} {span : Span} {n n' : Nat} {w : Lowered}
    (h : Lowers cx ⟨.call r m args, span⟩ n w n') :
    ∃ H : Handover, H.Of cx (r.object?.toList ++ args)
      (r.object?.toList.map (fun _ => none) ++ (argTypes m.params args).map some)
      w.stmts w.expr := by
  cases h with
  | @call _ _ _ _ _ _ name objects vs _ hmethod htaken hobjects =>
    refine htaken.handover hobjects (htaken.length_handed _ hobjects) fun H hhanded => ?_
    have hmoments : H.handed.flatMap (·.1.moments cx.names) =
        (objects.map (·.expr) ++ cx.handed (argTypes m.params args) vs).flatMap
          (Script.Expr.moments cx.names) := by
      rw [← hhanded, List.flatMap_map]
    have hcall : (callScript cx.names r name (r.script objects)
        (cx.handed (argTypes m.params args) vs)).moments cx.names =
          H.handed.flatMap (·.1.moments cx.names) ++
            [.effect ⟨r.callLabel name, cx.handed (argTypes m.params args) vs⟩] := by
      rw [hmoments]
      exact moments_callScript hnames hobjects
    exact .call hcall (hhanded ▸ List.suffix_append ..)
  | @callInline _ _ _ _ _ _ _ _ objects vs _ hmethod htaken hobjects htext =>
    have hlen := htaken.length_handed m.params hobjects
    refine htaken.handover hobjects hlen fun H hhanded => .code ?_
    have hquiet : (H.handed.map (·.1)).flatMap (Script.Expr.events cx.names) = [] := by
      rw [hhanded, List.flatMap_append, Context.events_handed vs hlen, List.flatMap_map,
        ← List.flatMap_append, htaken.events_eq_nil_of_reuse]
    rwa [List.flatMap_map, List.flatMap_eq_nil_iff] at hquiet

/-! ## Accessors -/

section

variable {names : RuntimeNames} {t : Target Expr} {p : Place Expr} {span : Span} {a : Address}

/-- A target with accessors is of a kind that goes by them. -/
theorem Classified.load_eq (h : Classified cx.metadata Expr.ty span p t) {g : Accessor}
    (hg : t.getter? = some g) : t.load names a = t.useAccessor names a none g := by
  have hkind : ¬(t.kind = .receiver ∨ t.kind = .multiElement) := fun hkind => by
    rw [h.getter?_of_kind hkind] at hg
    cases hg
  unfold Target.load
  rw [hg]
  split <;> simp_all

theorem Classified.store_eq (h : Classified cx.metadata Expr.ty span p t) {s : Accessor}
    (hs : t.setter? = some s) (value : Script.Expr) :
    t.store names a value = t.useAccessor names a (some value) s := by
  have hkind : ¬(t.kind = .receiver ∨ t.kind = .multiElement) := fun hkind => by
    have hgetter := h.getter?_of_kind hkind
    unfold Target.getter? Storage.getter? at hgetter
    unfold Target.setter? Storage.setter? at hs
    cases hstorage : t.storage <;> simp [hstorage] at hgetter hs
  unfold Target.store
  rw [hs]
  split <;> simp_all

end

/-- Reading with an accessor that runs code hands the operands of the target over. -/
theorem Addressed.handover_load (hnames : cx.names.Separated) {reuse : Bool} {rest : List Expr}
    {p : Place Expr} {span : Span} {t : Target Expr} {n n' uses : Nat} {a : LoweredAddress}
    {stmts : List Stmt} {load : Script.Expr}
    (htarget : Target.ofPlace cx.metadata cx.enclosing Expr.ty span p = .ok t)
    (hcode : t.loadIsFresh = true) (haddr : Addressed cx reuse rest t n a stmts n')
    (hreuse : t.getterIsInline = true → reuse = true)
    (hload : t.load cx.names (a.passed cx t.getter? uses) = .ok load) :
    ∃ H : Handover, H.Of cx (t.operands ++ t.omitted) t.handedTypes stmts load := by
  have hclassified := Classified.of_ofPlace htarget
  obtain ⟨g, hg, hruns⟩ : ∃ g, t.getter? = some g ∧ g.runsCode = true := by
    simpa [Target.loadIsFresh, Option.any_eq_true] using hcode
  rw [hclassified.load_eq hg, hg] at hload
  have hall := haddr.handover hnames hclassified.wellFormed (Target.ofPlace_arranges htarget).2
    hruns (fun hi => ⟨hreuse (by simpa [Target.getterIsInline, hg] using hi), rfl⟩) .nil .nil rfl
    hload
  simpa using hall

/-- Writing with an accessor that runs code hands the operands of the target over, and then
the value. -/
theorem Addressed.handover_store (hnames : cx.names.Separated) {reuse : Bool} {rest : List Expr}
    {p : Place Expr} {span : Span} {t : Target Expr} {n n' uses : Nat} {a : LoweredAddress}
    {stmts : List Stmt} {value store : Script.Expr} {o : Expr} {w : Lowered}
    (htarget : Target.ofPlace cx.metadata cx.enclosing Expr.ty span p = .ok t)
    (hcode : t.setter?.any Accessor.runsCode = true)
    (haddr : Addressed cx reuse rest t n a stmts n')
    (hinline : t.setterIsInline = true → reuse = true ∧ value.events cx.names = [])
    (hshare : Shares cx [o] [w]) (hvalue : ∃ uses, value = cx.copied t.ty w.fresh uses w.expr)
    (hstore : t.store cx.names (a.passed cx t.setter? uses) value = .ok store) :
    ∃ H : Handover, H.Of cx (t.operands ++ t.omitted ++ [o]) (t.handedTypes ++ [some t.ty])
      (stmts ++ w.stmts) store := by
  have hclassified := Classified.of_ofPlace htarget
  obtain ⟨s, hs, hruns⟩ : ∃ s, t.setter? = some s ∧ s.runsCode = true := by
    simpa [Option.any_eq_true] using hcode
  rw [hclassified.store_eq hs, hs] at hstore
  have hgives : List.Forall₂
      (fun e ty? => ∀ ws', Handover.Gives cx (ws' ++ [w]) (e, ws'.length) ty?)
      (some value).toList [some t.ty] :=
    .cons (fun ws' => ⟨w, by simp, hvalue⟩) .nil
  have hall := haddr.handover hnames hclassified.wellFormed (Target.ofPlace_arranges htarget).2
    hruns (fun hi => by simpa using hinline (by simpa [Target.setterIsInline, hs] using hi))
    hshare hgives rfl hstore
  simpa using hall

theorem Target.isNative_of_setter? {t : Target Expr}
    (hcode : t.setter?.any Accessor.runsCode = true) : t.isNative = false := by
  unfold Target.setter? Storage.setter? at hcode
  unfold Target.isNative
  cases hstorage : t.storage <;> simp [hstorage] at hcode ⊢
  cases t.kind <;> rfl

/-- A store is known from what is returned for it. -/
theorem Usage.finish_inj {usage : Usage} {store store' : Script.Expr} {result result' : Value}
    {stmts stmts' : List Stmt}
    (h : usage.finish store result stmts = usage.finish store' result' stmts') :
    store = store' ∧ stmts = stmts' := by
  cases usage with
  | used =>
    have hall : stmts ++ [Stmt.expr store] = stmts' ++ [Stmt.expr store'] :=
      congrArg Lowered.stmts h
    obtain ⟨hstmts, hlast⟩ := List.append_inj' hall rfl
    cases hlast
    exact ⟨rfl, hstmts⟩
  | discarded => exact ⟨congrArg (·.expr) h, congrArg Lowered.stmts h⟩

/-- **How operands are handed over.** -/
theorem Site.handover (hnames : cx.names.Separated) {os : List Expr}
    {tys : List (Option TypeRef)} {stmts : List Stmt} {call : Script.Expr}
    (h : Site cx os tys stmts call) : ∃ H : Handover, H.Of cx os tys stmts call := by
  cases h with
  | call h => exact (Lowers.of_lower h).handover_call hnames
  | load htarget hcode h =>
    cases Lowers.of_lower h with
    | this =>
      cases Classified.of_ofPlace htarget
      cases hcode
    | load _ htarget' haddr hload =>
      rw [htarget] at htarget'
      cases htarget'
      exact haddr.handover_load hnames htarget hcode id hload
  | reload htarget hcode haddr hload =>
    obtain ⟨p, -, hplace⟩ := Expr.target_arranges htarget
    exact haddr.handover_load hnames hplace hcode (fun _ => rfl) hload
  | @store usage a _ t _ _ _ _ _ _ htarget hcode h hfinish =>
    obtain ⟨p, -, hplace⟩ := Expr.target_arranges htarget
    have hnative := Target.isNative_of_setter? hcode
    cases LowersAssign.of_lowerAssignment h with
    | native htarget' _ hnative' | readBack htarget' _ hnative'
    | compoundNative htarget' _ hnative' =>
      rw [htarget] at htarget'
      cases htarget'
      rw [hnative] at hnative'
      cases hnative'
    | byCall htarget' _ _ haddr hvalue hstore =>
      rw [htarget] at htarget'
      cases htarget'
      obtain ⟨rfl, rfl⟩ := Usage.finish_inj hfinish
      refine haddr.handover_store hnames hplace hcode (fun hi => ⟨hi, ?_⟩) (.cons hvalue .nil)
        ⟨_, rfl⟩ hstore
      rw [Context.events_copied]
      exact Script.Expr.events_of_isReusable _ (hvalue.isReusable (by simp [hi]))
    | @compoundByCall _ _ _ _ _ _ _ _ stmts₀ stmts₁ stmts₂ stmts₃ _ _ _ _ htarget' _ _ _ haddr
        hload hold hvalue hnew hstore =>
      rw [htarget] at htarget'
      cases htarget'
      obtain ⟨rfl, rfl⟩ := Usage.finish_inj hfinish
      have hassoc : stmts₀ ++ stmts₁ ++ stmts₂ ++ stmts₃ =
          stmts₀ ++ (stmts₁ ++ stmts₂ ++ stmts₃) := by simp
      rw [hassoc]
      refine haddr.handover_store hnames hplace hcode (fun hi => ⟨rfl, ?_⟩)
        (.combined hload hold hvalue hnew) ⟨_, rfl⟩ hstore
      rw [Context.events_copied]
      exact hnew.events.2 (by simp [hi])

/-- **When operands are copied.** Let an operand be read from storage and handed over at a
mutable type, with others evaluated behind it. Then a copy of it is handed over, which is
made where it is handed over. It is made before all effects of later operands if and only
if these have no effects in the statements that they need, nor those of them that are
handed over before it in their values. -/
theorem Site.copiesFirst_iff (hnames : cx.names.Separated) {os : List Expr}
    {tys : List (Option TypeRef)} {stmts : List Stmt} {call : Script.Expr}
    (hsite : Site cx os tys stmts call) :
    ∃ H : Handover, H.Of cx os tys stmts call ∧
      ∀ d i e o ty tag, H.handed[d]? = some (e, i) → tys[d]? = some (some ty) →
        cx.metadata.semantics ty = .mutable tag → os[i]? = some o →
        o.readsStorage cx.metadata = true → i + 1 < os.length →
        ∃ x, e = clone cx.names x tag ∧
          (∃ front copy behind,
            Script.moments cx.names stmts ++ call.moments cx.names = front ++ copy :: behind ∧
              Handover.Makes x copy ∧
              front.filterMap Moment.effect? = (H.before cx.names d).map (·.1)) ∧
          (H.CopiesFirst cx.names d i ↔
            (∀ j w, i < j → H.shares[j]? = some w → Script.events cx.names w.stmts = []) ∧
              ∀ y ∈ H.handed.take d, i < y.2 → y.1.events cx.names = []) := by
  obtain ⟨H, hof⟩ := hsite.handover hnames
  refine ⟨H, hof, fun d i e o ty tag hd hty hsem ho hreads hi => ?_⟩
  obtain ⟨c, later, n, v, _, n', htaken, hshare⟩ := hof.operands.taken ho hi
  have hfresh : v.fresh = false := by
    cases htaken with
    | intro hlower _ => exact Expr.fresh_of_readsStorage hreads hlower
  have hzip : ((e, i), some ty) ∈ H.handed.zip tys :=
    List.mem_of_getElem? (i := d) (by simp [List.zip, List.getElem?_zipWith, hd, hty])
  have hgives : Handover.Gives cx H.shares (e, i) (some ty) := List.forall₂_zip hof.gives hzip
  obtain ⟨w, hw, uses, he⟩ := hgives
  rw [hshare, Option.some_inj] at hw
  subst hw
  have hclone : e = clone cx.names v.expr tag := by
    simpa [Context.copied, copied, hfresh, hsem, CopySemantics.tag?] using he
  subst hclone
  exact ⟨v.expr, rfl, hof.runs.exists_copy hof.stmts_eq hd, Handover.copiesFirst_iff_quiet hd⟩

namespace Sample

/-- `M(f, F(), G())` -/
def handing : Expr := call "M" [field "f", call "F" [], call "G" []]

def handingOperands : List Expr := [this, field "f", call "F" [], call "G" []]

def handingTypes : List (Option TypeRef) := [none, some ty, some ty, some ty]

end Sample

open Sample in
/-- The field is handed over as a copy, behind the statement that keeps the value of `F`. -/
theorem Site.copiesFirst_iff_field : ∃ (w : Lowered) (n' : Nat) (H : Handover),
    handing.lower (context (.mutable "Point")) 0 = .ok w n' ∧
      H.Of (context (.mutable "Point")) handingOperands
        handingTypes w.stmts w.expr ∧
      ∀ d e, H.handed[d]? = some (e, 1) → handingTypes[d]? = some (some ty) →
        ∃ x, e = clone {} x "Point" ∧ (H.CopiesFirst {} d 1 ↔
          (∀ j w, 1 < j → H.shares[j]? = some w → Script.events {} w.stmts = []) ∧
            ∀ y ∈ H.handed.take d, 1 < y.2 → y.1.events {} = []) := by
  have hlowered : (EStateM.run' (handing.lower (context (.mutable "Point"))) 0).isSome := by
    decide +kernel
  cases h : handing.lower (context (.mutable "Point")) 0 with
  | error e n' =>
    delta EStateM.run' EStateM.run at hlowered
    rw [h] at hlowered
    cases hlowered
  | ok w n' =>
    have hsite : Site (context (.mutable "Point")) handingOperands handingTypes w.stmts w.expr :=
      .call h
    obtain ⟨H, hof, hcopies⟩ := Site.copiesFirst_iff (by decide) hsite
    refine ⟨w, n', H, rfl, hof, fun d e hd hty => ?_⟩
    obtain ⟨x, hx, -, hiff⟩ := hcopies d 1 e (field "f") ty "Point" hd hty rfl rfl rfl (by decide)
    exact ⟨x, hx, hiff⟩

end AssignmentLowering
