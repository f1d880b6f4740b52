import AssignmentLowering.Proofs.Lowering.Steps

/-!
# What lowering a form comes to

For every form, what a successful lowering returns: the script expression, whether it
is fresh and stable, and the statements, in terms of what its operands were lowered
to. Everything proved about lowering is proved by cases on these two relations.

## Main definitions

* `Lowers` — an expression lowered for its value.
* `LowersAssign` — an assignment whose value may not be wanted.

## Main statements

* `Lowers.of_lower`, `LowersAssign.of_lowerAssignment` — a successful lowering is of
  one of these forms.
-/

namespace AssignmentLowering

open Script (Stmt)
open Sequence (next capture push)

/-- The object through which a method is called, given what the receiver was lowered to. -/
def Receiver.script {ε : Type} : Receiver ε → List Value → Script.Expr
  | .object _, v :: _ => v.expr
  | .static owner, _ => .typeHandle owner.name
  | _, _ => .this

/-- A call of a method that is bound to the name `name`. -/
def callScript {ε : Type} (names : RuntimeNames) (r : Receiver ε) (name : String)
    (object : Script.Expr) (args : List Script.Expr) : Script.Expr :=
  match r with
  | .base declaring => callBase names declaring name args
  | .object _ | .static _ => .callMethod object name args

/-- The types that arguments are handed over at: those of the parameters, and their own
where no parameter is left. -/
def argTypes : List Param → List Expr → List TypeRef
  | _, [] => []
  | params, o :: rest => (params.head?.map (·.ty)).getD o.ty :: argTypes params.tail rest

theorem length_argTypes : ∀ (params : List Param) (args : List Expr),
    (argTypes params args).length = args.length
  | _, [] => rfl
  | params, _ :: args => by simp [argTypes, length_argTypes params.tail args]

/-- A call is handed as many values as it has arguments. -/
theorem TakenAll.length_handed {cx : Context} {r : Receiver Expr} {args : List Expr}
    {c : Capture} {n n' : Nat} {objects vs : List Value} {stmts : List Stmt}
    (params : List Param)
    (h : TakenAll cx [] ((r.object?.toList ++ args).map (c, ·)) n (objects ++ vs) stmts n')
    (hobjects : objects.length = r.object?.toList.length) :
    vs.length = (argTypes params args).length := by
  have hall := h.length_eq
  simp only [List.length_append, List.length_map] at hall
  rw [length_argTypes]
  omega

/-- Values handed over at the given types, each once. -/
def Context.handed (cx : Context) (tys : List TypeRef) (vs : List Value) : List Script.Expr :=
  List.zipWith (fun ty v => cx.copied ty v.fresh 1 v.expr) tys vs

/-- A value that may be shared is handed over as it is. -/
theorem Context.copied_of_shared {cx : Context} {ty : TypeRef}
    (h : (cx.metadata.semantics ty).tag? = none) (fresh : Bool) (uses : Nat) (e : Script.Expr) :
    cx.copied ty fresh uses e = e := by
  unfold Context.copied AssignmentLowering.copied CopySemantics.cloneTag?
  rw [h, ite_self]

/-- What is handed over is the value, or a copy of it. -/
theorem Context.copied_eq {cx : Context} (ty : TypeRef) (fresh : Bool) (uses : Nat)
    (e : Script.Expr) :
    cx.copied ty fresh uses e = e ∨ ∃ tag, cx.copied ty fresh uses e = clone cx.names e tag := by
  unfold copied AssignmentLowering.copied
  cases (cx.metadata.semantics ty).cloneTag? fresh uses with
  | none => exact .inl rfl
  | some tag => exact .inr ⟨tag, rfl⟩

/-- An accessor is passed the arguments, or copies of them. -/
theorem LoweredAddress.exists_args_passed {cx : Context} (a : LoweredAddress)
    (accessor : Option Accessor) (uses : Nat) : ∃ f : IndexValue → Script.Expr,
      (a.passed cx accessor uses).args = a.args.map f ∧
        ∀ v : IndexValue, f v = v.expr ∨ ∃ tag, f v = clone cx.names v.expr tag := by
  unfold passed
  split
  · exact ⟨_, rfl, fun v => cx.copied_eq v.ty v.fresh uses v.expr⟩
  · exact ⟨_, rfl, fun v => .inl rfl⟩

/-- A store as a statement before its result, or as the expression itself. -/
def Usage.finish (usage : Usage) (store : Script.Expr) (result : Value) (stmts : List Stmt) :
    Lowered :=
  match usage with
  | used => { result with stmts := stmts ++ [.expr store] }
  | discarded => { expr := store, fresh := false, stable := false, stmts }

/-- What lowering an assignment returns. -/
inductive LowersAssign (cx : Context) (usage : Usage) (a : Assignment Expr) (n : Nat) :
    Lowered → Nat → Prop
  /-- The target is assigned where the value of the assignment is wanted. -/
  | native {t : Target Expr} {addr : LoweredAddress} {v : Value} {place : Script.Expr}
      {stmts stmts' : List Stmt} {n' n'' : Nat}
      (htarget : a.target.target cx.metadata cx.enclosing = .ok t)
      (hop : a.op.binary? = none) (hnative : t.isNative = true)
      (hshared : (usage.isUsed && (cx.metadata.semantics t.ty).tag?.isSome) = false)
      (haddr : Addressed cx false [a.value] t n addr stmts n')
      (hvalue : Taken cx {} [] a.value n' v stmts' n'')
      (hplace : t.native cx.names addr.address = .ok place) :
      LowersAssign cx usage a n
        { expr := .assign place (cx.copied t.ty v.fresh 1 v.expr), fresh := v.fresh,
          stable := false, stmts := stmts ++ stmts' } n''
  /-- The target is assigned by a statement and read back. -/
  | readBack {t : Target Expr} {addr : LoweredAddress} {v : Value} {place : Script.Expr}
      {stmts stmts' : List Stmt} {n' n'' : Nat}
      (htarget : a.target.target cx.metadata cx.enclosing = .ok t)
      (hop : a.op.binary? = none) (hnative : t.isNative = true)
      (hshared : (usage.isUsed && (cx.metadata.semantics t.ty).tag?.isSome) = true)
      (haddr : Addressed cx true [a.value] t n addr stmts n')
      (hvalue : Taken cx {} [] a.value n' v stmts' n'')
      (hplace : t.native cx.names addr.address = .ok place) :
      LowersAssign cx usage a n
        { expr := place, fresh := false, stable := false,
          stmts := stmts ++ stmts' ++
            [.expr (.assign place (cx.copied t.ty v.fresh 1 v.expr))] } n''
  /-- The target is written by a call. -/
  | byCall {t : Target Expr} {addr : LoweredAddress} {v : Value} {store : Script.Expr}
      {stmts stmts' : List Stmt} {n' n'' : Nat}
      (htarget : a.target.target cx.metadata cx.enclosing = .ok t)
      (hop : a.op.binary? = none) (hnative : t.isNative = false)
      (haddr : Addressed cx t.setterIsInline [a.value] t n addr stmts n')
      (hvalue : Taken cx ⟨(usage.isUsed && !t.isReceiver) || t.setterIsInline, false⟩ []
        a.value n' v stmts' n'')
      (hstore : t.store cx.names (addr.passed cx t.setter? 1)
        (cx.copied t.ty v.fresh (if usage.isUsed && !t.isReceiver then 2 else 1) v.expr) =
          .ok store) :
      LowersAssign cx usage a n
        (usage.finish store
          (if t.isReceiver then ⟨.this, false, true⟩ else ⟨v.expr, false, v.stable⟩)
          (stmts ++ stmts')) n''
  /-- The target is the left operand of a compound operator of script. -/
  | compoundNative {t : Target Expr} {op : BinaryOp} {addr : LoweredAddress} {v : Value}
      {place : Script.Expr} {stmts stmts' : List Stmt} {n' n'' : Nat}
      (htarget : a.target.target cx.metadata cx.enclosing = .ok t)
      (hop : a.op.binary? = some op) (hnative : t.isNative = true)
      (haddr : Addressed cx false [a.value] t n addr stmts n')
      (hvalue : Taken cx {} [] a.value n' v stmts' n'')
      (hplace : t.native cx.names addr.address = .ok place) :
      LowersAssign cx usage a n
        { expr := .compoundAssign op place v.expr, fresh := true, stable := false,
          stmts := stmts ++ stmts' } n''
  /-- The target is read by one call and written by another. -/
  | compoundByCall {t : Target Expr} {op : BinaryOp} {addr : LoweredAddress} {v : Value}
      {load old new store : Script.Expr} {stmts stmts₁ stmts₂ stmts₃ : List Stmt}
      {n₁ n₂ n₃ n₄ : Nat}
      (htarget : a.target.target cx.metadata cx.enclosing = .ok t)
      (hop : a.op.binary? = some op) (hnative : t.isNative = false)
      (hreceiver : t.isReceiver = false)
      (haddr : Addressed cx true [a.value] t n addr stmts n₁)
      (hload : t.load cx.names (addr.passed cx t.getter? 2) = .ok load)
      (hold : Held cx load n₁ (a.value.hasEffects cx.metadata) old stmts₁ n₂)
      (hvalue : Taken cx {} [] a.value n₂ v stmts₂ n₃)
      (hnew : Held cx (.binary op old v.expr) n₃ (usage.isUsed || t.setterIsInline) new stmts₃ n₄)
      (hstore : t.store cx.names (addr.passed cx t.setter? 2)
        (cx.copied t.ty true (if usage.isUsed then 2 else 1) new) = .ok store) :
      LowersAssign cx usage a n
        (usage.finish store ⟨new, false, true⟩ (stmts ++ stmts₁ ++ stmts₂ ++ stmts₃)) n₄

/-- What can be lowered has a target. -/
theorem LowersAssign.exists_target {cx : Context} {usage : Usage} {a : Assignment Expr} {n n' : Nat}
    {w : Lowered} (h : LowersAssign cx usage a n w n') :
    ∃ t, a.target.target cx.metadata cx.enclosing = .ok t := by
  cases h with
  | native h | readBack h | byCall h | compoundNative h | compoundByCall h => exact ⟨_, h⟩

/-- What lowering an expression returns. -/
inductive Lowers (cx : Context) : Expr → Nat → Lowered → Nat → Prop
  | literal {value : Literal} {ty : TypeRef} {span : Span} {n : Nat} :
      Lowers cx ⟨.literal value ty, span⟩ n
        { expr := value.script, fresh := true, stable := true } n
  | defaultValue {ty : TypeRef} {span : Span} {n : Nat} :
      Lowers cx ⟨.defaultValue ty, span⟩ n
        { expr := cx.defaultValue ty, fresh := true, stable := false } n
  | this {ty : TypeRef} {span : Span} {n : Nat} :
      Lowers cx ⟨.place (.this ty), span⟩ n { expr := .this, fresh := false, stable := true } n
  | load {p : Place Expr} {span : Span} {n n' : Nat} {t : Target Expr} {addr : LoweredAddress}
      {load : Script.Expr} {stmts : List Stmt}
      (hthis : ∀ ty, p ≠ .this ty)
      (htarget : Target.ofPlace cx.metadata cx.enclosing Expr.ty span p = .ok t)
      (haddr : Addressed cx t.getterIsInline [] t n addr stmts n')
      (hload : t.load cx.names (addr.passed cx t.getter? 1) = .ok load) :
      Lowers cx ⟨.place p, span⟩ n
        { expr := load, fresh := t.loadIsFresh, stable := false, stmts } n'
  | call {r : Receiver Expr} {m : Method} {args : List Expr} {span : Span} {n n' : Nat}
      {name : String} {objects vs : List Value} {stmts : List Stmt}
      (hmethod : cx.metadata.method m = .method name)
      (htaken : TakenAll cx [] ((r.object?.toList ++ args).map ({}, ·)) n (objects ++ vs) stmts n')
      (hobjects : objects.length = r.object?.toList.length) :
      Lowers cx ⟨.call r m args, span⟩ n
        { expr := callScript cx.names r name (r.script objects)
            (cx.handed (argTypes m.params args) vs),
          fresh := true, stable := false, stmts } n'
  | callInline {r : Receiver Expr} {m : Method} {args : List Expr} {span : Span} {n n' : Nat}
      {template text : String} {objects vs : List Value} {stmts : List Stmt}
      (hmethod : cx.metadata.method m = .inline template)
      (htaken : TakenAll cx [] ((r.object?.toList ++ args).map (⟨true, false⟩, ·)) n
        (objects ++ vs) stmts n')
      (hobjects : objects.length = r.object?.toList.length)
      (htext : Template.substitute template span (callOperand? m (r.script objects)
        (cx.handed (argTypes m.params args) vs)) = .ok text) :
      Lowers cx ⟨.call r m args, span⟩ n
        { expr := .verbatim text, fresh := true, stable := false, stmts } n'
  | binary {op : BinaryOp} {left right : Expr} {ty : TypeRef} {span : Span} {n n' : Nat}
      {l r : Value} {stmts : List Stmt}
      (htaken : TakenAll cx [] [({}, left), ({}, right)] n [l, r] stmts n') :
      Lowers cx ⟨.binary op left right ty, span⟩ n
        { expr := .binary op l.expr r.expr, fresh := true, stable := false, stmts } n'
  | assign {a : Assignment Expr} {span : Span} {n n' : Nat} {v : Lowered}
      (h : LowersAssign cx .used a n v n') : Lowers cx ⟨.assign a, span⟩ n v n'

/-! ## Every successful lowering is of one of these forms -/

variable {cx : Context}

theorem sequenced_ok {operands : List Operand} {body : SequenceM Value} {n n' : Nat}
    {v : Lowered} (h : sequenced operands body n = .ok v n') :
    ∃ w s', body { temps := n, pending := operands } = .ok w s' ∧
      v = { w with stmts := s'.stmts } ∧ n' = s'.temps := by
  unfold sequenced at h
  cases hb : body { temps := n, pending := operands } with
  | ok w s' =>
    rw [hb] at h
    cases h
    exact ⟨w, s', rfl, rfl, rfl⟩
  | error e s' =>
    rw [hb] at h
    cases h

/-- The target of an operand is that of its expression. -/
theorem target_operand (e : Expr) :
    (e.operand cx).target cx =
      (e.target cx.metadata cx.enclosing).map (Target.map (Expr.operand cx)) := by
  unfold Operand.target Expr.target
  rw [Expr.operand_eq]
  cases e with
  | mk form span =>
    rw [Form.place?_map]
    exact Target.classify_map (Expr.operand cx) (fun e => ty_operand e) ..

theorem length_of_lowerArgs {reuse : Bool} {supplied : List (Nat × Value)}
    {args : List (IndexArg Operand)} {declared : Nat} {s s' : Sequence} {xs : List IndexValue}
    (h : lowerArgs cx reuse supplied declared args s = .ok xs s') : xs.length = args.length := by
  induction args generalizing declared s s' xs with
  | nil =>
    obtain ⟨rfl, -⟩ := pure_ok h
    rfl
  | cons arg rest ih =>
    have htail : ∀ {x : SequenceM Value}, (do
        let v ← x
        let vs ← lowerArgs cx reuse supplied (declared + 1) rest
        pure (⟨v.expr, arg.ty, v.fresh⟩ :: vs) : SequenceM (List IndexValue)) s = .ok xs s' →
        xs.length = rest.length + 1 := by
      intro x hx
      obtain ⟨v, s₁, -, h₁⟩ := bind_ok hx
      obtain ⟨vs, s₂, hvs, h₂⟩ := bind_ok h₁
      obtain ⟨rfl, -⟩ := pure_ok h₂
      rw [List.length_cons, ih hvs]
    rw [lowerArgs] at h
    cases hlookup : supplied.lookup declared with
    | some v => exact htail (by simpa only [hlookup] using h)
    | none => exact htail (by simpa only [hlookup] using h)

theorem length_args_of_lowerAddress {reuse : Bool} {t : Target Operand} {s s' : Sequence}
    {a : LoweredAddress} (h : lowerAddress cx reuse t s = .ok a s') :
    a.args.length = t.args.length := by
  obtain ⟨object, s₁, -, h₁⟩ := bind_ok h
  obtain ⟨supplied, s₂, -, h₂⟩ := bind_ok h₁
  obtain ⟨xs, s₃, hargs, h₃⟩ := bind_ok h₂
  obtain ⟨rfl, -⟩ := pure_ok h₃
  exact length_of_lowerArgs hargs

/-- Steps behind the operands of a target are the same if they are for as many arguments as
it has. -/
theorem lowerAddress_bind_congr {β : Type} {reuse : Bool} {t : Target Operand}
    {f g : LoweredAddress → SequenceM β}
    (h : ∀ a : LoweredAddress, a.args.length = t.args.length → f a = g a) :
    lowerAddress cx reuse t >>= f = lowerAddress cx reuse t >>= g := by
  funext s
  rw [bind_apply, bind_apply]
  cases ha : lowerAddress cx reuse t s with
  | error e s' => rfl
  | ok a s' => exact congrFun (h a (length_args_of_lowerAddress ha)) s'

theorem length_passed (cx : Context) (accessor : Option Accessor) (uses : Nat)
    (a : LoweredAddress) : (a.passed cx accessor uses).args.length = a.args.length := by
  unfold LoweredAddress.passed
  split <;> simp [LoweredAddress.address]

/-- What is read from a target. -/
def readTarget (cx : Context) (t : Target Operand) : LowerM Lowered :=
  sequenced t.operands do
    let a ← lowerAddress cx t.getterIsInline t
    let load ← liftExcept (t.load cx.names (a.passed cx t.getter? 1))
    pure ⟨load, t.loadIsFresh, false⟩

/-- Reading a place is finding its target and reading that. -/
theorem lowerLoad_operand (p : Place Expr) (span : Span) :
    lowerLoad cx (p.map (Expr.operand cx)) span =
      liftExcept ((Target.ofPlace cx.metadata cx.enclosing Expr.ty span p).map
        (Target.map (Expr.operand cx))) >>= readTarget cx := by
  unfold lowerLoad
  rw [Target.ofPlace_map (Expr.operand cx) fun e => ty_operand e]
  rfl

/-- The targets that lowering meets have their arguments arranged. -/
theorem Expr.target_arranges {md : Metadata} {enclosing : EnclosingMember} {e : Expr}
    {t : Target Expr} (h : e.target md enclosing = .ok t) :
    ∃ p, e.form = .place p ∧ Target.ofPlace md enclosing Expr.ty e.span p = .ok t := by
  unfold Expr.target Target.classify at h
  cases e with
  | mk form span =>
    cases form with
    | place p => exact ⟨p, rfl, h⟩
    | _ => cases h

/-- The operands of a target, lowered at the start of a sequence. -/
theorem lowerAddress_start_ok {reuse : Bool} {t : Target Expr} {indices : List Expr}
    (rest : List Expr) (ht : Arranges t.args indices) {pending : List Operand}
    (hpending : pending = (t.operands ++ rest).map (Expr.operand cx)) {n : Nat}
    {a : LoweredAddress} {s' : Sequence}
    (h : lowerAddress cx reuse (t.map (Expr.operand cx)) { temps := n, pending } = .ok a s') :
    ∃ stmts n', Addressed cx reuse rest t n a stmts n' ∧ s' = sequenceOf cx n' rest stmts := by
  subst hpending
  obtain ⟨stmts, n', haddr, rfl⟩ := lowerAddress_ok ht h
  exact ⟨stmts, n', haddr, rfl⟩

theorem lowerCallArgs_ok {c : Capture} (args : List Expr) :
    ∀ {params : List Param} {n : Nat} {stmts₀ : List Stmt} {xs : List Script.Expr}
      {s' : Sequence},
      lowerCallArgs cx c params (args.map (Expr.operand cx)) (sequenceOf cx n args stmts₀) =
        .ok xs s' →
      ∃ vs stmts n', TakenAll cx [] (args.map (c, ·)) n vs stmts n' ∧
        xs = cx.handed (argTypes params args) vs ∧ s' = sequenceOf cx n' [] (stmts₀ ++ stmts) := by
  induction args with
  | nil =>
    intro params n stmts₀ xs s' h
    obtain ⟨rfl, rfl⟩ := pure_ok h
    exact ⟨[], [], n, .nil, rfl, by simp⟩
  | cons o args ih =>
    intro params n stmts₀ xs s' h
    obtain ⟨v, s₁, hnext, h₁⟩ := bind_ok h
    obtain ⟨stmts, n₁, htaken, rfl⟩ := next_ok hnext
    obtain ⟨xs', s₂, hrest, h₂⟩ := bind_ok h₁
    obtain ⟨vs, stmts', n₂, htail, rfl, rfl⟩ := ih hrest
    obtain ⟨rfl, rfl⟩ := pure_ok h₂
    refine ⟨v :: vs, stmts ++ stmts', n₂, .cons ?_ htail, ?_, by simp⟩
    · simpa [Function.comp_def] using htaken
    · simp [Context.handed, argTypes]

theorem lowerReceiver_ok {c : Capture} {r : Receiver Expr} {args : List Expr} {n : Nat}
    {object : Script.Expr} {s' : Sequence}
    (h : lowerReceiver cx c (r.map (Expr.operand cx))
      (sequenceOf cx n (r.object?.toList ++ args) []) = .ok object s') :
    ∃ objects stmts n',
      TakenAll cx args (r.object?.toList.map (c, ·)) n objects stmts n' ∧
      objects.length = r.object?.toList.length ∧ object = r.script objects ∧
      s' = sequenceOf cx n' args stmts := by
  cases r with
  | object e =>
    obtain ⟨v, s₁, hnext, h₁⟩ := bind_ok h
    obtain ⟨rfl, rfl⟩ := pure_ok h₁
    obtain ⟨stmts, n₁, htaken, rfl⟩ := next_ok hnext
    exact ⟨[v], stmts ++ [], n₁, .cons htaken .nil, rfl, rfl, by simp⟩
  | static owner =>
    obtain ⟨rfl, rfl⟩ := pure_ok h
    exact ⟨[], [], n, .nil, rfl, rfl, rfl⟩
  | base declaring =>
    obtain ⟨rfl, rfl⟩ := pure_ok h
    exact ⟨[], [], n, .nil, rfl, rfl, rfl⟩

theorem Lowers.of_lowerCall {r : Receiver Expr} {m : Method} {args : List Expr} {span : Span}
    {n n' : Nat} {v : Lowered}
    (h : lowerCall cx (r.map (Expr.operand cx)) m (args.map (Expr.operand cx)) span n =
      .ok v n') : Lowers cx ⟨.call r m args, span⟩ n v n' := by
  have hpending : (r.map (Expr.operand cx)).object?.toList ++ args.map (Expr.operand cx) =
      (r.object?.toList ++ args).map (Expr.operand cx) := by
    simp [Option.toList_map]
  unfold lowerCall at h
  simp only [hpending] at h
  cases hm : cx.metadata.method m with
  | unusable =>
    rw [hm] at h
    cases h
  | method name =>
    simp only [hm] at h
    obtain ⟨w, s', hbody, rfl, rfl⟩ := sequenced_ok h
    obtain ⟨object, s₁, hobject, h₁⟩ := bind_ok hbody
    obtain ⟨objects, stmts, n₁, htaken, hlen, rfl, rfl⟩ := lowerReceiver_ok hobject
    obtain ⟨xs, s₂, hargs, h₂⟩ := bind_ok h₁
    obtain ⟨vs, stmts', n₂, htail, rfl, rfl⟩ := lowerCallArgs_ok args hargs
    obtain ⟨rfl, rfl⟩ := pure_ok h₂
    have hall := TakenAll.append (by simpa [Function.comp_def] using htaken) htail
    rw [← List.map_append] at hall
    have hlowers : Lowers cx ⟨.call r m args, span⟩ n _ _ := .call hm hall hlen
    cases r <;> exact hlowers
  | inline template =>
    simp only [hm] at h
    obtain ⟨w, s', hbody, rfl, rfl⟩ := sequenced_ok h
    obtain ⟨object, s₁, hobject, h₁⟩ := bind_ok hbody
    obtain ⟨objects, stmts, n₁, htaken, hlen, rfl, rfl⟩ := lowerReceiver_ok hobject
    obtain ⟨xs, s₂, hargs, h₂⟩ := bind_ok h₁
    obtain ⟨vs, stmts', n₂, htail, rfl, rfl⟩ := lowerCallArgs_ok args hargs
    obtain ⟨text, s₃, hlift, h₃⟩ := bind_ok h₂
    obtain ⟨htext, rfl⟩ := liftExcept_ok hlift
    obtain ⟨rfl, rfl⟩ := pure_ok h₃
    have hall := TakenAll.append (by simpa [Function.comp_def] using htaken) htail
    rw [← List.map_append] at hall
    exact .callInline hm hall hlen htext

theorem Lowers.of_lowerLoad {p : Place Expr} {span : Span} {n n' : Nat} {v : Lowered}
    (hthis : ∀ ty, p ≠ .this ty)
    (h : lowerLoad cx (p.map (Expr.operand cx)) span n = .ok v n') :
    Lowers cx ⟨.place p, span⟩ n v n' := by
  obtain ⟨t', n₁, hlift, h₁⟩ := bind_ok h
  obtain ⟨ht, rfl⟩ := liftExcept_ok hlift
  rw [Target.ofPlace_map (Expr.operand cx) fun e => ty_operand e] at ht
  cases hplace : Target.ofPlace cx.metadata cx.enclosing Expr.ty span p with
  | error e =>
    rw [hplace] at ht
    cases ht
  | ok t =>
    rw [hplace] at ht
    cases ht
    obtain ⟨w, s', hbody, rfl, rfl⟩ := sequenced_ok h₁
    obtain ⟨a, s₁, hrun, h₂⟩ := bind_ok hbody
    obtain ⟨stmts, n₂, haddr, rfl⟩ := lowerAddress_start_ok []
      (Target.ofPlace_arranges hplace).2 (by simp) hrun
    obtain ⟨load, s₂, hlift', h₃⟩ := bind_ok h₂
    obtain ⟨hload, rfl⟩ := liftExcept_ok hlift'
    obtain ⟨rfl, rfl⟩ := pure_ok h₃
    exact .load hthis hplace haddr hload

theorem LowersAssign.of_assignNative {usage : Usage} {a : Assignment Expr} {t : Target Expr}
    {indices : List Expr} {n n' : Nat} {v : Lowered}
    (htarget : a.target.target cx.metadata cx.enclosing = .ok t)
    (ht : Arranges t.args indices) (hop : a.op.binary? = none) (hnative : t.isNative = true)
    (h : assignNative cx usage.isUsed (t.map (Expr.operand cx)) (a.value.operand cx) n =
      .ok v n') : LowersAssign cx usage a n v n' := by
  obtain ⟨w, s', hbody, rfl, rfl⟩ := sequenced_ok h
  obtain ⟨addr, s₁, hrun, h₁⟩ := bind_ok hbody
  obtain ⟨stmts, n₁, haddr, rfl⟩ := lowerAddress_start_ok [a.value] ht (by simp) hrun
  obtain ⟨x, s₂, hnext, h₂⟩ := bind_ok h₁
  obtain ⟨stmts', n₂, hvalue, rfl⟩ := next_ok hnext
  obtain ⟨place, s₃, hlift, h₃⟩ := bind_ok h₂
  obtain ⟨hplace, rfl⟩ := liftExcept_ok hlift
  simp only [Target.ty_map, Target.native_map] at h₃ hplace haddr
  obtain ⟨hshared, h₄⟩ | ⟨hshared, h₄⟩ := ite_ok h₃
  · rw [hshared] at haddr
    obtain ⟨u, s₄, hpush, h₅⟩ := bind_ok h₄
    cases hpush
    obtain ⟨rfl, rfl⟩ := pure_ok h₅
    exact .readBack htarget hop hnative hshared haddr hvalue hplace
  · rw [Bool.not_eq_true] at hshared
    rw [hshared] at haddr
    obtain ⟨rfl, rfl⟩ := pure_ok h₄
    exact .native htarget hop hnative hshared haddr hvalue hplace

theorem LowersAssign.of_assignByCall {usage : Usage} {a : Assignment Expr} {t : Target Expr}
    {indices : List Expr} {n n' : Nat} {v : Lowered}
    (htarget : a.target.target cx.metadata cx.enclosing = .ok t)
    (ht : Arranges t.args indices) (hop : a.op.binary? = none) (hnative : t.isNative = false)
    (h : assignByCall cx usage.isUsed (t.map (Expr.operand cx)) (a.value.operand cx) n =
      .ok v n') : LowersAssign cx usage a n v n' := by
  obtain ⟨w, s', hbody, rfl, rfl⟩ := sequenced_ok h
  obtain ⟨addr, s₁, hrun, h₁⟩ := bind_ok hbody
  obtain ⟨stmts, n₁, haddr, rfl⟩ := lowerAddress_start_ok [a.value] ht (by simp) hrun
  obtain ⟨x, s₂, hnext, h₂⟩ := bind_ok h₁
  obtain ⟨stmts', n₂, hvalue, rfl⟩ := next_ok hnext
  obtain ⟨store, s₃, hlift, h₃⟩ := bind_ok h₂
  obtain ⟨hstore, rfl⟩ := liftExcept_ok hlift
  have hall := LowersAssign.byCall htarget hop hnative haddr hvalue hstore
  cases usage with
  | discarded =>
    obtain ⟨rfl, rfl⟩ := pure_ok h₃
    exact hall
  | used =>
    obtain ⟨u, s₄, hpush, h₄⟩ := bind_ok h₃
    cases hpush
    obtain ⟨rfl, rfl⟩ := pure_ok h₄
    cases hr : t.isReceiver <;> simpa [hr, Usage.finish, Usage.isUsed, sequenceOf] using hall

theorem LowersAssign.of_compoundNative {usage : Usage} {a : Assignment Expr} {t : Target Expr}
    {op : BinaryOp} {indices : List Expr} {n n' : Nat} {v : Lowered}
    (htarget : a.target.target cx.metadata cx.enclosing = .ok t)
    (ht : Arranges t.args indices) (hop : a.op.binary? = some op) (hnative : t.isNative = true)
    (h : AssignmentLowering.compoundNative cx op (t.map (Expr.operand cx)) (a.value.operand cx) n =
      .ok v n') :
    LowersAssign cx usage a n v n' := by
  obtain ⟨w, s', hbody, rfl, rfl⟩ := sequenced_ok h
  obtain ⟨addr, s₁, hrun, h₁⟩ := bind_ok hbody
  obtain ⟨stmts, n₁, haddr, rfl⟩ := lowerAddress_start_ok [a.value] ht (by simp) hrun
  obtain ⟨x, s₂, hnext, h₂⟩ := bind_ok h₁
  obtain ⟨stmts', n₂, hvalue, rfl⟩ := next_ok hnext
  obtain ⟨place, s₃, hlift, h₃⟩ := bind_ok h₂
  obtain ⟨hplace, rfl⟩ := liftExcept_ok hlift
  obtain ⟨rfl, rfl⟩ := pure_ok h₃
  exact .compoundNative htarget hop hnative haddr hvalue hplace

theorem LowersAssign.of_compoundByCall {usage : Usage} {a : Assignment Expr} {t : Target Expr}
    {op : BinaryOp} {indices : List Expr} {n n' : Nat} {v : Lowered}
    (htarget : a.target.target cx.metadata cx.enclosing = .ok t)
    (ht : Arranges t.args indices) (hop : a.op.binary? = some op) (hnative : t.isNative = false)
    (hreceiver : t.isReceiver = false)
    (h : AssignmentLowering.compoundByCall cx usage.isUsed op (t.map (Expr.operand cx))
      (a.value.operand cx) n =
      .ok v n') : LowersAssign cx usage a n v n' := by
  obtain ⟨w, s', hbody, rfl, rfl⟩ := sequenced_ok h
  obtain ⟨addr, s₁, hrun, h₁⟩ := bind_ok hbody
  obtain ⟨stmts, n₁, haddr, rfl⟩ := lowerAddress_start_ok [a.value] ht (by simp) hrun
  obtain ⟨load, s₂, hlift', h₂⟩ := bind_ok h₁
  obtain ⟨hload, rfl⟩ := liftExcept_ok hlift'
  obtain ⟨s₃, s₃', hget, h₃⟩ := bind_ok h₂
  cases hget
  have hpending : (sequenceOf cx n₁ [a.value] stmts).pendingHasEffects cx =
      a.value.hasEffects cx.metadata := by
    simp [sequenceOf, Sequence.pendingHasEffects]
  rw [hpending] at h₃
  have hsplit : ∀ {flag : Bool} {e : Script.Expr} {s s' : Sequence} {α : Type}
      {f : Script.Expr → SequenceM α} {b : α},
      (if flag then capture cx e >>= f else pure e >>= f) s = .ok b s' →
      ∃ x stmts n', Held cx e s.temps flag x stmts n' ∧
        f x { s with temps := n', stmts := s.stmts ++ stmts } = .ok b s' := by
    intro flag e s s' α f b hrun
    have hrun' : ((if flag then capture cx e else pure e : SequenceM Script.Expr) >>= f) s =
        .ok b s' := by
      cases flag <;> exact hrun
    obtain ⟨x, s₁, hx, hf⟩ := bind_ok hrun'
    obtain ⟨stmts, n', hheld, rfl⟩ := held_ok hx
    exact ⟨x, stmts, n', hheld, hf⟩
  obtain ⟨old, stmts₁, n₂, hold, h₄⟩ := hsplit h₃
  obtain ⟨x, s₅, hnext, h₅⟩ := bind_ok h₄
  obtain ⟨stmts₂, n₃, hvalue, rfl⟩ := next_ok hnext
  obtain ⟨new, stmts₃, n₄, hnew, h₆⟩ := hsplit h₅
  obtain ⟨store, s₇, hlift, h₇⟩ := bind_ok h₆
  obtain ⟨hstore, rfl⟩ := liftExcept_ok hlift
  have hall := LowersAssign.compoundByCall htarget hop hnative hreceiver haddr hload hold hvalue
    hnew hstore
  cases usage with
  | discarded =>
    obtain ⟨rfl, rfl⟩ := pure_ok h₇
    exact hall
  | used =>
    obtain ⟨u, s₈, hpush, h₈⟩ := bind_ok h₇
    cases hpush
    obtain ⟨rfl, rfl⟩ := pure_ok h₈
    exact hall

/-- A lowered assignment is of one of the forms. -/
theorem LowersAssign.of_lowerAssignment {usage : Usage} {a : Assignment Expr} {span : Span}
    {n n' : Nat} {v : Lowered} (h : lowerAssignment cx usage a span n = .ok v n') :
    LowersAssign cx usage a n v n' := by
  obtain ⟨t', n₁, hlift, h₁⟩ := bind_ok h
  obtain ⟨ht, rfl⟩ := liftExcept_ok hlift
  simp only [Assignment.map, target_operand] at ht h₁
  cases htarget : a.target.target cx.metadata cx.enclosing with
  | error e =>
    rw [htarget] at ht
    cases ht
  | ok t =>
    rw [htarget] at ht
    cases ht
    obtain ⟨p, -, hplace⟩ := Expr.target_arranges htarget
    have harr := (Target.ofPlace_arranges hplace).2
    cases hop : a.op.binary? with
    | none =>
      simp only [hop, assignSimple, Target.isNative_map] at h₁
      obtain ⟨hn, h₂⟩ | ⟨hn, h₂⟩ := ite_ok h₁
      · exact .of_assignNative htarget harr hop hn h₂
      · exact .of_assignByCall htarget harr hop (by simpa using hn) h₂
    | some op =>
      simp only [hop, assignCompound, Target.isNative_map, Target.isReceiver_map] at h₁
      obtain ⟨-, h₂⟩ | ⟨hr, h₂⟩ := ite_ok h₁
      · cases h₂
      · rw [Bool.not_eq_true] at hr
        obtain ⟨hn, h₃⟩ | ⟨hn, h₃⟩ := ite_ok h₂
        · exact .of_compoundNative htarget harr hop hn h₃
        · exact .of_compoundByCall htarget harr hop (by simpa using hn) hr h₃

/-- A lowered expression is of one of the forms. -/
theorem Lowers.of_lower {e : Expr} {n n' : Nat} {v : Lowered} (h : e.lower cx n = .ok v n') :
    Lowers cx e n v n' := by
  rw [Expr.lower_eq] at h
  obtain ⟨form, span⟩ := e
  cases form with
  | literal value ty => cases h; exact .literal
  | defaultValue ty => cases h; exact .defaultValue
  | place p =>
    cases p with
    | this ty => cases h; exact .this
    | _ => exact .of_lowerLoad (fun ty hp => by cases hp) h
  | call r m args => exact .of_lowerCall h
  | binary op l r ty =>
    obtain ⟨w, s', hbody, rfl, rfl⟩ := sequenced_ok h
    obtain ⟨x, s₁, hnext, h₁⟩ := bind_ok hbody
    have hleftStep : next cx {} (sequenceOf cx n [l, r] []) = .ok x s₁ := hnext
    obtain ⟨stmts, n₁, hleft, rfl⟩ := next_ok hleftStep
    obtain ⟨y, s₂, hnext', h₂⟩ := bind_ok h₁
    obtain ⟨stmts', n₂, hright, rfl⟩ := next_ok hnext'
    obtain ⟨rfl, rfl⟩ := pure_ok h₂
    have hall : TakenAll cx [] [({}, l), ({}, r)] n [x, y] (stmts ++ (stmts' ++ [])) n₂ :=
      .cons hleft (.cons hright .nil)
    have hlowers : Lowers cx ⟨.binary op l r ty, span⟩ n _ n₂ := .binary hall
    simpa [sequenceOf] using hlowers
  | assign a => exact .assign (.of_lowerAssignment h)

end AssignmentLowering
