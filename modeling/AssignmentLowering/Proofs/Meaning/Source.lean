import AssignmentLowering.Proofs.Expr.Annotate
import AssignmentLowering.Proofs.Meaning.Script

/-!
# What expressions mean

Expressions are evaluated from left to right, over the same interpretation as script.
A place is found by evaluating its object and then the arguments in the order of the
text; arguments left out take their defaults last. An assignment finds its target,
evaluates the value and stores it. A compound assignment reads the old value between the
two. What a member is bound to decides whether reading it is a call, and what a local
variable shares with the caller sits in a cell on the heap.

## Main definitions

* `Location` — the operands of a target, evaluated.
* `Target.locate`, `Target.get`, `Target.put` — finding, reading and writing a target.
* `Form.eval`, `Expr.eval` — evaluating an expression.
-/

namespace AssignmentLowering

variable {I : Interpretation} {ε δ : Type}

/-- What evaluating something comes to: a value, and the state behind it. -/
abbrev Meaning (I : Interpretation) := State I → Option (I.Value × State I)

namespace Interpretation

variable (I : Interpretation)

def literal : Literal → I.Value
  | .int value => I.number (.ofInt value)
  | .double value => I.number value
  | .bool value => I.bool value
  | .string value => I.string value
  | .null => I.null

/-- `null` where values are shared, the default of the type where not. -/
def default (md : Metadata) (ty : TypeRef) : I.Value :=
  match md.semantics ty with
  | .reference => I.null
  | .immutable | .mutable _ => I.defaultValue (I.typeHandle ty.name)

/-- A call of the method that a base type has. -/
def callBase (names : RuntimeNames) (declaring : TypeRef) (method : String)
    (args : List I.Value) (heap : I.Heap) : I.Value × I.Heap :=
  I.helper names.callBase
    [I.typeHandle declaring.name, I.string method, I.array [], I.array (I.this :: args)] heap

end Interpretation

/-- Evaluate one after the other. -/
def evalEach (ev : ε → Meaning I) : List ε → State I → Option (List I.Value × State I)
  | [], s => some ([], s)
  | e :: rest, s => do
    let (v, s) ← ev e s
    let (vs, s) ← evalEach ev rest s
    some (v :: vs, s)

/-- The value of an argument: among the values `vs` of those written, or that of the default
if it is left out. -/
def evalArg (ev : ε → Meaning I) (vs : List I.Value) (a : IndexArg ε) : Meaning I := fun s =>
  match a.position with
  | some i => vs[i]?.map (·, s)
  | none => ev a.value s

/-- The values of arguments in declared order, where the written ones have the values `vs`. -/
def evalArgs (ev : ε → Meaning I) (vs : List I.Value) :
    List (IndexArg ε) → State I → Option (List I.Value × State I)
  | [], s => some ([], s)
  | a :: rest, s => do
    let (v, s) ← evalArg ev vs a s
    let (args, s) ← evalArgs ev vs rest s
    some (v :: args, s)

/-- The operands of a target, evaluated: the object, if there is one, and the index
arguments in declared order. -/
structure Location (I : Interpretation) where
  object : Option I.Value := none
  args : List I.Value := []

def Location.values (l : Location I) : List I.Value := l.object.toList ++ l.args

namespace Target

/-- Find a target: evaluate its operands in the order of the text. -/
def locate (ev : ε → Meaning I) (t : Target ε) (s : State I) :
    Option (Location I × State I) := do
  let (objects, s) ← evalEach ev t.receiver.toList s
  let (vs, s) ← evalEach ev (t.callSite.map (·.2)) s
  let (args, s) ← evalArgs ev vs t.args s
  some (⟨objects.head?, args⟩, s)

/-- The object through which a member is reached. -/
def objectValue (t : Target ε) (l : Location I) : I.Value :=
  match l.object, t.staticOwner with
  | some o, _ => o
  | none, some owner => I.typeHandle owner.name
  | none, none => I.this

def elementReference (t : Target ε) (l : Location I) : Option (Reference I) :=
  match l.args with
  | [i] => some (.index (t.objectValue l) i)
  | _ => none

/-- What a target on the left of `=` stands for. -/
def reference (names : RuntimeNames) (t : Target ε) (l : Location I)
    (vars : String → I.Value) : Option (Reference I) :=
  match t.kind, t.storage with
  | .localVar name, _ => some (.ident name)
  | .cell name, _ => some (.member (vars name) names.cellMember)
  | .dynamicMember name, _ => some (.member (t.objectValue l) name)
  | _, .field name => some (.member (t.objectValue l) name)
  | .element, _ | .dynamicIndex, _ | _, .subscript => t.elementReference l
  | _, _ => none

/-- Use an accessor, with the value to be written if there is one. -/
def callAccessor (names : RuntimeNames) (t : Target ε) (l : Location I)
    (value : Option I.Value) : Accessor → Meaning I
  | .method name, s =>
    let args := l.args ++ value.toList
    let (v, heap) := match t.dispatch with
      | .dynamic => I.call (t.objectValue l) name args s.heap
      | .bound declaring => I.callBase names declaring name args s.heap
    some (v, { s with heap })
  | .inline _, _ => none
  | .subscript, s =>
    (t.elementReference l).map fun place =>
      match value with
      | some v => (v, place.set s v)
      | none => (place.get s, s)

/-- Read a target. -/
def get (names : RuntimeNames) (t : Target ε) (l : Location I) (s : State I) :
    Option (I.Value × State I) :=
  match t.kind with
  | .receiver => some (I.this, s)
  | .multiElement => some (I.multiGet (t.objectValue l :: l.args) s.heap, s)
  | _ =>
    match t.getter? with
    | some getter => t.callAccessor names l none getter s
    | none => (t.reference names l s.vars).map fun place => (place.get s, s)

/-- Write a target. -/
def put (names : RuntimeNames) (t : Target ε) (l : Location I) (v : I.Value) (s : State I) :
    Option (State I) :=
  match t.kind with
  | .receiver => some { s with heap := (I.helper names.shallowCopy [v, I.this] s.heap).2 }
  | .multiElement =>
    some { s with
      heap := (I.helper names.multiSet (t.objectValue l :: (l.args ++ [v])) s.heap).2 }
  | _ =>
    match t.setter? with
    | some setter => (t.callAccessor names l (some v) setter s).map (·.2)
    | none => (t.reference names l s.vars).map fun place => place.set s v

end Target

/-- The object through which a method is called. -/
def Receiver.objectValue (r : Receiver ε) (object : Option I.Value) : I.Value :=
  match r with
  | .object _ => object.getD I.this
  | .static owner => I.typeHandle owner.name
  | .base _ => I.this

/-- Call a method that is bound to the name `name`. -/
def Receiver.call (names : RuntimeNames) (r : Receiver ε) (object : I.Value) (name : String)
    (args : List I.Value) (heap : I.Heap) : I.Value × I.Heap :=
  match r with
  | .base declaring => I.callBase names declaring name args heap
  | .object _ | .static _ => I.call object name args heap

/-- The name of the script method, for methods that are bound to one. -/
def MethodBinding.name? : MethodBinding → Option String
  | method name => some name
  | inline _ | unusable => none

/-- Assign to a target that has been found. -/
def storeMeaning (names : RuntimeNames) (op : AssignOp) (t : Target ε) (l : Location I)
    (value : Meaning I) : Meaning I := fun s =>
  match op.binary? with
  | none => do
    let (v, s) ← value s
    let s ← t.put names l v s
    some (v, s)
  | some op => do
    let (old, s) ← t.get names l s
    let (v, s) ← value s
    let s ← t.put names l (I.binary op old v) s
    some (I.binary op old v, s)

/-- Call a method. -/
def callMeaning (cx : Context) (ev : ε → Meaning I) (r : Receiver ε) (m : Method)
    (args : List ε) : Meaning I := fun s => do
  let name ← (cx.metadata.method m).name?
  let (objects, s) ← evalEach ev r.object?.toList s
  let (vs, s) ← evalEach ev args s
  let (v, heap) := r.call cx.names (r.objectValue objects.head?) name vs s.heap
  some (v, { s with heap })

/-- Evaluate a form, given what evaluating its subexpressions comes to. -/
def Form.eval (cx : Context) (I : Interpretation) (form : Form (Annotated (Meaning I)))
    (span : Span) : Meaning I := fun s =>
  let target span p := (Target.ofPlace cx.metadata cx.enclosing Annotated.ty span p).toOption
  match form with
  | .literal value _ => some (I.literal value, s)
  | .defaultValue ty => some (I.default cx.metadata ty, s)
  | .place (.this _) => some (I.this, s)
  | .place p => do
    let t ← target span p
    let (l, s) ← t.locate (·.value) s
    t.get cx.names l s
  | .call r m args => callMeaning cx (·.value) r m args s
  | .binary op left right _ => do
    let (l, s) ← left.value s
    if I.skips op l then some (l, s)
    else do
      let (r, s) ← right.value s
      some (I.binary op l r, s)
  | .assign a => do
    let p ← a.target.place?
    let t ← target a.target.expr.span p
    let (l, s) ← t.locate (·.value) s
    storeMeaning cx.names a.op t l a.value.value s

/-- Evaluate an expression. -/
def Expr.eval (cx : Context) (I : Interpretation) (e : Expr) : Meaning I :=
  (e.annotate (Form.eval cx I)).value

/-! ## Equations -/

section

variable (f : ε → δ)

@[simp] theorem evalEach_map (ev : δ → Meaning I) (es : List ε) (s : State I) :
    evalEach ev (es.map f) s = evalEach (ev ∘ f) es s := by
  induction es generalizing s with
  | nil => rfl
  | cons e es ih => simp [evalEach, ih]

@[simp] theorem evalArgs_map (ev : δ → Meaning I) (vs : List I.Value)
    (args : List (IndexArg ε)) (s : State I) :
    evalArgs ev vs (args.map (·.map f)) s = evalArgs (ev ∘ f) vs args s := by
  induction args generalizing s with
  | nil => rfl
  | cons a args ih => cases hp : a.position <;> simp [evalArgs, evalArg, ih, hp]

@[simp] theorem Target.locate_map (ev : δ → Meaning I) (t : Target ε) (s : State I) :
    (t.map f).locate ev s = t.locate (ev ∘ f) s := by
  have hsite : (t.map f).callSite.map (·.2) = (t.callSite.map (·.2)).map f := by simp
  simp only [Target.locate, hsite, Target.receiver_map, Target.args_map, Option.toList_map,
    evalEach_map, evalArgs_map]

theorem callMeaning_map (cx : Context) (ev : δ → Meaning I) (r : Receiver ε) (m : Method)
    (args : List ε) :
    callMeaning cx ev (r.map f) m (args.map f) = callMeaning cx (ev ∘ f) r m args := by
  funext s
  simp only [callMeaning, Receiver.object?_map, Option.toList_map, evalEach_map]
  cases r <;> rfl

end

theorem evalEach_cons {ev : ε → Meaning I} {e : ε} {es : List ε} {v : I.Value}
    {vs : List I.Value} {s s' s'' : State I} (h : ev e s = some (v, s'))
    (h' : evalEach ev es s' = some (vs, s'')) :
    evalEach ev (e :: es) s = some (v :: vs, s'') := by
  simp [evalEach, h, h']

/-- Evaluating some and then others. -/
theorem evalEach_append {ev : ε → Meaning I} {es es' : List ε} {vs : List I.Value}
    {s s' : State I} (h : evalEach ev (es ++ es') s = some (vs, s')) :
    ∃ ws ws' s₁, vs = ws ++ ws' ∧ ws.length = es.length ∧ evalEach ev es s = some (ws, s₁) ∧
      evalEach ev es' s₁ = some (ws', s') := by
  induction es generalizing s vs with
  | nil => exact ⟨[], vs, s, rfl, rfl, rfl, h⟩
  | cons e es ih =>
    simp only [List.cons_append, evalEach, Option.bind_eq_bind, Option.bind_eq_some_iff,
      Option.some.injEq, Prod.mk.injEq] at h
    obtain ⟨⟨v, s₁⟩, he, ⟨vs', s₂⟩, hes, rfl, rfl⟩ := h
    obtain ⟨ws, ws', s₃, rfl, hlen, hws, hws'⟩ := ih hes
    exact ⟨v :: ws, ws', s₃, rfl, by simp [hlen], evalEach_cons he hws, hws'⟩

namespace Expr

variable {cx : Context} {s : State I}

theorem eval_eq (e : Expr) :
    e.eval cx I = (e.form.map (annotate (Form.eval cx I))).eval cx I e.span := by
  rw [eval, annotate_eq]

@[simp] theorem eval_literal (value : Literal) (ty : TypeRef) (span : Span) :
    (⟨.literal value ty, span⟩ : Expr).eval cx I s = some (I.literal value, s) := by
  rw [eval_eq]
  rfl

@[simp] theorem eval_defaultValue (ty : TypeRef) (span : Span) :
    (⟨.defaultValue ty, span⟩ : Expr).eval cx I s = some (I.default cx.metadata ty, s) := by
  rw [eval_eq]
  rfl

@[simp] theorem eval_this (ty : TypeRef) (span : Span) :
    (⟨.place (.this ty), span⟩ : Expr).eval cx I s = some (I.this, s) := by
  rw [eval_eq]
  rfl

theorem eval_binary (op : BinaryOp) (left right : Expr) (ty : TypeRef) (span : Span) :
    (⟨.binary op left right ty, span⟩ : Expr).eval cx I s = (do
      let (l, s) ← left.eval cx I s
      if I.skips op l then some (l, s)
      else do
        let (r, s) ← right.eval cx I s
        some (I.binary op l r, s)) := by
  rw [eval_eq]
  rfl

theorem eval_call (r : Receiver Expr) (m : Method) (args : List Expr) (span : Span) :
    (⟨.call r m args, span⟩ : Expr).eval cx I s =
      callMeaning cx (Expr.eval cx I) r m args s := by
  rw [eval_eq]
  simp only [Form.map, Form.eval, callMeaning_map]
  rfl

theorem eval_load {p : Place Expr} {t : Target Expr} {span : Span} (hthis : ∀ ty, p ≠ .this ty)
    (ht : Target.ofPlace cx.metadata cx.enclosing Expr.ty span p = .ok t) :
    (⟨.place p, span⟩ : Expr).eval cx I s = (do
      let (l, s) ← t.locate (Expr.eval cx I) s
      t.get cx.names l s) := by
  have heval : (⟨.place p, span⟩ : Expr).eval cx I s = (do
      let t ← (Target.ofPlace cx.metadata cx.enclosing Annotated.ty span
        (p.map (annotate (Form.eval cx I)))).toOption
      let (l, s) ← t.locate (·.value) s
      t.get cx.names l s) := by
    rw [eval_eq]
    cases p with
    | this ty => exact absurd rfl (hthis ty)
    | _ => rfl
  rw [heval, ofPlace_annotate _ ht]
  simp only [Except.toOption, Option.bind_eq_bind, Option.bind_some, Target.locate_map]
  rfl

theorem eval_assign {a : Assignment Expr} {t : Target Expr}
    (htarget : a.target.target cx.metadata cx.enclosing = .ok t) (span : Span) :
    (⟨.assign a, span⟩ : Expr).eval cx I s = (do
      let (l, s) ← t.locate (Expr.eval cx I) s
      storeMeaning cx.names a.op t l (a.value.eval cx I) s) := by
  obtain ⟨p, hp, ht⟩ := target_arranges htarget
  have hplace : (a.target.annotate (Form.eval cx I)).place? =
      some (p.map (annotate (Form.eval cx I))) := by
    rw [place?_annotate]
    exact congrArg _ (place?_of_place hp)
  rw [eval_eq]
  simp only [Form.map, Assignment.map, Form.eval, hplace, expr_annotate, ofPlace_annotate _ ht,
    Except.toOption, Option.bind_eq_bind, Option.bind_some, Target.locate_map]
  rfl

end Expr
end AssignmentLowering
