import AssignmentLowering.Lowering.Session
import AssignmentLowering.Proofs.Expr.Annotate
import AssignmentLowering.Proofs.Lowering.Forms

/-!
# Effects, in source and in script

An event is an effect that evaluation comes to: a call, an assignment, the use of a
template. It has a label, which tells what happens, and operands. The operands of an
event in script are the expressions that are handed over or stored; those of an event
in source are the types of the parameters and slots that they go to. Reading a field,
an element or a variable is no event, and neither is making a copy or a default value.

Both lists of events are in the order of evaluation, which is from left to right in
both languages. What makes an event of the source is decided by metadata alone.

## Main definitions

* `Label`, `Event` — what happens, and to which operands.
* `Script.Expr.events`, `LoweredAssignment.events` — the events of script.
* `Expr.events` — the events of an expression.
* `Label.Renders`, `Event.Renders` — when an event in script is one of source.
* `RuntimeNames.Separated` — the helpers with effects can be told from the others.
-/

namespace AssignmentLowering

/-- Storage as an assignment in script names it. -/
inductive Written where
  | variable (name : String)
  | member (name : String)
  | subscript
  deriving DecidableEq

/-- What happens at an event. -/
inductive Label where
  | call (name : String)
  | baseCall (declaring name : String)
  | assign (place : Written)
  | compoundAssign (op : BinaryOp) (place : Written)
  | multiSet
  | shallowCopy
  /-- A template in source, its text with operands filled in in script. -/
  | code (text : String)
  /-- A call of something that lowering never calls. -/
  | other
  deriving DecidableEq

/-- An effect with what it hands over or stores. -/
structure Event (α : Type) where
  label : Label
  operands : List α := []
  deriving DecidableEq

/-- Whether what happens in script is what happens in source: a template appears as its
text for some operands, everything else appears as it is. -/
def Label.Renders : Label → Label → Prop
  | .code template, .code text =>
    ∃ span operand?, Template.substitute template span operand? = .ok text
  | l, l' => l = l'

/-- Whether an event in script is one in source: the same happens, to operands that `R`
relates. -/
def Event.Renders (R : TypeRef → Script.Expr → Prop) (source : Event TypeRef)
    (script : Event Script.Expr) : Prop :=
  source.label.Renders script.label ∧ List.Forall₂ R source.operands script.operands

namespace RuntimeNames

/-- The helpers whose calls are no events. -/
def silent (names : RuntimeNames) : List String :=
  [names.clone, names.multiGet, names.defaultValue]

/-- The helpers whose calls are events. -/
def effectful (names : RuntimeNames) : List String :=
  [names.shallowCopy, names.multiSet, names.callBase]

/-- Whether helpers with effects have names that no other helper has. -/
def Separated (names : RuntimeNames) : Prop :=
  names.effectful.Nodup ∧ ∀ h ∈ names.effectful, h ∉ names.silent

instance (names : RuntimeNames) : Decidable names.Separated :=
  inferInstanceAs (Decidable (_ ∧ _))

end RuntimeNames

/-- In a list with a mark, nothing behind the last mark can be exchanged. -/
theorem eq_of_append_mark {α β : Type} {f : α → β} {mark : β} (hf : Function.Injective f)
    (hmark : ∀ a, f a ≠ mark) {before before' : List β} {after after' : List α}
    (h : before ++ mark :: after.map f = before' ++ mark :: after'.map f) : after = after' := by
  have hnot : ∀ l : List α, mark ∉ l.map f := by
    intro l hmem
    obtain ⟨a, -, ha⟩ := List.mem_map.1 hmem
    exact hmark a ha
  induction before generalizing before' with
  | nil =>
    cases before' with
    | nil => exact List.map_injective_iff.2 hf (List.cons.inj h).2
    | cons s before' =>
      obtain ⟨-, htail⟩ := List.cons.inj h
      refine absurd ?_ (hnot after)
      rw [htail]
      simp
  | cons s before ih =>
    cases before' with
    | nil =>
      obtain ⟨-, htail⟩ := List.cons.inj h
      refine absurd ?_ (hnot after')
      rw [← htail]
      simp
    | cons s' before' => exact ih (List.cons.inj h).2

/-! ## Events of script -/

namespace Script

/-- The event of a call of a helper, by the shape that its arguments have. -/
def helperEvents (names : RuntimeNames) (helper : String) (args : List Expr) :
    List (Event Expr) :=
  if helper ∈ names.silent then []
  else if helper = names.shallowCopy then [⟨.shallowCopy, args.head?.toList⟩]
  else if helper = names.multiSet then [⟨.multiSet, args.getLast?.toList⟩]
  else
    match args with
    | [.typeHandle declaring, .string name, .array [], .array (_ :: handed)] =>
      if helper = names.callBase then [⟨.baseCall declaring name, handed⟩] else [⟨.other, []⟩]
    | _ => [⟨.other, []⟩]

/-- The event of a call, what is evaluated before it aside. -/
def callEvents (names : RuntimeNames) (args : List Expr) : Expr → List (Event Expr)
  | .member _ name => [⟨.call name, args⟩]
  | .ident helper => helperEvents names helper args
  | _ => [⟨.other, []⟩]

/-- Storage as the left side of an assignment names it. -/
def Expr.written : Expr → Written
  | .ident name => .variable name
  | .member _ name => .member name
  | _ => .subscript

mutual

/-- The events of evaluating an expression. Evaluating the left side of an assignment is
evaluating the object and the index in it. -/
def Expr.events (names : RuntimeNames) : Expr → List (Event Expr)
  | .null | .bool _ | .number _ | .string _ | .ident _ | .this | .typeHandle _ => []
  | .member object _ => object.events names
  | .index object i => object.events names ++ i.events names
  | .call callee args =>
    callee.events names ++ Expr.allEvents names args ++ callEvents names args callee
  | .array items => Expr.allEvents names items
  | .assign target value =>
    target.events names ++ value.events names ++ [⟨.assign target.written, [value]⟩]
  | .compoundAssign op target value =>
    target.events names ++ value.events names ++ [⟨.compoundAssign op target.written, []⟩]
  | .binary _ left right => left.events names ++ right.events names
  | .verbatim text => [⟨.code text, []⟩]

def Expr.allEvents (names : RuntimeNames) : List Expr → List (Event Expr)
  | [] => []
  | e :: rest => e.events names ++ Expr.allEvents names rest

end

/-- The events of statements run one after the other. -/
def events (names : RuntimeNames) (stmts : List Stmt) : List (Event Expr) :=
  stmts.flatMap fun s => s.value.events names

section

attribute [local simp] Expr.events

variable (names : RuntimeNames)

@[simp] theorem Expr.allEvents_eq (es : List Expr) :
    Expr.allEvents names es = es.flatMap (Expr.events names) := by
  induction es with
  | nil => rfl
  | cons e es ih => simp [Expr.allEvents, ih]

@[simp] theorem events_nil : events names [] = [] := rfl

@[simp] theorem events_append (stmts stmts' : List Stmt) :
    events names (stmts ++ stmts') = events names stmts ++ events names stmts' := by
  simp [events]

@[simp] theorem events_expr (e : Expr) : events names [.expr e] = e.events names := by
  simp [events, Stmt.value]

@[simp] theorem events_declare (name : String) (e : Expr) :
    events names [.declare name e] = e.events names := by
  simp [events, Stmt.value]

/-- What can be evaluated again unnoticed has no events. -/
theorem Expr.events_of_isReusable {e : Expr} (h : e.isReusable = true) :
    e.events names = [] := by
  cases e <;> simp_all [Expr.isReusable]

@[simp] theorem Expr.events_callMethod (object : Expr) (name : String) (args : List Expr) :
    (Expr.callMethod object name args).events names =
      object.events names ++ args.flatMap (Expr.events names) ++ [⟨.call name, args⟩] := by
  simp [Expr.callMethod, callEvents]

@[simp] theorem Expr.events_clone (value : Expr) (tag : String) :
    (clone names value tag).events names = value.events names := by
  simp [clone, callEvents, helperEvents, RuntimeNames.silent]

@[simp] theorem Expr.events_copied (s : CopySemantics) (fresh : Bool) (uses : Nat)
    (value : Expr) : (copied names s fresh uses value).events names = value.events names := by
  unfold copied
  cases s.cloneTag? fresh uses <;> simp

@[simp] theorem Expr.events_multiGet (args : List Expr) :
    (Expr.call (.ident names.multiGet) args).events names =
      args.flatMap (Expr.events names) := by
  simp [callEvents, helperEvents, RuntimeNames.silent]

variable {names}

theorem Expr.events_shallowCopy (h : names.Separated) (value : Expr) :
    (Expr.call (.ident names.shallowCopy) [value, .this]).events names =
      value.events names ++ [⟨.shallowCopy, [value]⟩] := by
  have hsilent := h.2 names.shallowCopy (by simp [RuntimeNames.effectful])
  simp [callEvents, helperEvents, hsilent]

theorem Expr.events_multiSet (h : names.Separated) (args : List Expr) (value : Expr) :
    (Expr.call (.ident names.multiSet) (args ++ [value])).events names =
      args.flatMap (Expr.events names) ++ value.events names ++ [⟨.multiSet, [value]⟩] := by
  have hsilent := h.2 names.multiSet (by simp [RuntimeNames.effectful])
  have hnodup := h.1
  simp only [RuntimeNames.effectful, List.nodup_cons, List.mem_cons, not_or] at hnodup
  simp [callEvents, helperEvents, hsilent, Ne.symm hnodup.1.1]

theorem Expr.events_callBase (h : names.Separated) (declaring : TypeRef) (name : String)
    (args : List Expr) :
    (callBase names declaring name args).events names =
      args.flatMap (Expr.events names) ++ [⟨.baseCall declaring.name name, args⟩] := by
  have hsilent := h.2 names.callBase (by simp [RuntimeNames.effectful])
  have hnodup := h.1
  simp only [RuntimeNames.effectful, List.nodup_cons, List.mem_cons, not_or] at hnodup
  simp [callBase, callEvents, helperEvents, hsilent, Ne.symm hnodup.1.2.1,
    Ne.symm hnodup.2.1.1]

end

end Script

/-- A copy has the events of what it is a copy of. -/
@[simp] theorem Context.events_copied (cx : Context) (ty : TypeRef) (fresh : Bool) (uses : Nat)
    (e : Script.Expr) : (cx.copied ty fresh uses e).events cx.names = e.events cx.names :=
  Script.Expr.events_copied ..

/-- The events of what an assignment contributes: those of its statements and then those
of its result. -/
def LoweredAssignment.events (names : RuntimeNames) (a : LoweredAssignment) :
    List (Event Script.Expr) :=
  Script.events names a.statements ++ a.result.toList.flatMap (Script.Expr.events names)

/-! ## Events of source -/

namespace Target

variable {ε : Type}

/-- Storage as an assignment to the target names it. -/
def written (names : RuntimeNames) (t : Target ε) : Written :=
  match t.kind, t.storage with
  | .localVar name, _ => .variable name
  | .cell _, _ => .member names.cellMember
  | .dynamicMember name, _ => .member name
  | _, .field name => .member name
  | _, _ => .subscript

/-- The event of using an accessor, with the type of the value written if there is one. -/
def accessorEvents (t : Target ε) (value : Option TypeRef) : Accessor → List (Event TypeRef)
  | .method name =>
    let handed := t.args.map (·.ty) ++ value.toList
    match t.dispatch with
    | .dynamic => [⟨.call name, handed⟩]
    | .bound declaring => [⟨.baseCall declaring.name name, handed⟩]
  | .inline template => [⟨.code template, []⟩]
  | .subscript => value.toList.map fun ty => ⟨.assign .subscript, [ty]⟩

/-- The event of reading the target, if reading it runs code. -/
def readEvents (t : Target ε) : List (Event TypeRef) :=
  match t.kind with
  | .receiver | .multiElement => []
  | _ => t.getter?.toList.flatMap (t.accessorEvents none)

/-- The event of writing the target. -/
def writeEvents (names : RuntimeNames) (t : Target ε) : List (Event TypeRef) :=
  match t.kind with
  | .receiver => [⟨.shallowCopy, [t.ty]⟩]
  | .multiElement => [⟨.multiSet, [t.ty]⟩]
  | _ =>
    match t.setter? with
    | some setter => t.accessorEvents (some t.ty) setter
    | none => [⟨.assign (t.written names), [t.ty]⟩]

/-- A target on the left of `=` is written by an assignment. -/
theorem writeEvents_of_isNative {names : RuntimeNames} {t : Target ε} (h : t.isNative = true) :
    t.writeEvents names = [⟨.assign (t.written names), [t.ty]⟩] := by
  unfold isNative at h
  unfold writeEvents setter? Storage.setter?
  cases hk : t.kind <;> cases hs : t.storage <;> simp [hk, hs] at h ⊢

end Target

/-- What a call through a receiver is, for a method that is bound to the name `name`. -/
def Receiver.callLabel {ε : Type} (r : Receiver ε) (name : String) : Label :=
  match r with
  | .base declaring => .baseCall declaring.name name
  | .object _ | .static _ => .call name

/-- The events of a call of a method. -/
def callEvents {ε : Type} (md : Metadata) (r : Receiver ε) (m : Method) (args : List Expr) :
    List (Event TypeRef) :=
  match md.method m with
  | .method name => [⟨r.callLabel name, argTypes m.params args⟩]
  | .inline template => [⟨.code template, []⟩]
  | .unusable => []

/-- An expression with its events. -/
abbrev Traced := Annotated (List (Event TypeRef))

/-- The events of finding a place: those of its operands in the order of the text, and
those of the defaults that stand in for arguments left out. -/
def addressEvents (p : Place Traced) (t : Target Traced) : List (Event TypeRef) :=
  p.operands.flatMap (·.value) ++ t.omitted.flatMap (·.value)

/-- The events of a store. A compound assignment reads the old value before the right
operand is evaluated, unless script has it as one operation. -/
def storeEvents {ε : Type} (names : RuntimeNames) (op : AssignOp) (t : Target ε)
    (value : List (Event TypeRef)) : List (Event TypeRef) :=
  match op.binary? with
  | none => value ++ t.writeEvents names
  | some op =>
    if t.isNative then value ++ [⟨.compoundAssign op (t.written names), []⟩]
    else t.readEvents ++ value ++ t.writeEvents names

/-- The events of a form, given those of its subexpressions. A place that is no target
has none; it is not lowered. -/
def Form.events (cx : Context) (form : Form Traced) (span : Span) : List (Event TypeRef) :=
  let target := Target.ofPlace cx.metadata cx.enclosing Annotated.ty
  match form with
  | .literal .. | .defaultValue _ | .place (.this _) => []
  | .place p => (target span p).toOption.toList.flatMap fun t => addressEvents p t ++ t.readEvents
  | .call r m args =>
    r.object?.toList.flatMap (·.value) ++ args.flatMap (·.value) ++
      callEvents cx.metadata r m (args.map (·.expr))
  | .binary _ l r _ => l.value ++ r.value
  | .assign a =>
    a.target.place?.toList.flatMap fun p =>
      (target a.target.expr.span p).toOption.toList.flatMap fun t =>
        addressEvents p t ++ storeEvents cx.names a.op t a.value.value

/-- The events of evaluating an expression. -/
def Expr.events (cx : Context) (e : Expr) : List (Event TypeRef) :=
  (e.annotate (Form.events cx)).value

namespace Target

variable {ε δ : Type} (f : ε → δ) (t : Target ε)

@[simp] theorem accessorEvents_map (value : Option TypeRef) :
    (t.map f).accessorEvents value = t.accessorEvents value := by
  funext accessor
  cases accessor with
  | method name => simp [accessorEvents, Target.map, Function.comp_def]
  | _ => rfl

@[simp] theorem readEvents_map : (t.map f).readEvents = t.readEvents := by
  simp only [readEvents, accessorEvents_map]
  rfl

@[simp] theorem writeEvents_map (names : RuntimeNames) :
    (t.map f).writeEvents names = t.writeEvents names := by
  simp only [writeEvents, accessorEvents_map]
  rfl

end Target

@[simp] theorem storeEvents_map {ε δ : Type} (f : ε → δ) (names : RuntimeNames) (op : AssignOp)
    (t : Target ε) (value : List (Event TypeRef)) :
    storeEvents names op (t.map f) value = storeEvents names op t value := by
  simp only [storeEvents, Target.readEvents_map, Target.writeEvents_map]
  rfl

theorem callEvents_map {ε δ : Type} (f : ε → δ) (md : Metadata) (r : Receiver ε) (m : Method)
    (args : List Expr) : callEvents md (r.map f) m args = callEvents md r m args := by
  unfold callEvents
  cases md.method m <;> cases r <;> rfl

namespace Expr

variable {cx : Context}

@[simp] theorem value_annotate (e : Expr) :
    (e.annotate (Form.events cx)).value = e.events cx := rfl

/-- The events of an expression are those of its form. -/
theorem events_eq (e : Expr) :
    e.events cx = (e.form.map (annotate (Form.events cx))).events cx e.span := by
  rw [events, annotate_eq]

@[simp] theorem events_literal (value : Literal) (ty : TypeRef) (span : Span) :
    (⟨.literal value ty, span⟩ : Expr).events cx = [] := events_eq _

@[simp] theorem events_defaultValue (ty : TypeRef) (span : Span) :
    (⟨.defaultValue ty, span⟩ : Expr).events cx = [] := events_eq _

@[simp] theorem events_this (ty : TypeRef) (span : Span) :
    (⟨.place (.this ty), span⟩ : Expr).events cx = [] := events_eq _

theorem events_binary (op : BinaryOp) (l r : Expr) (ty : TypeRef) (span : Span) :
    (⟨.binary op l r ty, span⟩ : Expr).events cx = l.events cx ++ r.events cx := events_eq _

theorem events_call (r : Receiver Expr) (m : Method) (args : List Expr) (span : Span) :
    (⟨.call r m args, span⟩ : Expr).events cx =
      (r.object?.toList ++ args).flatMap (events cx) ++ callEvents cx.metadata r m args := by
  rw [events_eq]
  simp only [Form.map, Form.events, callEvents_map, Receiver.object?_map, Option.toList_map,
    List.flatMap_map, List.map_map, Function.comp_def, expr_annotate, value_annotate,
    List.map_id_fun', List.flatMap_append]
  rfl

/-- The operands of a place and the defaults that it takes, for a target made from it. -/
theorem addressEvents_map {p : Place Expr} {t : Target Expr} {span : Span}
    (ht : Target.ofPlace cx.metadata cx.enclosing Expr.ty span p = .ok t) :
    addressEvents (p.map (annotate (Form.events cx))) (t.map (annotate (Form.events cx))) =
      t.operands.flatMap (events cx) ++ t.omitted.flatMap (events cx) := by
  simp [addressEvents, Target.operands_ofPlace ht, List.flatMap_map]

/-- The events of reading a place, in terms of its target with results for the operands. -/
theorem events_place {p : Place Expr} {span : Span} (hthis : ∀ ty, p ≠ .this ty) :
    (⟨.place p, span⟩ : Expr).events cx =
      ((Target.ofPlace cx.metadata cx.enclosing Annotated.ty span
        (p.map (annotate (Form.events cx)))).toOption.toList.flatMap
          fun t => addressEvents (p.map (annotate (Form.events cx))) t ++ t.readEvents) := by
  rw [events_eq]
  cases p with
  | this ty => exact absurd rfl (hthis ty)
  | _ => rfl

/-- A place that is no target has no events. -/
theorem events_of_error {p : Place Expr} {span : Span} {err : LoweringError}
    (hthis : ∀ ty, p ≠ .this ty)
    (ht : Target.ofPlace cx.metadata cx.enclosing Expr.ty span p = .error err) :
    (⟨.place p, span⟩ : Expr).events cx = [] := by
  rw [events_place hthis, Target.ofPlace_map _ fun e => ty_annotate (Form.events cx) e, ht]
  rfl

theorem events_load {p : Place Expr} {t : Target Expr} {span : Span}
    (hthis : ∀ ty, p ≠ .this ty)
    (ht : Target.ofPlace cx.metadata cx.enclosing Expr.ty span p = .ok t) :
    (⟨.place p, span⟩ : Expr).events cx =
      t.operands.flatMap (events cx) ++ t.omitted.flatMap (events cx) ++ t.readEvents := by
  rw [events_place hthis, ofPlace_annotate _ ht]
  simp [Except.toOption, addressEvents_map ht]

theorem events_assign {a : Assignment Expr} {t : Target Expr}
    (htarget : a.target.target cx.metadata cx.enclosing = .ok t) (span : Span) :
    (⟨.assign a, span⟩ : Expr).events cx =
      t.operands.flatMap (events cx) ++ t.omitted.flatMap (events cx) ++
        storeEvents cx.names a.op t (a.value.events cx) := by
  obtain ⟨p, hp, ht⟩ := target_arranges htarget
  have hplace : (a.target.annotate (Form.events cx)).place? =
      some (p.map (annotate (Form.events cx))) := by
    rw [place?_annotate]
    exact congrArg _ (place?_of_place hp)
  rw [events_eq]
  simp only [Form.map, Assignment.map, Form.events, hplace, expr_annotate, Option.toList_some,
    List.flatMap_singleton, ofPlace_annotate _ ht]
  simp [Except.toOption, addressEvents_map ht]

end Expr
end AssignmentLowering
