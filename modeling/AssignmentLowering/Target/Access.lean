import AssignmentLowering.RuntimeNames
import AssignmentLowering.Target.Basic
import AssignmentLowering.Template

/-!
# Script that reads and writes targets

Given a target and its operands in script, this is the script that reads or writes
it. Nothing is evaluated or copied here; the order of evaluation and the making of
copies are settled before operands arrive.

## Main definitions

* `Address` — a target's operands in script.
* `Target.native` — the target as it stands on the left of `=`.
* `Target.load`, `Target.store` — reading and writing.
* `callBase` — a call of the method that a base type has.
-/

namespace AssignmentLowering

/-- Operands in script: the object, if one is evaluated, and the index arguments in
declared order. -/
structure Address where
  object : Option Script.Expr := none
  args : List Script.Expr := []

/-- `helper({Type}, 'name', [], [this, args])` -/
def callBase (names : RuntimeNames) (declaring : TypeRef) (method : String)
    (args : List Script.Expr) : Script.Expr :=
  .call (.ident names.callBase)
    [.typeHandle declaring.name, .string method, .array [], .array (.this :: args)]

variable {ε : Type}

namespace Target

/-- The object through which a member is reached: the one evaluated, a type, or the
current object. -/
def object (t : Target ε) (a : Address) : Script.Expr :=
  match a.object, t.staticOwner with
  | some e, _ => e
  | none, some owner => .typeHandle owner.name
  | none, none => .this

/-- A native subscript takes one index. -/
def subscript (t : Target ε) (a : Address) : Except LoweringError Script.Expr :=
  match a.args with
  | [i] => .ok (.index (t.object a) i)
  | args => .error (.internal (.subscriptArity args.length) t.span)

/-- The target as it stands on the left of `=`. -/
def native (names : RuntimeNames) (t : Target ε) (a : Address) :
    Except LoweringError Script.Expr :=
  match t.kind, t.storage with
  | .localVar name, _ => .ok (.ident name)
  | .cell name, _ => .ok (.member (.ident name) names.cellMember)
  | .dynamicMember name, _ => .ok (.member (t.object a) name)
  | _, .field name => .ok (.member (t.object a) name)
  | .element, _ | .dynamicIndex, _ | _, .subscript => t.subscript a
  | kind, _ => .error (.internal (.notNative kind) t.span)

/-- The operand that a placeholder in an accessor's template stands for. -/
def operand? (t : Target ε) (a : Address) (value : Option Script.Expr) (name : String) :
    Option Script.Expr :=
  if name = "this" then some (t.object a)
  else if name = "value" then value
  else (Template.index? t.paramNames name).bind (a.args[·]?)

/-- The use of an accessor, with the value to be written if there is one. -/
def useAccessor (names : RuntimeNames) (t : Target ε) (a : Address)
    (value : Option Script.Expr) : Accessor → Except LoweringError Script.Expr
  | .method name =>
    let args := a.args ++ value.toList
    match t.dispatch with
    | .dynamic => .ok (.callMethod (t.object a) name args)
    | .bound declaring => .ok (callBase names declaring name args)
  | .inline template =>
    (Template.substitute template t.span (t.operand? a value)).map .verbatim
  | .subscript =>
    (t.subscript a).map fun place =>
      match value with
      | some v => .assign place v
      | none => place

/-- Script that reads the target. -/
def load (names : RuntimeNames) (t : Target ε) (a : Address) :
    Except LoweringError Script.Expr :=
  match t.kind with
  | .receiver => .ok .this
  | .multiElement => .ok (.call (.ident names.multiGet) (t.object a :: a.args))
  | _ =>
    match t.getter? with
    | some getter => t.useAccessor names a none getter
    | none => t.native names a

/-- Script that writes the target. -/
def store (names : RuntimeNames) (t : Target ε) (a : Address) (value : Script.Expr) :
    Except LoweringError Script.Expr :=
  match t.kind with
  | .receiver => .ok (.call (.ident names.shallowCopy) [value, .this])
  | .multiElement =>
    .ok (.call (.ident names.multiSet) (t.object a :: (a.args ++ [value])))
  | _ =>
    match t.setter? with
    | some setter => t.useAccessor names a (some value) setter
    | none => (t.native names a).map (.assign · value)

end Target
end AssignmentLowering
