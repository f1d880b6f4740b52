import AssignmentLowering.Lowering.Session
import AssignmentLowering.Proofs.Expr.Annotate

/-!
# A class to try results on

General results are tried on the members of one class: fields, properties that are run
by methods, and methods. There is one type, and what assignment does to its values can be
chosen.

## Main definitions

* `Sample.context` — the body of a member of the class.
* `Sample.field`, `Sample.property`, `Sample.call`, … — expressions in that body.
-/

namespace AssignmentLowering.Sample

def ty : TypeRef := ⟨"Type"⟩

/-- Members go by their own names; a property is run by two methods. -/
def metadata (semantics : CopySemantics) : Metadata where
  semantics _ := semantics
  property p := .accessors (.method ("get" ++ p.name)) (.method ("set" ++ p.name))
  fieldName f := f.name
  method m := .method m.name

def context (semantics : CopySemantics) : Context :=
  { metadata := metadata semantics, enclosing := { ty } }

def this : Expr := ⟨.place (.this ty), {}⟩

def localVar (name : String) : Expr := ⟨.place (.localVar { name, ty }), {}⟩

def field (name : String) : Expr := ⟨.place (.field (.object this) ⟨name, ty, ty⟩), {}⟩

def property (name : String) : Expr :=
  ⟨.place (.property (.object this) { name, owner := ty, ty }), {}⟩

/-- A call of a method of the current object. -/
def call (name : String) (args : List Expr) : Expr :=
  ⟨.call (.object this)
    { name, owner := ty, returns := ty, params := args.map fun e => ⟨"x", e.ty⟩ } args, {}⟩

def assign (target : Expr) (op : AssignOp) (value : Expr) : Expr :=
  ⟨.assign ⟨target, op, value⟩, {}⟩

/-! ## What holds everywhere -/

section

variable {p : Expr → Prop} {name : String}

theorem everywhere_this (h : p this) : this.Everywhere p :=
  .intro h (by
    simp [this, Form.children, Place.operands, Place.defaults, Place.object?, Place.indices])

theorem everywhere_localVar (h : p (localVar name)) : (localVar name).Everywhere p :=
  .intro h (by
    simp [localVar, Form.children, Place.operands, Place.defaults, Place.object?,
      Place.indices])

theorem everywhere_field (h : p (field name)) (hthis : p this) :
    (field name).Everywhere p :=
  .intro h (by
    simpa [field, Form.children, Place.operands, Place.defaults, Place.object?, Place.indices,
      Receiver.object?] using everywhere_this hthis)

theorem everywhere_property (h : p (property name)) (hthis : p this) :
    (property name).Everywhere p :=
  .intro h (by
    simpa [property, Form.children, Place.operands, Place.defaults, Place.object?,
      Place.indices, Receiver.object?] using everywhere_this hthis)

theorem everywhere_call {args : List Expr} (h : p (call name args)) (hthis : p this)
    (hargs : ∀ e ∈ args, e.Everywhere p) : (call name args).Everywhere p := by
  refine .intro h fun c hc => ?_
  obtain rfl | hc := List.mem_cons.1 hc
  · exact everywhere_this hthis
  · exact hargs c hc

theorem everywhere_assign {target value : Expr} {op : AssignOp} (h : p (assign target op value))
    (htarget : target.Everywhere p) (hvalue : value.Everywhere p) :
    (assign target op value).Everywhere p := by
  refine .intro h fun c hc => ?_
  obtain rfl | hc := List.mem_cons.1 hc
  · exact htarget
  · obtain rfl := List.mem_singleton.1 hc
    exact hvalue

end

end AssignmentLowering.Sample
