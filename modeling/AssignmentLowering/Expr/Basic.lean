import AssignmentLowering.Number.Binary64
import AssignmentLowering.Operator
import AssignmentLowering.Span
import AssignmentLowering.Symbol.Basic

/-!
# Resolved expressions

The expressions that are lowered. Names are resolved, types are known and overloads
are chosen. An expression is a form with a position, and a form is generic in what
stands for its subexpressions, so that one definition serves expressions, analysed
expressions and lowered operands alike.

A *place* is a form that can be read from and, most of the time, assigned to. Its
*operands* are the subexpressions that are evaluated to find it, in the order of
the text. The defaults of an indexer's parameters are not among them: they belong
to the declaration and stand in for arguments that were left out.

## Main definitions

* `Receiver`, `Argument`, `IndexerTarget`, `Place`, `Assignment`, `Form` — the shapes.
* `Expr` — an expression.
* `Form.map`, `Form.operands`, `Form.children` — the subexpressions of a form.
* `Expr.ty` — its type.
-/

namespace AssignmentLowering

/-- A literal value. -/
inductive Literal where
  | int (value : Int)
  | double (value : Binary64)
  | bool (value : Bool)
  | string (value : String)
  | null
  deriving DecidableEq, Repr

/-- How a member is reached. -/
inductive Receiver (ε : Type) where
  /-- Through an object. -/
  | object (e : ε)
  /-- Through its declaring type. -/
  | static (owner : TypeRef)
  /-- Through the current object, but as the given base type has it. -/
  | base (declaring : TypeRef)

/-- An argument as written in a call, maybe with the name of its parameter. -/
structure Argument (ε : Type) where
  value : ε
  name : Option String := none
  span : Span := {}

/-- Which indexer is meant. -/
inductive IndexerTarget (ε : Type) where
  /-- This one; with the default of each parameter that has one, in declared order. -/
  | resolved (property : Property) (defaults : List (Option ε))
  /-- Whichever of these fits at run time. -/
  | candidates (properties : List Property)

/-- A form that denotes storage, or at least looks as if it did. -/
inductive Place (ε : Type) where
  | localVar (l : Local)
  /-- The object that the code belongs to. -/
  | this (ty : TypeRef)
  | field (receiver : Receiver ε) (f : Field)
  | property (receiver : Receiver ε) (p : Property)
  | indexer (receiver : Receiver ε) (target : IndexerTarget ε) (args : List (Argument ε))
      (ty : TypeRef)
  | element (array : ε) (indices : List ε) (ty : TypeRef)
  | dynamicMember (object : ε) (name : String)
  | dynamicIndex (object : ε) (args : List (Argument ε))

/-- An assignment. In a chain the value is again an assignment. -/
structure Assignment (ε : Type) where
  target : ε
  op : AssignOp
  value : ε

/-- The outermost form of an expression. -/
inductive Form (ε : Type) where
  | literal (value : Literal) (ty : TypeRef)
  | defaultValue (ty : TypeRef)
  | place (p : Place ε)
  /-- Arguments are in declared order. -/
  | call (receiver : Receiver ε) (method : Method) (args : List ε)
  | binary (op : BinaryOp) (left right : ε) (ty : TypeRef)
  | assign (a : Assignment ε)

/-- A resolved expression. -/
structure Expr where
  form : Form Expr
  span : Span

variable {ε δ ζ : Type}

namespace Receiver

def map (f : ε → δ) : Receiver ε → Receiver δ
  | object e => .object (f e)
  | static owner => .static owner
  | base declaring => .base declaring

/-- The object, if the member is reached through one. -/
def object? : Receiver ε → Option ε
  | object e => some e
  | static _ | base _ => none

def isStatic : Receiver ε → Bool
  | static _ => true
  | object _ | base _ => false

@[simp] theorem map_map (f : ε → δ) (g : δ → ζ) (r : Receiver ε) :
    (r.map f).map g = r.map (g ∘ f) := by cases r <;> rfl

@[simp] theorem map_id (r : Receiver ε) : r.map (fun e => e) = r := by cases r <;> rfl

@[simp] theorem object?_map (f : ε → δ) (r : Receiver ε) :
    (r.map f).object? = r.object?.map f := by cases r <;> rfl

@[simp] theorem isStatic_map (f : ε → δ) (r : Receiver ε) :
    (r.map f).isStatic = r.isStatic := by cases r <;> rfl

end Receiver

namespace Argument

def map (f : ε → δ) (a : Argument ε) : Argument δ := ⟨f a.value, a.name, a.span⟩

@[simp] theorem value_map (f : ε → δ) (a : Argument ε) : (a.map f).value = f a.value := rfl

@[simp] theorem name_map (f : ε → δ) (a : Argument ε) : (a.map f).name = a.name := rfl

@[simp] theorem span_map (f : ε → δ) (a : Argument ε) : (a.map f).span = a.span := rfl

@[simp] theorem map_map (f : ε → δ) (g : δ → ζ) (a : Argument ε) :
    (a.map f).map g = a.map (g ∘ f) := rfl

@[simp] theorem map_id (a : Argument ε) : a.map (fun e => e) = a := rfl

end Argument

namespace IndexerTarget

def map (f : ε → δ) : IndexerTarget ε → IndexerTarget δ
  | resolved property defaults => .resolved property (defaults.map (·.map f))
  | candidates properties => .candidates properties

@[simp] theorem map_map (f : ε → δ) (g : δ → ζ) (t : IndexerTarget ε) :
    (t.map f).map g = t.map (g ∘ f) := by
  cases t <;> simp [map, Function.comp_def]

@[simp] theorem map_id (t : IndexerTarget ε) : t.map (fun e => e) = t := by
  cases t <;> simp [map]

end IndexerTarget

namespace Place

def map (f : ε → δ) : Place ε → Place δ
  | localVar l => .localVar l
  | this ty => .this ty
  | field r m => .field (r.map f) m
  | property r m => .property (r.map f) m
  | indexer r t args ty => .indexer (r.map f) (t.map f) (args.map (·.map f)) ty
  | element array indices ty => .element (f array) (indices.map f) ty
  | dynamicMember object name => .dynamicMember (f object) name
  | dynamicIndex object args => .dynamicIndex (f object) (args.map (·.map f))

/-- The object the place belongs to: a receiver, an array or a dynamic object. -/
def object? : Place ε → Option ε
  | localVar _ | this _ => none
  | field r _ | property r _ | indexer r _ _ _ => r.object?
  | element e _ _ | dynamicMember e _ | dynamicIndex e _ => some e

/-- The indices, in the order of the text. -/
def indices : Place ε → List ε
  | localVar _ | this _ | field .. | property .. | dynamicMember .. => []
  | indexer _ _ args _ | dynamicIndex _ args => args.map (·.value)
  | element _ is _ => is

/-- What is evaluated to find the place, in the order of the text. -/
def operands (p : Place ε) : List ε := p.object?.toList ++ p.indices

/-- The defaults that may stand in for indices left out. -/
def defaults : Place ε → List ε
  | indexer _ (.resolved _ ds) _ _ => ds.filterMap id
  | _ => []

/-- The type of what is stored. -/
def ty : Place ε → TypeRef
  | localVar l => l.ty
  | this ty | indexer _ _ _ ty | element _ _ ty => ty
  | field _ f => f.ty
  | property _ p => p.ty
  | dynamicMember .. | dynamicIndex .. => .dynamic

@[simp] theorem map_map (f : ε → δ) (g : δ → ζ) (p : Place ε) :
    (p.map f).map g = p.map (g ∘ f) := by
  cases p <;> simp [map, Function.comp_def]

@[simp] theorem map_id (p : Place ε) : p.map (fun e => e) = p := by
  cases p <;> simp [map]

@[simp] theorem object?_map (f : ε → δ) (p : Place ε) :
    (p.map f).object? = p.object?.map f := by
  cases p <;> simp [map, object?]

@[simp] theorem indices_map (f : ε → δ) (p : Place ε) :
    (p.map f).indices = p.indices.map f := by
  cases p <;> simp [map, indices]

@[simp] theorem operands_map (f : ε → δ) (p : Place ε) :
    (p.map f).operands = p.operands.map f := by
  cases h : p.object? <;> simp [operands, h]

@[simp] theorem ty_map (f : ε → δ) (p : Place ε) : (p.map f).ty = p.ty := by
  cases p <;> rfl

end Place

namespace Assignment

def map (f : ε → δ) (a : Assignment ε) : Assignment δ := ⟨f a.target, a.op, f a.value⟩

@[simp] theorem map_map (f : ε → δ) (g : δ → ζ) (a : Assignment ε) :
    (a.map f).map g = a.map (g ∘ f) := rfl

@[simp] theorem map_id (a : Assignment ε) : a.map (fun e => e) = a := rfl

end Assignment

namespace Form

def map (f : ε → δ) : Form ε → Form δ
  | literal value ty => .literal value ty
  | defaultValue ty => .defaultValue ty
  | place p => .place (p.map f)
  | call r m args => .call (r.map f) m (args.map f)
  | binary op l r ty => .binary op (f l) (f r) ty
  | assign a => .assign (a.map f)

/-- The subexpressions in the order of the text. -/
def operands : Form ε → List ε
  | literal .. | defaultValue _ => []
  | place p => p.operands
  | call r _ args => r.object?.toList ++ args
  | binary _ l r _ => [l, r]
  | assign a => [a.target, a.value]

/-- Everything below the root: the operands and the defaults. -/
def children : Form ε → List ε
  | place p => p.operands ++ p.defaults
  | x => x.operands

/-- The place that the form is, if it is one. -/
def place? : Form ε → Option (Place ε)
  | place p => some p
  | _ => none

@[simp] theorem map_map (f : ε → δ) (g : δ → ζ) (x : Form ε) :
    (x.map f).map g = x.map (g ∘ f) := by
  cases x <;> simp [map]

@[simp] theorem map_id (x : Form ε) : x.map (fun e => e) = x := by
  cases x <;> simp [map]

@[simp] theorem operands_map (f : ε → δ) (x : Form ε) :
    (x.map f).operands = x.operands.map f := by
  cases x with
  | call r m args => cases h : r.object? <;> simp [map, operands, h]
  | _ => simp [map, operands, Assignment.map]

@[simp] theorem place?_map (f : ε → δ) (x : Form ε) :
    (x.map f).place? = x.place?.map (Place.map f) := by
  cases x <;> rfl

end Form

namespace Expr

/-- The type of an expression; an assignment has that of its target. -/
def ty : Expr → TypeRef
  | ⟨.literal _ ty, _⟩ | ⟨.defaultValue ty, _⟩ | ⟨.binary _ _ _ ty, _⟩ => ty
  | ⟨.place p, _⟩ => p.ty
  | ⟨.call _ m _, _⟩ => m.returns
  | ⟨.assign a, _⟩ => a.target.ty

/-- The subexpressions in the order of the text. -/
def operands (e : Expr) : List Expr := e.form.operands

end Expr
end AssignmentLowering
