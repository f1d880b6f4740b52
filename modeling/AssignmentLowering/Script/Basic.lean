import AssignmentLowering.Number.Binary64
import AssignmentLowering.Operator

/-!
# Script expressions and statements

The output language, as far as lowering an assignment needs it: literals,
identifiers, member access, subscripts, calls, arrays, assignments, binary
operations, and text inserted as it stands. A type object is referred to by a
handle.

## Main definitions

* `Script.Expr`, `Script.Stmt` — the two syntactic sorts.
* `Script.Expr.same` — equality up to the equality of numbers.
* `Script.Expr.isReusable` — whether a second evaluation goes unnoticed.
-/

namespace AssignmentLowering.Script

/-- A script expression. -/
inductive Expr where
  | null
  | bool (value : Bool)
  | number (value : Binary64)
  | string (value : String)
  | ident (name : String)
  | this
  | typeHandle (name : String)
  | member (object : Expr) (name : String)
  | index (object : Expr) (index : Expr)
  | call (callee : Expr) (args : List Expr)
  | array (items : List Expr)
  | assign (target : Expr) (value : Expr)
  | compoundAssign (op : BinaryOp) (target : Expr) (value : Expr)
  | binary (op : BinaryOp) (left : Expr) (right : Expr)
  /-- Finished script text, of which nothing more is known. -/
  | verbatim (text : String)

namespace Expr

/-- `object.name(args)` -/
def callMethod (object : Expr) (name : String) (args : List Expr) : Expr :=
  .call (.member object name) args

/-- Literals, identifiers, `this` and type handles: evaluating one twice cannot be
told from evaluating it once. -/
def isReusable : Expr → Bool
  | null | bool _ | number _ | string _ | ident _ | this | typeHandle _ => true
  | _ => false

mutual

/-- Equality of expressions, with numbers compared by `eqNumber`. -/
def sameWith (eqNumber : Binary64 → Binary64 → Bool) : Expr → Expr → Bool
  | null, null => true
  | bool a, bool b => a = b
  | number a, number b => eqNumber a b
  | string a, string b => a = b
  | ident a, ident b => a = b
  | this, this => true
  | typeHandle a, typeHandle b => a = b
  | member o n, member o' n' => o.sameWith eqNumber o' && n = n'
  | index o i, index o' i' => o.sameWith eqNumber o' && i.sameWith eqNumber i'
  | call c as, call c' as' => c.sameWith eqNumber c' && sameAll eqNumber as as'
  | array as, array as' => sameAll eqNumber as as'
  | assign t v, assign t' v' => t.sameWith eqNumber t' && v.sameWith eqNumber v'
  | compoundAssign op t v, compoundAssign op' t' v' =>
    op = op' && t.sameWith eqNumber t' && v.sameWith eqNumber v'
  | binary op l r, binary op' l' r' =>
    op = op' && l.sameWith eqNumber l' && r.sameWith eqNumber r'
  | verbatim a, verbatim b => a = b
  | _, _ => false

/-- Equality of two lists, item by item. -/
def sameAll (eqNumber : Binary64 → Binary64 → Bool) : List Expr → List Expr → Bool
  | [], [] => true
  | a :: as, b :: bs => a.sameWith eqNumber b && sameAll eqNumber as bs
  | _, _ => false

end

/-- Whether two expressions are equal as programs: all NaN are one number, and so are
the two zeros. -/
def same : Expr → Expr → Bool := sameWith Binary64.same

mutual

/-- With numbers told apart by their bits, expressions are the same only if equal. -/
theorem sameWith_eq_iff : ∀ a b : Expr, a.sameWith (fun x y => x = y) b = true ↔ a = b
  | null, b | this, b | bool _, b | number _, b | string _, b | ident _, b
  | typeHandle _, b | verbatim _, b => by cases b <;> simp [sameWith]
  | member o n, b => by
    cases b <;> simp [sameWith, sameWith_eq_iff o]
  | index o i, b => by
    cases b <;> simp [sameWith, sameWith_eq_iff o, sameWith_eq_iff i]
  | call c as, b => by
    cases b <;> simp [sameWith, sameWith_eq_iff c, sameAll_eq_iff as]
  | array as, b => by
    cases b <;> simp [sameWith, sameAll_eq_iff as]
  | assign t v, b => by
    cases b <;> simp [sameWith, sameWith_eq_iff t, sameWith_eq_iff v]
  | compoundAssign _ t v, b => by
    cases b <;> simp [sameWith, sameWith_eq_iff t, sameWith_eq_iff v, and_assoc]
  | binary _ l r, b => by
    cases b <;> simp [sameWith, sameWith_eq_iff l, sameWith_eq_iff r, and_assoc]

theorem sameAll_eq_iff : ∀ as bs : List Expr,
    sameAll (fun x y => x = y) as bs = true ↔ as = bs
  | [], bs => by cases bs <;> simp [sameAll]
  | a :: as, bs => by
    cases bs <;> simp [sameAll, sameWith_eq_iff a, sameAll_eq_iff as]

end

instance : DecidableEq Expr := fun a b => decidable_of_iff _ (sameWith_eq_iff a b)

end Expr

/-- A script statement. -/
inductive Stmt where
  | expr (e : Expr)
  | declare (name : String) (value : Expr)
  deriving DecidableEq

end AssignmentLowering.Script
