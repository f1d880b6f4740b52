import AssignmentLowering.Expr.Basic

/-!
# Traversing expressions

Every traversal of an expression is one fold. A step sees the outermost form, with
each subexpression beside the result for it, and makes the result for the whole.
The recursion is written once, over the lists and optional parts that a form may
hold, and `Expr.fold_eq` says what it comes to: a step after mapping the fold over
the form.

## Main definitions

* `Expr.fold` — the fold.
* `Expr.fold_eq` — its equation.
-/

namespace AssignmentLowering.Expr

variable {α : Type}

mutual

/-- Fold an expression from its leaves to its root. -/
def fold (step : Form (Expr × α) → Span → α) : Expr → α
  | ⟨form, span⟩ => step (foldForm step form) span

def foldForm (step : Form (Expr × α) → Span → α) : Form Expr → Form (Expr × α)
  | .literal value ty => .literal value ty
  | .defaultValue ty => .defaultValue ty
  | .place p => .place (foldPlace step p)
  | .call r m args => .call (foldReceiver step r) m (foldList step args)
  | .binary op l r ty => .binary op (l, l.fold step) (r, r.fold step) ty
  | .assign ⟨t, op, v⟩ => .assign ⟨(t, t.fold step), op, (v, v.fold step)⟩

def foldPlace (step : Form (Expr × α) → Span → α) : Place Expr → Place (Expr × α)
  | .localVar l => .localVar l
  | .this ty => .this ty
  | .field r m => .field (foldReceiver step r) m
  | .property r m => .property (foldReceiver step r) m
  | .indexer r t args ty =>
    .indexer (foldReceiver step r) (foldTarget step t) (foldArguments step args) ty
  | .element array indices ty => .element (array, array.fold step) (foldList step indices) ty
  | .dynamicMember object name => .dynamicMember (object, object.fold step) name
  | .dynamicIndex object args =>
    .dynamicIndex (object, object.fold step) (foldArguments step args)

def foldReceiver (step : Form (Expr × α) → Span → α) : Receiver Expr → Receiver (Expr × α)
  | .object e => .object (e, e.fold step)
  | .static owner => .static owner
  | .base declaring => .base declaring

def foldTarget (step : Form (Expr × α) → Span → α) :
    IndexerTarget Expr → IndexerTarget (Expr × α)
  | .resolved property defaults => .resolved property (foldDefaults step defaults)
  | .candidates properties => .candidates properties

def foldArguments (step : Form (Expr × α) → Span → α) :
    List (Argument Expr) → List (Argument (Expr × α))
  | [] => []
  | ⟨e, name, span⟩ :: rest => ⟨(e, e.fold step), name, span⟩ :: foldArguments step rest

def foldDefaults (step : Form (Expr × α) → Span → α) :
    List (Option Expr) → List (Option (Expr × α))
  | [] => []
  | none :: rest => none :: foldDefaults step rest
  | some e :: rest => some (e, e.fold step) :: foldDefaults step rest

def foldList (step : Form (Expr × α) → Span → α) : List Expr → List (Expr × α)
  | [] => []
  | e :: rest => (e, e.fold step) :: foldList step rest

end

/-- An expression beside the result of folding it. -/
def withFold (step : Form (Expr × α) → Span → α) (e : Expr) : Expr × α := (e, e.fold step)

section

variable (step : Form (Expr × α) → Span → α)

theorem foldList_eq (es : List Expr) : foldList step es = es.map (withFold step) := by
  induction es with
  | nil => simp [foldList]
  | cons e es ih => simp [foldList, ih, withFold]

theorem foldDefaults_eq (ds : List (Option Expr)) :
    foldDefaults step ds = ds.map (·.map (withFold step)) := by
  induction ds with
  | nil => simp [foldDefaults]
  | cons d ds ih => cases d <;> simp [foldDefaults, ih, withFold]

theorem foldArguments_eq (as : List (Argument Expr)) :
    foldArguments step as = as.map (·.map (withFold step)) := by
  induction as with
  | nil => simp [foldArguments]
  | cons a as ih => cases a; simp [foldArguments, ih, withFold, Argument.map]

theorem foldReceiver_eq (r : Receiver Expr) :
    foldReceiver step r = r.map (withFold step) := by
  cases r <;> simp [foldReceiver, Receiver.map, withFold]

theorem foldTarget_eq (t : IndexerTarget Expr) :
    foldTarget step t = t.map (withFold step) := by
  cases t <;> simp [foldTarget, IndexerTarget.map, foldDefaults_eq]

theorem foldPlace_eq (p : Place Expr) : foldPlace step p = p.map (withFold step) := by
  cases p <;>
    simp [foldPlace, Place.map, foldReceiver_eq, foldTarget_eq, foldArguments_eq,
      foldList_eq, withFold]

theorem foldForm_eq (x : Form Expr) : foldForm step x = x.map (withFold step) := by
  cases x <;>
    simp [foldForm, Form.map, Assignment.map, foldReceiver_eq, foldPlace_eq, foldList_eq,
      withFold]

/-- A fold is its step, after the fold of the subexpressions. -/
theorem fold_eq (e : Expr) :
    e.fold step = step (e.form.map (withFold step)) e.span := by
  cases e
  simp [fold, foldForm_eq]

end

end AssignmentLowering.Expr
