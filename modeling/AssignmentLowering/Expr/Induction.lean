import AssignmentLowering.Expr.Basic

/-!
# Induction on expressions

A property holds of every expression if it passes from the children of an expression
to the expression. Children are the operands and the defaults of an indexer's
parameters; they sit in lists and optional parts of the form, and the recursion goes
through all of these once, here.

## Main statements

* `Expr.induct` — the induction principle.
-/

namespace AssignmentLowering.Expr

variable {P : Expr → Prop}

mutual

/-- What passes from the children of an expression to the expression holds of all. -/
theorem induct (step : ∀ e : Expr, (∀ c ∈ e.form.children, P c) → P e) : ∀ e, P e
  | ⟨form, span⟩ => step ⟨form, span⟩ (inductForm step form)

theorem inductForm (step : ∀ e : Expr, (∀ c ∈ e.form.children, P c) → P e) :
    ∀ x : Form Expr, ∀ c ∈ x.children, P c
  | .literal .. | .defaultValue _ => by simp [Form.children, Form.operands]
  | .place p => inductPlace step p
  | .call r m args => by
    have h := inductReceiver step r
    have h' := inductList step args
    intro c hc
    rcases List.mem_append.1 hc with hc | hc
    · exact h c hc
    · exact h' c hc
  | .binary _ l r _ => by
    have h := induct step l
    have h' := induct step r
    simp [Form.children, Form.operands, h, h']
  | .assign ⟨t, _, v⟩ => by
    have h := induct step t
    have h' := induct step v
    simp [Form.children, Form.operands, h, h']

theorem inductPlace (step : ∀ e : Expr, (∀ c ∈ e.form.children, P c) → P e) :
    ∀ p : Place Expr, ∀ c ∈ p.operands ++ p.defaults, P c
  | .localVar _ | .this _ => by
    simp [Place.operands, Place.object?, Place.indices, Place.defaults]
  | .field r _ | .property r _ => by
    have h := inductReceiver step r
    simpa [Place.operands, Place.object?, Place.indices, Place.defaults] using h
  | .indexer r (.resolved _ ds) args _ => by
    have h := inductReceiver step r
    have h' := inductArguments step args
    have h'' := inductDefaults step ds
    intro c hc
    rcases List.mem_append.1 hc with hc | hc
    · rcases List.mem_append.1 hc with hc | hc
      · exact h c hc
      · exact h' c hc
    · exact h'' c hc
  | .indexer r (.candidates _) args _ => by
    have h := inductReceiver step r
    have h' := inductArguments step args
    intro c hc
    simp only [Place.defaults, List.append_nil] at hc
    rcases List.mem_append.1 hc with hc | hc
    · exact h c hc
    · exact h' c hc
  | .element a is _ => by
    have h := induct step a
    have h' := inductList step is
    simpa [Place.operands, Place.object?, Place.indices, Place.defaults, h] using h'
  | .dynamicMember o _ => by
    have h := induct step o
    simp [Place.operands, Place.object?, Place.indices, Place.defaults, h]
  | .dynamicIndex o args => by
    have h := induct step o
    have h' := inductArguments step args
    intro c hc
    simp only [Place.defaults, List.append_nil] at hc
    rcases List.mem_append.1 hc with hc | hc
    · simp only [Place.object?, Option.toList_some, List.mem_singleton] at hc
      exact hc ▸ h
    · exact h' c hc

theorem inductReceiver (step : ∀ e : Expr, (∀ c ∈ e.form.children, P c) → P e) :
    ∀ r : Receiver Expr, ∀ c ∈ r.object?.toList, P c
  | .object e => by
    have h := induct step e
    simpa [Receiver.object?] using h
  | .static _ | .base _ => by simp [Receiver.object?]

theorem inductArguments (step : ∀ e : Expr, (∀ c ∈ e.form.children, P c) → P e) :
    ∀ as : List (Argument Expr), ∀ c ∈ as.map (·.value), P c
  | [] => by simp
  | ⟨e, _, _⟩ :: rest => by
    have h := induct step e
    have h' := inductArguments step rest
    simpa [h] using h'

theorem inductDefaults (step : ∀ e : Expr, (∀ c ∈ e.form.children, P c) → P e) :
    ∀ ds : List (Option Expr), ∀ c ∈ ds.filterMap id, P c
  | [] => by simp
  | none :: rest => by simpa using inductDefaults step rest
  | some e :: rest => by
    have h := induct step e
    have h' := inductDefaults step rest
    simpa [h] using h'

theorem inductList (step : ∀ e : Expr, (∀ c ∈ e.form.children, P c) → P e) :
    ∀ es : List Expr, ∀ c ∈ es, P c
  | [] => by simp
  | e :: rest => by
    have h := induct step e
    have h' := inductList step rest
    simpa [h] using h'

end

end AssignmentLowering.Expr
