import AssignmentLowering.Proofs.Lowering.Steps

/-!
# Errors of reading and writing targets

Script for an access cannot always be written: a target may not be assignable, a
subscript may have the wrong number of indices, and a template may be malformed or name
an operand that there is not. None of this depends on what the operands are lowered to,
only on how many there are.

## Main definitions

* `failureOf` — the error of a computation.
* `Target.loadFailure?`, `Target.storeFailure?` — the errors of an access.

## Main statements

* `Target.failureOf_load`, `Target.failureOf_store` — they are the same for all operands.
-/

namespace AssignmentLowering

/-- The error of a computation, if it fails. -/
def failureOf {ε α : Type} : Except ε α → Option ε
  | .ok _ => none
  | .error e => some e

@[simp] theorem failureOf_ok {ε α : Type} (a : α) : failureOf (.ok a : Except ε α) = none := rfl

@[simp] theorem failureOf_error {ε α : Type} (e : ε) :
    failureOf (.error e : Except ε α) = some e := rfl

@[simp] theorem failureOf_map {ε α β : Type} (f : α → β) (x : Except ε α) :
    failureOf (x.map f) = failureOf x := by
  cases x <;> rfl

namespace Template

variable {f g : String → Option Script.Expr}

/-- Whether a template can be filled depends on which names have an operand. -/
theorem failureOf_fill (h : ∀ name, (f name).isSome = (g name).isSome) (pieces : List Piece) :
    failureOf (fill f pieces) = failureOf (fill g pieces) := by
  induction pieces with
  | nil => rfl
  | cons piece pieces ih =>
    cases piece with
    | char c => simpa [fill] using ih
    | placeholder name =>
      have hname := h (String.ofList name)
      cases hf : f (String.ofList name) with
      | none =>
        rw [hf, Option.isSome_none, eq_comm, Option.isSome_eq_false_iff,
          Option.isNone_iff_eq_none] at hname
        simp [fill, hf, hname]
      | some e =>
        rw [hf, Option.isSome_some, eq_comm, Option.isSome_iff_exists] at hname
        obtain ⟨e', hg⟩ := hname
        simpa [fill, hf, hg] using ih

theorem failureOf_substitute (h : ∀ name, (f name).isSome = (g name).isSome)
    (template : String) (span : Span) :
    failureOf (substitute template span f) = failureOf (substitute template span g) := by
  unfold substitute
  cases parse template.toList with
  | error malformed => cases malformed <;> rfl
  | ok pieces =>
    have hfill := failureOf_fill h pieces
    cases hf : fill f pieces <;> cases hg : fill g pieces <;> simp_all

end Template

/-- Whether a placeholder of a method's template has an operand depends on the number of
arguments only. -/
theorem isSome_callOperand? {m : Method} {object object' : Script.Expr}
    {xs xs' : List Script.Expr} (h : xs.length = xs'.length) (name : String) :
    (callOperand? m object xs name).isSome = (callOperand? m object' xs' name).isSome := by
  unfold callOperand?
  split
  · rfl
  · cases Template.index? (m.params.map (·.name)) name with
    | none => rfl
    | some i => exact Bool.eq_iff_iff.2 (by simp [h])

namespace Target

variable {ε : Type} {t : Target ε} {a b : Address}

/-- As many operands in script as the target has, all alike. -/
def blank (t : Target ε) : Address :=
  ⟨t.receiver.map fun _ => .null, t.args.map fun _ => .null⟩

theorem blank_fits : t.blank.Fits t := ⟨by simp [blank], by simp [blank]⟩

/-- The error of reading the target, if it cannot be read. -/
def loadFailure? (names : RuntimeNames) (t : Target ε) : Option LoweringError :=
  failureOf (t.load names t.blank)

/-- The error of writing the target, if it cannot be written. -/
def storeFailure? (names : RuntimeNames) (t : Target ε) : Option LoweringError :=
  failureOf (t.store names t.blank .null)

/-- A native subscript takes one index and no other number. -/
theorem subscript_fails_iff : (∃ e, t.subscript a = .error e) ↔ a.args.length ≠ 1 := by
  unfold subscript
  match a.args with
  | [] => simp
  | [i] => simp
  | i :: j :: rest => simp

theorem failureOf_subscript (h : a.args.length = b.args.length) :
    failureOf (t.subscript a) = failureOf (t.subscript b) := by
  unfold subscript
  match ha : a.args, hb : b.args with
  | [], [] | [_], [_] => rfl
  | _ :: _ :: _, _ :: _ :: _ => simp_all
  | [], _ :: _ | _ :: _, [] | [_], _ :: _ :: _ | _ :: _ :: _, [_] => simp_all

theorem failureOf_native (names : RuntimeNames) (h : a.args.length = b.args.length) :
    failureOf (t.native names a) = failureOf (t.native names b) := by
  unfold native
  split <;> first | rfl | exact failureOf_subscript h

theorem isSome_operand? {value value' : Option Script.Expr}
    (h : a.args.length = b.args.length) (hvalue : value.isSome = value'.isSome) (name : String) :
    (t.operand? a value name).isSome = (t.operand? b value' name).isSome := by
  unfold operand?
  split
  · rfl
  · split
    · exact hvalue
    · cases Template.index? t.paramNames name with
      | none => rfl
      | some i => exact Bool.eq_iff_iff.2 (by simp [h])

theorem failureOf_useAccessor (names : RuntimeNames) {value value' : Option Script.Expr}
    (h : a.args.length = b.args.length) (hvalue : value.isSome = value'.isSome)
    (accessor : Accessor) :
    failureOf (t.useAccessor names a value accessor) =
      failureOf (t.useAccessor names b value' accessor) := by
  cases accessor with
  | method name =>
    unfold useAccessor
    cases t.dispatch <;> rfl
  | inline template =>
    simpa [useAccessor] using
      Template.failureOf_substitute (isSome_operand? h hvalue) template t.span
  | subscript => simpa [useAccessor] using failureOf_subscript h

/-- Whether a target can be read depends on how many index arguments there are. -/
theorem failureOf_load_congr (names : RuntimeNames) (h : a.args.length = b.args.length) :
    failureOf (t.load names a) = failureOf (t.load names b) := by
  unfold load
  split
  · rfl
  · rfl
  · split
    · exact failureOf_useAccessor names h rfl _
    · exact failureOf_native names h

/-- Whether a target can be written depends on how many index arguments there are. -/
theorem failureOf_store_congr (names : RuntimeNames) (h : a.args.length = b.args.length)
    (value value' : Script.Expr) :
    failureOf (t.store names a value) = failureOf (t.store names b value') := by
  unfold store
  split
  · rfl
  · rfl
  · split
    · exact failureOf_useAccessor names h (by simp) _
    · simpa using failureOf_native names h

theorem failureOf_load (names : RuntimeNames) (h : a.Fits t) :
    failureOf (t.load names a) = t.loadFailure? names :=
  failureOf_load_congr names (h.args.trans blank_fits.args.symm)

theorem failureOf_store (names : RuntimeNames) (h : a.Fits t) (value : Script.Expr) :
    failureOf (t.store names a value) = t.storeFailure? names :=
  failureOf_store_congr names (h.args.trans blank_fits.args.symm) value .null

/-- Accessors are used by what is neither the current object nor an element with several
indices. -/
theorem load_eq_useAccessor (names : RuntimeNames) {getter : Accessor}
    (hgetter : t.getter? = some getter) (hreceiver : t.kind ≠ .receiver)
    (hmulti : t.kind ≠ .multiElement) (a : Address) :
    t.load names a = t.useAccessor names a none getter := by
  unfold load
  split
  · contradiction
  · contradiction
  · rw [hgetter]

theorem store_eq_useAccessor (names : RuntimeNames) {setter : Accessor}
    (hsetter : t.setter? = some setter) (hreceiver : t.kind ≠ .receiver)
    (hmulti : t.kind ≠ .multiElement) (a : Address) (v : Script.Expr) :
    t.store names a v = t.useAccessor names a (some v) setter := by
  unfold store
  split
  · contradiction
  · contradiction
  · rw [hsetter]

/-- A target that may stand on the left of `=` is written by standing there. -/
theorem store_eq_of_isNative (names : RuntimeNames) (hnative : t.isNative = true) (a : Address)
    (value : Script.Expr) : t.store names a value = (t.native names a).map (.assign · value) := by
  unfold isNative at hnative
  unfold store setter? Storage.setter?
  cases hk : t.kind <;> cases hs : t.storage <;> simp [hk, hs] at hnative ⊢

theorem failureOf_native_eq (names : RuntimeNames) (hnative : t.isNative = true)
    (h : a.Fits t) : failureOf (t.native names a) = t.storeFailure? names := by
  rw [← failureOf_store names h .null, store_eq_of_isNative names hnative, failureOf_map]

section

variable {δ : Type} (f : ε → δ) (names : RuntimeNames) (t : Target ε)

@[simp] theorem blank_map : (t.map f).blank = t.blank := by
  simp [blank, Function.comp_def]

@[simp] theorem loadFailure?_map : (t.map f).loadFailure? names = t.loadFailure? names := by
  simp [loadFailure?]

@[simp] theorem storeFailure?_map : (t.map f).storeFailure? names = t.storeFailure? names := by
  simp [storeFailure?]

end

end Target
end AssignmentLowering
