import AssignmentLowering.Proofs.Lowering.Forms

/-!
# Renaming in script

Script that is emitted for an access is made from its operands without looking at their
names. So to rename the identifiers in the operands is to rename them in what is emitted,
as long as the names that the access brings along are kept: a local variable, and whatever
the text of a template mentions.

## Main definitions

* `Script.Expr.rename`, `Script.Stmt.rename` — script with identifiers renamed.
* `Target.Keeps` — a target that brings along no name that is changed.

## Main statements

* `Target.load_rename`, `Target.store_rename` — emitting commutes with renaming.
* `Target.exists_isReusable_load` — whether a read can be repeated does not depend on the
  operands.
-/

namespace AssignmentLowering

open Script (Stmt)

namespace Script

mutual

/-- An expression with its identifiers renamed. The name of a helper that is called is
kept, and so is text made from a template, which is opaque. -/
def Expr.rename (f : String → String) : Expr → Expr
  | .null => .null
  | .bool b => .bool b
  | .number x => .number x
  | .string s => .string s
  | .ident name => .ident (f name)
  | .this => .this
  | .typeHandle name => .typeHandle name
  | .member object name => .member (object.rename f) name
  | .index object i => .index (object.rename f) (i.rename f)
  | .call (.ident helper) args => .call (.ident helper) (Expr.renameAll f args)
  | .call callee args => .call (callee.rename f) (Expr.renameAll f args)
  | .array items => .array (Expr.renameAll f items)
  | .assign target value => .assign (target.rename f) (value.rename f)
  | .compoundAssign op target value => .compoundAssign op (target.rename f) (value.rename f)
  | .binary op left right => .binary op (left.rename f) (right.rename f)
  | .verbatim text => .verbatim text

def Expr.renameAll (f : String → String) : List Expr → List Expr
  | [] => []
  | e :: rest => e.rename f :: Expr.renameAll f rest

end

/-- A statement with the identifiers renamed, that which it declares included. -/
def Stmt.rename (f : String → String) : Stmt → Stmt
  | .expr e => .expr (e.rename f)
  | .declare name value => .declare (f name) (value.rename f)

attribute [local simp] Expr.rename

variable (f : String → String)

@[simp] theorem Expr.renameAll_eq (es : List Expr) :
    Expr.renameAll f es = es.map (Expr.rename f) := by
  induction es with
  | nil => rfl
  | cons e es ih => simp [Expr.renameAll, ih]

@[simp] theorem Expr.rename_callMethod (object : Expr) (name : String) (args : List Expr) :
    (Expr.callMethod object name args).rename f =
      .callMethod (object.rename f) name (args.map (Expr.rename f)) := by
  simp [Expr.callMethod]

@[simp] theorem Expr.rename_callHelper (helper : String) (args : List Expr) :
    (Expr.call (.ident helper) args).rename f =
      .call (.ident helper) (args.map (Expr.rename f)) := by
  simp

@[simp] theorem Expr.rename_callBase (names : RuntimeNames) (declaring : TypeRef)
    (name : String) (args : List Expr) :
    (callBase names declaring name args).rename f =
      callBase names declaring name (args.map (Expr.rename f)) := by
  simp [callBase]

@[simp] theorem Expr.rename_copied (names : RuntimeNames) (s : CopySemantics) (fresh : Bool)
    (uses : Nat) (value : Expr) :
    (copied names s fresh uses value).rename f =
      copied names s fresh uses (value.rename f) := by
  unfold copied
  cases s.cloneTag? fresh uses <;> simp [clone]

@[simp] theorem Expr.rename_literal (value : Literal) : value.script.rename f = value.script := by
  cases value <;> rfl

@[simp] theorem Expr.rename_defaultValue (cx : Context) (ty : TypeRef) :
    (cx.defaultValue ty).rename f = cx.defaultValue ty := by
  unfold Context.defaultValue
  cases cx.metadata.semantics ty <;> simp

end Script

/-- Operands with their identifiers renamed. -/
def Address.rename (f : String → String) (a : Address) : Address :=
  ⟨a.object.map (Script.Expr.rename f), a.args.map (Script.Expr.rename f)⟩

@[simp] theorem Address.args_rename (f : String → String) (a : Address) :
    (a.rename f).args = a.args.map (Script.Expr.rename f) := rfl

namespace Target

variable {ε : Type} {t : Target ε} {f : String → String}

/-- What a target brings along of its own is not renamed: the local variable that it is, and
no text of a template. -/
structure Keeps (f : String → String) (t : Target ε) : Prop where
  localVar : ∀ name, t.kind = .localVar name ∨ t.kind = .cell name → f name = name
  getter : t.getterIsInline = false
  setter : t.setterIsInline = false

variable (names : RuntimeNames) (a : Address)

theorem object_rename : t.object (a.rename f) = (t.object a).rename f := by
  unfold object Address.rename
  cases a.object with
  | some e => rfl
  | none => cases t.staticOwner <;> rfl

theorem subscript_rename :
    t.subscript (a.rename f) = (t.subscript a).map (Script.Expr.rename f) := by
  unfold subscript
  rw [object_rename]
  match ha : a.args with
  | [] | [_] | _ :: _ :: _ => simp [Address.rename, ha, Except.map, Script.Expr.rename]

theorem native_rename (ht : t.Keeps f) :
    t.native names (a.rename f) = (t.native names a).map (Script.Expr.rename f) := by
  unfold native
  rw [object_rename, subscript_rename]
  split
  · next name hkind => simp [Except.map, Script.Expr.rename, ht.localVar name (.inl hkind)]
  · next name hkind => simp [Except.map, Script.Expr.rename, ht.localVar name (.inr hkind)]
  all_goals rfl

theorem useAccessor_rename {accessor : Accessor} (hinline : accessor.isInline = false)
    (value : Option Script.Expr) :
    t.useAccessor names (a.rename f) (value.map (Script.Expr.rename f)) accessor =
      (t.useAccessor names a value accessor).map (Script.Expr.rename f) := by
  cases accessor with
  | method name =>
    unfold useAccessor
    rw [object_rename]
    cases t.dispatch <;> simp [Except.map, Address.rename, Option.toList_map]
  | inline template => cases hinline
  | subscript =>
    unfold useAccessor
    rw [subscript_rename]
    cases t.subscript a <;> cases value <;> simp [Except.map, Script.Expr.rename]

/-- To read with operands renamed is to rename what reads. -/
theorem load_rename (ht : t.Keeps f) :
    t.load names (a.rename f) = (t.load names a).map (Script.Expr.rename f) := by
  unfold load
  split
  · rfl
  · simp [Except.map, object_rename]
  · have hgetter := ht.getter
    unfold getterIsInline at hgetter
    cases hg : t.getter? with
    | none => exact native_rename names a ht
    | some getter =>
      rw [hg] at hgetter
      exact useAccessor_rename names a hgetter none

/-- To write with operands and value renamed is to rename what writes. -/
theorem store_rename (ht : t.Keeps f) (value : Script.Expr) :
    t.store names (a.rename f) (value.rename f) =
      (t.store names a value).map (Script.Expr.rename f) := by
  unfold store
  split
  · simp [Except.map, Script.Expr.rename]
  · simp [Except.map, object_rename]
  · have hsetter := ht.setter
    unfold setterIsInline at hsetter
    cases hs : t.setter? with
    | none =>
      dsimp only
      rw [native_rename names a ht]
      cases t.native names a <;> simp [Except.map, Script.Expr.rename]
    | some setter =>
      rw [hs] at hsetter
      exact useAccessor_rename names a hsetter (some value)

/-! ## Reading twice -/

variable {names a} {e : Script.Expr}

theorem isReusable_subscript (h : t.subscript a = .ok e) : e.isReusable = false := by
  unfold subscript at h
  split at h
  · cases h
    rfl
  · cases h

/-- Whether the target is a local variable, and not one in a cell. -/
def isVariable (t : Target ε) : Bool :=
  match t.kind with
  | .localVar _ => true
  | _ => false

/-- Of what may stand on the left of `=` only a local variable can be read again unnoticed. -/
theorem isReusable_native (h : t.native names a = .ok e) : e.isReusable = t.isVariable := by
  have hother : (∀ name, t.kind = .localVar name → False) → t.isVariable = false := by
    intro hlocal
    unfold isVariable
    split
    · next name hkind => exact (hlocal name hkind).elim
    · rfl
  unfold native at h
  split at h
  · next name hkind => cases h; simp [isVariable, hkind, Script.Expr.isReusable]
  · next name hkind => cases h; simp [isVariable, hkind, Script.Expr.isReusable]
  · next name hkind => cases h; simp [isVariable, hkind, Script.Expr.isReusable]
  · next hlocal _ _ => cases h; exact (hother hlocal).symm
  · next hkind _ => simp [isReusable_subscript h, isVariable, hkind]
  · next hkind _ => simp [isReusable_subscript h, isVariable, hkind]
  · next hlocal _ _ _ _ => rw [isReusable_subscript h, hother hlocal]
  · cases h

theorem isReusable_useAccessor {value : Option Script.Expr} {accessor : Accessor}
    (h : t.useAccessor names a value accessor = .ok e) : e.isReusable = false := by
  cases accessor with
  | method name =>
    unfold useAccessor at h
    cases hd : t.dispatch <;> simp only [hd] at h <;> cases h <;> rfl
  | inline template =>
    unfold useAccessor at h
    cases hs : Template.substitute template t.span (t.operand? a value) <;>
      simp only [hs] at h <;> cases h
    rfl
  | subscript =>
    unfold useAccessor at h
    cases hs : t.subscript a with
    | error err => rw [hs] at h; cases h
    | ok place =>
      rw [hs] at h
      cases h
      cases value with
      | none => exact isReusable_subscript hs
      | some v => rfl

/-- Whether what reads a target can be evaluated again unnoticed depends on the target
alone. -/
theorem exists_isReusable_load (names : RuntimeNames) (t : Target ε) :
    ∃ b, ∀ a e, t.load names a = .ok e → e.isReusable = b := by
  unfold load
  cases t.kind
  case receiver => exact ⟨true, fun a e h => by cases h; rfl⟩
  case multiElement => exact ⟨false, fun a e h => by cases h; rfl⟩
  all_goals
    dsimp only
    cases t.getter? with
    | some getter => exact ⟨false, fun a e h => isReusable_useAccessor h⟩
    | none => exact ⟨t.isVariable, fun a e h => isReusable_native h⟩

/-- What writes a target cannot be evaluated again unnoticed. -/
theorem isReusable_store {value : Script.Expr} (h : t.store names a value = .ok e) :
    e.isReusable = false := by
  unfold store at h
  split at h
  · cases h; rfl
  · cases h; rfl
  · split at h
    · exact isReusable_useAccessor h
    · cases hn : t.native names a <;> rw [hn] at h <;> cases h
      rfl

end Target
end AssignmentLowering
