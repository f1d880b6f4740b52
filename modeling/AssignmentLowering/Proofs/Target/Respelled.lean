import AssignmentLowering.Proofs.Script.Template
import AssignmentLowering.Proofs.Target.Placeholders

/-!
# Placeholders respelled

A placeholder can refer to an argument by the name of its parameter or by the position of that
in decimal. If the names can be told from positions and from the words that templates reserve,
it makes no difference which is written: a template with any of its placeholders respelled is
a template, it stands for the same text, and where it stands for none neither does the other.

## Main definitions

* `Template.Nameable` — names that can be told from positions and reserved words.
* `Template.Respells` — a template with some placeholders respelled.
* `PropertyBinding.Respells`, `MethodBinding.Respells` — bindings with such templates.

## Main statements

* `Template.Respells.substitute_eq_ok_iff` — a respelled template stands for the same text.
* `Target.useAccessor_respelled` — an accessor is used by the same script.
-/

namespace AssignmentLowering

namespace Template

/-- Names of parameters that a placeholder refers to by name: they are distinct, can be written
between braces, and are neither reserved nor the decimal of a position. -/
structure Nameable (params : List String) : Prop where
  nodup : params.Nodup
  braceless : ∀ name ∈ params, '{' ∉ name.toList ∧ '}' ∉ name.toList
  unreserved : ∀ name ∈ params, name ≠ "this" ∧ name ≠ "value"
  notNumber : ∀ name ∈ params, number? name.toList = none

/-- The name and the position of one parameter. Positions are machine numbers. -/
structure Spelling (params : List String) (i : Nat) (name : String) : Prop where
  param : params[i]? = some name
  lt_size : i < UInt64.size

/-- The same part, or a placeholder for the same parameter, spelled in the other way. -/
inductive Part.Respells (params : List String) : Part → Part → Prop
  | refl (p : Part) : Respells params p p
  | position {i : Nat} {name : String} (h : Spelling params i name) :
      Respells params (.placeholder name.toList) (.placeholder (toString i).toList)
  | name {i : Nat} {name : String} (h : Spelling params i name) :
      Respells params (.placeholder (toString i).toList) (.placeholder name.toList)

/-- A template, and what it is with some of its placeholders respelled. -/
def Respells (params : List String) (template template' : String) : Prop :=
  ∃ parts parts', Spells parts template.toList ∧
    List.Forall₂ (Part.Respells params) parts parts' ∧
    parts'.flatMap Part.written = template'.toList

/-- Both spellings of every parameter have the same operand. -/
def SpelledAlike (params : List String) (operand? : String → Option Script.Expr) : Prop :=
  ∀ i name, Spelling params i name → operand? (toString i) = operand? name

/-! ## Positions in decimal -/

theorem digitsValue_toDigits (i : Nat) : digitsValue (Nat.toDigits 10 i) = i :=
  Nat.ofDigitChars_toDigits (by decide) (by decide)

theorem toList_toString (i : Nat) : (toString i).toList = Nat.toDigits 10 i := by
  rw [Nat.toString_eq_repr, Nat.toList_repr]

theorem isDigit_of_mem_toString {i : Nat} {c : Char} (hc : c ∈ (toString i).toList) :
    c.isDigit = true := by
  rw [toList_toString] at hc
  exact Nat.isDigit_of_mem_toDigits (by decide) (by decide) hc

theorem number?_of_digits {digits : List Char} (hne : digits ≠ [])
    (hdigits : ∀ c ∈ digits, c.isDigit = true) (hlt : digitsValue digits < UInt64.size) :
    number? digits = some (digitsValue digits) := by
  have hplus : ∀ rest, digits ≠ '+' :: rest := by
    rintro rest rfl
    exact absurd (hdigits '+' List.mem_cons_self) (by decide)
  have hall : digits.all Char.isDigit := List.all_eq_true.2 hdigits
  unfold number?
  grind

/-- The decimal of a machine number spells it. -/
theorem number?_toString {i : Nat} (hi : i < UInt64.size) :
    number? (toString i).toList = some i := by
  have hvalue : digitsValue (toString i).toList = i := by
    rw [toList_toString, digitsValue_toDigits]
  have hne : (toString i).toList ≠ [] := by
    rw [toList_toString]
    exact Nat.toDigits_ne_nil
  have hnumber := number?_of_digits hne (fun _ => isDigit_of_mem_toString) (by rwa [hvalue])
  rwa [hvalue] at hnumber

/-- A reserved word is no decimal. -/
theorem toString_ne {i : Nat} (hi : i < UInt64.size) {word : String}
    (hword : number? word.toList = none) : toString i ≠ word := by
  rintro rfl
  cases (number?_toString hi).symm.trans hword

/-! ## Parameters by name and by position -/

section

variable {params : List String} {i : Nat} {name : String}

namespace Nameable

variable (h : Nameable params)

include h

/-- The name of a parameter refers to it. -/
theorem index?_name (hi : params[i]? = some name) : index? params name = some i := by
  obtain ⟨hlt, hname⟩ := List.getElem?_eq_some_iff.1 hi
  have hfind : params.findIdx? (· = name) = some i := by
    rw [List.findIdx?_eq_some_iff_getElem]
    refine ⟨hlt, by simpa using hname, fun j hj => ?_⟩
    have hne : params[j] ≠ params[i] := fun heq =>
      Nat.ne_of_lt hj (h.nodup.getElem_inj_iff.1 heq)
    simpa [← hname] using hne
  rw [index?, hfind]

/-- A position refers to the parameter that stands there, since no name reads like it. -/
theorem index?_toString (hi : i < UInt64.size) : index? params (toString i) = some i := by
  have hfind : params.findIdx? (· = toString i) = none := by
    rw [List.findIdx?_eq_none_iff]
    intro name hname
    have hne := toString_ne hi (h.notNumber name hname)
    simpa using hne.symm
  rw [index?, hfind]
  exact number?_toString hi

theorem name_ne (hi : params[i]? = some name) : name ≠ "this" ∧ name ≠ "value" :=
  h.unreserved name (List.mem_of_getElem? hi)

end Nameable

theorem toString_ne_reserved (hi : i < UInt64.size) :
    toString i ≠ "this" ∧ toString i ≠ "value" :=
  ⟨toString_ne hi (by decide), toString_ne hi (by decide)⟩

end

/-! ## Templates -/

section

variable {params : List String} {template template' : String} {parts parts' : List Part}
  {p p' : Part} {operand? : String → Option Script.Expr}

theorem Part.wellFormed_toString (i : Nat) : (placeholder (toString i).toList).WellFormed := by
  constructor
  · exact fun hc => absurd (isDigit_of_mem_toString hc) (by decide)
  · intro hc
    exact absurd (isDigit_of_mem_toString (List.mem_of_head? hc)) (by decide)

theorem Part.Respells.wellFormed (h : p.Respells params p') (hparams : Nameable params)
    (hp : p.WellFormed) : p'.WellFormed := by
  cases h with
  | refl => exact hp
  | position => exact wellFormed_toString _
  | name h =>
    obtain ⟨hopen, hclose⟩ := hparams.braceless _ (List.mem_of_getElem? h.param)
    exact ⟨hclose, fun hc => hopen (List.mem_of_head? hc)⟩

theorem Part.Respells.output?_eq (h : p.Respells params p')
    (hoperand : SpelledAlike params operand?) : p'.output? operand? = p.output? operand? := by
  cases h with
  | refl => rfl
  | position h | name h =>
    rw [output?, output?, String.ofList_toList, String.ofList_toList, hoperand _ _ h]

/-- Respelling makes a template out of a template. -/
theorem Respells.spells (h : Respells params template template') (hparams : Nameable params) :
    ∃ parts parts', Spells parts template.toList ∧ Spells parts' template'.toList ∧
      List.Forall₂ (Part.Respells params) parts parts' := by
  obtain ⟨parts, parts', hspells, hparts, hwritten⟩ := h
  refine ⟨parts, parts', hspells, ⟨fun p' hp' => ?_, hwritten⟩, hparts⟩
  obtain ⟨p, hp, hrespells⟩ := exists_of_forall₂ hparts hp'
  exact hrespells.wellFormed hparams (hspells.wellFormed p hp)

theorem outputs_iff (h : List.Forall₂ (Part.Respells params) parts parts')
    (hoperand : SpelledAlike params operand?) (texts : List (List Char)) :
    Outputs operand? parts' texts ↔ Outputs operand? parts texts := by
  unfold Outputs
  induction h generalizing texts with
  | nil => exact Iff.rfl
  | cons hhead _ ih =>
    cases texts with
    | nil => simp
    | cons text texts => rw [List.forall₂_cons, List.forall₂_cons, hhead.output?_eq hoperand, ih]

/-- A template with placeholders respelled stands for the same text. -/
theorem Respells.substitute_eq_ok_iff (h : Respells params template template')
    (hparams : Nameable params) (hoperand : SpelledAlike params operand?) (span : Span)
    (text : String) :
    substitute template' span operand? = .ok text ↔
      substitute template span operand? = .ok text := by
  obtain ⟨parts, parts', hspells, hspells', hparts⟩ := h.spells hparams
  rw [hspells.substitute_eq_ok_iff, hspells'.substitute_eq_ok_iff]
  simp only [outputs_iff hparts hoperand]

/-- Either both templates stand for one text, or both for none, by errors of the same kind. -/
theorem Respells.substitute_cases (h : Respells params template template')
    (hparams : Nameable params) (hoperand : SpelledAlike params operand?) (span : Span) :
    (∃ text, substitute template span operand? = .ok text ∧
      substitute template' span operand? = .ok text) ∨
    ∃ e e', substitute template span operand? = .error e ∧
      substitute template' span operand? = .error e' ∧ e.code = e'.code := by
  have hiff := h.substitute_eq_ok_iff hparams hoperand span
  cases hs : substitute template span operand? with
  | ok text => exact .inl ⟨text, rfl, (hiff text).2 hs⟩
  | error e =>
    cases hs' : substitute template' span operand? with
    | ok text => cases ((hiff text).1 hs').symm.trans hs
    | error e' =>
      exact .inr ⟨e, e', rfl, rfl, (code_of_substitute hs).trans (code_of_substitute hs').symm⟩

end

end Template

/-! ## Bindings -/

open Template (Nameable Spelling SpelledAlike)

/-- The same accessor, or one whose template has placeholders respelled. -/
inductive Accessor.Respells (params : List String) : Accessor → Accessor → Prop
  | refl (accessor : Accessor) : Respells params accessor accessor
  | inline {template template' : String} (hparams : Nameable params)
      (h : Template.Respells params template template') :
      Respells params (.inline template) (.inline template')

/-- The same binding, or one whose accessors have placeholders respelled. -/
inductive PropertyBinding.Respells (params : List String) :
    PropertyBinding → PropertyBinding → Prop
  | refl (b : PropertyBinding) : Respells params b b
  | accessors {getter getter' setter setter' : Accessor}
      (hgetter : getter.Respells params getter') (hsetter : setter.Respells params setter') :
      Respells params (.accessors getter setter) (.accessors getter' setter')

/-- The same binding, or a template with placeholders respelled. -/
inductive MethodBinding.Respells (params : List String) : MethodBinding → MethodBinding → Prop
  | refl (b : MethodBinding) : Respells params b b
  | inline {template template' : String} (hparams : Nameable params)
      (h : Template.Respells params template template') :
      Respells params (.inline template) (.inline template')

/-- The same storage, or one whose accessors have placeholders respelled. -/
inductive Storage.Respells (params : List String) : Storage → Storage → Prop
  | refl (s : Storage) : Respells params s s
  | accessors {getter getter' setter setter' : Accessor}
      (hgetter : getter.Respells params getter') (hsetter : setter.Respells params setter') :
      Respells params (.accessors getter setter) (.accessors getter' setter')

section

variable {params : List String} {accessor accessor' : Accessor} {b b' : PropertyBinding}

theorem Accessor.Respells.isInline_eq (h : accessor.Respells params accessor') :
    accessor'.isInline = accessor.isInline := by
  cases h <;> rfl

theorem Accessor.Respells.runsCode_eq (h : accessor.Respells params accessor') :
    accessor'.runsCode = accessor.runsCode := by
  cases h <;> rfl

namespace PropertyBinding.Respells

/-- A subscript is still said in the way that it was said. -/
theorem normalized (h : b.Respells params b') : b.normalized.Respells params b'.normalized := by
  cases h with
  | refl => exact .refl _
  | @accessors getter _ _ _ hgetter hsetter =>
    cases hgetter with
    | refl =>
      cases hsetter with
      | refl => exact .refl _
      | inline hparams h =>
        cases getter <;> exact .accessors (.refl _) (.inline hparams h)
    | inline hparams h => exact .accessors (.inline hparams h) hsetter

theorem isField_eq (h : b.Respells params b') : b'.isField = b.isField := by
  cases h <;> rfl

theorem eq_subscript_iff (h : b.Respells params b') : b' = .subscript ↔ b = .subscript := by
  cases h <;> simp

end PropertyBinding.Respells

/-- A property has a storage by both bindings, or by neither. -/
theorem storageOf_respelled (h : b.Respells params b') (p : Property) (span : Span) :
    (∃ s s', storageOf b p span = .ok s ∧ storageOf b' p span = .ok s' ∧ s.Respells params s') ∨
      ∃ e, storageOf b p span = .error e ∧ storageOf b' p span = .error e := by
  unfold storageOf PropertyBinding.storage?
  have hnormalized := h.normalized
  generalize b.normalized = c, b'.normalized = c' at hnormalized
  cases hnormalized with
  | refl =>
    cases c with
    | unusable => exact .inr ⟨_, rfl, rfl⟩
    | _ => exact .inl ⟨_, _, rfl, rfl, .refl _⟩
  | accessors hgetter hsetter => exact .inl ⟨_, _, rfl, rfl, .accessors hgetter hsetter⟩

/-- Effects are judged without looking into templates. -/
theorem Metadata.binding_respelled {md md' : Metadata} {p : Property}
    (h : (md.property p).Respells params (md'.property p)) :
    (md'.binding p).isField = (md.binding p).isField ∧
      (md'.binding p = .subscript ↔ md.binding p = .subscript) :=
  ⟨h.normalized.isField_eq, h.normalized.eq_subscript_iff⟩

end

/-! ## Using accessors and methods -/

section

variable {ε : Type} {params : List String} {t : Target ε} {a : Address}
  {value : Option Script.Expr} {accessor accessor' : Accessor}

/-- An accessor with placeholders respelled is used by the same script, or by none. -/
theorem Target.useAccessor_respelled (h : accessor.Respells params accessor')
    (hoperand : Nameable params → SpelledAlike params (t.operand? a value))
    (runtime : RuntimeNames) :
    (∃ e, t.useAccessor runtime a value accessor = .ok e ∧
      t.useAccessor runtime a value accessor' = .ok e) ∨
    ∃ err err', t.useAccessor runtime a value accessor = .error err ∧
      t.useAccessor runtime a value accessor' = .error err' ∧ err.code = err'.code := by
  cases h with
  | refl =>
    cases t.useAccessor runtime a value accessor with
    | ok e => exact .inl ⟨e, rfl, rfl⟩
    | error err => exact .inr ⟨err, err, rfl, rfl, rfl⟩
  | inline hparams h =>
    simp only [useAccessor]
    obtain ⟨text, hs, hs'⟩ | ⟨err, err', hs, hs', hcode⟩ :=
      h.substitute_cases hparams (hoperand hparams) t.span
    · exact .inl ⟨.verbatim text, by rw [hs]; rfl, by rw [hs']; rfl⟩
    · exact .inr ⟨err, err', by rw [hs]; rfl, by rw [hs']; rfl, hcode⟩

/-- By name and by position a placeholder stands for the argument that is declared there. -/
theorem Target.operand?_spelling (hparams : Nameable t.paramNames) {i : Nat} {name : String}
    (hname : t.paramNames[i]? = some name) : t.operand? a value name = a.args[i]? := by
  obtain ⟨hthis, hvalue⟩ := hparams.name_ne hname
  rw [operand?, if_neg hthis, if_neg hvalue, hparams.index?_name hname]
  rfl

theorem Target.operand?_toString (hparams : Nameable t.paramNames) {i : Nat}
    (hi : i < UInt64.size) : t.operand? a value (toString i) = a.args[i]? := by
  obtain ⟨hthis, hvalue⟩ := Template.toString_ne_reserved hi
  rw [operand?, if_neg hthis, if_neg hvalue, hparams.index?_toString hi]
  rfl

/-- Without arguments neither stands for anything. -/
theorem Target.spelledAlike_of_args_eq_nil (hparams : Nameable params) (hargs : a.args = []) :
    SpelledAlike params (t.operand? a value) := by
  have hnone : ∀ name, name ≠ "this" ∧ name ≠ "value" → t.operand? a value name = none := by
    rintro name ⟨hthis, hvalue⟩
    simp [operand?, hthis, hvalue, hargs]
  intro i name h
  rw [hnone _ (Template.toString_ne_reserved h.lt_size), hnone _ (hparams.name_ne h.param)]

theorem Target.spelledAlike (hnames : t.paramNames = params) (hparams : Nameable params) :
    SpelledAlike params (t.operand? a value) := by
  subst hnames
  intro i name h
  rw [operand?_toString hparams h.lt_size, operand?_spelling hparams h.param]

theorem callOperand?_spelledAlike {m : Method} (hparams : Nameable (m.params.map (·.name)))
    (object : Script.Expr) (args : List Script.Expr) :
    SpelledAlike (m.params.map (·.name)) (callOperand? m object args) := by
  intro i name h
  rw [callOperand?, callOperand?, if_neg (hparams.name_ne h.param).1,
    if_neg (Template.toString_ne_reserved h.lt_size).1, hparams.index?_name h.param,
    hparams.index?_toString h.lt_size]

end

end AssignmentLowering
