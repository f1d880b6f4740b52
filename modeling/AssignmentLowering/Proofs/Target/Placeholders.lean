import AssignmentLowering.Proofs.Target.Failure

/-!
# What placeholders stand for

The template of an accessor refers to arguments by the names of their parameters, so a target
has other script if its parameters are called otherwise. What counts is only which argument
each placeholder stands for. If that is the same by both names, or if by both some placeholder
stands for nothing, the script of the accessor is the same, or there is none. And if it is not
the same, then there are arguments that show it.

## Main definitions

* `Template.Meaning`, `Template.meaning?` — what a placeholder stands for.
* `Accessor.meanings?` — what all placeholders of an accessor stand for.
* `Target.renamed` — a target with other names for its arguments.
* `Tells` — arguments that show which of them is used.

## Main statements

* `Target.useAccessor_renamed` — placeholders that stand for the same give the same script.
* `Target.failureOf_useAccessor_eq_none_iff` — when there is script at all.
* `Target.meanings?_eq_of_useAccessor` — the same script, of placeholders that stand for the
  same.
-/

namespace AssignmentLowering

open Script (postfixLevel)

namespace Template

/-- What a placeholder stands for. -/
inductive Meaning where
  | object
  | value
  | argument (i : Nat)
  deriving DecidableEq, Repr

/-- What a placeholder stands for, if there are `count` arguments whose parameters have the
names `params`. There is a value in templates that write only. -/
def meaning? (params : List String) (count : Nat) (writes : Bool) (name : String) :
    Option Meaning :=
  if name = "this" then some .object
  else if name = "value" then if writes then some .value else none
  else ((index? params name).filter (· < count)).map .argument

/-- The names of placeholders. -/
def placeholders (pieces : List Piece) : List String :=
  pieces.filterMap fun
    | .char _ => none
    | .placeholder name => some (String.ofList name)

/-- What the placeholders of a template stand for, if it is well formed and each of them
stands for something. -/
def meanings? (params : List String) (count : Nat) (writes : Bool) (template : String) :
    Option (List Meaning) :=
  match parse template.toList with
  | .ok pieces => (placeholders pieces).mapM (meaning? params count writes)
  | .error _ => none

/-- The operand that is meant. -/
def Meaning.operand? (object : Script.Expr) (args : List Script.Expr)
    (value : Option Script.Expr) : Meaning → Option Script.Expr
  | .object => some object
  | .value => value
  | .argument i => args[i]?

end Template

/-- What the placeholders of an accessor stand for, if it can be used with `count` arguments
whose parameters have the names `params`. -/
def Accessor.meanings? (params : List String) (count : Nat) (writes : Bool) :
    Accessor → Option (List Template.Meaning)
  | .method _ => some []
  | .inline template => Template.meanings? params count writes template
  | .subscript => if count = 1 then some [] else none

/-- The same target, with other names for its arguments. -/
def Target.renamed {ε : Type} (names : List String) (t : Target ε) : Target ε :=
  { t with paramNames := names }

/-- Lists of arguments, one for each place, that show which argument is used: their texts are
all of one length, and in the `i`-th list the `i`-th argument is like no other. -/
structure Tells (count : Nat) (args : Nat → List Script.Expr) : Prop where
  length_eq : ∀ i, (args i).length = count
  width : ∀ i, ∀ e ∈ args i, ∀ e' ∈ args i,
    (e.chars postfixLevel).length = (e'.chars postfixLevel).length
  eq_of_chars : ∀ i j e e', (args i)[i]? = some e → (args i)[j]? = some e' →
    e.chars postfixLevel = e'.chars postfixLevel → j = i

/-! ## Filling -/

section

variable {α β : Type} {f g : α → Option β}

theorem isSome_mapM (l : List α) : (l.mapM f).isSome ↔ ∀ x ∈ l, (f x).isSome := by
  induction l with
  | nil => simp
  | cons x l ih =>
    rw [List.forall_mem_cons, ← ih, List.mapM_cons]
    cases f x <;> cases l.mapM f <;> simp

theorem mapM_eq_mapM_iff {l : List α} (h : ∀ x ∈ l, (f x).isSome) :
    l.mapM f = l.mapM g ↔ ∀ x ∈ l, f x = g x := by
  induction l with
  | nil => simp
  | cons x l ih =>
    obtain ⟨hx, hl⟩ := List.forall_mem_cons.1 h
    obtain ⟨y, hy⟩ := Option.isSome_iff_exists.1 hx
    obtain ⟨ys, hys⟩ := Option.isSome_iff_exists.1 ((isSome_mapM l).2 hl)
    rw [List.forall_mem_cons, ← ih hl, List.mapM_cons, List.mapM_cons, hy, hys]
    cases g x <;> cases l.mapM g <;> simp

end

namespace Template

variable {f g : String → Option Script.Expr}

@[simp] theorem placeholders_char (c : Char) (pieces : List Piece) :
    placeholders (.char c :: pieces) = placeholders pieces := rfl

@[simp] theorem placeholders_placeholder (name : List Char) (pieces : List Piece) :
    placeholders (.placeholder name :: pieces) = String.ofList name :: placeholders pieces := rfl

/-- The text depends on the operands of the placeholders only. -/
theorem fill_congr {pieces : List Piece} (h : ∀ name ∈ placeholders pieces, f name = g name) :
    fill f pieces = fill g pieces := by
  induction pieces with
  | nil => rfl
  | cons piece pieces ih =>
    cases piece with
    | char c => rw [fill, fill, ih h]
    | placeholder name =>
      obtain ⟨hname, hrest⟩ := List.forall_mem_cons.1 h
      rw [fill, fill, ih hrest, hname]

/-- There is a text if each placeholder has an operand. -/
theorem failureOf_fill_eq_none_iff {pieces : List Piece} :
    failureOf (fill f pieces) = none ↔ ∀ name ∈ placeholders pieces, (f name).isSome := by
  induction pieces with
  | nil => simp [fill, placeholders]
  | cons piece pieces ih =>
    cases piece with
    | char c => rw [fill, failureOf_map, ih, placeholders_char]
    | placeholder name =>
      rw [fill, placeholders_placeholder, List.forall_mem_cons, ← ih]
      cases f (String.ofList name) with
      | none => simp
      | some e => simp

/-- Text that begins with that of an operand. -/
theorem fill_placeholder_ok {name : List Char} {pieces : List Piece} {text : List Char}
    (h : fill f (.placeholder name :: pieces) = .ok text) :
    ∃ e rest, f (String.ofList name) = some e ∧ fill f pieces = .ok rest ∧
      text = e.chars postfixLevel ++ rest := by
  rw [fill] at h
  cases he : f (String.ofList name) with
  | none => simp [he] at h
  | some e =>
    cases hrest : fill f pieces with
    | error err => simp [he, hrest, Except.map] at h
    | ok rest =>
      simp only [he, hrest, Except.map, Except.ok.injEq] at h
      exact ⟨e, rest, rfl, rfl, h.symm⟩

/-- Operands whose texts are of one length can be told from the text that they fill in. -/
theorem chars_eq_of_fill {pieces : List Piece} {text : List Char}
    (hf : fill f pieces = .ok text) (hg : fill g pieces = .ok text)
    (hwidth : ∀ name ∈ placeholders pieces, ∀ e e', f name = some e → g name = some e' →
      (e.chars postfixLevel).length = (e'.chars postfixLevel).length) :
    ∀ name ∈ placeholders pieces, ∀ e e', f name = some e → g name = some e' →
      e.chars postfixLevel = e'.chars postfixLevel := by
  induction pieces generalizing text with
  | nil => simp [placeholders]
  | cons piece pieces ih =>
    cases piece with
    | char c =>
      cases hrest : fill f pieces with
      | error err => simp [fill, hrest, Except.map] at hf
      | ok rest =>
        cases hrest' : fill g pieces with
        | error err => simp [fill, hrest', Except.map] at hg
        | ok rest' =>
          simp only [fill, hrest, hrest', Except.map, Except.ok.injEq] at hf hg
          obtain ⟨-, rfl⟩ := List.cons.inj (hf.trans hg.symm)
          exact ih hrest hrest' hwidth
    | placeholder name =>
      obtain ⟨e, rest, he, hrest, rfl⟩ := fill_placeholder_ok hf
      obtain ⟨e', rest', he', hrest', htext⟩ := fill_placeholder_ok hg
      obtain ⟨hhead, htail⟩ := List.forall_mem_cons.1 hwidth
      obtain ⟨hchars, rfl⟩ := List.append_inj htext (hhead e e' he he')
      refine List.forall_mem_cons.2 ⟨fun d d' hd hd' => ?_, ih hrest hrest' htail⟩
      cases he.symm.trans hd
      cases he'.symm.trans hd'
      exact hchars

theorem isSome_operand?_of_meaning? {params : List String} {args : List Script.Expr}
    {value : Option Script.Expr} {name : String} {m : Meaning}
    (h : meaning? params args.length value.isSome name = some m) {object : Script.Expr} :
    (m.operand? object args value).isSome := by
  unfold meaning? at h
  split at h
  · cases h
    rfl
  · split at h
    · split at h
      · cases h
        assumption
      · cases h
    · obtain ⟨i, hi, rfl⟩ := Option.map_eq_some_iff.1 h
      have hlt := (Option.filter_eq_some_iff.1 hi).2
      simpa [Meaning.operand?] using hlt

/-- By other names a placeholder stands for the same, or for arguments by both. -/
theorem meaning?_cases {params params' : List String} {count : Nat} {writes : Bool}
    {name : String} {m m' : Meaning} (h : meaning? params count writes name = some m)
    (h' : meaning? params' count writes name = some m') :
    m' = m ∨ ∃ i j, i < count ∧ j < count ∧ m = .argument i ∧ m' = .argument j := by
  unfold meaning? at h h'
  by_cases hthis : name = "this"
  · rw [if_pos hthis] at h h'
    exact .inl (Option.some.inj (h'.symm.trans h))
  · rw [if_neg hthis] at h h'
    by_cases hvalue : name = "value"
    · rw [if_pos hvalue] at h h'
      exact .inl (Option.some.inj (h'.symm.trans h))
    · rw [if_neg hvalue] at h h'
      obtain ⟨i, hi, rfl⟩ := Option.map_eq_some_iff.1 h
      obtain ⟨j, hj, rfl⟩ := Option.map_eq_some_iff.1 h'
      have hi' := (Option.filter_eq_some_iff.1 hi).2
      have hj' := (Option.filter_eq_some_iff.1 hj).2
      exact .inr ⟨i, j, by simpa using hi', by simpa using hj', rfl, rfl⟩

theorem isSome_meanings? {params : List String} {count : Nat} {writes : Bool}
    {template : String} {pieces : List Piece} (hparse : parse template.toList = .ok pieces) :
    (meanings? params count writes template).isSome ↔
      ∀ name ∈ placeholders pieces, (meaning? params count writes name).isSome := by
  rw [meanings?, hparse]
  exact isSome_mapM _

theorem code_of_substitute {template : String} {span : Span} {e : LoweringError}
    (h : substitute template span f = .error e) : e.code = .internal := by
  unfold substitute at h
  cases hparse : parse template.toList with
  | error malformed =>
    rw [hparse] at h
    cases malformed <;> cases h <;> rfl
  | ok pieces =>
    cases hfill : fill f pieces with
    | error name =>
      simp only [hparse, hfill] at h
      cases h
      rfl
    | ok text => simp [hparse, hfill] at h

end Template

/-! ## Using an accessor -/

namespace Target

section

variable {ε : Type} {t : Target ε} {names : List String} {a : Address}
  {value : Option Script.Expr} {accessor : Accessor}

@[simp] theorem kind_renamed : (t.renamed names).kind = t.kind := rfl

@[simp] theorem paramNames_renamed : (t.renamed names).paramNames = names := rfl

@[simp] theorem args_renamed : (t.renamed names).args = t.args := rfl

@[simp] theorem getter?_renamed : (t.renamed names).getter? = t.getter? := rfl

@[simp] theorem setter?_renamed : (t.renamed names).setter? = t.setter? := rfl

/-- The operand for a placeholder is the one that it stands for. -/
theorem operand?_eq (t : Target ε) (a : Address) (value : Option Script.Expr) (name : String) :
    t.operand? a value name =
      (Template.meaning? t.paramNames a.args.length value.isSome name).bind
        (Template.Meaning.operand? (t.object a) a.args value) := by
  unfold operand? Template.meaning?
  by_cases hthis : name = "this"
  · rw [if_pos hthis, if_pos hthis]
    rfl
  · rw [if_neg hthis, if_neg hthis]
    by_cases hvalue : name = "value"
    · rw [if_pos hvalue, if_pos hvalue]
      cases value <;> rfl
    · rw [if_neg hvalue, if_neg hvalue]
      cases Template.index? t.paramNames name with
      | none => rfl
      | some i =>
        by_cases hi : i < a.args.length
        · simp [Option.filter, hi, Template.Meaning.operand?]
        · simp [Option.filter, hi]

theorem isSome_operand?_eq (t : Target ε) (a : Address) (value : Option Script.Expr)
    (name : String) :
    (t.operand? a value name).isSome =
      (Template.meaning? t.paramNames a.args.length value.isSome name).isSome := by
  rw [operand?_eq]
  cases hm : Template.meaning? t.paramNames a.args.length value.isSome name with
  | none => rfl
  | some m => exact Template.isSome_operand?_of_meaning? hm

/-- An accessor can be used if each of its placeholders stands for something. -/
theorem failureOf_useAccessor_eq_none_iff (t : Target ε) (runtime : RuntimeNames)
    (a : Address) (value : Option Script.Expr) (accessor : Accessor) :
    failureOf (t.useAccessor runtime a value accessor) = none ↔
      (accessor.meanings? t.paramNames a.args.length value.isSome).isSome := by
  cases accessor with
  | method name => cases hd : t.dispatch <;> simp [useAccessor, hd, Accessor.meanings?]
  | inline template =>
    rw [useAccessor, failureOf_map, Accessor.meanings?, Template.substitute]
    cases hparse : Template.parse template.toList with
    | error malformed => cases malformed <;> simp [Template.meanings?, hparse]
    | ok pieces =>
      have hfill : failureOf (Template.fill (t.operand? a value) pieces) = none ↔
          (Template.meanings? t.paramNames a.args.length value.isSome template).isSome := by
        simp only [Template.failureOf_fill_eq_none_iff, Template.isSome_meanings? hparse,
          isSome_operand?_eq]
      rw [← hfill]
      cases htext : Template.fill (t.operand? a value) pieces <;> simp [htext]
  | subscript =>
    have hfails : (∃ e, t.subscript a = .error e) ↔ a.args.length ≠ 1 := subscript_fails_iff
    rw [useAccessor, failureOf_map, Accessor.meanings?]
    by_cases hone : a.args.length = 1
    · cases hs : t.subscript a with
      | ok place => simp [hone]
      | error e => exact absurd hone (hfails.1 ⟨e, hs⟩)
    · obtain ⟨e, he⟩ := hfails.2 hone
      simp [he, hone]

/-- The text of a template whose placeholders all stand for something. -/
theorem useAccessor_inline (runtime : RuntimeNames) {template : String}
    {pieces : List Template.Piece} (hparse : Template.parse template.toList = .ok pieces)
    (h : ∀ name ∈ Template.placeholders pieces,
      (Template.meaning? t.paramNames a.args.length value.isSome name).isSome) :
    ∃ text, Template.fill (t.operand? a value) pieces = .ok text ∧
      t.useAccessor runtime a value (.inline template) =
        .ok (.verbatim (String.ofList text)) := by
  have hfill : failureOf (Template.fill (t.operand? a value) pieces) = none := by
    simpa only [Template.failureOf_fill_eq_none_iff, isSome_operand?_eq] using h
  cases htext : Template.fill (t.operand? a value) pieces with
  | error name => simp [htext] at hfill
  | ok text =>
    refine ⟨text, rfl, ?_⟩
    simp only [useAccessor, Template.substitute, hparse, htext]
    rfl

theorem code_of_useAccessor {runtime : RuntimeNames} {e : LoweringError}
    (h : t.useAccessor runtime a value accessor = .error e) : e.code = .internal := by
  cases accessor with
  | method name => cases hd : t.dispatch <;> simp [useAccessor, hd] at h
  | inline template =>
    rw [useAccessor] at h
    cases htext : Template.substitute template t.span (t.operand? a value) with
    | error e' =>
      rw [htext] at h
      cases h
      exact Template.code_of_substitute htext
    | ok text =>
      rw [htext] at h
      cases h
  | subscript =>
    rw [useAccessor, subscript] at h
    split at h
    · cases h
    · cases h
      rfl

/-- Placeholders that stand for the same by other names give the same script. -/
theorem useAccessor_renamed (runtime : RuntimeNames) (value : Option Script.Expr)
    (h : (accessor.meanings? t.paramNames a.args.length value.isSome).isSome)
    (heq : accessor.meanings? names a.args.length value.isSome =
      accessor.meanings? t.paramNames a.args.length value.isSome) :
    (t.renamed names).useAccessor runtime a value accessor =
      t.useAccessor runtime a value accessor := by
  cases accessor with
  | method name | subscript => rfl
  | inline template =>
    rw [useAccessor, useAccessor, Template.substitute, Template.substitute]
    cases hparse : Template.parse template.toList with
    | error malformed => cases malformed <;> rfl
    | ok pieces =>
      have hmeaning := (mapM_eq_mapM_iff ((Template.isSome_meanings? hparse).1 h)).1 (by
        simpa only [Accessor.meanings?, Template.meanings?, hparse] using heq.symm)
      have hfill : Template.fill ((t.renamed names).operand? a value) pieces =
          Template.fill (t.operand? a value) pieces := by
        refine Template.fill_congr fun name hname => ?_
        rw [operand?_eq, operand?_eq, paramNames_renamed, ← hmeaning name hname]
        rfl
      simp only [hfill]
      rfl

section

variable {count : Nat} {args : Nat → List Script.Expr} (htell : Tells count args)

include htell

/-- Operands of one placeholder by two ways to name arguments have texts of one length. -/
theorem length_chars_operand? {i : Nat} {object : Option Script.Expr} {name : String}
    {e e' : Script.Expr}
    (he : (t.renamed names).operand? ⟨object, args i⟩ value name = some e)
    (he' : t.operand? ⟨object, args i⟩ value name = some e') :
    (e.chars postfixLevel).length = (e'.chars postfixLevel).length := by
  rw [operand?_eq, Option.bind_eq_some_iff] at he he'
  obtain ⟨m, hm, hme⟩ := he
  obtain ⟨m', hm', hme'⟩ := he'
  obtain rfl | ⟨k, l, -, -, rfl, rfl⟩ := Template.meaning?_cases hm hm'
  · cases hme.symm.trans hme'
    rfl
  · exact htell.width i e (List.mem_of_getElem? hme) e' (List.mem_of_getElem? hme')

/-- Script that is the same for all arguments that tell is script of placeholders that stand
for the same. -/
theorem meanings?_eq_of_useAccessor {params : List String} {writes : Bool}
    (runtime : RuntimeNames) (h : (accessor.meanings? params count writes).isSome)
    (h' : (accessor.meanings? names count writes).isSome)
    (heq : ∀ i, ∃ (t : Target ε) (object value : Option Script.Expr),
      t.paramNames = params ∧ value.isSome = writes ∧
        (t.renamed names).useAccessor runtime ⟨object, args i⟩ value accessor =
          t.useAccessor runtime ⟨object, args i⟩ value accessor) :
    accessor.meanings? names count writes = accessor.meanings? params count writes := by
  cases accessor with
  | method name | subscript => rfl
  | inline template =>
    simp only [Accessor.meanings?] at h h' ⊢
    cases hparse : Template.parse template.toList with
    | error malformed => simp [Template.meanings?, hparse] at h
    | ok pieces =>
      rw [Template.isSome_meanings? hparse] at h h'
      simp only [Template.meanings?, hparse]
      refine (mapM_eq_mapM_iff h').2 fun name hname => ?_
      obtain ⟨m, hm⟩ := Option.isSome_iff_exists.1 (h name hname)
      obtain ⟨m', hm'⟩ := Option.isSome_iff_exists.1 (h' name hname)
      rw [hm, hm']
      obtain rfl | ⟨i, j, hi, hj, rfl, rfl⟩ := Template.meaning?_cases hm hm'
      · rfl
      -- Among the arguments that tell the `i`-th from the others, the `j`-th is that one.
      have hlen : (args i).length = count := htell.length_eq i
      obtain ⟨t, object, value, rfl, rfl, hsame⟩ := heq i
      obtain ⟨text, htext, huse⟩ :=
        useAccessor_inline (t := t) (a := ⟨object, args i⟩) runtime hparse (by rwa [hlen])
      obtain ⟨text', htext', huse'⟩ := useAccessor_inline (t := t.renamed names)
        (a := ⟨object, args i⟩) runtime hparse (by rwa [hlen])
      obtain rfl : text' = text := by
        simpa [String.ofList_inj] using huse'.symm.trans (hsame.trans huse)
      obtain ⟨e, he⟩ : ∃ e, (args i)[i]? = some e := ⟨_, List.getElem?_eq_getElem (by omega)⟩
      obtain ⟨e', he'⟩ : ∃ e', (args i)[j]? = some e' := ⟨_, List.getElem?_eq_getElem (by omega)⟩
      have hoperand : t.operand? ⟨object, args i⟩ value name = some e := by
        rwa [operand?_eq, hlen, hm]
      have hoperand' : (t.renamed names).operand? ⟨object, args i⟩ value name = some e' := by
        rwa [operand?_eq, paramNames_renamed, hlen, hm']
      have hchars := Template.chars_eq_of_fill htext' htext
        (fun name _ e e' => length_chars_operand? htell) name hname e' e hoperand' hoperand
      rw [htell.eq_of_chars i j e e' he he' hchars.symm]

end

end

end Target

end AssignmentLowering
