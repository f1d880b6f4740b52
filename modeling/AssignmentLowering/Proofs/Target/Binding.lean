import AssignmentLowering.Target.Classify
import Mathlib.Data.List.Basic

/-!
# The calling convention of indexers

An unnamed argument goes to the parameter whose number is that of the unnamed arguments
before it, a named one to the first parameter of its name. That alone decides what
binding arguments to parameters gives: it succeeds exactly when no two arguments go to
one parameter, none goes nowhere, and every parameter without an argument has a default.

## Main definitions

* `paramOf?` — the parameter that an argument goes to.
* `Bindable` — a call that respects the convention.
* `Binds` — what a parameter gets by the convention.
* `Blames` — why binding fails, and which part of the text is to blame.

## Main statements

* `bindArguments_convention` — binding arguments follows the convention.
-/

namespace AssignmentLowering

variable {ε : Type}

/-- The declared index of the parameter that the argument at position `i` goes to. -/
def paramOf? (p : Property) (args : List (Argument ε)) (i : Nat) : Option Nat :=
  args[i]?.bind fun a =>
    match a.name with
    | none => some ((args.take i).countP (·.name.isNone))
    | some name => p.params.findIdx? fun q => q.name = name

/-- The argument at position `i` goes to a parameter that no argument before it goes to. -/
def Fits (p : Property) (args : List (Argument ε)) (i : Nat) : Prop :=
  ∃ d, paramOf? p args i = some d ∧ d < p.params.length ∧ ∀ j < i, paramOf? p args j ≠ some d

/-- No argument goes to the parameter declared at `k`. -/
def Unaddressed (p : Property) (args : List (Argument ε)) (k : Nat) : Prop :=
  ∀ i, paramOf? p args i ≠ some k

/-- A call of `p` that respects the calling convention. -/
structure Bindable (p : Property) (defaults : List (Option ε)) (args : List (Argument ε)) :
    Prop where
  named : ∀ a ∈ args, ∀ name, a.name = some name → ∃ q ∈ p.params, q.name = name
  below : ∀ i d, paramOf? p args i = some d → d < p.params.length
  injective : ∀ i j d, paramOf? p args i = some d → paramOf? p args j = some d → i = j
  required : ∀ k < p.params.length, Unaddressed p args k → (defaults[k]?.join).isSome

/-- Every parameter has its argument, with the position of that in the text, or else its
own default. -/
structure Binds (p : Property) (defaults : List (Option ε)) (args : List (Argument ε))
    (bound : List (IndexArg ε)) : Prop where
  length_eq : bound.length = p.params.length
  supplied : ∀ i a d q, args[i]? = some a → paramOf? p args i = some d →
    p.params[d]? = some q → bound[d]? = some ⟨a.value, q.ty, some i⟩
  fallback : ∀ k q e, p.params[k]? = some q → Unaddressed p args k →
    defaults[k]?.join = some e → bound[k]? = some ⟨e, q.ty, none⟩

/-- The fault that stops binding, and its place: the first argument that does not fit, or
else the access, where a parameter is left without a value. -/
inductive Blames (p : Property) (defaults : List (Option ε)) (args : List (Argument ε))
    (span : Span) : Fault → Span → Prop
  | unknown {i : Nat} {a : Argument ε} {name : String} (before : ∀ j < i, Fits p args j)
      (arg : args[i]? = some a) (named : a.name = some name)
      (missing : ∀ q ∈ p.params, q.name ≠ name) :
      Blames p defaults args span (.unknownParameter name p.qualifiedName) a.span
  | tooMany {i d : Nat} {a : Argument ε} (before : ∀ j < i, Fits p args j)
      (arg : args[i]? = some a) (goes : paramOf? p args i = some d)
      (beyond : p.params.length ≤ d) :
      Blames p defaults args span (.tooManyArguments p.qualifiedName) a.span
  | twice {i j d : Nat} {a : Argument ε} {q : Param} (before : ∀ j < i, Fits p args j)
      (arg : args[i]? = some a) (goes : paramOf? p args i = some d) (earlier : j < i)
      (taken : paramOf? p args j = some d) (param : p.params[d]? = some q) :
      Blames p defaults args span (.parameterTwice q.name) a.span
  | missing {k : Nat} {q : Param} (all : ∀ i < args.length, Fits p args i)
      (param : p.params[k]? = some q) (unaddressed : Unaddressed p args k)
      (required : defaults[k]?.join = none)
      (first : ∀ j < k, Unaddressed p args j → (defaults[j]?.join).isSome) :
      Blames p defaults args span (.missingArgument q.name) span

section Convention

variable {p : Property} {defaults : List (Option ε)} {args : List (Argument ε)}
  {span : Span} {a : Argument ε} {i d n : Nat}

theorem lt_of_paramOf? (h : paramOf? p args i = some d) : i < args.length := by
  by_contra hi
  rw [paramOf?, List.getElem?_eq_none (Nat.le_of_not_lt hi)] at h
  cases h

/-- An argument goes nowhere only where no parameter has its name. -/
theorem paramOf?_eq_none (ha : args[i]? = some a) :
    paramOf? p args i = none ↔ ∃ name, a.name = some name ∧ ∀ q ∈ p.params, q.name ≠ name := by
  rw [paramOf?, ha, Option.bind_some]
  cases hname : a.name with
  | none => simp
  | some name => simp [List.findIdx?_eq_none_iff]

/-- The counter of unnamed arguments finds the parameter of each. -/
theorem declaredIndex_eq (ha : args[i]? = some a) :
    declaredIndex p ((args.take i).countP (·.name.isNone)) a =
      match paramOf? p args i with
      | some d => .ok d
      | none => .error (.internal (.unknownParameter (a.name.getD "") p.qualifiedName) a.span) := by
  rw [paramOf?, ha, Option.bind_some, declaredIndex]
  cases a.name with
  | none => rfl
  | some name => cases p.params.findIdx? (fun q => q.name = name) <;> rfl

/-- What the first `n` arguments leave in the slot of the parameter declared at `k`. -/
def slotAfter (defaults : List (Option ε)) (p : Property) (args : List (Argument ε))
    (n k : Nat) (q : Param) : Slot ε :=
  ⟨q, defaults[k]?.join, ((List.range n).find? fun i => paramOf? p args i = some k).bind
    fun i => args[i]?.map fun a => ⟨a.value, q.ty, some i⟩⟩

/-- The slots hold what the first `n` arguments leave in them. -/
def Placed (p : Property) (defaults : List (Option ε)) (args : List (Argument ε)) (n : Nat)
    (slots : List (Slot ε)) : Prop :=
  ∀ k, slots[k]? = p.params[k]?.map (slotAfter defaults p args n k)

theorem Placed.empty : Placed p defaults args 0 (Slot.emptyList p.params defaults) := by
  intro k
  simp only [Slot.emptyList, List.getElem?_map, List.getElem?_zipIdx, Nat.zero_add]
  cases p.params[k]? <;> rfl

theorem slotAfter_of_free {k : Nat} {q : Param} (h : ∀ j < n, paramOf? p args j ≠ some k) :
    slotAfter defaults p args n k q = ⟨q, defaults[k]?.join, none⟩ := by
  have hfind : (List.range n).find? (fun i => paramOf? p args i = some k) = none := by
    rw [List.find?_eq_none]
    intro j hj
    simpa using h j (List.mem_range.1 hj)
  rw [slotAfter, hfind]
  rfl

/-- A slot keeps the first argument that it gets. -/
theorem slotAfter_of_first {k : Nat} {q : Param} (hi : i < n) (ha : args[i]? = some a)
    (hgoes : paramOf? p args i = some k) (hfree : ∀ j < i, paramOf? p args j ≠ some k) :
    slotAfter defaults p args n k q =
      ⟨q, defaults[k]?.join, some ⟨a.value, q.ty, some i⟩⟩ := by
  have hfind : (List.range n).find? (fun i => paramOf? p args i = some k) = some i := by
    rw [List.find?_range_eq_some]
    exact ⟨by simpa using hgoes, List.mem_range.2 hi, by simpa using hfree⟩
  rw [slotAfter, hfind, Option.bind_some, ha]
  rfl

variable (defaults) in
/-- A slot that an argument goes to is taken. -/
theorem slotAfter_of_taken {k j : Nat} (q : Param) (hj : j < n)
    (hgoes : paramOf? p args j = some k) :
    ∃ arg, slotAfter defaults p args n k q = ⟨q, defaults[k]?.join, some arg⟩ := by
  have hsome : ((List.range n).find? fun i => paramOf? p args i = some k).isSome := by
    rw [List.find?_isSome]
    exact ⟨j, List.mem_range.2 hj, by simpa using hgoes⟩
  obtain ⟨i, hi⟩ := Option.isSome_iff_exists.1 hsome
  have hlt : i < args.length := lt_of_paramOf? (by simpa using List.find?_some hi)
  rw [slotAfter, hi, Option.bind_some, List.getElem?_eq_getElem hlt]
  exact ⟨_, rfl⟩

/-- An argument for another parameter leaves a slot alone. -/
theorem slotAfter_succ_of_ne {k : Nat} {q : Param} (h : paramOf? p args n ≠ some k) :
    slotAfter defaults p args (n + 1) k q = slotAfter defaults p args n k q := by
  have hfind : (List.range (n + 1)).find? (fun i => paramOf? p args i = some k) =
      (List.range n).find? (fun i => paramOf? p args i = some k) := by
    rw [List.range_succ, List.find?_append]
    simp [h]
  rw [slotAfter, slotAfter, hfind]

/-- An argument that fits fills the slot of its parameter. -/
theorem Placed.step {slots : List (Slot ε)} (h : Placed p defaults args n slots)
    (ha : args[n]? = some a) (hgoes : paramOf? p args n = some d)
    (hd : d < p.params.length) (hfree : ∀ j < n, paramOf? p args j ≠ some d) :
    ∃ filled, fillSlot p d n a slots = .ok filled ∧ Placed p defaults args (n + 1) filled := by
  have hslot : slots[d]? = some ⟨p.params[d], defaults[d]?.join, none⟩ := by
    rw [h d, List.getElem?_eq_getElem hd, Option.map_some, slotAfter_of_free hfree]
  refine ⟨_, by rw [fillSlot, hslot], ?_⟩
  intro k
  by_cases hk : d = k
  · subst hk
    have hlt : d < slots.length := (List.getElem?_eq_some_iff.1 hslot).1
    rw [List.getElem?_set_self hlt, List.getElem?_eq_getElem hd, Option.map_some,
      slotAfter_of_first (Nat.lt_succ_self n) ha hgoes hfree]
  · have hne : paramOf? p args n ≠ some k := by
      rw [hgoes]
      simpa using hk
    rw [List.getElem?_set_ne hk, h k]
    cases p.params[k]? with
    | none => rfl
    | some q => rw [Option.map_some, Option.map_some, slotAfter_succ_of_ne hne]

/-- An argument beyond the last parameter is refused. -/
theorem Placed.step_tooMany {slots : List (Slot ε)} (h : Placed p defaults args n slots)
    (hd : p.params.length ≤ d) :
    fillSlot p d n a slots = .error (.internal (.tooManyArguments p.qualifiedName) a.span) := by
  rw [fillSlot, h d, List.getElem?_eq_none hd]
  rfl

/-- An argument for a parameter that has one already is refused. -/
theorem Placed.step_twice {slots : List (Slot ε)} (h : Placed p defaults args n slots)
    {j : Nat} {q : Param} (hq : p.params[d]? = some q) (hj : j < n)
    (htaken : paramOf? p args j = some d) :
    fillSlot p d n a slots = .error (.internal (.parameterTwice q.name) a.span) := by
  obtain ⟨arg, harg⟩ := slotAfter_of_taken defaults q hj htaken
  rw [fillSlot, h d, hq, Option.map_some, harg]

variable (span) in
/-- The next argument is placed if it fits, and is to blame if not. -/
theorem Placed.next {slots : List (Slot ε)} (h : Placed p defaults args n slots)
    (ha : args[n]? = some a) (before : ∀ j < n, Fits p args j) :
    let filling := declaredIndex p ((args.take n).countP (·.name.isNone)) a >>=
      fun d => fillSlot p d n a slots
    (∃ filled, filling = .ok filled ∧ Fits p args n ∧ Placed p defaults args (n + 1) filled) ∨
      ∃ fault s, filling = .error (.internal fault s) ∧ Blames p defaults args span fault s := by
  intro filling
  simp only [filling, declaredIndex_eq ha]
  cases hgoes : paramOf? p args n with
  | none =>
    obtain ⟨name, hname, hmissing⟩ := (paramOf?_eq_none ha).1 hgoes
    refine .inr ⟨_, _, rfl, ?_⟩
    rw [hname]
    exact .unknown before ha hname hmissing
  | some d =>
    by_cases hd : d < p.params.length
    · by_cases hfree : ∀ j < n, paramOf? p args j ≠ some d
      · obtain ⟨filled, hfill, hplaced⟩ := h.step ha hgoes hd hfree
        exact .inl ⟨filled, hfill, ⟨d, hgoes, hd, hfree⟩, hplaced⟩
      · push Not at hfree
        obtain ⟨j, hj, htaken⟩ := hfree
        have hq : p.params[d]? = some p.params[d] := List.getElem?_eq_getElem hd
        exact .inr ⟨_, _, h.step_twice hq hj htaken, .twice before ha hgoes hj htaken hq⟩
    · have hd : p.params.length ≤ d := Nat.le_of_not_lt hd
      exact .inr ⟨_, _, h.step_tooMany hd, .tooMany before ha hgoes hd⟩

variable (span) in
/-- Filling the slots places every argument, or stops at the first that does not fit. -/
theorem Placed.run : ∀ {rest : List (Argument ε)} {n : Nat} {slots : List (Slot ε)},
    args.drop n = rest → n ≤ args.length → (∀ j < n, Fits p args j) →
    Placed p defaults args n slots →
    let filling := fillSlots p n ((args.take n).countP (·.name.isNone)) rest slots
    (∃ filled, filling = .ok filled ∧ (∀ j < args.length, Fits p args j) ∧
        Placed p defaults args args.length filled) ∨
      ∃ fault s, filling = .error (.internal fault s) ∧ Blames p defaults args span fault s := by
  intro rest
  induction rest with
  | nil =>
    intro n slots hrest hn before h
    obtain rfl : n = args.length := Nat.le_antisymm hn (List.drop_eq_nil_iff.1 hrest)
    exact .inl ⟨slots, rfl, before, h⟩
  | cons a rest ih =>
    intro n slots hrest hn before h filling
    have ha : args[n]? = some a := by
      have hget : (args.drop n)[0]? = some a := by rw [hrest]; rfl
      simpa using hget
    have hlt : n < args.length := (List.getElem?_eq_some_iff.1 ha).1
    have hrest' : args.drop (n + 1) = rest := by
      rw [← List.drop_drop, hrest]
      rfl
    have hcount : (if a.name.isNone then (args.take n).countP (·.name.isNone) + 1
        else (args.take n).countP (·.name.isNone)) =
        (args.take (n + 1)).countP (·.name.isNone) := by
      rw [List.take_add_one, ha, List.countP_append, Option.toList_some, List.countP_singleton]
      split <;> rfl
    have hfilling : filling =
        (declaredIndex p ((args.take n).countP (·.name.isNone)) a >>=
          fun d => fillSlot p d n a slots) >>=
        fillSlots p (n + 1) ((args.take (n + 1)).countP (·.name.isNone)) rest := by
      rw [← hcount, bind_assoc]
      rfl
    rcases h.next span ha before with ⟨filled, hfill, hfits, hplaced⟩ |
      ⟨fault, s, herror, hblames⟩
    · have before' : ∀ j < n + 1, Fits p args j := by
        intro j hj
        rcases Nat.lt_succ_iff_lt_or_eq.1 hj with hj | rfl
        · exact before j hj
        · exact hfits
      rw [hfilling, hfill]
      exact ih hrest' hlt before' hplaced
    · rw [hfilling, herror]
      exact .inr ⟨fault, s, rfl, hblames⟩

/-- Whoever is to blame breaks the convention. -/
theorem Blames.not_bindable {fault : Fault} {s : Span}
    (h : Blames p defaults args span fault s) : ¬ Bindable p defaults args := by
  intro hbind
  cases h with
  | unknown before arg named missing =>
    obtain ⟨q, hq, hname⟩ := hbind.named _ (List.mem_of_getElem? arg) _ named
    exact missing q hq hname
  | tooMany before arg goes beyond => exact Nat.not_lt.2 beyond (hbind.below _ _ goes)
  | twice before arg goes earlier taken param =>
    exact Nat.ne_of_lt earlier (hbind.injective _ _ _ taken goes)
  | missing all param unaddressed required first =>
    have hlt := (List.getElem?_eq_some_iff.1 param).1
    have hsome := hbind.required _ hlt unaddressed
    rw [required] at hsome
    cases hsome

/-- Arguments that all fit respect the convention, where defaults do for the rest. -/
theorem bindable_of_fits (all : ∀ i < args.length, Fits p args i)
    (required : ∀ k < p.params.length, Unaddressed p args k → (defaults[k]?.join).isSome) :
    Bindable p defaults args := by
  have hlater : ∀ i j d, i < j → paramOf? p args i = some d → paramOf? p args j ≠ some d := by
    intro i j d hij hi hj
    obtain ⟨d', hd', -, hfree⟩ := all j (lt_of_paramOf? hj)
    rw [hj] at hd'
    cases hd'
    exact hfree i hij hi
  refine ⟨?_, ?_, ?_, required⟩
  · intro a ha name hname
    obtain ⟨i, hi⟩ := List.mem_iff_getElem?.1 ha
    obtain ⟨d, hd, -, -⟩ := all i (List.getElem?_eq_some_iff.1 hi).1
    by_contra hmissing
    push Not at hmissing
    have hnone := (paramOf?_eq_none hi).2 ⟨name, hname, hmissing⟩
    rw [hd] at hnone
    cases hnone
  · intro i d hi
    obtain ⟨d', hd', hlt, -⟩ := all i (lt_of_paramOf? hi)
    rw [hi] at hd'
    cases hd'
    exact hlt
  · intro i j d hi hj
    rcases Nat.lt_trichotomy i j with hij | hij | hij
    · exact absurd hj (hlater i j d hij hi)
    · exact hij
    · exact absurd hi (hlater j i d hij hj)

/-- A traversal that can fail either succeeds everywhere or stops at the first failure. -/
theorem mapM_ok_or_error {α β κ : Type} (f : α → Except κ β) (l : List α) :
    (∃ l', l.mapM f = .ok l' ∧ l'.length = l.length ∧
        ∀ (k : Nat) a, l[k]? = some a → ∃ b, l'[k]? = some b ∧ f a = .ok b) ∨
      ∃ (k : Nat) (a : α) (e : κ), l.mapM f = .error e ∧ l[k]? = some a ∧ f a = .error e ∧
        ∀ j < k, ∀ b, l[j]? = some b → ∃ c, f b = .ok c := by
  induction l with
  | nil => exact .inl ⟨[], rfl, rfl, by simp⟩
  | cons a l ih =>
    simp only [List.mapM_cons, bind, Except.bind]
    cases ha : f a with
    | error e => exact .inr ⟨0, a, e, rfl, rfl, ha, by simp⟩
    | ok b =>
      rcases ih with ⟨l', hl, hlen, hall⟩ | ⟨k, a', e, hl, hk, hfail, hbefore⟩
      · refine .inl ⟨b :: l', by rw [hl]; rfl, by simp [hlen], ?_⟩
        intro k a' hk
        cases k with
        | zero => cases hk; exact ⟨b, rfl, ha⟩
        | succ k => exact hall k a' hk
      · refine .inr ⟨k + 1, a', e, by rw [hl], hk, hfail, ?_⟩
        intro j hj c hc
        cases j with
        | zero => cases hc; exact ⟨b, ha⟩
        | succ j => exact hbefore j (Nat.lt_of_succ_lt_succ hj) c hc

/-- A slot that closes without an argument has a default. -/
theorem isSome_of_close {k : Nat} {q : Param} {b : IndexArg ε}
    (h : (slotAfter defaults p args args.length k q).close span = .ok b)
    (hfree : Unaddressed p args k) : (defaults[k]?.join).isSome := by
  rw [slotAfter_of_free fun j _ => hfree j] at h
  cases hdefault : defaults[k]?.join with
  | some e => rfl
  | none =>
    rw [hdefault] at h
    cases h

/-- A slot that does not close belongs to a parameter that no argument goes to and that has
no default. -/
theorem close_eq_error {k : Nat} {q : Param} {e : LoweringError}
    (h : (slotAfter defaults p args args.length k q).close span = .error e) :
    e = .internal (.missingArgument q.name) span ∧ Unaddressed p args k ∧
      defaults[k]?.join = none := by
  by_cases hfree : Unaddressed p args k
  · rw [slotAfter_of_free fun j _ => hfree j] at h
    cases hdefault : defaults[k]?.join with
    | some e =>
      rw [hdefault] at h
      cases h
    | none =>
      rw [hdefault] at h
      cases h
      exact ⟨rfl, hfree, rfl⟩
  · have htaken : ∃ j, paramOf? p args j = some k := by simpa [Unaddressed] using hfree
    obtain ⟨j, hj⟩ := htaken
    obtain ⟨arg, harg⟩ := slotAfter_of_taken defaults q (lt_of_paramOf? hj) hj
    rw [harg] at h
    cases h

/-- Slots that all close hold what the convention says. -/
theorem Placed.binds {slots : List (Slot ε)} {bound : List (IndexArg ε)}
    (h : Placed p defaults args args.length slots) (fits : ∀ i < args.length, Fits p args i)
    (hlen : bound.length = slots.length)
    (hclose : ∀ (k : Nat) s, slots[k]? = some s →
      ∃ b, bound[k]? = some b ∧ s.close span = .ok b) :
    Binds p defaults args bound := by
  have hentry : ∀ (k : Nat) q, p.params[k]? = some q →
      ∃ b, bound[k]? = some b ∧
        (slotAfter defaults p args args.length k q).close span = .ok b := by
    intro k q hq
    exact hclose k _ (by rw [h k, hq]; rfl)
  constructor
  · have hslots : slots.length = p.params.length := by
      apply Nat.le_antisymm
      · rw [← List.getElem?_eq_none_iff, h, List.getElem?_eq_none (Nat.le_refl _)]
        rfl
      · rw [← List.getElem?_eq_none_iff, ← Option.map_eq_none_iff, ← h,
          List.getElem?_eq_none (Nat.le_refl _)]
    rw [hlen, hslots]
  · intro i a d q ha hgoes hq
    obtain ⟨b, hb, hcloses⟩ := hentry d q hq
    obtain ⟨d', hd', -, hfree⟩ := fits i (List.getElem?_eq_some_iff.1 ha).1
    rw [hgoes] at hd'
    cases hd'
    rw [slotAfter_of_first (lt_of_paramOf? hgoes) ha hgoes hfree] at hcloses
    cases hcloses
    exact hb
  · intro k q e hq hfree hdefault
    obtain ⟨b, hb, hcloses⟩ := hentry k q hq
    rw [slotAfter_of_free (fun j _ => hfree j), hdefault] at hcloses
    cases hcloses
    exact hb

variable (p defaults args span) in
/-- Binding either does what the convention says or blames what breaks it. -/
theorem bindArguments_cases :
    (∃ bound, bindArguments p defaults args span = .ok bound ∧ Bindable p defaults args ∧
        Binds p defaults args bound) ∨
      ∃ fault s, bindArguments p defaults args span = .error (.internal fault s) ∧
        Blames p defaults args span fault s := by
  rcases Placed.run span List.drop_zero (Nat.zero_le _) (by simp)
    (Placed.empty : Placed p defaults args 0 _) with
      ⟨slots, hfill, hfits, hplaced⟩ | ⟨fault, s, herror, hblames⟩
  · have hbind : bindArguments p defaults args span = slots.mapM (Slot.close span) := by
      rw [bindArguments]
      exact congrArg (· >>= List.mapM (Slot.close span)) hfill
    have hslot : ∀ k (hk : k < p.params.length),
        slots[k]? = some (slotAfter defaults p args args.length k p.params[k]) := by
      intro k hk
      rw [hplaced k, List.getElem?_eq_getElem hk, Option.map_some]
    rcases mapM_ok_or_error (Slot.close span) slots with ⟨bound, hmap, hlen, hclose⟩ |
      ⟨k, s, e, hmap, hs, hfail, hbefore⟩
    · refine .inl ⟨bound, hbind.trans hmap, bindable_of_fits hfits ?_,
        hplaced.binds hfits hlen hclose⟩
      intro k hk hfree
      obtain ⟨b, -, hb⟩ := hclose k _ (hslot k hk)
      exact isSome_of_close hb hfree
    · rw [hplaced k, Option.map_eq_some_iff] at hs
      obtain ⟨q, hq, rfl⟩ := hs
      obtain ⟨rfl, hfree, hdefault⟩ := close_eq_error hfail
      refine .inr ⟨_, _, hbind.trans hmap, .missing hfits hq hfree hdefault ?_⟩
      intro j hj hfree'
      have hlt : j < p.params.length := Nat.lt_trans hj (List.getElem?_eq_some_iff.1 hq).1
      obtain ⟨b, hb⟩ := hbefore j hj _ (hslot j hlt)
      exact isSome_of_close hb hfree'
  · refine .inr ⟨fault, s, ?_, hblames⟩
    rw [bindArguments]
    exact congrArg (· >>= List.mapM (Slot.close span)) herror

end Convention

/-- A parameter has the argument that goes to it, or else its own default. -/
theorem getElem?_of_bindArguments {p : Property} {defaults : List (Option ε)}
    {args : List (Argument ε)} {span : Span} {bound : List (IndexArg ε)}
    (h : bindArguments p defaults args span = .ok bound) {k : Nat} {q : Param}
    (hq : p.params[k]? = some q) :
    (∃ i a, args[i]? = some a ∧ paramOf? p args i = some k ∧
      bound[k]? = some ⟨a.value, q.ty, some i⟩) ∨
    (Unaddressed p args k ∧ ∃ e, defaults[k]?.join = some e ∧
      bound[k]? = some ⟨e, q.ty, none⟩) := by
  obtain ⟨bound', hok, hbindable, hbinds⟩ | ⟨fault, s, herror, -⟩ :=
    bindArguments_cases p defaults args span
  · obtain rfl : bound' = bound := Except.ok.inj (hok.symm.trans h)
    by_cases hfree : Unaddressed p args k
    · have hlt := (List.getElem?_eq_some_iff.1 hq).1
      obtain ⟨e, he⟩ := Option.isSome_iff_exists.1 (hbindable.required k hlt hfree)
      exact .inr ⟨hfree, e, he, hbinds.fallback k q e hq hfree he⟩
    · obtain ⟨i, hi⟩ : ∃ i, paramOf? p args i = some k := by simpa [Unaddressed] using hfree
      obtain ⟨a, ha⟩ : ∃ a, args[i]? = some a := ⟨_, List.getElem?_eq_getElem (lt_of_paramOf? hi)⟩
      exact .inl ⟨i, a, ha, hi, hbinds.supplied i a k q ha hi hq⟩
  · cases herror.symm.trans h

/-- **Binding arguments follows the calling convention**: it succeeds exactly when the call
respects the convention, it then gives every parameter what the convention says, and
otherwise it blames the first argument that does not fit, or the access itself where a
parameter is left without a value. -/
theorem bindArguments_convention (p : Property) (defaults : List (Option ε))
    (args : List (Argument ε)) (span : Span) :
    ((∃ bound, bindArguments p defaults args span = .ok bound) ↔ Bindable p defaults args) ∧
    (∀ bound, bindArguments p defaults args span = .ok bound →
      Binds p defaults args bound) ∧
    ∀ e, bindArguments p defaults args span = .error e →
      ∃ fault s, e = .internal fault s ∧ Blames p defaults args span fault s := by
  rcases bindArguments_cases p defaults args span with
    ⟨bound, hok, hbindable, hbinds⟩ | ⟨fault, s, herror, hblames⟩
  · refine ⟨⟨fun _ => hbindable, fun _ => ⟨bound, hok⟩⟩, ?_, ?_⟩
    · intro bound' hok'
      rw [hok] at hok'
      cases hok'
      exact hbinds
    · intro e herror
      rw [hok] at herror
      cases herror
  · refine ⟨⟨?_, fun hbindable => absurd hbindable hblames.not_bindable⟩, ?_, ?_⟩
    · rintro ⟨bound, hok⟩
      rw [herror] at hok
      cases hok
    · intro bound hok
      rw [herror] at hok
      cases hok
    · intro e herror'
      rw [herror] at herror'
      cases herror'
      exact ⟨fault, s, rfl, hblames⟩

end AssignmentLowering
