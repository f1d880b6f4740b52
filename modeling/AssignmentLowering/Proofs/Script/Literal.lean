import AssignmentLowering.Proofs.Number.Shortest
import AssignmentLowering.Proofs.Script.Reading
import Mathlib.Computability.Language

/-!
# Script text with numbers

Text is divided into tokens as before, but for its numbers. A numeral has digits, a fraction
and an exponent, takes in all that may belong to it, and stands for the number nearest to
what it spells. It has no sign. No name may start where it ends, so that there are texts
that begin like numbers and have no division at all.

A number is printed as a sign and a numeral without an exponent, or as a name. Whatever the
printer puts behind it leaves it as it is, except for a point: behind a numeral that has none
the point and the name of a member are drawn into it. The name may even be an exponent, but
what comes of it is one numeral in any case, or nothing.

## Main definitions

* `Lexeme` — tokens and numbers.
* `Alphabet.decimal?` — the numeral at the start of a text.
* `Divides`, `divisions` — the division of a text.
* `Splits` — texts that are divided alike wherever they stand.
* `numberLexemes` — what a printed number is divided into.

## Main statements

* `splits_numberChars` — the text of a number is divided into a sign and a numeral that is
  read as its absolute value, or a name.
* `exists_splits_fused` — behind a whole number the point of a member and its name are drawn
  into the numeral.
-/

namespace AssignmentLowering.Script

/-- A token of an expression in which any number may stand. -/
inductive Lexeme where
  | token (t : Token)
  | numeral (value : Binary64)
  deriving DecidableEq

/-! ### Numerals -/

/-- The digits behind a point, if there is one, and what follows. -/
def fraction : List Char → List Char × List Char
  | '.' :: cs => (cs.takeWhile Char.isDigit, cs.dropWhile Char.isDigit)
  | cs => ([], cs)

/-- Whether a minus sign leads, and what follows the sign. -/
def signed : List Char → Bool × List Char
  | '-' :: cs => (true, cs)
  | '+' :: cs => (false, cs)
  | cs => (false, cs)

/-- The exponent, if there is one, and what follows. -/
def exponent : List Char → Int × List Char
  | [] => (0, [])
  | c :: cs =>
    let digits := (signed cs).2.takeWhile Char.isDigit
    if (c = 'e' ∨ c = 'E') ∧ digits ≠ [] then
      let magnitude : Int := Nat.ofDigitChars 10 digits 0
      (if (signed cs).1 then -magnitude else magnitude, (signed cs).2.dropWhile Char.isDigit)
    else (0, c :: cs)

/-- The number nearest to what the parts of a numeral stand for. -/
def decimalValue (whole fraction : List Char) (exponent : Int) : Binary64 :=
  .nearest (Nat.ofDigitChars 10 (whole ++ fraction) 0 * 10 ^ exponent.toNat)
    (10 ^ (fraction.length + (-exponent).toNat))

namespace Alphabet

variable (A : Alphabet)

/-- A number in decimal, and what follows. A zero leads no other digit, and no name starts
where the number ends. -/
def decimal? (cs : List Char) : Option (Binary64 × List Char) :=
  let whole := cs.takeWhile Char.isDigit
  let behind := fraction (cs.dropWhile Char.isDigit)
  let power := exponent behind.2
  if ['0'].isPrefixOf whole ∧ whole.length ≠ 1 then none
  else if power.2.head?.any fun c => A.start c || A.part c then none
  else some (decimalValue whole behind.1 power.1, power.2)

/-- The first token of a text without a blank before it, and what follows the token. -/
def lexeme? : List Char → Option (Lexeme × List Char)
  | [] => none
  | c :: cs =>
    if c.isDigit then (A.decimal? (c :: cs)).map fun (x, rest) => (.numeral x, rest)
    else (A.token? (c :: cs)).map fun (t, rest) => (.token t, rest)

end Alphabet

/-- The division of a text into tokens and numbers. -/
inductive Divides (A : Alphabet) : List Char → List Lexeme → Prop
  | done {cs : List Char} (h : cs.dropWhile isBlank = []) : Divides A cs []
  | lexeme {cs rest : List Char} {x : Lexeme} {xs : List Lexeme}
    (h : A.lexeme? (cs.dropWhile isBlank) = some (x, rest)) (hs : Divides A rest xs) :
    Divides A cs (x :: xs)

/-- The divisions of a text: one, or none. -/
def divisions (A : Alphabet) (cs : List Char) : Language Lexeme := {xs | Divides A cs xs}

variable {A : Alphabet} {cs ds rest : List Char} {xs : List Lexeme}

@[simp] theorem mem_divisions : xs ∈ divisions A cs ↔ Divides A cs xs := Iff.rfl

/-- A text has one division at most. -/
theorem Divides.unique {ys : List Lexeme} (h : Divides A cs xs) (h' : Divides A cs ys) :
    xs = ys := by
  induction h generalizing ys with
  | done h =>
    cases h' with
    | done => rfl
    | lexeme h₁ => simp [h, Alphabet.lexeme?] at h₁
  | lexeme h _ ih =>
    cases h' with
    | done h₁ => simp [h₁, Alphabet.lexeme?] at h
    | lexeme h₁ hs =>
      cases h.symm.trans h₁
      rw [ih hs]

theorem singleton_mul_singleton (xs ys : List Lexeme) :
    ({xs} * {ys} : Language Lexeme) = {xs ++ ys} :=
  Set.image2_singleton

theorem divisions_nil : divisions A [] = 1 := by
  ext xs
  rw [mem_divisions, Language.mem_one]
  constructor
  · rintro (_ | h)
    · rfl
    · simp [Alphabet.lexeme?] at h
  · rintro rfl
    exact .done rfl

theorem divisions_blank {c : Char} (hc : isBlank c = true) (cs : List Char) :
    divisions A (c :: cs) = divisions A cs := by
  have hdrop : (c :: cs).dropWhile isBlank = cs.dropWhile isBlank := by simp [hc]
  ext xs
  rw [mem_divisions, mem_divisions]
  constructor
  · rintro (h | ⟨h, hs⟩)
    · exact .done (hdrop ▸ h)
    · exact .lexeme (hdrop ▸ h) hs
  · rintro (h | ⟨h, hs⟩)
    · exact .done (hdrop ▸ h)
    · exact .lexeme (hdrop ▸ h) hs

theorem divisions_of_some {x : Lexeme} (h : A.lexeme? (cs.dropWhile isBlank) = some (x, rest)) :
    divisions A cs = {[x]} * divisions A rest := by
  ext xs
  rw [mem_divisions, Language.mem_mul]
  constructor
  · rintro (hnone | ⟨hsome, hs⟩)
    · rw [hnone] at h
      cases h
    · cases h.symm.trans hsome
      exact ⟨_, rfl, _, hs, rfl⟩
  · rintro ⟨_, rfl, ys, hys, rfl⟩
    exact .lexeme h hys

theorem divisions_of_none (hne : cs.dropWhile isBlank ≠ [])
    (h : A.lexeme? (cs.dropWhile isBlank) = none) : divisions A cs = 0 := by
  ext xs
  rw [mem_divisions]
  refine iff_of_false ?_ (Language.notMem_zero xs)
  rintro (hnil | ⟨hsome, -⟩)
  · exact hne hnil
  · cases h.symm.trans hsome

/-! ### Texts that are divided alike wherever they stand -/

/-- The characters that the printer puts behind an expression. -/
def followers : List Char := ['[', '(', ')', ']', ',', ' ']

/-- What may follow a text without being drawn into its last token. A point may follow a
name, but would belong to a whole number in front of it. -/
def MayFollow : Tail → List Char → Prop
  | .closed, _ => True
  | .name, rest => ∀ c ∈ rest.head?, c = '.' ∨ c ∈ followers
  | .number, rest => ∀ c ∈ rest.head?, c ∈ followers

/-- A text that is divided in the given ways wherever it stands, as far as its end allows for
what follows. -/
def Splits (A : Alphabet) (t : Tail) (cs : List Char) (L : Language Lexeme) : Prop :=
  ∀ rest, MayFollow t rest → divisions A (cs ++ rest) = L * divisions A rest

namespace MayFollow

variable {t : Tail}

theorem nil : MayFollow t [] := by cases t <;> simp [MayFollow]

theorem cons {c : Char} (h : c ∈ followers) : MayFollow t (c :: cs) := by
  cases t <;> simp [MayFollow, h]

theorem point : MayFollow .name ('.' :: cs) := by simp [MayFollow]

theorem of_number (h : MayFollow .number cs) : MayFollow t cs := by
  cases t with
  | closed => trivial
  | name => exact fun c hc => .inr (h c hc)
  | number => exact h

theorem to_name (h : MayFollow .number cs) : MayFollow .name cs := h.of_number

/-- What follows is no part of a name, a number or an exponent. -/
theorem not_part (h : MayFollow .name cs) {c : Char} (hc : c ∈ cs.head?) :
    A.start c = false ∧ A.part c = false ∧ c.isDigit = false ∧
      c ≠ 'e' ∧ c ≠ 'E' ∧ c ≠ '+' ∧ c ≠ '-' := by
  have hmem : c ∈ ['.', '[', '(', ')', ']', ',', ' '] := List.mem_cons.2 (h c hc)
  have hall := List.all_eq_true.1 (by decide : ['.', '[', '(', ')', ']', ',', ' '].all fun c =>
    c.toNat < 128 ∧ asciiStart c = false ∧ asciiPart c = false ∧ c.isDigit = false ∧
      c ≠ 'e' ∧ c ≠ 'E' ∧ c ≠ '+' ∧ c ≠ '-') c hmem
  obtain ⟨hlt, hclass⟩ := of_decide_eq_true hall
  rw [A.start_ascii c hlt, A.part_ascii c hlt]
  exact hclass

end MayFollow

namespace Splits

variable {t u : Tail} {L M : Language Lexeme}

theorem nil : Splits A t [] 1 := fun _ _ => (one_mul _).symm

theorem divisions_eq (h : Splits A t cs L) : divisions A cs = L := by
  have := h [] .nil
  rwa [List.append_nil, divisions_nil, mul_one] at this

theorem of_closed (h : Splits A .closed cs L) : Splits A t cs L := fun rest _ => h rest trivial

theorem to_number (h : Splits A t cs L) : Splits A .number cs L :=
  fun rest hr => h rest hr.of_number

/-- Texts that keep apart are divided one after the other. -/
theorem append (h : Splits A t cs L) (h' : Splits A u ds M)
    (hd : ∀ rest, MayFollow t (ds ++ rest)) : Splits A u (cs ++ ds) (L * M) := by
  intro rest hr
  rw [List.append_assoc, h _ (hd rest), h' rest hr, mul_assoc]

theorem append_closed (h : Splits A .closed cs L) (h' : Splits A u ds M) :
    Splits A u (cs ++ ds) (L * M) :=
  h.append h' fun _ => trivial

theorem of_lexeme {x : Lexeme} (h : ∀ rest, MayFollow t rest →
    A.lexeme? ((cs ++ rest).dropWhile isBlank) = some (x, rest)) : Splits A t cs {[x]} :=
  fun rest hr => divisions_of_some (h rest hr)

end Splits

/-- Other tokens than numbers are read as before. -/
theorem lexeme?_of_token? {t : Token} (hn : ∀ n, t ≠ .number n)
    (h : A.token? cs = some (t, rest)) : A.lexeme? cs = some (.token t, rest) := by
  cases cs with
  | nil => cases h
  | cons c cs =>
    cases hdigit : c.isDigit with
    | false => simp [Alphabet.lexeme?, hdigit, h]
    | true =>
      simp only [Alphabet.token?, A.of_isDigit hdigit, hdigit, if_true, Bool.false_eq_true,
        if_false, Option.map_eq_some_iff] at h
      obtain ⟨p, -, hp⟩ := h
      exact absurd (Prod.mk.inj hp).1.symm (hn _)

namespace Splits

variable {t : Tail} {token : Token}

theorem of_token (hn : ∀ n, token ≠ .number n)
    (h : ∀ rest, MayFollow t rest →
      A.token? ((cs ++ rest).dropWhile isBlank) = some (token, rest)) :
    Splits A t cs {[.token token]} :=
  .of_lexeme fun rest hr => lexeme?_of_token? hn (h rest hr)

/-- A blank may follow a token. -/
theorem of_token_blank (cs : List Char) (hn : ∀ n, token ≠ .number n)
    (h : ∀ rest, A.token? ((cs ++ ' ' :: rest).dropWhile isBlank) = some (token, ' ' :: rest)) :
    Splits A .closed (cs ++ [' ']) {[.token token]} := by
  intro rest _
  rw [List.append_assoc]
  refine (divisions_of_some (lexeme?_of_token? hn (h rest))).trans ?_
  rw [divisions_blank (by decide)]

end Splits

theorem splits_word {name : String} (h : A.IsWord name) :
    Splits A .name name.toList {[.token (.word name)]} :=
  .of_token (by simp) fun rest hr => token?_word h fun c hc => (hr.not_part hc).2.1

theorem splits_literal (name : String) {c : Char} (hname : name.toList = c :: cs)
    (h : asciiStart c = true ∧ cs.all asciiPart = true) :
    Splits A .name (c :: cs) {[.token (.word name)]} :=
  hname ▸ splits_word (.of_ascii hname h)

theorem splits_quotedChars (s : String) :
    Splits A .closed (quotedChars s.toList) {[.token (.string s)]} :=
  .of_token (by simp) fun rest _ => token?_quotedChars s rest

theorem splits_handle {name : String} (h : ∀ c ∈ name.toList, handlePart c = true) :
    Splits A .closed ('{' :: (name.toList ++ ['}'])) {[.token (.handle name)]} :=
  .of_token (by simp) fun rest _ => token?_handle h rest

theorem splits_member {name : String} (h : A.IsWord name) :
    Splits A .name ('.' :: name.toList) {[.token .dot, .token (.word name)]} := by
  intro rest hr
  rw [divisions_of_some (lexeme?_of_token? (by simp) (token?_point h rest)),
    splits_word h rest hr, ← mul_assoc, singleton_mul_singleton]
  rfl

theorem splits_openParen : Splits A .closed ['('] {[.token .openParen]} :=
  .of_token (by simp) fun _ _ => token?_eq_punctuator? (by decide)

theorem splits_closeParen : Splits A .closed [')'] {[.token .closeParen]} :=
  .of_token (by simp) fun _ _ => token?_eq_punctuator? (by decide)

theorem splits_openBracket : Splits A .closed ['['] {[.token .openBracket]} :=
  .of_token (by simp) fun _ _ => token?_eq_punctuator? (by decide)

theorem splits_closeBracket : Splits A .closed [']'] {[.token .closeBracket]} :=
  .of_token (by simp) fun _ _ => token?_eq_punctuator? (by decide)

theorem splits_comma : Splits A .closed [',', ' '] {[.token .comma]} :=
  .of_token_blank [','] (by simp) fun _ => token?_eq_punctuator? (by decide)

theorem splits_binary (op : BinaryOp) :
    Splits A .closed (spaced op.token) {[.token (.binary op)]} :=
  .of_token_blank (' ' :: op.token.toList) (by simp) (token?_binary op)

theorem splits_assign (op : AssignOp) :
    Splits A .closed (spaced op.token) {[.token (.assign op)]} :=
  .of_token_blank (' ' :: op.token.toList) (by simp) (token?_assign op)

/-! ### Numerals as they are printed -/

theorem fraction_of_ne_point (h : ∀ c ∈ cs.head?, c ≠ '.') : fraction cs = ([], cs) := by
  unfold fraction
  split
  · simp at h
  · rfl

theorem exponent_of_ne (h : ∀ c ∈ cs.head?, c ≠ 'e' ∧ c ≠ 'E') : exponent cs = (0, cs) := by
  unfold exponent
  split
  · rfl
  · next c cs => simp [h c rfl]

open Decimal (IsWhole)

variable {whole digits : List Char}

/-- The digits in front of a numeral are told apart from what follows them. -/
theorem decimal?_append (hw : IsWhole whole) (h : ∀ c ∈ cs.head?, c.isDigit = false) :
    A.decimal? (whole ++ cs) =
      if (exponent (fraction cs).2).2.head?.any fun c => A.start c || A.part c then none
      else some (decimalValue whole (fraction cs).1 (exponent (fraction cs).2).1,
        (exponent (fraction cs).2).2) := by
  obtain ⟨ht, hd⟩ := span_append hw.isDigit h
  have hlead : ¬ (['0'].isPrefixOf whole = true ∧ whole.length ≠ 1) := by
    rintro ⟨hzero, hlength⟩
    cases whole with
    | nil => cases hzero
    | cons c whole =>
      have hc : '0' = c := by simpa [List.isPrefixOf] using hzero
      have hone := hw.head_zero (by rw [← hc]; rfl)
      simp [(List.cons.inj hone).2] at hlength
  simp only [Alphabet.decimal?, ht, hd]
  rw [if_neg hlead]

theorem decimalValue_whole (n : Nat) :
    decimalValue (Nat.toDigits 10 n) [] 0 = .nearest n 1 := by
  simp [decimalValue]

theorem decimalValue_fraction (whole fraction : List Char) :
    decimalValue whole fraction 0 =
      .nearest (Nat.ofDigitChars 10 (whole ++ fraction) 0) (10 ^ fraction.length) := by
  simp [decimalValue]

/-- Nothing that the printer puts behind a number goes on with it. -/
theorem MayFollow.not_any (h : MayFollow .name rest) :
    (rest.head?.any fun c => A.start c || A.part c) = false := by
  cases hc : rest.head? with
  | none => rfl
  | some c => simp [h.not_part hc]

theorem MayFollow.exponent_eq (h : MayFollow .name rest) : exponent rest = (0, rest) :=
  exponent_of_ne fun c hc => by simp [h.not_part (A := .ascii) hc]

/-- A whole number is read as the number nearest to it, unless a fraction seems to follow. -/
theorem decimal?_toDigits (n : Nat) (h : MayFollow .number rest) :
    A.decimal? (Nat.toDigits 10 n ++ rest) = some (.nearest n 1, rest) := by
  have hpoint : ∀ c ∈ rest.head?, c ≠ '.' := by
    rintro _ hc rfl
    exact absurd (h _ hc) (by decide)
  rw [decimal?_append (Decimal.isWhole_toDigits n) fun c hc =>
    (h.to_name.not_part (A := A) hc).2.2.1]
  rw [fraction_of_ne_point hpoint, h.to_name.exponent_eq]
  simp only [h.to_name.not_any, decimalValue_whole]
  rfl

/-- A number with digits on both sides of a point is read as the number nearest to it, even if
another point follows. -/
theorem decimal?_fraction (hw : IsWhole whole) (hd : ∀ c ∈ digits, c.isDigit = true)
    (h : MayFollow .name rest) :
    A.decimal? (whole ++ '.' :: digits ++ rest) =
      some (.nearest (Nat.ofDigitChars 10 (whole ++ digits) 0) (10 ^ digits.length), rest) := by
  have hend : ∀ c ∈ rest.head?, c.isDigit = false := fun c hc =>
    (h.not_part (A := A) hc).2.2.1
  have hfraction : fraction ('.' :: digits ++ rest) = (digits, rest) := by
    obtain ⟨ht, hd⟩ := span_append hd hend
    exact Prod.ext ht hd
  have hpoint : ∀ c ∈ ('.' :: digits ++ rest).head?, c.isDigit = false := by
    rintro _ ⟨⟩
    rfl
  rw [List.append_assoc, decimal?_append hw hpoint, hfraction, h.exponent_eq]
  simp only [h.not_any, decimalValue_fraction]
  rfl

theorem dropWhile_isBlank_of_isWhole (hw : IsWhole whole) (cs : List Char) :
    (whole ++ cs).dropWhile isBlank = whole ++ cs ∧ whole ++ cs ≠ [] := by
  cases whole with
  | nil => exact absurd rfl hw.ne_nil
  | cons c whole => simp [(Alphabet.ascii.of_isDigit (hw.isDigit c (by simp))).2.2]

theorem lexeme?_of_decimal? (hw : IsWhole whole) (cs : List Char) :
    A.lexeme? ((whole ++ cs).dropWhile isBlank) =
      (A.decimal? (whole ++ cs)).map fun (x, rest) => (.numeral x, rest) := by
  rw [(dropWhile_isBlank_of_isWhole hw cs).1]
  cases whole with
  | nil => exact absurd rfl hw.ne_nil
  | cons c whole => simp [Alphabet.lexeme?, hw.isDigit c (by simp)]

/-- The minus sign, which is the operator too. -/
def minus : Lexeme := .token (.binary .sub)

/-- A minus sign, where there is one. -/
def signLexemes (negative : Bool) : List Lexeme := if negative then [minus] else []

/-- A sign stands apart from what may follow it in a number. -/
theorem divisions_signChars {c : Char} (hc : c ≠ '-' ∧ c ≠ '=') (negative : Bool)
    (cs : List Char) :
    divisions A (signChars negative ++ c :: cs) =
      {signLexemes negative} * divisions A (c :: cs) := by
  cases negative with
  | false => exact (one_mul _).symm
  | true =>
    refine divisions_of_some (x := minus) (lexeme?_of_token? (by simp) ?_)
    rw [signChars, if_pos rfl, List.singleton_append, List.dropWhile_cons_of_neg (by decide),
      token?_eq_punctuator? (by decide)]
    simp [punctuator?, punctuators, List.isPrefixOf, hc.1.symm, hc.2.symm]

/-- What a number is divided into where a point does not follow. -/
def numberLexemes (x : Binary64) : List Lexeme :=
  match x.decode with
  | .nan => [.token (.word "NaN")]
  | .infinite negative => signLexemes negative ++ [.token (.word "inf")]
  | .finite negative m _ =>
    signLexemes (negative && 0 < m) ++ [.numeral (if negative then x.neg else x)]

/-- Whether a number is an integer. These are printed without a point. -/
def isInteger (x : Binary64) : Bool :=
  match x.decode with
  | .finite _ m q => (integer? m q).isSome
  | _ => false

/-- How the text of a number may end. -/
def numberTail (x : Binary64) : Tail := if isInteger x then .number else .name

namespace Splits

variable {t : Tail} {L : Language Lexeme}

theorem sign {c : Char} (hc : c ≠ '-' ∧ c ≠ '=') (negative : Bool)
    (h : Splits A t (c :: cs) L) :
    Splits A t (signChars negative ++ c :: cs) ({signLexemes negative} * L) := by
  intro rest hr
  rw [List.append_assoc, List.cons_append, divisions_signChars hc, ← List.cons_append, h rest hr,
    mul_assoc]

/-- Before digits, that is. -/
theorem sign_digits (hw : IsWhole whole) (negative : Bool) (h : Splits A t (whole ++ cs) L) :
    Splits A t (signChars negative ++ (whole ++ cs)) ({signLexemes negative} * L) := by
  cases whole with
  | nil => exact absurd rfl hw.ne_nil
  | cons c whole =>
    have hdigit := hw.isDigit c (by simp)
    refine h.sign ⟨?_, ?_⟩ negative <;>
    · rintro rfl
      cases hdigit

end Splits

theorem splits_toDigits (n : Nat) :
    Splits A .number (Nat.toDigits 10 n) {[.numeral (.nearest n 1)]} :=
  .of_lexeme fun rest hr => by
    rw [lexeme?_of_decimal? (Decimal.isWhole_toDigits n), decimal?_toDigits n hr]
    rfl

theorem splits_fraction (hw : IsWhole whole) (hd : ∀ c ∈ digits, c.isDigit = true) :
    Splits A .name (whole ++ '.' :: digits)
      {[.numeral (.nearest (Nat.ofDigitChars 10 (whole ++ digits) 0) (10 ^ digits.length))]} :=
  .of_lexeme fun rest hr => by
    rw [List.append_assoc, lexeme?_of_decimal? hw, ← List.append_assoc, decimal?_fraction hw hd hr]
    rfl

/-- The text of a number is divided into a sign and a numeral, or a name. -/
theorem splits_numberChars (x : Binary64) :
    Splits A (numberTail x) (numberChars x) {numberLexemes x} := by
  cases hx : x.decode with
  | nan =>
    have hword : Splits A .name ['N', 'a', 'N'] _ := splits_literal "NaN" rfl (by decide)
    simpa [numberTail, isInteger, numberLexemes, numberChars, hx] using hword
  | infinite negative =>
    have hword : Splits A .name ['i', 'n', 'f'] _ := splits_literal "inf" rfl (by decide)
    have hsign := hword.sign (by decide) negative
    simpa [numberTail, isInteger, numberLexemes, numberChars, hx, singleton_mul_singleton]
      using hsign
  | finite negative m q =>
    obtain ⟨s, rfl, hfinite⟩ := Binary64.hasParts_of_decode hx
    simp only [numberTail, isInteger, numberLexemes, hx]
    cases hint : integer? m (s - 1074) with
    | some n =>
      obtain ⟨n, htext, hvalue⟩ := numberChars_of_integer hfinite hint
      rw [htext, ← hvalue, ← singleton_mul_singleton, ← List.append_nil (Nat.toDigits 10 n)]
      exact .sign_digits (Decimal.isWhole_toDigits n) _ (by simpa using splits_toDigits n)
    | none =>
      obtain ⟨whole, digits, htext, hwhole, -, hdigits, hvalue⟩ :=
        numberChars_of_fraction hfinite hint
      have hm := pos_of_integer?_eq_none hint
      rw [htext, ← hvalue, ← singleton_mul_singleton]
      simpa [hm] using Splits.sign_digits hwhole negative (splits_fraction hwhole hdigits)

/-! ### A name behind the point of a whole number

The point belongs to the number, and the name is drawn into the exponent or stands where no
name may. -/

theorem signed_of_ne (h : ∀ c ∈ cs.head?, c ≠ '-' ∧ c ≠ '+') : signed cs = (false, cs) := by
  unfold signed
  split
  · simp at h
  · simp at h
  · rfl

/-- Digits end with the text that they are the end of. -/
theorem span_isDigit_append (cs : List Char) (h : ∀ c ∈ rest.head?, c.isDigit = false) :
    (cs ++ rest).takeWhile Char.isDigit = cs.takeWhile Char.isDigit ∧
      (cs ++ rest).dropWhile Char.isDigit = cs.dropWhile Char.isDigit ++ rest := by
  induction cs with
  | nil =>
    cases rest with
    | nil => simp
    | cons c rest => simp [h c rfl]
  | cons c cs ih => cases hc : c.isDigit <;> simp [hc, ih]

/-- A name has no sign in it. -/
theorem part_ne_sign {c : Char} (h : A.part c = true) : c ≠ '-' ∧ c ≠ '+' := by
  constructor <;>
  · rintro rfl
    rw [A.part_ascii _ (by decide)] at h
    cases h

/-- The exponent in a name ends with the name. -/
theorem exponent_append {c : Char} (hcs : ∀ d ∈ cs, A.part d = true) (h : MayFollow .name rest) :
    exponent (c :: cs ++ rest) = ((exponent (c :: cs)).1, (exponent (c :: cs)).2 ++ rest) := by
  have hsign : ∀ d ∈ cs.head?, d ≠ '-' ∧ d ≠ '+' := fun d hd =>
    part_ne_sign (hcs d (List.mem_of_mem_head? hd))
  have hsign' : ∀ d ∈ (cs ++ rest).head?, d ≠ '-' ∧ d ≠ '+' := by
    cases cs with
    | nil => exact fun d hd => by simp [h.not_part (A := A) hd]
    | cons => exact hsign
  obtain ⟨ht, hd⟩ := span_isDigit_append cs fun d hd =>
    (h.not_part (A := A) hd).2.2.1
  simp only [List.cons_append, exponent, signed_of_ne hsign, signed_of_ne hsign', ht, hd]
  split <;> rfl

/-- What an exponent leaves of a name goes on with the number. -/
theorem exponent_word {c : Char} (hc : A.start c = true) (hcs : ∀ d ∈ cs, A.part d = true) :
    (exponent (c :: cs)).2 = [] ∨
      ((exponent (c :: cs)).2.head?.any fun c => A.start c || A.part c) = true := by
  have hsign : ∀ d ∈ cs.head?, d ≠ '-' ∧ d ≠ '+' := fun d hd =>
    part_ne_sign (hcs d (List.mem_of_mem_head? hd))
  simp only [exponent, signed_of_ne hsign]
  split
  · cases hdrop : cs.dropWhile Char.isDigit with
    | nil => exact .inl rfl
    | cons d ds =>
      have hmem : d ∈ cs := (cs.dropWhile_suffix Char.isDigit).subset (by simp [hdrop])
      simp [hcs d hmem]
  · simp [hc]

/-- Whether there is a number with a name behind its point does not depend on what follows. -/
theorem decimal?_member {name : String} (hw : IsWhole whole) (hname : A.IsWord name)
    (h : MayFollow .name rest) :
    A.decimal? (whole ++ '.' :: (name.toList ++ rest)) =
      (A.decimal? (whole ++ '.' :: name.toList)).map fun p => (p.1, rest) := by
  obtain ⟨c, cs, hname, hc, hcs⟩ := hname
  have hdigit : c.isDigit = false := by
    by_contra hd
    simp [(A.of_isDigit (by simpa using hd)).1] at hc
  have hpoint (cs : List Char) : ∀ d ∈ ('.' :: cs).head?, d.isDigit = false := by
    rintro _ ⟨⟩
    rfl
  have hfraction (cs : List Char) : fraction ('.' :: c :: cs) = ([], c :: cs) := by
    simp [fraction, hdigit]
  have hexp := exponent_append (c := c) hcs h
  rw [hname, decimal?_append hw (hpoint _), decimal?_append hw (hpoint _), List.cons_append,
    hfraction, hfraction]
  rw [List.cons_append] at hexp
  simp only [hexp]
  rcases exponent_word hc hcs with hnil | hany
  · simp only [hnil, List.nil_append, h.not_any]
    rfl
  · have hany' : (((exponent (c :: cs)).2 ++ rest).head?.any
        fun c => A.start c || A.part c) = true := by
      cases hdrop : (exponent (c :: cs)).2 with
      | nil => simp [hdrop] at hany
      | cons d ds => simpa [hdrop] using hany
    simp only [hany, hany', if_true]
    rfl

/-- Behind digits the point of a member and the name are drawn into a numeral, or the text has
no division at all. -/
theorem exists_splits_digits {name : String} (hw : IsWhole whole) (hname : A.IsWord name) :
    ∃ L, Splits A .name (whole ++ '.' :: name.toList) L ∧
      ∀ xs ∈ L, ∃ value, xs = [.numeral value] := by
  have hlexeme (rest : List Char) (hr : MayFollow .name rest) :
      A.lexeme? ((whole ++ '.' :: name.toList ++ rest).dropWhile isBlank) =
        (A.decimal? (whole ++ '.' :: name.toList)).map fun p => (.numeral p.1, rest) := by
    rw [List.append_assoc, List.cons_append, lexeme?_of_decimal? hw, decimal?_member hw hname hr,
      Option.map_map]
    rfl
  cases hdecimal : A.decimal? (whole ++ '.' :: name.toList) with
  | none =>
    rw [hdecimal] at hlexeme
    refine ⟨0, fun rest hr => ?_, fun xs hxs => absurd hxs (Language.notMem_zero xs)⟩
    rw [zero_mul, divisions_of_none _ (hlexeme rest hr)]
    rw [List.append_assoc, (dropWhile_isBlank_of_isWhole hw _).1]
    exact (dropWhile_isBlank_of_isWhole hw _).2
  | some p =>
    simp only [hdecimal, Option.map_some] at hlexeme
    exact ⟨_, .of_lexeme hlexeme, fun _ hxs => ⟨p.1, hxs⟩⟩

example : Alphabet.ascii.decimal? ['5', '.', 'e', '3'] = some (.ofInt 5000, []) ∧
    Alphabet.ascii.decimal? ['5', '.', 'x'] = none := by decide +kernel

/-- The same behind a whole number with its sign. -/
theorem exists_splits_fused {x : Binary64} {name : String} (hx : isInteger x = true)
    (hname : A.IsWord name) :
    ∃ L, Splits A .name (numberChars x ++ '.' :: name.toList) L ∧
      ∀ xs ∈ L, ∃ negative value, xs = signLexemes negative ++ [.numeral value] := by
  obtain ⟨negative, n, htext⟩ : ∃ negative n,
      numberChars x = signChars negative ++ Nat.toDigits 10 n := by
    unfold isInteger at hx
    split at hx
    · next negative m q hdecode =>
      obtain ⟨s, rfl, hfinite⟩ := Binary64.hasParts_of_decode hdecode
      obtain ⟨n, hn⟩ := Option.isSome_iff_exists.1 hx
      obtain ⟨n, htext, -⟩ := numberChars_of_integer hfinite hn
      exact ⟨_, n, htext⟩
    · cases hx
  have hwhole := Decimal.isWhole_toDigits n
  obtain ⟨L, hsplits, hL⟩ := exists_splits_digits hwhole hname
  refine ⟨{signLexemes negative} * L, ?_, fun xs hxs => ?_⟩
  · rw [htext, List.append_assoc]
    exact hsplits.sign_digits hwhole negative
  · obtain ⟨_, rfl, ys, hys, rfl⟩ := Language.mem_mul.1 hxs
    obtain ⟨value, rfl⟩ := hL ys hys
    exact ⟨negative, value, rfl⟩

end AssignmentLowering.Script
