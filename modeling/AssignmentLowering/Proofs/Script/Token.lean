import AssignmentLowering.Script.Printer
import Mathlib.Data.List.TakeWhile

/-!
# Script text as tokens

How a text of script divides into tokens. Blanks are skipped, and a token is the longest one
that the text goes on with. Which characters beyond ASCII an identifier may have is left open.
Tokens of the language that expressions have no use for are recognised, so that no shorter
token is found in their place, and are then refused: comments, `++`, `=>` and the like.

## Main definitions

* `Script.Alphabet` — the characters of identifiers.
* `Script.Token`, `Script.Lexes` — tokens, and the division of a text into them.
* `Script.Spells` — a text that is read as given tokens wherever it stands.

## Main statements

* `Script.Lexes.unique` — a text has one division into tokens at most.
* `Script.Spells.append` — texts that keep apart are read one after the other.
* `Script.spells_word`, `Script.spells_toDigits`, `Script.spells_quotedChars`,
  `Script.spells_binary` and others — what is printed is read as the token meant.
-/

namespace AssignmentLowering.Script

/-- White space and line ends. -/
def isBlank (c : Char) : Bool :=
  c ∈ ['\t', '\n', '\x0b', '\x0c', '\r', ' ', '\u00a0', '\u1680', '\u2028', '\u2029', '\u202f',
    '\u205f', '\u3000', '\ufeff'] || ('\u2000' ≤ c && c ≤ '\u200a')

/-- The first characters of identifiers in ASCII. -/
def asciiStart (c : Char) : Bool := c.isAlpha || c = '$' || c = '_'

/-- The characters of identifiers in ASCII. -/
def asciiPart (c : Char) : Bool := c.isDigit || asciiStart c

/-- What is seen for each character of ASCII holds of them all. -/
theorem forall_ascii {f : Char → Bool} (h : ∀ n < 128, f (Char.ofNat n) = true) {c : Char}
    (hc : c.toNat < 128) : f c = true := by
  simpa using h c.toNat hc

theorem toNat_lt_of_asciiPart {c : Char} (h : asciiPart c = true) : c.toNat < 128 := by
  have upTo (top : Char) (htop : top.toNat < 128) (hc : c.val ≤ top.val) : c.toNat < 128 :=
    Nat.lt_of_le_of_lt (UInt32.le_iff_toNat_le.mp hc) htop
  simp only [asciiPart, asciiStart, Bool.or_eq_true, decide_eq_true_eq] at h
  rcases h with digit | (alpha | rfl) | rfl
  · exact upTo '9' (by decide) (of_decide_eq_true (Bool.and_eq_true_iff.mp digit).2)
  · rcases Bool.or_eq_true_iff.mp alpha with upper | lower
    · exact upTo 'Z' (by decide) (of_decide_eq_true upper).2
    · exact upTo 'z' (by decide) (of_decide_eq_true (Bool.and_eq_true_iff.mp lower).2)
  all_goals decide

theorem asciiPart_of_start {c : Char} (h : asciiStart c = true) : asciiPart c = true := by
  simp [asciiPart, h]

/-- The characters that identifiers start with and go on with. Those of ASCII are known; of
the others no blank starts an identifier. -/
structure Alphabet where
  start : Char → Bool
  part : Char → Bool
  start_ascii : ∀ c : Char, c.toNat < 128 → start c = asciiStart c
  part_ascii : ∀ c : Char, c.toNat < 128 → part c = asciiPart c
  start_not_blank : ∀ c : Char, start c = true → isBlank c = false

/-- Identifiers of ASCII characters only. -/
def Alphabet.ascii : Alphabet where
  start := asciiStart
  part := asciiPart
  start_ascii _ _ := rfl
  part_ascii _ _ := rfl
  start_not_blank c h := by
    have hb := forall_ascii (f := fun c => !asciiStart c || !isBlank c) (by decide)
      (toNat_lt_of_asciiPart (asciiPart_of_start h))
    simpa [h] using hb

/-- A token of an expression. -/
inductive Token where
  | word (name : String)
  | number (value : Nat)
  | string (value : String)
  | handle (name : String)
  | binary (op : BinaryOp)
  | assign (op : AssignOp)
  | dot | comma | openParen | closeParen | openBracket | closeBracket
  deriving DecidableEq

/-- The tokens without a name or a value, each before its own beginnings. Those that
expressions here do not have, and the openings of comments, stand for nothing. -/
def punctuators : List (String × Option Token) :=
  [(">>>=", some (.assign .ushrAssign)),
    ("===", some (.binary .equal)), ("!==", some (.binary .notEqual)),
    (">>>", some (.binary .shiftRightUnsigned)), ("<<=", some (.assign .shlAssign)),
    (">>=", some (.assign .shrAssign)), ("**=", none), ("&&=", none), ("||=", none),
    ("??=", none), ("...", none),
    ("&&", some (.binary .logicalAnd)), ("||", some (.binary .logicalOr)),
    ("<=", some (.binary .lessEqual)), (">=", some (.binary .greaterEqual)),
    ("<<", some (.binary .shiftLeft)), (">>", some (.binary .shiftRight)),
    ("+=", some (.assign .addAssign)), ("-=", some (.assign .subAssign)),
    ("*=", some (.assign .mulAssign)), ("/=", some (.assign .divAssign)),
    ("%=", some (.assign .modAssign)), ("&=", some (.assign .andAssign)),
    ("|=", some (.assign .orAssign)), ("^=", some (.assign .xorAssign)),
    ("==", none), ("!=", none), ("=>", none), ("++", none), ("--", none), ("**", none),
    ("??", none), ("?.", none), ("//", none), ("/*", none),
    ("=", some (.assign .assign)), ("<", some (.binary .less)), (">", some (.binary .greater)),
    ("|", some (.binary .bitwiseOr)), ("^", some (.binary .bitwiseXor)),
    ("&", some (.binary .bitwiseAnd)), ("+", some (.binary .add)), ("-", some (.binary .sub)),
    ("*", some (.binary .mul)), ("/", some (.binary .div)), ("%", some (.binary .mod)),
    (".", some .dot), (",", some .comma), ("(", some .openParen), (")", some .closeParen),
    ("[", some .openBracket), ("]", some .closeBracket)]

def punctuator? (cs : List Char) : Option (Token × List Char) :=
  (punctuators.find? fun p => p.1.toList.isPrefixOf cs).bind fun p =>
    p.2.map fun token => (token, cs.drop p.1.toList.length)

/-- The character that a backslash and the given character stand for. Escapes that do more
than name one character are left out. -/
def unescape? : Char → Option Char
  | '\'' => some '\''
  | '"' => some '"'
  | '\\' => some '\\'
  | 'b' => some '\x08'
  | 'f' => some '\x0c'
  | 'n' => some '\n'
  | 'r' => some '\r'
  | 't' => some '\t'
  | 'v' => some '\x0b'
  | _ => none

/-- What a string literal stands for, read from after its opening quote, and what follows it.
A literal does not reach beyond its line. -/
def quoted? : List Char → Option (List Char × List Char)
  | [] | '\n' :: _ | '\r' :: _ => none
  | '\'' :: rest => some ([], rest)
  | '\\' :: c :: rest =>
    (unescape? c).bind fun c => (quoted? rest).map fun (s, rest) => (c :: s, rest)
  | c :: rest => (quoted? rest).map fun (s, rest) => (c :: s, rest)

/-- The characters that the name of a type handle may have. -/
def handlePart (c : Char) : Bool := c ≠ '{' && c ≠ '}' && c ≠ '\n'

/-- The name of a type handle, read from after its opening brace. -/
def handle? (cs : List Char) : Option (List Char × List Char) :=
  match cs.dropWhile handlePart with
  | '}' :: rest => some (cs.takeWhile handlePart, rest)
  | _ => none

namespace Alphabet

variable (A : Alphabet)

/-- A whole number in decimal. A zero leads no other digit, and what follows is neither a
fraction nor the first character of a name. -/
def numeral? (cs : List Char) : Option (Nat × List Char) :=
  let digits := cs.takeWhile Char.isDigit
  let rest := cs.dropWhile Char.isDigit
  if ['0'].isPrefixOf digits && digits.length ≠ 1 then none
  else if rest.head?.any fun c => A.part c || c = '.' then none
  else some (Nat.ofDigitChars 10 digits 0, rest)

/-- The first token of a text without a blank before it, and what follows the token. -/
def token? : List Char → Option (Token × List Char)
  | [] => none
  | c :: cs =>
    if A.start c then
      some (.word (String.ofList (c :: cs.takeWhile A.part)), cs.dropWhile A.part)
    else if c.isDigit then (A.numeral? (c :: cs)).map fun (n, rest) => (.number n, rest)
    else if c = '.' && cs.head?.any Char.isDigit then none
    else if c = '\'' then
      (quoted? cs).map fun (s, rest) => (.string (String.ofList s), rest)
    else if c = '{' then
      (handle? cs).map fun (name, rest) => (.handle (String.ofList name), rest)
    else punctuator? (c :: cs)

end Alphabet

/-- The division of a text into tokens. -/
inductive Lexes (A : Alphabet) : List Char → List Token → Prop
  | done {cs : List Char} (h : cs.dropWhile isBlank = []) : Lexes A cs []
  | token {cs rest : List Char} {t : Token} {ts : List Token}
    (h : A.token? (cs.dropWhile isBlank) = some (t, rest)) (hs : Lexes A rest ts) :
    Lexes A cs (t :: ts)

variable {A : Alphabet}

/-- A text has one division into tokens at most. -/
theorem Lexes.unique {cs : List Char} {ts ts' : List Token} (h : Lexes A cs ts)
    (h' : Lexes A cs ts') : ts = ts' := by
  induction h generalizing ts' with
  | done h =>
    cases h' with
    | done => rfl
    | token h₁ => simp [h, Alphabet.token?] at h₁
  | token h _ ih =>
    cases h' with
    | done h₁ => simp [h₁, Alphabet.token?] at h
    | token h₁ hs =>
      cases h.symm.trans h₁
      rw [ih hs]

theorem Lexes.blank {c : Char} {cs : List Char} {ts : List Token} (hc : isBlank c = true)
    (h : Lexes A cs ts) : Lexes A (c :: cs) ts := by
  cases h with
  | done h => exact .done (by simpa [hc] using h)
  | token h hs => exact .token (by simpa [hc] using h) hs

/-- How a text ends: with a token that is complete whatever follows it, with a name, or with
a number. -/
inductive Tail where
  | closed | name | number

/-- What may follow a text without being drawn into its last token: behind a name no
character of a name, and behind a number no point either. -/
def Ends (A : Alphabet) : Tail → List Char → Prop
  | .closed, _ => True
  | .name, rest => ∀ c ∈ rest.head?, A.part c = false
  | .number, rest => ∀ c ∈ rest.head?, A.part c = false ∧ c ≠ '.'

namespace Ends

variable {t : Tail} {cs : List Char}

theorem nil : Ends A t [] := by cases t <;> simp [Ends]

theorem point : Ends A .name ('.' :: cs) := by
  simp [Ends, A.part_ascii, asciiPart, asciiStart]

/-- Most characters of ASCII end any token. -/
theorem of_ascii {c : Char} (hc : c.toNat < 128 ∧ asciiPart c = false ∧ c ≠ '.') :
    Ends A t (c :: cs) := by
  cases t <;> simp [Ends, A.part_ascii c hc.1, hc]

/-- What may follow a number may follow any token. -/
theorem of_number (h : Ends A .number cs) : Ends A t cs := by
  cases t with
  | closed => trivial
  | name => exact fun c hc => (h c hc).1
  | number => exact h

end Ends

/-- A text that is read as the given tokens wherever it stands, as far as its end allows for
what follows. -/
def Spells (A : Alphabet) (t : Tail) (cs : List Char) (ts : List Token) : Prop :=
  ∀ rest us, Ends A t rest → Lexes A rest us → Lexes A (cs ++ rest) (ts ++ us)

namespace Spells

variable {t u : Tail} {cs ds : List Char} {ts us : List Token}

theorem nil : Spells A t [] [] := fun _ _ _ h => h

theorem lexes (h : Spells A t cs ts) : Lexes A cs ts := by
  simpa using h [] [] .nil (.done rfl)

theorem of_closed (h : Spells A .closed cs ts) : Spells A t cs ts :=
  fun rest us _ hs => h rest us trivial hs

theorem to_number (h : Spells A t cs ts) : Spells A .number cs ts :=
  fun rest us hr hs => h rest us hr.of_number hs

/-- Texts that keep apart are read one after the other. -/
theorem append (h : Spells A t cs ts) (h' : Spells A u ds us)
    (hd : ∀ rest, Ends A t (ds ++ rest)) : Spells A u (cs ++ ds) (ts ++ us) := by
  intro rest vs hr hs
  rw [List.append_assoc, List.append_assoc]
  exact h _ _ (hd rest) (h' rest vs hr hs)

/-- Behind a token that is complete anything may stand. -/
theorem append_closed (h : Spells A .closed cs ts) (h' : Spells A u ds us) :
    Spells A u (cs ++ ds) (ts ++ us) :=
  h.append h' fun _ => trivial

theorem of_token {token : Token} (h : ∀ rest, Ends A t rest →
    A.token? ((cs ++ rest).dropWhile isBlank) = some (token, rest)) : Spells A t cs [token] :=
  fun rest _ hr hs => .token (h rest hr) hs

/-- A blank may follow a token. -/
theorem of_token_blank (cs : List Char) {token : Token}
    (h : ∀ rest, A.token? ((cs ++ ' ' :: rest).dropWhile isBlank) = some (token, ' ' :: rest)) :
    Spells A .closed (cs ++ [' ']) [token] := by
  intro rest us _ hs
  rw [List.append_assoc]
  exact .token (h rest) (hs.blank (by decide))

end Spells

/-! ### What is printed -/

/-- Characters of one kind, and then none, are told apart from what follows. -/
theorem span_append {f : Char → Bool} {cs rest : List Char} (hcs : ∀ c ∈ cs, f c = true)
    (hr : ∀ c ∈ rest.head?, f c = false) :
    (cs ++ rest).takeWhile f = cs ∧ (cs ++ rest).dropWhile f = rest := by
  rw [List.takeWhile_append_of_pos hcs, List.dropWhile_append_of_pos hcs]
  cases rest with
  | nil => simp
  | cons c rest => simp [hr c rfl]

/-- A name that an identifier can have. -/
def Alphabet.IsWord (A : Alphabet) (name : String) : Prop :=
  ∃ c cs, name.toList = c :: cs ∧ A.start c = true ∧ ∀ d ∈ cs, A.part d = true

/-- A digit goes on with a name but does not start one, and it is no blank. -/
theorem Alphabet.of_isDigit {c : Char} (h : c.isDigit = true) :
    A.start c = false ∧ A.part c = true ∧ isBlank c = false := by
  have hpart : asciiPart c = true := by simp [asciiPart, h]
  have hlt := toNat_lt_of_asciiPart hpart
  have hd := forall_ascii (f := fun c => !c.isDigit || !asciiStart c && !isBlank c) (by decide) hlt
  rw [A.start_ascii c hlt, A.part_ascii c hlt]
  simpa [h, hpart] using hd

theorem Alphabet.IsWord.of_ascii {name : String} {c : Char} {cs : List Char}
    (hname : name.toList = c :: cs) (h : asciiStart c = true ∧ cs.all asciiPart = true) :
    A.IsWord name := by
  refine ⟨c, cs, hname, ?_, fun d hd => ?_⟩
  · rw [A.start_ascii c (toNat_lt_of_asciiPart (asciiPart_of_start h.1)), h.1]
  · have hd := List.all_eq_true.1 h.2 d hd
    rw [A.part_ascii d (toNat_lt_of_asciiPart hd), hd]

theorem token?_word {name : String} {rest : List Char} (h : A.IsWord name)
    (hr : Ends A .name rest) :
    A.token? ((name.toList ++ rest).dropWhile isBlank) = some (.word name, rest) := by
  obtain ⟨c, cs, hname, hc, hcs⟩ := h
  obtain ⟨ht, hd⟩ := span_append hcs hr
  rw [hname, List.cons_append, List.dropWhile_cons_of_neg (by simp [A.start_not_blank c hc])]
  simp only [Alphabet.token?, hc, if_true, ht, hd, ← hname, String.ofList_toList]

/-- A name is read as one word. -/
theorem spells_word {name : String} (h : A.IsWord name) :
    Spells A .name name.toList [.word name] :=
  .of_token fun _ hr => token?_word h hr

/-- The first digit of a number is zero only for zero itself. -/
theorem head?_toDigits {n : Nat} (h : (Nat.toDigits 10 n).head? = some '0') : n = 0 := by
  induction n using Nat.strongRecOn with
  | _ n ih =>
    rcases Nat.lt_or_ge n 10 with hn | hn
    · have hdigit : ∀ d < 10, [Nat.digitChar d].head? = some '0' → d = 0 := by decide
      rw [Nat.toDigits_of_lt_base hn] at h
      exact hdigit n hn h
    · rw [Nat.toDigits_of_base_le (by decide) hn, List.head?_append,
        List.head?_eq_some_head Nat.toDigits_ne_nil] at h
      have := ih (n / 10) (by omega) (by rw [List.head?_eq_some_head Nat.toDigits_ne_nil]; exact h)
      omega

theorem Alphabet.numeral?_toDigits {n : Nat} {rest : List Char} (hr : Ends A .number rest) :
    A.numeral? (Nat.toDigits 10 n ++ rest) = some (n, rest) := by
  have hend : ∀ c ∈ rest.head?, c.isDigit = false := by
    intro c hc
    cases hd : c.isDigit with
    | false => rfl
    | true => simpa [(A.of_isDigit hd).2.1] using (hr c hc).1
  have hstop : (rest.head?.any fun c => A.part c || c = '.') = false := by
    cases hc : rest.head? with
    | none => rfl
    | some c =>
      obtain ⟨hpart, hpoint⟩ := hr c hc
      simpa [hpart] using hpoint
  have hlead : (['0'].isPrefixOf (Nat.toDigits 10 n) &&
      (Nat.toDigits 10 n).length ≠ 1) = false := by
    rcases Nat.eq_zero_or_pos n with rfl | hn
    · rfl
    · cases hds : Nat.toDigits 10 n with
      | nil => rfl
      | cons d ds =>
        have hd : '0' ≠ d := by
          rintro rfl
          exact Nat.ne_of_gt hn (head?_toDigits (by rw [hds]; rfl))
        simp [List.isPrefixOf, hd]
  have hdigit : ∀ c ∈ Nat.toDigits 10 n, c.isDigit = true := fun c hc =>
    Nat.isDigit_of_mem_toDigits (by decide) (by decide) hc
  obtain ⟨ht, hd⟩ := span_append (f := Char.isDigit) hdigit hend
  simp only [Alphabet.numeral?, ht, hd, hstop, hlead, Nat.ofDigitChars_ten_toDigits]
  rfl

/-- A whole number is read as one token, unless a fraction seems to follow. -/
theorem spells_toDigits (n : Nat) : Spells A .number (Nat.toDigits 10 n) [.number n] := by
  refine .of_token fun rest hr => ?_
  have hnum := Alphabet.numeral?_toDigits (n := n) hr
  have hdigit : ∀ c ∈ Nat.toDigits 10 n, c.isDigit = true := fun c hc =>
    Nat.isDigit_of_mem_toDigits (by decide) (by decide) hc
  cases hds : Nat.toDigits 10 n with
  | nil => exact absurd hds Nat.toDigits_ne_nil
  | cons c cs =>
    rw [hds, List.cons_append] at hnum
    rw [hds] at hdigit
    have hc : c.isDigit = true := hdigit c (by simp)
    obtain ⟨hs, -, hb⟩ := A.of_isDigit hc
    rw [List.cons_append, List.dropWhile_cons_of_neg (by simp [hb])]
    simp [Alphabet.token?, hs, hc, hnum]

/-- An escaped character is read back. -/
theorem quoted?_escapeChar (c : Char) (rest : List Char) :
    quoted? (escapeChar c ++ rest) = (quoted? rest).map fun (s, rest) => (c :: s, rest) := by
  unfold escapeChar
  split
  case h_6 _ h _ _ _ => rw [List.singleton_append, quoted?] <;> simp_all
  all_goals rfl

/-- An escaped text is read back up to its closing quote. -/
theorem quoted?_flatMap_escapeChar (s rest : List Char) :
    quoted? (s.flatMap escapeChar ++ '\'' :: rest) = some (s, rest) := by
  induction s with
  | nil => rfl
  | cons c s ih => rw [List.flatMap_cons, List.append_assoc, quoted?_escapeChar, ih]; rfl

theorem token?_quotedChars (s : String) (rest : List Char) :
    A.token? ((quotedChars s.toList ++ rest).dropWhile isBlank) = some (.string s, rest) := by
  have hq : A.start '\'' = false := A.start_ascii _ (by decide)
  rw [quotedChars, List.cons_append, List.dropWhile_cons_of_neg (by decide)]
  simp [Alphabet.token?, hq, quoted?_flatMap_escapeChar]

/-- A string literal is read as one token. -/
theorem spells_quotedChars (s : String) :
    Spells A .closed (quotedChars s.toList) [.string s] :=
  .of_token fun rest _ => token?_quotedChars s rest

theorem token?_handle {name : String} (h : ∀ c ∈ name.toList, handlePart c = true)
    (rest : List Char) :
    A.token? (('{' :: (name.toList ++ ['}']) ++ rest).dropWhile isBlank) =
      some (.handle name, rest) := by
  have hb : A.start '{' = false := A.start_ascii _ (by decide)
  have hend : ∀ c ∈ ('}' :: rest).head?, handlePart c = false := by simp [handlePart]
  obtain ⟨ht, hd⟩ := span_append h hend
  rw [List.cons_append, List.dropWhile_cons_of_neg (by decide), List.append_assoc]
  simp [Alphabet.token?, hb, handle?, ht, hd]

/-- A type handle is read as one token. -/
theorem spells_handle {name : String}
    (h : ∀ c ∈ name.toList, handlePart c = true) :
    Spells A .closed ('{' :: (name.toList ++ ['}'])) [.handle name] :=
  .of_token fun rest _ => token?_handle h rest

theorem token?_point {name : String} (h : A.IsWord name) (rest : List Char) :
    A.token? (('.' :: name.toList ++ rest).dropWhile isBlank) =
      some (.dot, name.toList ++ rest) := by
  obtain ⟨c, cs, hname, hc, hcs⟩ := h
  have hp : A.start '.' = false := A.start_ascii _ (by decide)
  have hdot : c ≠ '.' := by
    rintro rfl
    simp [hp] at hc
  have hdigit : c.isDigit = false := by
    by_contra hd
    simp [(A.of_isDigit (by simpa using hd)).1] at hc
  rw [hname, List.cons_append, List.dropWhile_cons_of_neg (by decide)]
  simp [Alphabet.token?, hp, hdigit, punctuator?, punctuators, List.isPrefixOf, hdot.symm]

/-- A point and a name after it, as in the access to a member. -/
theorem spells_member {name : String} (h : A.IsWord name) :
    Spells A .name ('.' :: name.toList) [.dot, .word name] :=
  fun rest ts hr hs => .token (token?_point h rest) (spells_word h rest ts hr hs)

/-- Where neither a name, a number, a literal nor a point begins, a punctuator does. -/
theorem token?_eq_punctuator? {c : Char} {cs : List Char}
    (hc : c.toNat < 128 ∧ (asciiPart c || c = '\'' || c = '{' || c = '.') = false) :
    A.token? (c :: cs) = punctuator? (c :: cs) := by
  obtain ⟨hlt, hc⟩ := hc
  simp only [asciiPart, Bool.or_eq_false_iff, decide_eq_false_iff_not] at hc
  have hs : A.start c = false := by simp [A.start_ascii c hlt, hc]
  simp [Alphabet.token?, hs, hc]

theorem spells_openParen : Spells A .closed ['('] [.openParen] :=
  .of_token fun _ _ => token?_eq_punctuator? (by decide)

theorem spells_closeParen : Spells A .closed [')'] [.closeParen] :=
  .of_token fun _ _ => token?_eq_punctuator? (by decide)

theorem spells_openBracket : Spells A .closed ['['] [.openBracket] :=
  .of_token fun _ _ => token?_eq_punctuator? (by decide)

theorem spells_closeBracket : Spells A .closed [']'] [.closeBracket] :=
  .of_token fun _ _ => token?_eq_punctuator? (by decide)

theorem spells_comma : Spells A .closed [',', ' '] [.comma] :=
  .of_token_blank [','] fun _ => token?_eq_punctuator? (by decide)

theorem token?_binary (op : BinaryOp) (rest : List Char) :
    A.token? ((' ' :: op.token.toList ++ ' ' :: rest).dropWhile isBlank) =
      some (.binary op, ' ' :: rest) := by
  cases op <;> exact token?_eq_punctuator? (by decide)

/-- An operator between blanks is read as that operator. -/
theorem spells_binary (op : BinaryOp) : Spells A .closed (spaced op.token) [.binary op] :=
  .of_token_blank (' ' :: op.token.toList) (token?_binary op)

theorem token?_assign (op : AssignOp) (rest : List Char) :
    A.token? ((' ' :: op.token.toList ++ ' ' :: rest).dropWhile isBlank) =
      some (.assign op, ' ' :: rest) := by
  cases op <;> exact token?_eq_punctuator? (by decide)

theorem spells_assign (op : AssignOp) : Spells A .closed (spaced op.token) [.assign op] :=
  .of_token_blank (' ' :: op.token.toList) (token?_assign op)

end AssignmentLowering.Script
