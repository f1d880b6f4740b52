import AssignmentLowering.Script.Printer

/-!
# String literals end where they should

The text of a string literal is read from left to right by a reader that knows five escapes
and nothing of what was printed: a quote ends the literal, a backslash takes in the next
character, and a line end is an error. Every string is read back from its literal, and what
stands behind the literal is left alone, whatever it is. So no literal swallows text that
follows it, and none ends early.

## Main definitions

* `escape?`, `literalBody?`, `literal?` — the reader.

## Main statements

* `escapeChar_cases` — a printed character is an escape that the reader knows, or itself.
* `literal_delimits_itself` — every literal is read back, and no two of them can be mixed up.
-/

namespace AssignmentLowering.Script

/-- The character that a backslash and the given character stand for. -/
def escape? : Char → Option Char
  | '\'' => some '\''
  | '\\' => some '\\'
  | 'n' => some '\n'
  | 'r' => some '\r'
  | 't' => some '\t'
  | _ => none

/-- The text of a literal, read from behind its opening quote up to its closing quote, and
what follows that. -/
def literalBody? : List Char → Option (List Char × List Char)
  | [] | ['\\'] => none
  | '\\' :: c :: rest =>
    (escape? c).bind fun d => (literalBody? rest).map fun (s, rest) => (d :: s, rest)
  | c :: rest =>
    if c = '\'' then some ([], rest)
    else if c = '\n' ∨ c = '\r' then none
    else (literalBody? rest).map fun (s, rest) => (c :: s, rest)

/-- What a string literal at the start of a text stands for, and what follows it. -/
def literal? (text : String) : Option (String × String) :=
  match text.toList with
  | '\'' :: cs => (literalBody? cs).map fun (s, rest) => (String.ofList s, String.ofList rest)
  | _ => none

/-- A character is printed as an escape that stands for it, or as it is; a quote, a backslash
or a line end never is. -/
theorem escapeChar_cases (c : Char) :
    (∃ d, escapeChar c = ['\\', d] ∧ escape? d = some c) ∨
      (escapeChar c = [c] ∧ c ≠ '\'' ∧ c ≠ '\\' ∧ c ≠ '\n' ∧ c ≠ '\r') := by
  fun_cases escapeChar c with
  | case1 | case2 | case3 | case4 | case5 => exact .inl ⟨_, rfl, rfl⟩
  | case6 c hquote hbackslash hline hreturn => exact .inr ⟨rfl, hquote, hbackslash, hline, hreturn⟩

/-- One printed character is read as that character, whatever is read behind it. -/
theorem literalBody?_escapeChar (c : Char) (rest : List Char) :
    literalBody? (escapeChar c ++ rest) =
      (literalBody? rest).map fun (s, rest) => (c :: s, rest) := by
  obtain ⟨d, hprinted, hd⟩ | ⟨hprinted, hquote, hbackslash, hline, hreturn⟩ := escapeChar_cases c
  · rw [hprinted]
    change literalBody? ('\\' :: d :: rest) = _
    rw [literalBody?, hd, Option.bind_some]
  · rw [hprinted, List.singleton_append, literalBody?]
    · rw [if_neg hquote, if_neg (not_or.2 ⟨hline, hreturn⟩)]
    · exact fun h => absurd h hbackslash
    · exact fun _ _ h => absurd h hbackslash

/-- A printed string is read back up to its closing quote. -/
theorem literalBody?_escaped (s rest : List Char) :
    literalBody? (s.flatMap escapeChar ++ '\'' :: rest) = some (s, rest) := by
  induction s with
  | nil => rfl
  | cons c s ih =>
    rw [List.flatMap_cons, List.append_assoc, literalBody?_escapeChar, ih, Option.map_some]

theorem Expr.text_string (s : String) : (string s).text = String.ofList (quotedChars s.toList) := by
  rw [text, chars_assignLevel, bare]

theorem literal?_text_string (s t : String) :
    literal? ((Expr.string s).text ++ t) = some (s, t) := by
  have hchars : ((Expr.string s).text ++ t).toList =
      '\'' :: (s.toList.flatMap escapeChar ++ '\'' :: t.toList) := by
    simp [Expr.text_string, quotedChars]
  rw [literal?, hchars]
  change (literalBody? _).map _ = _
  rw [literalBody?_escaped, Option.map_some]
  simp only [String.ofList_toList]

/-- **String literals delimit themselves.** A reader of literals in single quotes finds the
string at the start of its printed literal, with any text behind it, and stops exactly in
front of that text. So texts that start with literals are equal just if the literals stand
for the same string and the same text follows. -/
theorem literal_delimits_itself (s t : String) :
    literal? ((Expr.string s).text ++ t) = some (s, t) ∧
      ∀ s' t' : String,
        (Expr.string s').text ++ t' = (Expr.string s).text ++ t ↔ s' = s ∧ t' = t := by
  refine ⟨literal?_text_string s t, fun s' t' => ⟨fun h => ?_, ?_⟩⟩
  · have hread : some (s', t') = some (s, t) := by
      rw [← literal?_text_string, ← literal?_text_string, h]
    exact Prod.mk.inj (Option.some.inj hread)
  · rintro ⟨rfl, rfl⟩
    rfl

/-- Quotes, backslashes and a line end next to each other, in front of another literal. -/
example : literal? "'\\'\\\\\\n\\\\' + 'x'" = some ("'\\\n\\", " + 'x'") := by decide

end AssignmentLowering.Script
