import AssignmentLowering.Template
import Mathlib.Data.List.Forall2

/-!
# What templates mean

A text is a template if it is made of parts: characters other than braces, doubled
braces, and placeholders in braces whose names contain no closing brace and do not begin
with an opening one. Scanning from the left finds these parts wherever they touch, so
there is one way at most to take a text apart. Each part of a template stands for some
text of its own: a doubled brace for one brace, a placeholder for its operand.

## Main definitions

* `Template.Part` — a part of a template.
* `Template.Spells` — parts that make up a text.
* `Template.Part.output?` — what a part stands for.

## Main statements

* `Template.parse_eq_ok_iff` — scanning succeeds on the texts made of parts.
* `Template.substitute_meaning` — substitution puts in what each part stands for.
-/

namespace AssignmentLowering.Template

/-- A part of a template. -/
inductive Part where
  | char (c : Char)
  | openBrace
  | closeBrace
  | placeholder (name : List Char)
  deriving DecidableEq, Repr

namespace Part

/-- How a part is written. -/
def written : Part → List Char
  | char c => [c]
  | openBrace => ['{', '{']
  | closeBrace => ['}', '}']
  | placeholder name => '{' :: (name ++ ['}'])

/-- Characters are no braces, and names end before the first closing brace. A name that
began with an opening brace would double the one in front of it. -/
def WellFormed : Part → Prop
  | char c => c ≠ '{' ∧ c ≠ '}'
  | openBrace | closeBrace => True
  | placeholder name => '}' ∉ name ∧ name.head? ≠ some '{'

instance : DecidablePred WellFormed
  | char c => inferInstanceAs (Decidable (c ≠ '{' ∧ c ≠ '}'))
  | openBrace | closeBrace => inferInstanceAs (Decidable True)
  | placeholder name => inferInstanceAs (Decidable ('}' ∉ name ∧ name.head? ≠ some '{'))

/-- The text of an operand where a placeholder stands. -/
def operandChars (e : Script.Expr) : List Char :=
  if e.isAtomic then e.text.toList else '(' :: (e.text.toList ++ [')'])

/-- What a part stands for; nothing, if it is a placeholder without an operand. -/
def output? (operand? : String → Option Script.Expr) : Part → Option (List Char)
  | char c => some [c]
  | openBrace => some ['{']
  | closeBrace => some ['}']
  | placeholder name => (operand? (String.ofList name)).map operandChars

/-- The piece that a part is scanned as. -/
def piece : Part → Piece
  | char c => .char c
  | openBrace => .char '{'
  | closeBrace => .char '}'
  | placeholder name => .placeholder name

/-- The part that a piece was written as. -/
def ofPiece : Piece → Part
  | .char '{' => openBrace
  | .char '}' => closeBrace
  | .char c => char c
  | .placeholder name => placeholder name

theorem ofPiece_char {c : Char} (hopen : c ≠ '{') (hclose : c ≠ '}') :
    ofPiece (.char c) = char c := by
  unfold ofPiece
  split <;> simp_all

@[simp] theorem piece_ofPiece (x : Piece) : (ofPiece x).piece = x := by
  unfold ofPiece
  split <;> rfl

/-- The piece tells which part it was. -/
theorem ofPiece_piece {p : Part} (h : p.WellFormed) : ofPiece p.piece = p := by
  cases p with
  | char c => exact ofPiece_char h.1 h.2
  | openBrace | closeBrace | placeholder => rfl

theorem wellFormed_ofPiece_char (c : Char) : (ofPiece (.char c)).WellFormed := by
  by_cases hopen : c = '{'
  · subst hopen; exact trivial
  · by_cases hclose : c = '}'
    · subst hclose; exact trivial
    · rw [ofPiece_char hopen hclose]; exact ⟨hopen, hclose⟩

end Part

/-- The parts make up the text. -/
structure Spells (parts : List Part) (text : List Char) : Prop where
  wellFormed : ∀ p ∈ parts, p.WellFormed
  flatMap_written : parts.flatMap Part.written = text

theorem Spells.nil : Spells [] [] := ⟨by simp, rfl⟩

theorem Spells.cons {p : Part} {parts : List Part} {text : List Char} (hp : p.WellFormed)
    (h : Spells parts text) : Spells (p :: parts) (p.written ++ text) :=
  ⟨List.forall_mem_cons.2 ⟨hp, h.wellFormed⟩, by rw [List.flatMap_cons, h.flatMap_written]⟩

/-! ## Scanning finds the parts -/

theorem parse_char {c : Char} (hopen : c ≠ '{') (hclose : c ≠ '}') (rest : List Char) :
    parse (c :: rest) = (parse rest).map (.char c :: ·) := by
  rw [parse] <;> simp_all

/-- A brace that is not doubled opens a placeholder. -/
theorem parse_open {rest : List Char} (h : rest.head? ≠ some '{') :
    parse ('{' :: rest) =
      (parseName rest).map fun (name, pieces) => .placeholder name :: pieces := by
  rw [parse]
  rintro rest' rfl
  exact h rfl

theorem parseName_append {name rest : List Char} {pieces : List Piece} (hname : '}' ∉ name)
    (h : parse rest = .ok pieces) : parseName (name ++ '}' :: rest) = .ok (name, pieces) := by
  induction name with
  | nil =>
    rw [List.nil_append, parseName, h]
    rfl
  | cons c name ih =>
    obtain ⟨hc, hname⟩ := List.ne_and_not_mem_of_not_mem_cons hname
    rw [List.cons_append, parseName, ih hname]
    · rfl
    · exact fun hc' => hc hc'.symm

theorem parse_append {p : Part} {rest : List Char} {pieces : List Piece} (hp : p.WellFormed)
    (h : parse rest = .ok pieces) : parse (p.written ++ rest) = .ok (p.piece :: pieces) := by
  cases p with
  | char c =>
    rw [Part.written, List.singleton_append, parse_char hp.1 hp.2, h]
    rfl
  | openBrace | closeBrace =>
    simp only [Part.written, List.cons_append, List.nil_append, parse, h]
    rfl
  | placeholder name =>
    have hhead : (name ++ '}' :: rest).head? ≠ some '{' := by
      cases name with
      | nil => simp
      | cons c name => exact hp.2
    rw [Part.written, List.cons_append, List.append_assoc, List.singleton_append,
      parse_open hhead, parseName_append hp.1 h]
    rfl

/-- Whatever is made of parts is scanned as their pieces. -/
theorem Spells.parse_eq {parts : List Part} {text : List Char} (h : Spells parts text) :
    parse text = .ok (parts.map Part.piece) := by
  obtain ⟨hwf, rfl⟩ := h
  induction parts with
  | nil => rfl
  | cons p parts ih =>
    obtain ⟨hp, hparts⟩ := List.forall_mem_cons.1 hwf
    exact parse_append hp (ih hparts)

/-- There is one way at most to make up a text. -/
theorem Spells.unique {parts parts' : List Part} {text : List Char} (h : Spells parts text)
    (h' : Spells parts' text) : parts = parts' := by
  have hback : ∀ {l : List Part}, (∀ p ∈ l, p.WellFormed) →
      (l.map Part.piece).map Part.ofPiece = l := by
    intro l hl
    rw [List.map_map]
    exact (List.map_congr_left fun p hp => Part.ofPiece_piece (hl p hp)).trans (List.map_id l)
  have hpieces : parts.map Part.piece = parts'.map Part.piece :=
    Except.ok.inj (h.parse_eq.symm.trans h'.parse_eq)
  rw [← hback h.wellFormed, hpieces, hback h'.wellFormed]

theorem map_eq_ok {α β κ : Type} {f : α → β} {x : Except κ α} {b : β}
    (h : x.map f = .ok b) : ∃ a, x = .ok a ∧ f a = b := by
  cases x with
  | error e => cases h
  | ok a => exact ⟨a, rfl, Except.ok.inj h⟩

/-- What is scanned is made of parts; and what is scanned as the rest of a placeholder is
a name, a closing brace and parts. -/
theorem spells_of_parse :
    (∀ text pieces, parse text = .ok pieces → ∃ parts, Spells parts text) ∧
      ∀ text name pieces, parseName text = .ok (name, pieces) →
        '}' ∉ name ∧ ∃ parts rest, text = name ++ '}' :: rest ∧ Spells parts rest := by
  apply parse.mutual_induct
  case case1 => exact fun _ _ => ⟨[], .nil⟩
  case case2 =>
    intro rest ih pieces h
    obtain ⟨_, hrest, -⟩ := map_eq_ok (parse.eq_2 rest ▸ h)
    obtain ⟨parts, hparts⟩ := ih _ hrest
    exact ⟨.openBrace :: parts, hparts.cons trivial⟩
  case case3 =>
    intro rest ih pieces h
    obtain ⟨_, hrest, -⟩ := map_eq_ok (parse.eq_3 rest ▸ h)
    obtain ⟨parts, hparts⟩ := ih _ hrest
    exact ⟨.closeBrace :: parts, hparts.cons trivial⟩
  case case4 =>
    intro rest hsingle ih pieces h
    have hhead : rest.head? ≠ some '{' := by
      intro hhead
      obtain ⟨rest', rfl⟩ := List.head?_eq_some_iff.1 hhead
      exact hsingle rest' rfl
    rw [parse_open hhead] at h
    obtain ⟨⟨name, _⟩, hname, -⟩ := map_eq_ok h
    obtain ⟨hclose, parts, rest, rfl, hparts⟩ := ih _ _ hname
    have hopen : name.head? ≠ some '{' := by
      cases name with
      | nil => simp
      | cons c name => exact hhead
    have hspells := hparts.cons (p := .placeholder name) ⟨hclose, hopen⟩
    exact ⟨_, by simpa [Part.written] using hspells⟩
  case case5 =>
    intro rest hsingle pieces h
    rw [parse.eq_5 rest hsingle] at h
    cases h
  case case6 =>
    intro c rest _ _ hopen hclose ih pieces h
    rw [parse_char hopen hclose] at h
    obtain ⟨_, hrest, -⟩ := map_eq_ok h
    obtain ⟨parts, hparts⟩ := ih _ hrest
    exact ⟨.char c :: parts, hparts.cons ⟨hopen, hclose⟩⟩
  case case7 => nofun
  case case8 =>
    intro rest ih name pieces h
    rw [parseName] at h
    obtain ⟨_, hrest, heq⟩ := map_eq_ok h
    obtain ⟨parts, hparts⟩ := ih _ hrest
    cases heq
    exact ⟨List.not_mem_nil, parts, rest, rfl, hparts⟩
  case case9 =>
    intro c rest hc ih name pieces h
    rw [parseName.eq_3 c rest hc] at h
    obtain ⟨⟨name', _⟩, hrest, heq⟩ := map_eq_ok h
    obtain ⟨hname, parts, rest, rfl, hparts⟩ := ih _ _ hrest
    cases heq
    exact ⟨by simpa [Ne.symm hc] using hname, parts, rest, rfl, hparts⟩

/-- A text is scanned as some pieces if and only if it is made of the parts that they are. -/
theorem parse_eq_ok_iff {text : List Char} {pieces : List Piece} :
    parse text = .ok pieces ↔ ∃ parts, Spells parts text ∧ parts.map Part.piece = pieces := by
  constructor
  · intro h
    obtain ⟨parts, hparts⟩ := spells_of_parse.1 text pieces h
    exact ⟨parts, hparts, Except.ok.inj (hparts.parse_eq.symm.trans h)⟩
  · rintro ⟨parts, hparts, rfl⟩
    exact hparts.parse_eq

/-! ## Filling in -/

theorem Part.operandChars_eq (e : Script.Expr) :
    operandChars e = e.chars Script.postfixLevel := by
  simp [operandChars, Script.Expr.text, Script.Expr.chars_postfixLevel]

section

variable {operand? : String → Option Script.Expr}

/-- The texts are what the parts stand for, one by one. -/
def Outputs (operand? : String → Option Script.Expr) (parts : List Part)
    (texts : List (List Char)) : Prop :=
  List.Forall₂ (fun p text => p.output? operand? = some text) parts texts

theorem fill_cons {p : Part} {text : List Char} (h : p.output? operand? = some text)
    (rest : List Piece) :
    fill operand? (p.piece :: rest) = (fill operand? rest).map (text ++ ·) := by
  cases p with
  | placeholder name =>
    obtain ⟨e, he, rfl⟩ := Option.map_eq_some_iff.1 h
    simp only [Part.piece, fill, he, Part.operandChars_eq]
  | char | openBrace | closeBrace => cases h; rfl

theorem fill_cons_ne_ok {p : Part} (h : p.output? operand? = none) (rest : List Piece)
    (text : List Char) : fill operand? (p.piece :: rest) ≠ .ok text := by
  cases p with
  | placeholder name =>
    have hnone : operand? (String.ofList name) = none := Option.map_eq_none_iff.1 h
    simp [Part.piece, fill, hnone]
  | char | openBrace | closeBrace => cases h

/-- Filling succeeds where every part stands for something, and joins what they stand
for. -/
theorem fill_eq_ok_iff {parts : List Part} : ∀ {text : List Char},
    fill operand? (parts.map Part.piece) = .ok text ↔
      ∃ texts, Outputs operand? parts texts ∧ texts.flatten = text := by
  induction parts with
  | nil =>
    intro text
    constructor
    · intro h
      cases h
      exact ⟨[], .nil, rfl⟩
    · rintro ⟨_, ⟨⟩, rfl⟩
      rfl
  | cons p parts ih =>
    intro text
    rw [List.map_cons]
    cases hp : p.output? operand? with
    | none =>
      refine ⟨fun h => absurd h (fill_cons_ne_ok hp _ _), ?_⟩
      rintro ⟨_, houtputs, -⟩
      cases houtputs with
      | cons hsome _ => rw [hp] at hsome; cases hsome
    | some head =>
      rw [fill_cons hp]
      constructor
      · intro h
        obtain ⟨tail, htail, rfl⟩ := map_eq_ok h
        obtain ⟨texts, htexts, rfl⟩ := ih.1 htail
        exact ⟨head :: texts, .cons hp htexts, rfl⟩
      · rintro ⟨_, houtputs, rfl⟩
        cases houtputs with
        | cons hsome htexts =>
          rw [hp] at hsome
          cases hsome
          rw [ih.2 ⟨_, htexts, rfl⟩]
          rfl

/-- Every part stands for something if every placeholder has an operand. -/
theorem exists_outputs_iff {parts : List Part} :
    (∃ texts, Outputs operand? parts texts) ↔
      ∀ name, .placeholder name ∈ parts → (operand? (String.ofList name)).isSome := by
  induction parts with
  | nil => exact ⟨fun _ => by simp, fun _ => ⟨[], .nil⟩⟩
  | cons p parts ih =>
    have hcons : (∃ texts, Outputs operand? (p :: parts) texts) ↔
        (p.output? operand?).isSome ∧ ∃ texts, Outputs operand? parts texts := by
      constructor
      · rintro ⟨_, houtputs⟩
        cases houtputs with
        | cons hp htexts => exact ⟨by simp [hp], _, htexts⟩
      · rintro ⟨hp, texts, htexts⟩
        obtain ⟨text, htext⟩ := Option.isSome_iff_exists.1 hp
        exact ⟨text :: texts, .cons htext htexts⟩
    have hhead : (p.output? operand?).isSome ↔
        ∀ name, p = .placeholder name → (operand? (String.ofList name)).isSome := by
      cases p <;> simp [Part.output?]
    rw [hcons, ih, hhead]
    grind

end

/-- Substitution into a text made of parts joins what they stand for. -/
theorem Spells.substitute_eq_ok_iff {template : String} {parts : List Part}
    (h : Spells parts template.toList) (span : Span) (operand? : String → Option Script.Expr)
    {text : String} :
    substitute template span operand? = .ok text ↔
      ∃ texts, Outputs operand? parts texts ∧ texts.flatten = text.toList := by
  rw [← fill_eq_ok_iff]
  simp only [substitute, h.parse_eq]
  cases hfill : fill operand? (parts.map Part.piece) with
  | error name => simp
  | ok chars => simp [← String.toList_inj]

theorem exists_spells_of_substitute {template : String} {span : Span}
    {operand? : String → Option Script.Expr} {text : String}
    (h : substitute template span operand? = .ok text) :
    ∃ parts, Spells parts template.toList := by
  cases hparse : parse template.toList with
  | error reason =>
    rw [substitute, hparse] at h
    cases reason <;> cases h
  | ok pieces => exact spells_of_parse.1 _ _ hparse

/-! ## Doubling braces -/

/-- A text with every brace doubled. -/
def doubled (s : String) : String :=
  String.ofList (s.toList.flatMap fun c => if c = '{' ∨ c = '}' then [c, c] else [c])

/-- A text without braces has none to double. -/
theorem doubled_eq_self {s : String} (h : ∀ c ∈ s.toList, c ≠ '{' ∧ c ≠ '}') : doubled s = s := by
  have hsingle : s.toList.flatMap (fun c => if c = '{' ∨ c = '}' then [c, c] else [c]) =
      s.toList.flatMap fun c => [c] :=
    List.flatMap_congr fun c hc => if_neg (by simp [h c hc])
  rw [doubled, hsingle, List.flatMap_singleton', String.ofList_toList]

/-- What a text with its braces doubled is made of. -/
def literals (s : String) : List Part := s.toList.map fun c => Part.ofPiece (.char c)

theorem written_ofPiece_char (c : Char) :
    (Part.ofPiece (.char c)).written = if c = '{' ∨ c = '}' then [c, c] else [c] := by
  by_cases hopen : c = '{'
  · subst hopen; rfl
  · by_cases hclose : c = '}'
    · subst hclose; rfl
    · rw [Part.ofPiece_char hopen hclose, if_neg (by simp [hopen, hclose])]
      rfl

theorem spells_literals (s : String) : Spells (literals s) (doubled s).toList := by
  constructor
  · intro p hp
    obtain ⟨c, -, rfl⟩ := List.mem_map.1 hp
    exact Part.wellFormed_ofPiece_char c
  · simp only [literals, doubled, List.flatMap_map, written_ofPiece_char, String.toList_ofList]

theorem output?_ofPiece_char (operand? : String → Option Script.Expr) (c : Char) :
    (Part.ofPiece (.char c)).output? operand? = some [c] := by
  unfold Part.ofPiece
  split <;> simp_all [Part.output?]

theorem outputs_literals (operand? : String → Option Script.Expr) (s : String) :
    Outputs operand? (literals s) (s.toList.map ([·])) := by
  simp only [Outputs, literals, List.forall₂_map_left_iff, List.forall₂_map_right_iff]
  exact List.forall₂_same.2 fun c _ => output?_ofPiece_char operand? c

/-- Substitution succeeds on the texts made of parts whose placeholders all have operands.
The parts are then unique and their outputs make up the result. With its braces doubled,
every text is the template of itself. -/
theorem substitute_meaning (template : String) (span : Span)
    (operand? : String → Option Script.Expr) :
    ((∃ text, substitute template span operand? = .ok text) ↔
      ∃ parts, Spells parts template.toList ∧
        ∀ name, .placeholder name ∈ parts → (operand? (String.ofList name)).isSome) ∧
    (∀ parts parts', Spells parts template.toList → Spells parts' template.toList →
      parts = parts') ∧
    (∀ parts text, Spells parts template.toList →
      (substitute template span operand? = .ok text ↔
        ∃ texts, Outputs operand? parts texts ∧ texts.flatten = text.toList)) ∧
    ∀ s, substitute (doubled s) span operand? = .ok s := by
  refine ⟨?_, fun _ _ => Spells.unique, fun _ _ h => h.substitute_eq_ok_iff span operand?, ?_⟩
  · constructor
    · rintro ⟨text, htext⟩
      obtain ⟨parts, hparts⟩ := exists_spells_of_substitute htext
      obtain ⟨texts, htexts, -⟩ := (hparts.substitute_eq_ok_iff span operand?).1 htext
      exact ⟨parts, hparts, exists_outputs_iff.1 ⟨texts, htexts⟩⟩
    · rintro ⟨parts, hparts, hbound⟩
      obtain ⟨texts, htexts⟩ := exists_outputs_iff.2 hbound
      exact ⟨String.ofList texts.flatten, (hparts.substitute_eq_ok_iff span operand?).2
        ⟨texts, htexts, by rw [String.toList_ofList]⟩⟩
  · intro s
    have hflatten : (s.toList.map ([·])).flatten = s.toList := by
      rw [← List.flatMap_def, List.flatMap_singleton']
    exact ((spells_literals s).substitute_eq_ok_iff span operand?).2
      ⟨_, outputs_literals operand? s, hflatten⟩

end AssignmentLowering.Template
