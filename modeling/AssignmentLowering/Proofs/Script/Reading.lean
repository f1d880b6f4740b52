import AssignmentLowering.Proofs.Number.Integer
import AssignmentLowering.Proofs.Script.Grammar

/-!
# Reading printed script

Printed script is read as what was printed: the parentheses of the printer are those that the
grammar asks for. For every position in an expression the printer has a least precedence and
the grammar a rank, and the two agree; so a form is in parentheses wherever the grammar does
not take it bare.

What cannot be read back is left out. Inserted text may be anything; a name that is a literal
is read as the literal; the printed form of most numbers is more than a numeral; and the point
of a member would make a number in front of it a fraction.

## Main definitions

* `Script.Expr.Readable`, `Script.Stmt.Readable` — script that can be read back.
* `Script.ReadsAs` — a text that is read as a given expression in a given place.
* `Script.lines` — the lines of a text.

## Main statements

* `Script.Expr.Readable.readsAs` — the bare text of an expression is read as that expression.
* `Script.reads_text_iff_and_lines_render` — a printed expression is read as that expression
  only, and rendered statements are told apart by lines.
-/

namespace AssignmentLowering.Script

variable {A : Alphabet}

/-- A name that is no literal. -/
def Alphabet.IsIdentifier (A : Alphabet) (name : String) : Prop :=
  A.IsWord name ∧ name ≠ "null" ∧ name ≠ "true" ∧ name ≠ "false" ∧ name ≠ "this"

/-- Whether a number equals an integer that is small enough to be printed as it is. -/
def IsSmallInteger (x : Binary64) : Prop := ∃ n < 10 ^ 15, x.same (.ofInt (n : Nat)) = true

namespace Expr

def isNumber : Expr → Bool
  | number _ => true
  | _ => false

mutual

/-- Expressions whose text can be read back. -/
def Readable (A : Alphabet) : Expr → Prop
  | null | bool _ | string _ | this => True
  | number x => IsSmallInteger x
  | ident name => A.IsIdentifier name
  | typeHandle name => ∀ c ∈ name.toList, c ≠ '{' ∧ c ≠ '}' ∧ c ≠ '\n'
  | member object name => object.Readable A ∧ object.isNumber = false ∧ A.IsWord name
  | index object i => object.Readable A ∧ i.Readable A
  | call callee args => callee.Readable A ∧ AllReadable A args
  | array items => AllReadable A items
  | assign target value => target.Readable A ∧ value.Readable A
  | compoundAssign op target value =>
    (∃ assignOp : AssignOp, assignOp.binary? = some op) ∧ target.Readable A ∧ value.Readable A
  | binary _ left right => left.Readable A ∧ right.Readable A
  | verbatim _ => False

def AllReadable (A : Alphabet) : List Expr → Prop
  | [] => True
  | e :: es => e.Readable A ∧ AllReadable A es

end

/-- How the bare text of an expression may end. -/
def tail : Expr → Tail
  | number _ | assign .. | compoundAssign .. | binary .. => .number
  | _ => .name

end Expr

/-- An operation ends with its last operand, which may be a number. It is not atomic. -/
theorem Expr.tail_of_isAtomic {e : Expr} (h : e.isAtomic = true) (hn : e.isNumber = false) :
    e.tail = .name := by
  cases e
  case binary op _ _ =>
    have := op.precedence_lt_thirteen
    have h : 18 ≤ op.precedence := of_decide_eq_true h
    omega
  all_goals simp_all [tail, isAtomic, isNumber, precedence, assignLevel, postfixLevel]

/-- Statements of readable expressions. -/
def Stmt.Readable (A : Alphabet) : Stmt → Prop
  | .expr e => e.Readable A
  | .declare name value => A.IsIdentifier name ∧ value.Readable A

/-- The lines of a text, of which an empty text has none. -/
def lines (text : String) : List String :=
  if text = "" then [] else (text.split '\n').toList.map fun line => line.copy

/-! ### Ranks of the printer's levels -/

/-- The rank that the grammar has for a level of the printer. -/
def rankOf (level : Nat) : Nat :=
  if level ≤ assignLevel then 0
  else if level ≤ 13 then level - 2
  else if level ≤ postfixLevel then postfixRank
  else primaryRank

@[simp] theorem rankOf_precedence (op : BinaryOp) : rankOf op.precedence = op.rank := by
  cases op <;> rfl

@[simp] theorem rankOf_succ_precedence (op : BinaryOp) :
    rankOf (op.precedence + 1) = op.rank + 1 := by
  cases op <;> rfl

theorem rankOf_mono {l m : Nat} (h : l ≤ m) : rankOf l ≤ rankOf m := by
  grind [rankOf, assignLevel, postfixLevel, postfixRank, primaryRank]

theorem rankOf_le (l : Nat) : rankOf l ≤ primaryRank := by
  grind [rankOf, assignLevel, postfixLevel, postfixRank, primaryRank]

/-! ### Texts of expressions -/

/-- A text that is read as the given expression, in a place of the given rank. -/
def ReadsAs (A : Alphabet) (t : Tail) (k : Nat) (cs : List Char) (e : Expr) : Prop :=
  ∃ ts e', Spells A t cs ts ∧ Derives k ts e' ∧ e'.same e = true

/-- A text that is read as the given expressions between commas. -/
def ReadsAsAll (A : Alphabet) (cs : List Char) (es : List Expr) : Prop :=
  ∃ ts es', Spells A .number cs ts ∧ DerivesAll ts es' ∧
    Expr.sameAll Binary64.same es' es = true

namespace ReadsAs

variable {t u : Tail} {j k : Nat} {cs ds : List Char} {e f : Expr} {es : List Expr}

theorem of_le (hjk : j ≤ k) (h : ReadsAs A t k cs e) : ReadsAs A t j cs e := by
  obtain ⟨ts, e', hs, hd, he⟩ := h
  exact ⟨ts, e', hs, hd.of_le hjk, he⟩

theorem of_closed (h : ReadsAs A .closed k cs e) : ReadsAs A t k cs e := by
  obtain ⟨ts, e', hs, hd, he⟩ := h
  exact ⟨ts, e', hs.of_closed, hd, he⟩

theorem to_number (h : ReadsAs A t k cs e) : ReadsAs A .number k cs e := by
  obtain ⟨ts, e', hs, hd, he⟩ := h
  exact ⟨ts, e', hs.to_number, hd, he⟩

theorem paren (h : ReadsAs A t 0 cs e) :
    ReadsAs A .closed primaryRank ('(' :: (cs ++ [')'])) e := by
  obtain ⟨ts, e', hs, hd, he⟩ := h
  have hend : ∀ rest, Ends A t ([')'] ++ rest) := fun _ => .of_ascii (by decide)
  exact ⟨_, e', spells_openParen.append_closed (hs.append spells_closeParen hend), .paren hd, he⟩

theorem member {name : String} (h : ReadsAs A .name postfixRank cs e) (hname : A.IsWord name) :
    ReadsAs A .name postfixRank (cs ++ '.' :: name.toList) (.member e name) := by
  obtain ⟨ts, e', hs, hd, he⟩ := h
  exact ⟨_, _, hs.append (spells_member hname) fun _ => .point, .member hd name,
    by simpa [Expr.same, Expr.sameWith] using he⟩

theorem index (h : ReadsAs A t postfixRank cs e) (hi : ReadsAs A u 0 ds f) :
    ReadsAs A .closed postfixRank (cs ++ '[' :: (ds ++ [']'])) (.index e f) := by
  obtain ⟨ts, e', hs, hd, he⟩ := h
  obtain ⟨us, f', hs', hd', hf⟩ := hi
  have hend : ∀ rest, Ends A u ([']'] ++ rest) := fun _ => .of_ascii (by decide)
  have hopen : ∀ rest, Ends A t ('[' :: (ds ++ [']']) ++ rest) := fun _ => .of_ascii (by decide)
  exact ⟨_, _, hs.append (spells_openBracket.append_closed
    (hs'.append spells_closeBracket hend)) hopen, .index hd hd',
    by simpa [Expr.same, Expr.sameWith] using ⟨he, hf⟩⟩

theorem call (h : ReadsAs A t postfixRank cs e) (ha : ReadsAsAll A ds es) :
    ReadsAs A .closed postfixRank (cs ++ '(' :: (ds ++ [')'])) (.call e es) := by
  obtain ⟨ts, e', hs, hd, he⟩ := h
  obtain ⟨us, es', hs', hd', hes⟩ := ha
  have hend : ∀ rest, Ends A .number ([')'] ++ rest) := fun _ => .of_ascii (by decide)
  have hopen : ∀ rest, Ends A t ('(' :: (ds ++ [')']) ++ rest) := fun _ => .of_ascii (by decide)
  exact ⟨_, _, hs.append (spells_openParen.append_closed
    (hs'.append spells_closeParen hend)) hopen, .call hd hd',
    by simpa [Expr.same, Expr.sameWith] using ⟨he, hes⟩⟩

theorem array (ha : ReadsAsAll A cs es) :
    ReadsAs A .closed primaryRank ('[' :: (cs ++ [']'])) (.array es) := by
  obtain ⟨ts, es', hs, hd, hes⟩ := ha
  have hend : ∀ rest, Ends A .number ([']'] ++ rest) := fun _ => .of_ascii (by decide)
  exact ⟨_, _, spells_openBracket.append_closed (hs.append spells_closeBracket hend),
    .array hd, by simpa [Expr.same, Expr.sameWith] using hes⟩

theorem ends_spaced (token : String) (rest : List Char) : Ends A t (spaced token ++ rest) :=
  .of_ascii (by decide)

theorem binary {op : BinaryOp} (h : ReadsAs A t op.rank cs e)
    (h' : ReadsAs A u (op.rank + 1) ds f) :
    ReadsAs A u op.rank (cs ++ spaced op.token ++ ds) (.binary op e f) := by
  obtain ⟨ts, e', hs, hd, he⟩ := h
  obtain ⟨us, f', hs', hd', hf⟩ := h'
  rw [List.append_assoc]
  refine ⟨_, _, hs.append ((spells_binary op).append_closed hs') fun rest => ?_,
    .binary op hd hd', by simpa [Expr.same, Expr.sameWith] using ⟨he, hf⟩⟩
  rw [List.append_assoc]
  exact ends_spaced op.token _

theorem assign (op : AssignOp) (h : ReadsAs A t postfixRank cs e)
    (h' : ReadsAs A u 0 ds f) :
    ReadsAs A u 0 (cs ++ spaced op.token ++ ds) (.ofAssign op e f) := by
  obtain ⟨ts, e', hs, hd, he⟩ := h
  obtain ⟨us, f', hs', hd', hf⟩ := h'
  rw [List.append_assoc]
  refine ⟨_, _, hs.append ((spells_assign op).append_closed hs') fun rest => ?_,
    .assign op hd hd', ?_⟩
  · rw [List.append_assoc]
    exact ends_spaced op.token _
  · unfold Expr.ofAssign
    split <;> simpa [Expr.same, Expr.sameWith] using ⟨he, hf⟩

theorem one (h : ReadsAs A t 0 cs e) : ReadsAsAll A cs [e] := by
  obtain ⟨ts, e', hs, hd, he⟩ := h
  exact ⟨ts, [e'], hs.to_number, .one hd, by simpa [Expr.sameAll, Expr.same] using he⟩

theorem cons (h : ReadsAs A t 0 cs e) (ha : ReadsAsAll A ds (f :: es)) :
    ReadsAsAll A (cs ++ ',' :: ' ' :: ds) (e :: f :: es) := by
  obtain ⟨ts, e', hs, hd, he⟩ := h
  obtain ⟨us, fs', hs', hd', hes⟩ := ha
  cases fs' with
  | nil => simp [Expr.sameAll] at hes
  | cons f' es' =>
    have hcomma : ∀ rest, Ends A t (',' :: ' ' :: ds ++ rest) := fun _ => .of_ascii (by decide)
    exact ⟨_, e' :: f' :: es', hs.append (spells_comma.append_closed hs') hcomma, .cons hd hd',
      by rw [Expr.sameAll, Bool.and_eq_true]; exact ⟨he, hes⟩⟩

/-- A word that stands for an expression by itself. -/
theorem word {name : String} (h : A.IsWord name) :
    ReadsAs A .name primaryRank name.toList (.ofWord name) := by
  refine ⟨_, _, spells_word h, .word name, ?_⟩
  unfold Expr.ofWord
  split <;> simp [Expr.same, Expr.sameWith]

theorem literal (name : String) {c : Char} (hname : name.toList = c :: cs)
    (h : asciiStart c = true ∧ cs.all asciiPart = true) :
    ReadsAs A .name primaryRank (c :: cs) (.ofWord name) :=
  hname ▸ word (.of_ascii hname h)

/-- The text of an expression where the printer asks for a level is one where the grammar asks
for the rank of that level. -/
theorem chars (h : ReadsAs A t (rankOf e.precedence) e.bare e) (level : Nat) :
    ReadsAs A t (rankOf level) (e.chars level) e := by
  unfold Expr.chars atLevel
  split
  · have h0 : ReadsAs A t 0 e.bare e := h.of_le (Nat.zero_le _)
    exact h0.paren.of_closed.of_le (rankOf_le level)
  · next hle => exact h.of_le (rankOf_mono (Nat.not_lt.1 hle))

theorem chars_assignLevel (h : ReadsAs A t (rankOf e.precedence) e.bare e) :
    ReadsAs A t 0 (e.chars assignLevel) e :=
  h.chars assignLevel

theorem chars_postfixLevel (h : ReadsAs A t (rankOf e.precedence) e.bare e) :
    ReadsAs A t postfixRank (e.chars postfixLevel) e :=
  h.chars postfixLevel

/-- What a member is taken of does not end with a number. -/
theorem object (h : ReadsAs A e.tail (rankOf e.precedence) e.bare e)
    (hn : e.isNumber = false) : ReadsAs A .name postfixRank (e.chars postfixLevel) e := by
  rw [Expr.chars_postfixLevel]
  split
  · next hatomic =>
    rw [Expr.tail_of_isAtomic hatomic hn] at h
    exact h.of_le (rankOf_mono (by simpa [Expr.isAtomic] using hatomic))
  · have h0 : ReadsAs A e.tail 0 e.bare e := h.of_le (Nat.zero_le _)
    exact h0.paren.of_closed.of_le (by decide)

end ReadsAs

namespace Expr

mutual

/-- The bare text of an expression is read as that expression. -/
theorem Readable.readsAs : ∀ e : Expr, e.Readable A →
    ReadsAs A e.tail (rankOf e.precedence) e.bare e
  | null, _ => .literal "null" rfl (by decide)
  | bool true, _ => .literal "true" rfl (by decide)
  | bool false, _ => .literal "false" rfl (by decide)
  | this, _ => .literal "this" rfl (by decide)
  | ident name, h => by
    have hw : ofWord name = .ident name := by simp [ofWord, h.2]
    have hword := ReadsAs.word h.1
    rwa [hw] at hword
  | number x, ⟨n, hn, hx⟩ => by
    refine ⟨[.number n], .number (.ofInt n), ?_, .number n, ?_⟩
    · rw [bare, numberChars_of_same hn hx]
      exact spells_toDigits n
    · rwa [same, sameWith, Binary64.same_comm]
  | string s, _ =>
    ⟨_, _, (spells_quotedChars s).of_closed, .string s, by simp [same, sameWith]⟩
  | typeHandle name, h =>
    ⟨_, _, (spells_handle fun c hc => by simp [handlePart, h c hc]).of_closed, .handle name,
      by simp [same, sameWith]⟩
  | member object name, ⟨ho, hn, hname⟩ => by
    rw [bare_member]
    exact ((Readable.readsAs object ho).object hn).member hname
  | index object i, ⟨ho, hi⟩ => by
    have hobject := (Readable.readsAs object ho).chars_postfixLevel
    have hi := (Readable.readsAs i hi).chars_assignLevel
    rw [bare_index]
    exact (hobject.index hi).of_closed
  | call callee args, ⟨hc, ha⟩ => by
    have hcallee := (Readable.readsAs callee hc).chars_postfixLevel
    rw [bare_call]
    exact (hcallee.call (AllReadable.readsAs args ha)).of_closed
  | array items, h => (ReadsAs.array (AllReadable.readsAs items h)).of_closed
  | assign target value, ⟨ht, hv⟩ => by
    have htarget := (Readable.readsAs target ht).chars_postfixLevel
    have hvalue := (Readable.readsAs value hv).chars_assignLevel
    rw [bare_assign]
    exact (ReadsAs.assign .assign htarget hvalue).to_number
  | compoundAssign op target value, ⟨⟨assignOp, hop⟩, ht, hv⟩ => by
    have htarget := (Readable.readsAs target ht).chars_postfixLevel
    have hvalue := (Readable.readsAs value hv).chars_assignLevel
    have h := (ReadsAs.assign assignOp htarget hvalue).to_number
    rw [ofAssign, AssignOp.token, hop] at h
    rw [bare_compoundAssign]
    exact h
  | binary op left right, ⟨hl, hr⟩ => by
    have hleft := (Readable.readsAs left hl).chars op.precedence
    have hright := (Readable.readsAs right hr).chars (op.precedence + 1)
    rw [rankOf_precedence] at hleft
    rw [rankOf_succ_precedence] at hright
    rw [bare_binary, precedence, rankOf_precedence]
    exact (hleft.binary hright).to_number

theorem AllReadable.readsAs : ∀ es : List Expr, AllReadable A es →
    ReadsAsAll A (listChars es) es
  | [], _ => ⟨[], [], .nil, .nil, rfl⟩
  | [e], ⟨he, _⟩ => (Readable.readsAs e he).chars_assignLevel.one
  | e :: f :: es, ⟨he, hes⟩ =>
    (Readable.readsAs e he).chars_assignLevel.cons (AllReadable.readsAs (f :: es) hes)

end

end Expr

/-! ### Lines -/

theorem Alphabet.IsWord.newline_not_mem {name : String} (h : A.IsWord name) :
    '\n' ∉ name.toList := by
  obtain ⟨c, cs, hname, hc, hcs⟩ := h
  have hpart : A.part '\n' = false := A.part_ascii _ (by decide)
  rw [hname, List.mem_cons, not_or]
  constructor
  · rintro rfl
    simpa [isBlank] using A.start_not_blank _ hc
  · intro hmem
    simpa [hpart] using hcs _ hmem

theorem newline_not_mem_quotedChars (s : List Char) : '\n' ∉ quotedChars s := by
  have hescape : ∀ c, '\n' ∉ escapeChar c := by
    intro c
    unfold escapeChar
    split <;> simp_all [eq_comm]
  simp [quotedChars, hescape]

theorem newline_not_mem_spaced (op : BinaryOp) :
    '\n' ∉ spaced op.token ∧ '\n' ∉ spaced (op.token ++ "=") := by
  cases op <;> decide

namespace Expr

theorem newline_not_mem_chars {e : Expr} (h : '\n' ∉ e.bare) (level : Nat) :
    '\n' ∉ e.chars level := by
  unfold chars atLevel
  split <;> simp [h]

mutual

/-- Readable expressions are printed on one line. -/
theorem Readable.newline_not_mem : ∀ e : Expr, e.Readable A → '\n' ∉ e.bare
  | null, _ | bool true, _ | bool false, _ | this, _ => by decide
  | ident _, h => h.1.newline_not_mem
  | number x, ⟨n, hn, hx⟩ => by
    rw [bare, numberChars_of_same hn hx]
    intro hmem
    have := Nat.isDigit_of_mem_toDigits (by decide) (by decide) hmem
    simp at this
  | string s, _ => newline_not_mem_quotedChars s.toList
  | typeHandle name, h => by
    have hname : '\n' ∉ name.toList := fun hmem => (h _ hmem).2.2 rfl
    simp [bare, hname]
  | member object name, ⟨ho, _, hname⟩ => by
    simp [newline_not_mem_chars (Readable.newline_not_mem object ho), hname.newline_not_mem]
  | index object i, ⟨ho, hi⟩ => by
    simp [newline_not_mem_chars (Readable.newline_not_mem object ho),
      Readable.newline_not_mem i hi]
  | call callee args, ⟨hc, ha⟩ => by
    simp [newline_not_mem_chars (Readable.newline_not_mem callee hc),
      AllReadable.newline_not_mem args ha]
  | array items, h => by
    simp [bare, AllReadable.newline_not_mem items h]
  | assign target value, ⟨ht, hv⟩ => by
    simp [newline_not_mem_chars (Readable.newline_not_mem target ht),
      Readable.newline_not_mem value hv, spaced]
  | compoundAssign op target value, ⟨_, ht, hv⟩ => by
    simp [newline_not_mem_chars (Readable.newline_not_mem target ht),
      Readable.newline_not_mem value hv, newline_not_mem_spaced op]
  | binary op left right, ⟨hl, hr⟩ => by
    simp [newline_not_mem_chars (Readable.newline_not_mem left hl),
      newline_not_mem_chars (Readable.newline_not_mem right hr), newline_not_mem_spaced op]

theorem AllReadable.newline_not_mem : ∀ es : List Expr, AllReadable A es → '\n' ∉ listChars es
  | [], _ => by simp [listChars]
  | [e], ⟨he, _⟩ => by
    exact newline_not_mem_chars (Readable.newline_not_mem e he) assignLevel
  | e :: f :: es, ⟨he, hes⟩ => by
    have hitems : listChars (e :: f :: es) =
        e.chars assignLevel ++ ',' :: ' ' :: listChars (f :: es) := rfl
    simp [hitems, Readable.newline_not_mem e he, AllReadable.newline_not_mem (f :: es) hes]

end

end Expr

theorem Stmt.Readable.newline_not_mem {s : Stmt} (h : s.Readable A) : '\n' ∉ s.text.toList := by
  cases s with
  | expr e =>
    simp [Stmt.text, Stmt.chars, Expr.Readable.newline_not_mem e h]
  | declare name value =>
    simp [Stmt.text, Stmt.chars, spaced, Expr.Readable.newline_not_mem value h.2,
      h.1.1.newline_not_mem]

/-- A statement is never empty: it has its closing semicolon. -/
theorem Stmt.text_ne_empty (s : Stmt) : s.text ≠ "" := by
  intro h
  have := congrArg String.toList h
  cases s <;> simp [Stmt.text, Stmt.chars] at this

/-- Rendered statements stand one to a line. -/
theorem lines_render {stmts : List Stmt} (h : ∀ s ∈ stmts, s.Readable A) :
    lines (render stmts) = stmts.map Stmt.text := by
  have hsplit := String.toList_split_intercalate (c := '\n') (l := stmts.map Stmt.text) (by
    intro text htext
    obtain ⟨s, hs, rfl⟩ := List.mem_map.1 htext
    exact (h s hs).newline_not_mem)
  cases stmts with
  | nil => rfl
  | cons s rest =>
    have hne : render (s :: rest) ≠ "" := by
      cases rest <;> simp [render, s.text_ne_empty]
    rw [if_neg (by simp)] at hsplit
    rw [lines, if_neg hne]
    exact hsplit

/-- A printed expression is read as one tree, which is the expression printed. -/
theorem Expr.Readable.reads {e : Expr} (h : e.Readable A) :
    ∃ e', e'.same e = true ∧ ∀ f, Reads A e.text f ↔ f = e' := by
  obtain ⟨ts, e', hs, hd, he⟩ := (Readable.readsAs e h).chars_assignLevel
  have hreads : Reads A e.text e' := ⟨ts, by simpa [Expr.text] using hs.lexes, hd⟩
  refine ⟨e', he, fun f => ⟨fun hf => hf.unique hreads, ?_⟩⟩
  rintro rfl
  exact hreads

/-- Printed script is read back. The text of an expression is one expression, equal to the
one printed, and no other; and the lines of rendered statements are the statements. -/
theorem reads_text_iff_and_lines_render (A : Alphabet) :
    (∀ e : Expr, e.Readable A →
      ∃ e', e'.same e = true ∧ ∀ f, Reads A e.text f ↔ f = e') ∧
    ∀ stmts : List Stmt, (∀ s ∈ stmts, s.Readable A) →
      lines (render stmts) = stmts.map Stmt.text :=
  ⟨fun _ h => h.reads, fun _ h => lines_render h⟩

/-- Operands that need parentheses on the right only, an assignment as an operand and as an
object, and text that has to be escaped. -/
def nested : Expr :=
  .compoundAssign .shiftRightUnsigned
    (.member (.assign (.ident "a") (.ident "b")) "null")
    (.binary .sub (.binary .sub (.number (.ofInt 10)) (.ident "c"))
      (.binary .sub
        (.call (.ident "f") [.string "it's", .array [], .typeHandle "List<int>"])
        (.assign (.index (.ident "a") .this) (.bool true))))

theorem nested_readable : nested.Readable .ascii := by
  have ha : Alphabet.ascii.IsIdentifier "a" := ⟨.of_ascii rfl (by decide), by decide⟩
  have hb : Alphabet.ascii.IsIdentifier "b" := ⟨.of_ascii rfl (by decide), by decide⟩
  have hc : Alphabet.ascii.IsIdentifier "c" := ⟨.of_ascii rfl (by decide), by decide⟩
  have hf : Alphabet.ascii.IsIdentifier "f" := ⟨.of_ascii rfl (by decide), by decide⟩
  have hnull : Alphabet.ascii.IsWord "null" := .of_ascii rfl (by decide)
  have hten : IsSmallInteger (.ofInt 10) := ⟨10, by decide, Binary64.same_self _⟩
  have hop : ∃ a : AssignOp, a.binary? = some .shiftRightUnsigned := ⟨.ushrAssign, rfl⟩
  simp [nested, Expr.Readable, Expr.AllReadable, Expr.isNumber, ha, hb, hc, hf, hnull, hten, hop]

theorem reads_text_iff_and_lines_render_nested :
    nested.Readable .ascii ∧
      nested.text =
        "(a = b).null >>>= 10 - c - (f('it\\'s', [], \x7bList<int>\x7d) - (a[this] = true))" ∧
      (∃ e', e'.same nested = true ∧ ∀ f, Reads .ascii nested.text f ↔ f = e') ∧
      lines (render [.declare "c" nested, .expr nested]) =
        ["var c = " ++ nested.text ++ ";", nested.text ++ ";"] := by
  have hc : Alphabet.ascii.IsIdentifier "c" := ⟨.of_ascii rfl (by decide), by decide⟩
  obtain ⟨hreads, hlines⟩ := reads_text_iff_and_lines_render .ascii
  refine ⟨nested_readable, by decide +kernel, hreads nested nested_readable, ?_⟩
  rw [hlines _ (by simp [Stmt.Readable, nested_readable, hc])]
  decide +kernel

end AssignmentLowering.Script
