import AssignmentLowering.Proofs.Effects.Reuse
import AssignmentLowering.Proofs.Lowering.Candidates
import AssignmentLowering.Proofs.Lowering.Comparison
import AssignmentLowering.Proofs.Lowering.Sample
import AssignmentLowering.Proofs.Target.Binding
import AssignmentLowering.Proofs.Target.Respelled

/-!
# Lowering by names and by positions

The templates of accessors and methods may refer to arguments by the names of parameters or by
their positions. Whatever is lowered comes to the same with any of these references written in
the other way, or fails by an error of the same kind. For an indexer both refer to what the
parameter gets by the calling convention, in whichever order the arguments are written and
whichever of them are left out.

## Main definitions

* `Context.withBindings` — a context with other answers about members.
* `Expr.Respelled` — the answers differ in how placeholders are spelled.
* `Target.NamesArguments` — placeholders stand for what parameters get.

## Main statements

* `sameOutcome_of_respelled` — how placeholders are spelled makes no difference.
-/

namespace AssignmentLowering

open Template (Nameable SpelledAlike)

/-- The same context, with other answers about properties and methods. -/
def Context.withBindings (cx : Context) (property : Property → PropertyBinding)
    (method : Method → MethodBinding) : Context :=
  { cx with metadata := { cx.metadata with property, method } }

/-- The accessors of a place are the same but for the spelling of placeholders. The candidates
for an indexer are compared as they are answered, so they have the same answers. -/
def Place.Respelled {ε : Type} (md md' : Metadata) : Place ε → Prop
  | .property _ p | .indexer _ (.resolved p _) _ _ =>
    (md.property p).Respells (p.params.map (·.name)) (md'.property p)
  | .indexer _ (.candidates ps) _ _ => ∀ p ∈ ps, md'.property p = md.property p
  | _ => True

/-- The members that an expression asks for itself are bound in the same way but for the
spelling of placeholders. -/
def Expr.Respelled (md md' : Metadata) (e : Expr) : Prop :=
  match e.form with
  | .place p => p.Respelled md md'
  | .call _ m _ => (md.method m).Respells (m.params.map (·.name)) (md'.method m)
  | _ => True

/-- What the parameter declared at `i` gets was lowered to `x`. Among the results `xs` those of
`objects` receivers come first, then those of the arguments as they are written, and last those
of the defaults `omitted`. -/
inductive Receives (p : Property) (defaults : List (Option Expr)) (args : List (Argument Expr))
    (objects : Nat) (omitted : List Expr) (xs : List Script.Expr) (i : Nat) : Script.Expr → Prop
  | argument {j : Nat} {x : Script.Expr} (hgoes : paramOf? p args j = some i)
      (hx : xs[objects + j]? = some x) : Receives p defaults args objects omitted xs i x
  | fallback {d : Expr} {x : Script.Expr} (hfree : Unaddressed p args i)
      (hdefault : defaults[i]?.join = some d)
      (hx : (d, x) ∈ omitted.zip (xs.drop (objects + args.length))) :
      Receives p defaults args objects omitted xs i x

/-- In the address `a` each parameter's placeholder, by name and by position, stands for what
the parameter gets, or for a copy of that. -/
def Target.NamesArguments (names : RuntimeNames) (t : Target Expr) (p : Property)
    (defaults : List (Option Expr)) (args : List (Argument Expr)) (xs : List Script.Expr)
    (a : Address) : Prop :=
  ∀ i q, p.params[i]? = some q → ∃ x y,
    Receives p defaults args t.receiver.toList.length t.omitted xs i x ∧ x.CopyOf names y ∧
      ∀ value, t.operand? a value q.name = some y ∧
        (i < UInt64.size → t.operand? a value (toString i) = some y)

/-! ## Effects -/

theorem Place.runsCode_respelled {ε : Type} {md md' : Metadata} {p : Place ε}
    (h : p.Respelled md md') : p.runsCode md' = p.runsCode md := by
  cases p with
  | property r p =>
    simp only [runsCode, (Metadata.binding_respelled h).1]
  | indexer r target args ty =>
    cases target with
    | resolved p defaults =>
      simp only [runsCode, IndexerTarget.isSubscript, (Metadata.binding_respelled h).2]
    | candidates ps =>
      cases ps with
      | nil => rfl
      | cons p ps =>
        have hp : (md.property p).Respells [] (md'.property p) :=
          h p List.mem_cons_self ▸ .refl _
        simp only [runsCode, IndexerTarget.isSubscript, List.head?_cons, Option.any_some,
          (Metadata.binding_respelled hp).2]
  | _ => rfl

/-- Effects are the same, since they are judged without looking into templates. -/
theorem Expr.hasEffects_respelled {md md' : Metadata} {e : Expr}
    (h : e.Everywhere (·.Respelled md md')) : e.hasEffects md' = e.hasEffects md := by
  induction h with
  | @intro e here below ih =>
    rw [hasEffects_eq, hasEffects_eq]
    obtain ⟨form, span⟩ := e
    cases form with
    | place p =>
      have hoperands : (p.operands.any fun o => o.hasEffects md') =
          p.operands.any fun o => o.hasEffects md :=
        any_congr_of_mem fun o ho => ih o (List.mem_append_left _ ho)
      simp only [Form.hasEffects, Place.runsCode_respelled here, hoperands]
    | binary op l r ty =>
      have hl := ih l (by simp [Form.children, Form.operands])
      have hr := ih r (by simp [Form.children, Form.operands])
      simp only [Form.hasEffects, hl, hr]
    | _ => rfl

namespace Comparison

variable {cx : Context} {property : Property → PropertyBinding} {method : Method → MethodBinding}
  {params : List String}

/-- Runs with the one spelling and with the other. Errors pass for the same if they are of one
kind. -/
def respelling (cx : Context) (property : Property → PropertyBinding)
    (method : Method → MethodBinding) : Comparison where
  cx := cx
  cx' := cx.withBindings property method
  names := rfl
  tempStem := rfl
  semantics := rfl
  SameError e e' := e.code = e'.code
  same_refl _ := rfl
  Refusal _ := False

theorem Settled.sameOutcome {α : Type} {r r' : EStateM.Result LoweringError Nat α}
    (h : (respelling cx property method).Settled r r') : SameOutcome r r' := by
  cases h with
  | ok => exact .ok _ _
  | error h => exact .error h
  | refused h => cases h

/-- Accessors with placeholders respelled serve a target whose operands are spelled alike. -/
theorem serves_of_respells {t : Target Expr} {s : Storage} (h : t.storage.Respells params s)
    (hoperand : ∀ a : Address, a.args.length = t.args.length → ∀ value,
      Nameable params → SpelledAlike params (t.operand? a value)) :
    (respelling cx property method).Serves t s := by
  generalize hstorage : t.storage = s' at h
  cases h with
  | refl => exact hstorage ▸ .refl t
  | @accessors getter getter' setter setter' hgetter hsetter =>
    have huse : ∀ {a : Address}, a.args.length = t.args.length → ∀ value {accessor accessor'},
        accessor.Respells params accessor' →
        (respelling cx property method).Matches Eq
          (t.useAccessor cx.names a value accessor) (t.useAccessor cx.names a value accessor') := by
      intro a ha value accessor accessor' h
      obtain ⟨e, he, he'⟩ | ⟨err, err', he, he', hcode⟩ :=
        Target.useAccessor_respelled h (hoperand a ha value) cx.names
      · rw [he, he']
        exact .ok rfl
      · rw [he, he']
        exact .error hcode
    obtain ⟨kind, receiver, staticOwner, args, paramNames, storage, dispatch, ty, span⟩ := t
    subst hstorage
    exact {
      isNative := by cases kind <;> rfl
      native := fun a => by cases kind <;> rfl
      getterIsInline := hgetter.isInline_eq
      setterIsInline := hsetter.isInline_eq
      getter_runsCode := hgetter.runsCode_eq
      setter_runsCode := hsetter.runsCode_eq
      load := fun a ha => by
        cases kind with
        | receiver | multiElement => exact .refl _
        | _ => exact huse ha none hgetter
      store := fun a ha value => by
        cases kind with
        | receiver | multiElement => exact .refl _
        | _ => exact huse ha (some value) hsetter }

/-- A place has the same target in both runs, or one that serves it, or it has none. -/
theorem matches_ofPlace {p : Place Expr}
    (h : p.Respelled cx.metadata (cx.withBindings property method).metadata) (span : Span) :
    (respelling cx property method).Matches (respelling cx property method).Counterparts
      (Target.ofPlace cx.metadata cx.enclosing Expr.ty span p)
      (Target.ofPlace (cx.withBindings property method).metadata
        (cx.withBindings property method).enclosing Expr.ty span p) := by
  cases p with
  | property r p =>
    simp only [Target.ofPlace, Target.ofProperty]
    obtain ⟨s, s', hs, hs', hrespells⟩ | ⟨e, he, he'⟩ := storageOf_respelled h p span
    · simp only [hs, hs', bind, Except.bind]
      cases hrespells with
      | refl => exact .counterparts _
      | accessors hgetter hsetter =>
        simp only [reduceCtorEq, if_false]
        refine .ok ⟨_, rfl, serves_of_respells (.accessors hgetter hsetter) ?_⟩
        -- There are no arguments that placeholders could stand for.
        intro a ha value hparams
        have hargs : a.args.length = 0 := by cases r <;> exact ha
        exact Target.spelledAlike_of_args_eq_nil hparams (List.length_eq_zero_iff.1 hargs)
    · rw [he, he']
      exact .error rfl
  | indexer r target args ty =>
    cases target with
    | resolved p defaults =>
      simp only [Target.ofPlace, Target.ofIndexer]
      obtain ⟨s, s', hs, hs', hrespells⟩ | ⟨e, he, he'⟩ := storageOf_respelled h p span
      · simp only [hs, hs', bind, Except.bind]
        cases bindArguments p defaults args span with
        | error e => exact .error rfl
        | ok bound =>
          exact .ok ⟨s', rfl, serves_of_respells hrespells fun _ _ _ hparams =>
            Target.spelledAlike rfl hparams⟩
      · rw [he, he']
        exact .error rfl
    | candidates ps =>
      cases ps with
      | nil => exact .counterparts _
      | cons p others =>
        obtain ⟨hp, hothers⟩ := List.forall_mem_cons.1 h
        have hany : (others.any fun q =>
            (cx.withBindings property method).metadata.property q ≠
              (cx.withBindings property method).metadata.property p) =
            others.any fun q => cx.metadata.property q ≠ cx.metadata.property p :=
          any_congr_of_mem fun q hq => by rw [hp, hothers q hq]
        simp only [Target.ofPlace, Target.ofIndexer, hany]
        rw [hp]
        exact .counterparts _
  | this ty => exact .counterparts _
  | _ => exact .counterparts _

/-- What an expression asks for itself has answers that can stand for each other. -/
theorem comparable_respelling {e : Expr} (h : e.Everywhere
    (·.Respelled cx.metadata (cx.withBindings property method).metadata)) :
    (respelling cx property method).Comparable e where
  effects := Expr.hasEffects_respelled h
  place p hp span := by
    cases hp with
    | read => exact matches_ofPlace h.here span
    | @assigned a p _ htarget =>
      have hplace : p.Respelled cx.metadata (cx.withBindings property method).metadata := by
        simpa [Expr.Respelled, htarget] using h.target.here
      exact matches_ofPlace hplace span
  method r m args hform := by
    have hmethod : (cx.metadata.method m).Respells (m.params.map (·.name))
        ((cx.withBindings property method).metadata.method m) := by
      simpa only [Expr.Respelled, hform] using h.here
    change Callees _ m (cx.metadata.method m)
      ((cx.withBindings property method).metadata.method m)
    generalize cx.metadata.method m = b,
      (cx.withBindings property method).metadata.method m = b' at hmethod
    cases hmethod with
    | refl => exact .same _
    | inline hparams h =>
      refine .inline fun span object args => ?_
      obtain ⟨text, hs, hs'⟩ | ⟨err, err', hs, hs', hcode⟩ :=
        h.substitute_cases hparams (callOperand?_spelledAlike hparams object args) span
      · rw [hs, hs']
        exact .ok rfl
      · rw [hs, hs']
        exact .error hcode

end Comparison

/-! ## Arguments of an indexer -/

section

variable {cx : Context} {t : Target Expr} {reuse : Bool} {rest : List Expr} {n n' : Nat}
  {addr : LoweredAddress} {stmts : List Script.Stmt}

/-- The operands of a target come to results, in the order in which they are evaluated. A
written argument is passed what stands in its position behind the receiver, or a copy of that,
and an argument left out what its default comes to. -/
theorem Addressed.exists_results (h : Addressed cx reuse rest t n addr stmts n') :
    ∃ xs, Passes cx (t.operands ++ t.omitted) xs stmts ∧
      ∀ (k : Nat) (arg : IndexArg Expr), t.args[k]? = some arg → ∃ x,
        ((∃ j, arg.position = some j ∧ xs[t.receiver.toList.length + j]? = some x) ∨
          (arg.position = none ∧ (arg.value, x) ∈ t.omitted.zip (xs.drop t.operands.length))) ∧
        ∀ accessor uses, ∃ y, (addr.passed cx accessor uses).args[k]? = some y ∧
          x.CopyOf cx.names y := by
  cases h with
  | @intro objects vs values _ _ _ _ htaken hobjects hfilled =>
    obtain ⟨ds, hasides, -, hvalues⟩ := hfilled.split
    have hlength : t.operands.length = ((objects ++ vs).map (·.expr)).length := by
      rw [List.length_map, htaken.length_operands]
    have hpasses := htaken.passes.append hasides.passes
    rw [Target.map_snd_captures] at hpasses
    refine ⟨_, hpasses, fun k arg harg => ?_⟩
    obtain ⟨_, hvalue, v, rfl, hv⟩ := exists_getElem?_of_forall₂ hvalues harg
    refine ⟨v.expr, hv.imp ?_ ?_, fun accessor uses => ?_⟩
    · rintro ⟨j, hposition, hj⟩
      refine ⟨j, hposition, ?_⟩
      have hlt := (List.getElem?_eq_some_iff.1 hj).1
      rw [List.getElem?_append_left (by simp; omega), List.map_append,
        List.getElem?_append_right (by simp; omega)]
      simp [hobjects, hj]
    · rintro ⟨hposition, hmem⟩
      rw [hlength, List.drop_left, List.zip_map_right]
      exact ⟨hposition, List.mem_map_of_mem (f := Prod.map id (·.expr)) hmem⟩
    · obtain ⟨f, hf, hcopy⟩ := LoweredAddress.exists_args_passed
        (⟨objects.head?.map (·.expr), values⟩ : LoweredAddress) accessor uses
      have hpassed : values[k]?.map f = some (f ⟨v.expr, arg.ty, v.fresh⟩) := by
        rw [hvalue, Option.map_some]
      exact ⟨_, by rw [hf, List.getElem?_map, hpassed], hcopy ⟨v.expr, arg.ty, v.fresh⟩⟩

/-- Where the operands of an indexer are lowered, placeholders stand for what parameters get. -/
theorem Addressed.namesArguments {p : Property} {defaults : List (Option Expr)}
    {r : Receiver Expr} {args : List (Argument Expr)} {ty : TypeRef} {span : Span}
    (hparams : Nameable (p.params.map (·.name)))
    (ht : Target.ofPlace cx.metadata cx.enclosing Expr.ty span
      (.indexer r (.resolved p defaults) args ty) = .ok t)
    (h : Addressed cx reuse rest t n addr stmts n') :
    ∃ xs, Passes cx (r.object?.toList ++ args.map (·.value) ++ t.omitted) xs stmts ∧
      ∀ accessor uses,
        t.NamesArguments cx.names p defaults args xs (addr.passed cx accessor uses) := by
  have hoperands : t.operands = r.object?.toList ++ args.map (·.value) :=
    Target.operands_ofPlace ht
  have hlength : t.operands.length = t.receiver.toList.length + args.length := by
    simp [hoperands, (Target.ofPlace_arranges ht).1, Place.object?]
  obtain ⟨hbound, hnames⟩ : bindArguments p defaults args span = .ok t.args ∧
      t.paramNames = p.params.map (·.name) := by
    cases Classified.of_ofPlace ht with
    | resolved _ hbound => exact ⟨hbound, rfl⟩
  obtain ⟨xs, hpasses, hresults⟩ := h.exists_results
  refine ⟨xs, hoperands ▸ hpasses, fun accessor uses i q hq => ?_⟩
  have hname : t.paramNames[i]? = some q.name := by simp [hnames, hq]
  -- What is passed for the parameter is what both of its placeholders stand for.
  have hstands : ∀ arg : IndexArg Expr, t.args[i]? = some arg → ∃ x y,
      ((∃ j, arg.position = some j ∧ xs[t.receiver.toList.length + j]? = some x) ∨
        (arg.position = none ∧ (arg.value, x) ∈ t.omitted.zip (xs.drop t.operands.length))) ∧
      x.CopyOf cx.names y ∧ ∀ value,
        t.operand? (addr.passed cx accessor uses) value q.name = some y ∧
          (i < UInt64.size →
            t.operand? (addr.passed cx accessor uses) value (toString i) = some y) := by
    intro arg harg
    obtain ⟨x, hx, hpassed⟩ := hresults i arg harg
    obtain ⟨y, hy, hcopy⟩ := hpassed accessor uses
    refine ⟨x, y, hx, hcopy, fun value => ⟨?_, fun hi => ?_⟩⟩
    · rw [Target.operand?_spelling (hnames ▸ hparams) hname, hy]
    · rw [Target.operand?_toString (hnames ▸ hparams) hi, hy]
  obtain ⟨j, a, ha, hgoes, harg⟩ | ⟨hfree, d, hdefault, harg⟩ := getElem?_of_bindArguments hbound hq
  · obtain ⟨x, y, hx, hrest⟩ := hstands _ harg
    obtain ⟨_, hposition, hx⟩ := hx.resolve_right fun h => by cases h.1
    cases hposition
    exact ⟨x, y, .argument hgoes hx, hrest⟩
  · obtain ⟨x, y, hx, hrest⟩ := hstands _ harg
    have hx := hx.resolve_left fun ⟨_, h, _⟩ => by cases h
    rw [hlength] at hx
    exact ⟨x, y, .fallback hfree hdefault hx.2, hrest⟩

end

/-- **Names and positions agree.** Whichever placeholders for parameters are respelled in the
templates of the members that an expression or an assignment uses, lowering it comes to the same
output and as many temporaries, or fails by an error of the same kind. And once the operands of a
resolved indexer are lowered, by name and by position a placeholder stands for what its parameter
gets by the calling convention. -/
theorem sameOutcome_of_respelled (cx : Context) (property : Property → PropertyBinding)
    (method : Method → MethodBinding) :
    (∀ e : Expr,
      e.Everywhere (·.Respelled cx.metadata (cx.withBindings property method).metadata) →
      ∀ n, SameOutcome (e.lower cx n) (e.lower (cx.withBindings property method) n)) ∧
    (∀ usage a span,
      Expr.Everywhere (·.Respelled cx.metadata (cx.withBindings property method).metadata)
        ⟨.assign a, span⟩ →
      ∀ n, SameOutcome (lowerAssignment cx usage a span n)
        (lowerAssignment (cx.withBindings property method) usage a span n)) ∧
    ∀ p defaults r args ty span t, Nameable (p.params.map (·.name)) →
      Expr.target cx.metadata cx.enclosing
        ⟨.place (.indexer r (.resolved p defaults) args ty), span⟩ = .ok t →
      ∀ reuse rest n stmts addr s,
        lowerAddress cx reuse (t.map (Expr.operand cx))
          (sequenceOf cx n (t.operands ++ rest) stmts) = .ok addr s →
        ∃ stmts' xs, s.stmts = stmts ++ stmts' ∧
          Passes cx (r.object?.toList ++ args.map (·.value) ++ t.omitted) xs stmts' ∧
          ∀ accessor uses,
            t.NamesArguments cx.names p defaults args xs (addr.passed cx accessor uses) := by
  refine ⟨fun e h n => ?_, fun usage a span h n => ?_, ?_⟩
  · exact ((Comparison.alike fun d hd =>
      Comparison.comparable_respelling (h.of_evaluates hd)).settles n).sameOutcome
  · exact (Comparison.lowerAssignment_settles (fun d hd =>
      Comparison.comparable_respelling (h.of_evaluates hd)) n).sameOutcome
  · intro p defaults r args ty span t hparams ht reuse rest n stmts addr s hlower
    have hplace : Target.ofPlace cx.metadata cx.enclosing Expr.ty span
        (.indexer r (.resolved p defaults) args ty) = .ok t := ht
    have harranges := (Target.ofPlace_arranges hplace).2
    obtain ⟨stmts', n', haddr, rfl⟩ := lowerAddress_ok harranges hlower
    obtain ⟨xs, hpasses, hnames⟩ := haddr.namesArguments hparams hplace
    exact ⟨stmts', xs, rfl, hpasses, hnames⟩

namespace Sample

/-- An indexer with a row and a column. -/
def board : Property :=
  { name := "Item", owner := ty, ty, params := [⟨"row", ty⟩, ⟨"column", ty⟩], isIndexer := true }

/-- The indexer and all methods are run by templates. -/
def boardContext (getter setter template : String) : Context :=
  (context .reference).withBindings (fun _ => .accessors (.inline getter) (.inline setter))
    fun _ => .inline template

def boardByName : Context :=
  boardContext "at({column},{row})" "put({row},{column},{value})" "shift({x})"

/-- The same by position, but for one placeholder of the getter. -/
def boardByPosition : Context :=
  boardContext "at({1},{row})" "put({0},{1},{value})" "shift({0})"

/-- Only the row has a default. -/
def boardDefaults : List (Option Expr) := [some ⟨.literal .null ty, {}⟩, none]

/-- The column is given by name, and the row is left out. -/
def boardArgs : List (Argument Expr) := [⟨localVar "d", some "column", {}⟩]

/-- `this[column: d]` -/
def square : Expr :=
  ⟨.place (.indexer (.object this) (.resolved board boardDefaults) boardArgs ty), {}⟩

def squareTarget : Target Expr where
  kind := .indexer
  receiver := some this
  args := [⟨⟨.literal .null ty, {}⟩, ty, none⟩, ⟨localVar "d", ty, some 0⟩]
  paramNames := ["row", "column"]
  storage := .accessors (.inline "at({column},{row})") (.inline "put({row},{column},{value})")
  ty := ty
  span := {}

/-- `this[column: d] += Shift(e)` -/
def shiftSquare : Assignment Expr := ⟨square, .addAssign, call "Shift" [localVar "e"]⟩

/-- What that comes to. -/
def shiftedSquare (cx : Context) : Lowered where
  expr := .ident (cx.temp 2)
  fresh := false
  stable := true
  stmts := [.declare (cx.temp 1) (.verbatim "at(d,null)"),
    .declare (cx.temp 2) (.binary .add (.ident (cx.temp 1)) (.verbatim "shift(e)")),
    .expr (.verbatim "put(null,d,$tmp2)")]

/-- Whether a lowering comes to the given output and count of temporaries. -/
def comesTo : EStateM.Result LoweringError Nat Lowered → Lowered → Nat → Bool
  | .ok v m, w, n => v = w ∧ m = n
  | .error .., _, _ => false

theorem eq_ok_of_comesTo {r : EStateM.Result LoweringError Nat Lowered} {w : Lowered} {n : Nat}
    (h : comesTo r w n = true) : r = .ok w n := by
  cases r with
  | ok v m =>
    obtain ⟨rfl, rfl⟩ := of_decide_eq_true h
    rfl
  | error e m => cases h

/-! ### The two spellings -/

/-- The parts of a text without braces. -/
def chars (s : String) : List Template.Part := s.toList.map .char

theorem respells_chars {params : List String} (s : String) {parts parts' : List Template.Part}
    (h : List.Forall₂ (Template.Part.Respells params) parts parts') :
    List.Forall₂ (Template.Part.Respells params) (chars s ++ parts) (chars s ++ parts') :=
  List.rel_append (List.forall₂_same.2 fun p _ => .refl p) h

theorem nameable_board : Nameable (board.params.map (·.name)) where
  nodup := by decide
  braceless := by decide
  unreserved := by decide
  notNumber := by decide

theorem respells_getter :
    Template.Respells (board.params.map (·.name)) "at({column},{row})" "at({1},{row})" := by
  refine ⟨chars "at(" ++ .placeholder "column".toList :: (chars "," ++
      .placeholder "row".toList :: (chars ")" ++ [])),
    chars "at(" ++ .placeholder (toString 1).toList :: (chars "," ++
      .placeholder "row".toList :: (chars ")" ++ [])),
    ⟨by decide, by decide⟩, ?_, by decide⟩
  refine respells_chars _ (.cons (.position ⟨rfl, by decide⟩) ?_)
  exact respells_chars _ (.cons (.refl _) (respells_chars _ .nil))

theorem respells_setter :
    Template.Respells (board.params.map (·.name)) "put({row},{column},{value})"
      "put({0},{1},{value})" := by
  refine ⟨chars "put(" ++ .placeholder "row".toList :: (chars "," ++
      .placeholder "column".toList :: (chars "," ++
        .placeholder "value".toList :: (chars ")" ++ []))),
    chars "put(" ++ .placeholder (toString 0).toList :: (chars "," ++
      .placeholder (toString 1).toList :: (chars "," ++
        .placeholder "value".toList :: (chars ")" ++ []))),
    ⟨by decide, by decide⟩, ?_, by decide⟩
  refine respells_chars _ (.cons (.position ⟨rfl, by decide⟩) ?_)
  refine respells_chars _ (.cons (.position ⟨rfl, by decide⟩) ?_)
  exact respells_chars _ (.cons (.refl _) (respells_chars _ .nil))

theorem respells_shift : Template.Respells ["x"] "shift({x})" "shift({0})" := by
  refine ⟨chars "shift(" ++ .placeholder "x".toList :: (chars ")" ++ []),
    chars "shift(" ++ .placeholder (toString 0).toList :: (chars ")" ++ []),
    ⟨by decide, by decide⟩, ?_, by decide⟩
  exact respells_chars _ (.cons (.position ⟨rfl, by decide⟩) (respells_chars _ .nil))

theorem everywhere_shiftSquare : Expr.Everywhere
    (·.Respelled boardByName.metadata boardByPosition.metadata) ⟨.assign shiftSquare, {}⟩ := by
  have hsquare : square.Respelled boardByName.metadata boardByPosition.metadata :=
    .accessors (.inline nameable_board respells_getter) (.inline nameable_board respells_setter)
  have hcall : (call "Shift" [localVar "e"]).Respelled boardByName.metadata
      boardByPosition.metadata :=
    .inline ⟨by decide, by decide, by decide, by decide⟩ respells_shift
  have hchildren : square.form.children = [this, localVar "d", ⟨.literal .null ty, {}⟩] := rfl
  refine everywhere_assign trivial (.intro hsquare ?_) (everywhere_call hcall trivial ?_)
  · rw [hchildren, List.forall_mem_cons, List.forall_mem_cons, List.forall_mem_singleton]
    exact ⟨everywhere_this trivial, everywhere_localVar trivial,
      .intro trivial (by simp [Form.children, Form.operands])⟩
  · exact List.forall_mem_singleton.2 (everywhere_localVar trivial)

end Sample

open Sample in
theorem sameOutcome_of_respelled_square :
    Expr.Everywhere (·.Respelled boardByName.metadata boardByPosition.metadata)
        ⟨.assign shiftSquare, {}⟩ ∧
      lowerAssignment boardByName .used shiftSquare {} 0 = .ok (shiftedSquare boardByName) 2 ∧
      lowerAssignment boardByPosition .used shiftSquare {} 0 =
        .ok (shiftedSquare boardByName) 2 ∧
      ∃ xs, squareTarget.NamesArguments boardByName.names board boardDefaults boardArgs xs
        ⟨some .this, [.null, .ident "d"]⟩ := by
  have hlower : lowerAssignment boardByName .used shiftSquare {} 0 =
      .ok (shiftedSquare boardByName) 2 :=
    eq_ok_of_comesTo (by decide +kernel)
  have hsame : SameOutcome (lowerAssignment boardByName .used shiftSquare {} 0)
      (lowerAssignment boardByPosition .used shiftSquare {} 0) :=
    (sameOutcome_of_respelled boardByName boardByPosition.metadata.property
      boardByPosition.metadata.method).2.1 .used shiftSquare {} everywhere_shiftSquare 0
  rw [hlower] at hsame
  obtain ⟨s, haddress⟩ : ∃ s, lowerAddress boardByName true
      (squareTarget.map (Expr.operand boardByName))
      (sequenceOf boardByName 0 (squareTarget.operands ++ []) []) =
        .ok ⟨some .this, [⟨.null, ty, true⟩, ⟨.ident "d", ty, false⟩]⟩ s := ⟨_, rfl⟩
  obtain ⟨_, xs, -, -, hnames⟩ := (sameOutcome_of_respelled boardByName
    boardByPosition.metadata.property boardByPosition.metadata.method).2.2 board boardDefaults
    (.object this) boardArgs ty {} squareTarget nameable_board rfl true [] 0 [] _ s haddress
  exact ⟨everywhere_shiftSquare, hlower, hsame.eq_of_ok, xs, hnames none 1⟩

end AssignmentLowering
