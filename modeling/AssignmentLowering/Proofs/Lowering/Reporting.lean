import AssignmentLowering.Lowering.Session
import AssignmentLowering.Proofs.Lowering.Failure
import AssignmentLowering.Proofs.Lowering.Sample
import AssignmentLowering.Proofs.Lowering.Temporaries

/-!
# Every failure is reported, and once

The assignments of a body are lowered in turn. One that cannot be lowered leaves nothing
but its diagnostic, one that can leaves no diagnostic, and the next is tried in either
case. So the diagnostics of a body are the errors of the calls that failed, in the order of
the calls; and which calls fail does not depend on how their values are used. A diagnostic
says all that is known of its error: its code tells what sort of error it is, and two errors
that are reported alike differ at most in faults that are worded alike.

## Main definitions

* `Diagnostic.Reports` — a diagnostic with the code, the text and the place of an error.
* `LoweringError.worded` — an error as far as its report tells it.
* `Call` — a lowering that is asked for, with `Exchange` for one that is answered.
* `Session.exchanges`, `Session.after` — a body lowered call by call, and its end.

## Main statements

* `Diagnostic.reports_ofError`, `Diagnostic.ofError_eq_iff` — one error.
* `Exchange.isEmpty_output_iff`, `Exchange.diagnostics_after` — one call.
* `Session.run_reports` — a whole body.
-/

namespace AssignmentLowering

/-! ## What a diagnostic says -/

/-- A diagnostic of severity error, with the code and the place of an error, and a text that
names the place and then the cause. -/
structure Diagnostic.Reports (d : Diagnostic) (e : LoweringError) : Prop where
  severity : d.severity = .error
  code : d.code = e.code
  message : d.message = "at " ++ e.span.text ++ ": " ++ e.cause
  span : d.span = e.span

theorem Diagnostic.reports_ofError (e : LoweringError) : (ofError e).Reports e :=
  ⟨rfl, rfl, rfl, rfl⟩

namespace LoweringError

/-- The error as it is told: of a fault the wording is left. -/
def worded : LoweringError → LoweringError
  | internal fault span => internal (.other fault.message) span
  | e => e

/-- Errors share their code exactly if they are of one sort. -/
theorem code_eq_code_iff (e e' : LoweringError) :
    e.code = e'.code ↔ e.ctorIdx = e'.ctorIdx := by
  cases e <;> cases e' <;> simp [code, LoweringError.ctorIdx]

/-- What stands between the same words is the same. -/
theorem eq_of_framed {before after s s' : String}
    (h : before ++ s ++ after = before ++ s' ++ after) : s = s' :=
  (String.append_right_inj before).1 ((String.append_left_inj after).1 h)

/-- Code, place and cause tell an error, up to the wording of a fault. -/
theorem worded_eq_worded {e e' : LoweringError} (hcode : e.code = e'.code)
    (hspan : e.span = e'.span) (hcause : e.cause = e'.cause) : e.worded = e'.worded := by
  cases e <;> cases e' <;> simp only [code, reduceCtorEq] at hcode <;>
    simp only [span] at hspan <;> subst hspan
  case memberNotUsable => rw [eq_of_framed hcause]
  case namedArguments => rfl
  case dynamicArity =>
    -- A number behind a stem, as in the names of temporaries.
    rw [Temporary.name_injective _ ((String.append_left_inj _).1 hcause)]
  case ambiguousCandidates => rw [eq_of_framed hcause]
  case referenceReceiver => rw [(String.append_right_inj _).1 hcause]
  case immutableReceiver => rw [eq_of_framed hcause]
  case internal => simp only [worded, (String.append_right_inj _).1 hcause]

end LoweringError

theorem Diagnostic.ofError_worded (e : LoweringError) : ofError e.worded = ofError e := by
  cases e <;> rfl

/-- Errors are reported alike exactly if they are told alike. -/
theorem Diagnostic.ofError_eq_iff (e e' : LoweringError) :
    ofError e = ofError e' ↔ e.worded = e'.worded := by
  constructor
  · intro h
    have hspan : e.span = e'.span := congrArg Diagnostic.span h
    have hmessage : e.message = e'.message := congrArg Diagnostic.message h
    rw [LoweringError.message, LoweringError.message, hspan] at hmessage
    exact LoweringError.worded_eq_worded (congrArg Diagnostic.code h) hspan
      ((String.append_right_inj _).1 hmessage)
  · intro h
    rw [← ofError_worded e, h, ofError_worded]

/-! ## Calls, one after the other -/

/-- An assignment to be lowered. -/
structure Call where
  cx : Context
  usage : Usage
  assignment : Assignment Expr
  span : Span

/-- A call in the session in which it is made. -/
structure Exchange where
  session : Session
  call : Call

namespace Exchange

variable (x : Exchange)

def answer : LoweredAssignment × Session :=
  x.session.assign x.call.cx x.call.usage x.call.assignment x.call.span

/-- What the call contributes to the body. -/
def output : LoweredAssignment := x.answer.1

/-- The session that the call leaves. -/
def after : Session := x.answer.2

/-- The error that the lowering fails with, if it fails. -/
def error? : Option LoweringError :=
  failureAt (lowerAssignment x.call.cx x.call.usage x.call.assignment x.call.span)
    x.session.temps

end Exchange

namespace Session

/-- Calls made one after the other, each in the session that the one before it left. -/
def exchanges : Session → List Call → List Exchange
  | _, [] => []
  | s, c :: rest => ⟨s, c⟩ :: exchanges (Exchange.after ⟨s, c⟩) rest

/-- The session in which calls made one after the other end. -/
def after : Session → List Call → Session
  | s, [] => s
  | s, c :: rest => after (Exchange.after ⟨s, c⟩) rest

end Session

theorem LoweredAssignment.isEmpty_ofLowered (usage : Usage) (v : Lowered) :
    (LoweredAssignment.ofLowered usage v).isEmpty = false := by
  cases usage <;> simp [ofLowered, isEmpty]

/-- Exactly the calls that fail contribute nothing. -/
theorem Exchange.isEmpty_output_iff (x : Exchange) :
    x.output.isEmpty = true ↔ x.error?.isSome = true := by
  unfold output answer Session.assign error? failureAt
  cases lowerAssignment x.call.cx x.call.usage x.call.assignment x.call.span x.session.temps with
  | ok v n => simp [LoweredAssignment.isEmpty_ofLowered]
  | error e n => simp [LoweredAssignment.isEmpty]

/-- A call that fails adds its error to the diagnostics, one that succeeds adds nothing. -/
theorem Exchange.diagnostics_after (x : Exchange) :
    x.after.diagnostics.toList =
      x.session.diagnostics.toList ++ x.error?.toList.map Diagnostic.ofError := by
  unfold after answer Session.assign error? failureAt
  cases lowerAssignment x.call.cx x.call.usage x.call.assignment x.call.span x.session.temps with
  | ok v n => simp
  | error e n => simp

/-- The diagnostics of a body are the errors of the calls that failed, in their order. -/
theorem Session.diagnostics_after (calls : List Call) : ∀ s : Session,
    (s.after calls).diagnostics.toList = s.diagnostics.toList ++
      ((s.exchanges calls).filterMap Exchange.error?).map Diagnostic.ofError := by
  induction calls with
  | nil => simp [after, exchanges]
  | cons c calls ih =>
    intro s
    rw [after, exchanges, ih, Exchange.diagnostics_after, List.append_assoc]
    cases h : Exchange.error? ⟨s, c⟩ <;> simp [h]

/-- **Failures are reported once, and do not depend on usage.** Of the calls of a body,
exactly those that fail contribute nothing; each of them adds the diagnostic of its error,
the others add none, so that the diagnostics of the body are those of the failed calls in
order. The diagnostic of an error is of severity error and has its code, its text and its
place: the code is shared only with errors of the same sort, and the whole only with errors
that are told alike. And an assignment whose value is wanted fails exactly if it fails where
the value is not wanted, with the same error, at any two counts of temporaries. -/
theorem Session.run_reports (s : Session) (calls : List Call) :
    (∀ x ∈ s.exchanges calls,
      (x.output.isEmpty = true ↔ x.error?.isSome = true) ∧
        x.after.diagnostics.toList =
          x.session.diagnostics.toList ++ x.error?.toList.map Diagnostic.ofError) ∧
    (s.after calls).diagnostics.toList = s.diagnostics.toList ++
      ((s.exchanges calls).filterMap Exchange.error?).map Diagnostic.ofError ∧
    (∀ e e' : LoweringError, (Diagnostic.ofError e).Reports e ∧
      (e.code = e'.code ↔ e.ctorIdx = e'.ctorIdx) ∧
      (Diagnostic.ofError e = Diagnostic.ofError e' ↔ e.worded = e'.worded)) ∧
    ∀ (cx : Context) (a : Assignment Expr) (span : Span) (n n' : Nat),
      failureAt (lowerAssignment cx .used a span) n =
        failureAt (lowerAssignment cx .discarded a span) n' := by
  refine ⟨fun x _ => ⟨x.isEmpty_output_iff, x.diagnostics_after⟩,
    Session.diagnostics_after calls s, fun e e' => ⟨Diagnostic.reports_ofError e,
      e.code_eq_code_iff e', Diagnostic.ofError_eq_iff e e'⟩, fun cx a span n n' => ?_⟩
  rw [failureAt_lowerAssignment, failureAt_lowerAssignment]

open Sample in
/-- A dynamic subscript without an index fails; what stands before and behind it does not. -/
example :
    (Session.exchanges {} [⟨context .reference, .used, ⟨field "f", .assign, this⟩, {}⟩,
        ⟨context .reference, .used, ⟨⟨.place (.dynamicIndex this []), {}⟩, .assign, this⟩, {}⟩,
        ⟨context .reference, .discarded, ⟨field "g", .assign, this⟩, {}⟩]).map
      (fun x => (x.output.isEmpty, x.error?)) =
    [(false, none), (true, some (.dynamicArity 0 {})), (false, none)] := by
  decide

end AssignmentLowering
