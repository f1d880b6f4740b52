import AssignmentLowering.CopyRule
import AssignmentLowering.Diagnostic
import AssignmentLowering.Expr.Basic
import AssignmentLowering.Expr.Effects
import AssignmentLowering.Expr.Fold
import AssignmentLowering.Expr.Induction
import AssignmentLowering.Lowering.Address
import AssignmentLowering.Lowering.Assignment
import AssignmentLowering.Lowering.Basic
import AssignmentLowering.Lowering.Expr
import AssignmentLowering.Lowering.Sequence
import AssignmentLowering.Lowering.Session
import AssignmentLowering.Metadata.Basic
import AssignmentLowering.Metadata.Registry
import AssignmentLowering.Number.Binary64
import AssignmentLowering.Number.Shortest
import AssignmentLowering.Operator
import AssignmentLowering.Proofs.Effects.Access
import AssignmentLowering.Proofs.Effects.Conservation
import AssignmentLowering.Proofs.Effects.Covering
import AssignmentLowering.Proofs.Effects.Event
import AssignmentLowering.Proofs.Effects.Fresh
import AssignmentLowering.Proofs.Effects.Handover
import AssignmentLowering.Proofs.Effects.Indexer
import AssignmentLowering.Proofs.Effects.Moment
import AssignmentLowering.Proofs.Effects.OldValue
import AssignmentLowering.Proofs.Effects.Order
import AssignmentLowering.Proofs.Effects.OwnRead
import AssignmentLowering.Proofs.Effects.OwnedStore
import AssignmentLowering.Proofs.Effects.OwnedTarget
import AssignmentLowering.Proofs.Effects.Ownership
import AssignmentLowering.Proofs.Effects.Quiet
import AssignmentLowering.Proofs.Effects.Reuse
import AssignmentLowering.Proofs.Effects.Sharing
import AssignmentLowering.Proofs.Effects.ShortCircuit
import AssignmentLowering.Proofs.Effects.Snapshot
import AssignmentLowering.Proofs.Effects.StoreResult
import AssignmentLowering.Proofs.Expr.Annotate
import AssignmentLowering.Proofs.Lowering.Actions
import AssignmentLowering.Proofs.Lowering.Assigned
import AssignmentLowering.Proofs.Lowering.Bounds
import AssignmentLowering.Proofs.Lowering.CandidateOrder
import AssignmentLowering.Proofs.Lowering.Candidates
import AssignmentLowering.Proofs.Lowering.Chain
import AssignmentLowering.Proofs.Lowering.Comparison
import AssignmentLowering.Proofs.Lowering.Count
import AssignmentLowering.Proofs.Lowering.Cursor
import AssignmentLowering.Proofs.Lowering.Declared
import AssignmentLowering.Proofs.Lowering.Evaluated
import AssignmentLowering.Proofs.Lowering.Failure
import AssignmentLowering.Proofs.Lowering.Faults
import AssignmentLowering.Proofs.Lowering.Forms
import AssignmentLowering.Proofs.Lowering.Independence
import AssignmentLowering.Proofs.Lowering.Normalized
import AssignmentLowering.Proofs.Lowering.Numbering
import AssignmentLowering.Proofs.Lowering.Renumbering
import AssignmentLowering.Proofs.Lowering.Reporting
import AssignmentLowering.Proofs.Lowering.Respelled
import AssignmentLowering.Proofs.Lowering.Sample
import AssignmentLowering.Proofs.Lowering.Stable
import AssignmentLowering.Proofs.Lowering.Steps
import AssignmentLowering.Proofs.Lowering.Temporaries
import AssignmentLowering.Proofs.Lowering.Untouched
import AssignmentLowering.Proofs.Meaning.Access
import AssignmentLowering.Proofs.Meaning.Operands
import AssignmentLowering.Proofs.Meaning.Preservation
import AssignmentLowering.Proofs.Meaning.Reached
import AssignmentLowering.Proofs.Meaning.Script
import AssignmentLowering.Proofs.Meaning.Source
import AssignmentLowering.Proofs.Meaning.Stores
import AssignmentLowering.Proofs.Meaning.Targets
import AssignmentLowering.Proofs.Metadata.Registrations
import AssignmentLowering.Proofs.Number.Integer
import AssignmentLowering.Proofs.Number.Rounding
import AssignmentLowering.Proofs.Number.Shortest
import AssignmentLowering.Proofs.Script.Calls
import AssignmentLowering.Proofs.Script.Grammar
import AssignmentLowering.Proofs.Script.Literal
import AssignmentLowering.Proofs.Script.Printed
import AssignmentLowering.Proofs.Script.Quotation
import AssignmentLowering.Proofs.Script.Reading
import AssignmentLowering.Proofs.Script.Rename
import AssignmentLowering.Proofs.Script.Signed
import AssignmentLowering.Proofs.Script.Survival
import AssignmentLowering.Proofs.Script.Template
import AssignmentLowering.Proofs.Script.Token
import AssignmentLowering.Proofs.Symbol.Separation
import AssignmentLowering.Proofs.Target.Binding
import AssignmentLowering.Proofs.Target.CallSite
import AssignmentLowering.Proofs.Target.Candidates
import AssignmentLowering.Proofs.Target.Classified
import AssignmentLowering.Proofs.Target.Evaluation
import AssignmentLowering.Proofs.Target.Failure
import AssignmentLowering.Proofs.Target.Indexed
import AssignmentLowering.Proofs.Target.Location
import AssignmentLowering.Proofs.Target.Map
import AssignmentLowering.Proofs.Target.Normalized
import AssignmentLowering.Proofs.Target.Placeholders
import AssignmentLowering.Proofs.Target.Respelled
import AssignmentLowering.RuntimeNames
import AssignmentLowering.Script.Basic
import AssignmentLowering.Script.Printer
import AssignmentLowering.Span
import AssignmentLowering.Symbol.Basic
import AssignmentLowering.Symbol.Digest
import AssignmentLowering.Symbol.Identity
import AssignmentLowering.Target.Access
import AssignmentLowering.Target.Basic
import AssignmentLowering.Target.Classify
import AssignmentLowering.Target.Kind
import AssignmentLowering.Template
