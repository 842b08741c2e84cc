import Concolic.Body.Basic
import Concolic.Body.Builder
import Concolic.Body.Instruction
import Concolic.Clause
import Concolic.Codec.Description
import Concolic.Codec.Event
import Concolic.Codec.Instruction
import Concolic.Codec.Observed
import Concolic.Codec.Record
import Concolic.Codec.Term
import Concolic.Codec.Ty
import Concolic.Codec.Value
import Concolic.Config
import Concolic.Constant
import Concolic.Description.Basic
import Concolic.Description.Describe
import Concolic.Dispatch
import Concolic.Error
import Concolic.Fp.Basic
import Concolic.Fp.Decimal
import Concolic.Fp.Round
import Concolic.Hierarchy.Basic
import Concolic.Hierarchy.Merge
import Concolic.Hierarchy.Subtype
import Concolic.Json.Basic
import Concolic.Json.Number
import Concolic.Json.Part
import Concolic.Json.Read
import Concolic.Json.Write
import Concolic.Method
import Concolic.Observed.Basic
import Concolic.Observed.Compare
import Concolic.Operator
import Concolic.Predicate.Basic
import Concolic.Predicate.Build
import Concolic.Program
import Concolic.Record
import Concolic.Registry
import Concolic.Summary.Basic
import Concolic.Summary.Traversal
import Concolic.Table
import Concolic.Term.Basic
import Concolic.Term.Build
import Concolic.Term.Kind
import Concolic.Term.Rebuild
import Concolic.Term.Traversal
import Concolic.Text.Blank
import Concolic.Text.Escape
import Concolic.Text.Hidden
import Concolic.Tracer.Action
import Concolic.Tracer.Basic
import Concolic.Tracer.Event
import Concolic.Tracer.Guard
import Concolic.Tracer.Run
import Concolic.Tracer.Step
import Concolic.Ty.Basic
import Concolic.Ty.Parse
import Concolic.Value
import Concolic.Proofs.Term
import Concolic.Proofs.Fp.Text
import Concolic.Proofs.Fp.Round
import Concolic.Proofs.Fp.Shortest
import Concolic.Proofs.Json.Number
import Concolic.Proofs.Json.Text
import Concolic.Proofs.Json.Part
import Concolic.Proofs.Codec.Flags
import Concolic.Proofs.Term.Built
import Concolic.Proofs.Term.Atom
import Concolic.Proofs.Term.Rename
import Concolic.Proofs.Predicate
import Concolic.Proofs.Summary
import Concolic.Proofs.Program
import Concolic.Proofs.Body
import Concolic.Proofs.Naming
import Concolic.Proofs.Tracer.Learn
import Concolic.Proofs.Tracer.Contribution
import Concolic.Proofs.Tracer.Handler
import Concolic.Proofs.Tracer.Output
import Concolic.Proofs.Tracer.Position
import Concolic.Proofs.Tracer.Follow
import Concolic.Proofs.Tracer.Nesting
import Concolic.Proofs.Tracer.Suppression
import Concolic.Proofs.Tracer.Callback
import Concolic.Proofs.Tracer.Change
import Concolic.Proofs.Tracer.Handling
import Concolic.Proofs.Tracer.Transition
import Concolic.Proofs.Tracer.Silence
import Concolic.Proofs.Tracer.Locality
import Concolic.Proofs.Tracer.Inlining
import Concolic.Proofs.Tracer.Kept
import Concolic.Proofs.Tracer.Fresh
import Concolic.Proofs.Tracer.Entry
import Concolic.Proofs.Tracer.Decision
import Concolic.Proofs.Tracer.Recorded
import Concolic.Proofs.Tracer.Atoms
import Concolic.Proofs.Tracer.Formed
import Concolic.Proofs.Tracer.Condition
import Concolic.Proofs.Tracer.Guarded
import Concolic.Proofs.Tracer.View
import Concolic.Proofs.Tracer.Parallel
import Concolic.Proofs.Tracer.Steady
import Concolic.Proofs.Tracer.Skipping
import Concolic.Proofs.Record
import Concolic.Proofs.Codec.Description
import Concolic.Proofs.Codec.Term
import Concolic.Proofs.Codec.Record
import Concolic.Proofs.Hierarchy
import Concolic.Proofs.Tracer.Ending
import Concolic.Proofs.Tracer.Snapshot
import Concolic.Proofs.Tracer.Unwinding
import Concolic.Proofs.Tracer.Protection
import Concolic.Proofs.Tracer.Allocation
import Concolic.Proofs.Tracer.Once
import Concolic.Proofs.Tracer.Typing
import Concolic.Proofs.Tracer.Departure
import Concolic.Proofs.Tracer.Evaluation
import Concolic.Proofs.Tracer.Merging
import Concolic.Proofs.Tracer.Switching
import Concolic.Proofs.Tracer.Bounds
import Concolic.Proofs.Tracer.Lambda
import Concolic.Proofs.Term.Faithful
import Concolic.Proofs.Hierarchy.Subtype
import Concolic.Proofs.Hierarchy.Superclass
import Concolic.Proofs.Hierarchy.Merge
import Concolic.Proofs.Ty.Descriptor
import Concolic.Proofs.Ty.Spelling
import Concolic.Proofs.Term.Method
import Concolic.Proofs.Method
import Concolic.Proofs.Constant
import Concolic.Proofs.Description.Depth
import Concolic.Proofs.Description.Sharing
import Concolic.Proofs.Summary.Join
import Concolic.Proofs.Summary.Collect
import Concolic.Proofs.Tracer.CallTrace
