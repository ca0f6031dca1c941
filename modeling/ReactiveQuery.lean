import ReactiveQuery.Session.Start
import ReactiveQuery.Proofs.Activity
import ReactiveQuery.Proofs.Query.Direct
import ReactiveQuery.Proofs.Value.Plain
import ReactiveQuery.Proofs.Regex.Reuse
import ReactiveQuery.Proofs.Query.Folding
import ReactiveQuery.Proofs.Live.Missed
import ReactiveQuery.Proofs.Bus.Net
import ReactiveQuery.Proofs.Live.Traceless
import ReactiveQuery.Proofs.Live.Cascade
import ReactiveQuery.Proofs.Live.Following
import ReactiveQuery.Proofs.Bus.Ceiling
import ReactiveQuery.Proofs.Frame.Operation
import ReactiveQuery.Proofs.Session.Assign
import ReactiveQuery.Proofs.Sort.Rows
import ReactiveQuery.Proofs.Query.Freezing
import ReactiveQuery.Proofs.Query.Literals
import ReactiveQuery.Proofs.Value.Coherence
import ReactiveQuery.Proofs.Live.Noninterference
import ReactiveQuery.Proofs.Sort.Columns
import ReactiveQuery.Proofs.Query.Pipeline
import ReactiveQuery.Proofs.Text.Layout
import ReactiveQuery.Proofs.Text.Grammar
import ReactiveQuery.Proofs.Change.DirtySet
import ReactiveQuery.Proofs.Change.History
import ReactiveQuery.Proofs.Bus.Scheduling
import ReactiveQuery.Proofs.Bus.Nesting
import ReactiveQuery.Proofs.Change.Roll
import ReactiveQuery.Proofs.Engine.Reporting
import ReactiveQuery.Proofs.Bus.Declared
import ReactiveQuery.Proofs.Value.Sameness
import ReactiveQuery.Proofs.Change.Fold
import ReactiveQuery.Proofs.Sort.Once
import ReactiveQuery.Proofs.Value.Position
import ReactiveQuery.Proofs.Value.Ending
