import JobPipeline.Document.Json
import JobPipeline.Draft
import JobPipeline.Main
import JobPipeline.Source.Json
import JobPipeline.Proofs.Document.Leading
import JobPipeline.Proofs.Import.Reimport
import JobPipeline.Proofs.Plan.Retargeting
import JobPipeline.Proofs.Simulation.Options
import JobPipeline.Proofs.Graph.Course
import JobPipeline.Proofs.Simulation.Steps
import JobPipeline.Proofs.Simulation.Moves
import JobPipeline.Proofs.Graph.Stages
import JobPipeline.Proofs.Simulation.Consistency
import JobPipeline.Proofs.Simulation.Variables
import JobPipeline.Proofs.Simulation.Walkthrough
import JobPipeline.Proofs.Simulation.Asking
import JobPipeline.Proofs.Simulation.Waiting
import JobPipeline.Proofs.Graph.Anchored
import JobPipeline.Proofs.Snapshot.Drawing
import JobPipeline.Proofs.Snapshot.Restoring
import JobPipeline.Proofs.Snapshot.RoundTrip
import JobPipeline.Proofs.Workspace.Edits
import JobPipeline.Proofs.Workspace.Document
import JobPipeline.Proofs.Snapshot.Numbering
import JobPipeline.Proofs.Source.Declared
import JobPipeline.Proofs.Source.Rebuilding
import JobPipeline.Proofs.Source.Tokens
import JobPipeline.Proofs.Source.Writing
import JobPipeline.Proofs.Disk.Paths
import JobPipeline.Proofs.Store.Arranging
import JobPipeline.Proofs.Store.Shelves
import JobPipeline.Proofs.Store.Histories
import JobPipeline.Proofs.Json.Printing
import JobPipeline.Proofs.Job.Verdicts
import JobPipeline.Proofs.Simulation.References
import JobPipeline.Proofs.Plan.Foremost
import JobPipeline.Proofs.Simulation.Telling
import JobPipeline.Proofs.Graph.Counting
import JobPipeline.Proofs.Graph.Closing
import JobPipeline.Proofs.Graph.Deleting
import JobPipeline.Proofs.Snapshot.Cycles
import JobPipeline.Proofs.Json.Numerals
import JobPipeline.Proofs.Json.Reading
import JobPipeline.Proofs.Simulation.Replaying
import JobPipeline.Proofs.Field.Renaming
import JobPipeline.Proofs.Field.Highlighting
import JobPipeline.Proofs.Task.Lifecycle
import JobPipeline.Proofs.Graph.Inverses
import JobPipeline.Proofs.Field.Lines
import JobPipeline.Proofs.Field.Collapsing
import JobPipeline.Proofs.Source.Places
import JobPipeline.Proofs.Source.Chains
import JobPipeline.Proofs.Number.Exact
import JobPipeline.Proofs.Layout.Rows
import JobPipeline.Proofs.Layout.Places
import JobPipeline.Proofs.Document.Quotes
import JobPipeline.Proofs.Job.Lifting
import JobPipeline.Proofs.Store.Interrupting
import JobPipeline.Proofs.Disk.Removing
import JobPipeline.Proofs.Store.Removing
import JobPipeline.Proofs.Source.Values
import JobPipeline.Proofs.Service.Replies
import JobPipeline.Proofs.Field.Spans
import JobPipeline.Proofs.Graph.Naming
