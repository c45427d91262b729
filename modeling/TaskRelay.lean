import TaskRelay.Cancellation
import TaskRelay.Decimal.Shortest
import TaskRelay.Entry
import TaskRelay.Handler.Error
import TaskRelay.Handler.Limit
import TaskRelay.Handler.Script
import TaskRelay.Handoff.Basic
import TaskRelay.Handoff.Bell
import TaskRelay.Journal
import TaskRelay.Json.Basic
import TaskRelay.Json.Number
import TaskRelay.Json.Printer
import TaskRelay.Json.Reader
import TaskRelay.Json.Record
import TaskRelay.Json.Scanner
import TaskRelay.Main
import TaskRelay.Progress
import TaskRelay.Proofs.Decimal.Powers
import TaskRelay.Proofs.Decimal.Rounding
import TaskRelay.Proofs.Decimal.Shortest
import TaskRelay.Proofs.Delivery.Again
import TaskRelay.Proofs.Delivery.InOrder
import TaskRelay.Proofs.Delivery.Ledger
import TaskRelay.Proofs.Delivery.Once
import TaskRelay.Proofs.Delivery.Orphans
import TaskRelay.Proofs.Delivery.Pending
import TaskRelay.Proofs.Delivery.Requeue
import TaskRelay.Proofs.Fitting
import TaskRelay.Proofs.Handoff.Conservation
import TaskRelay.Proofs.Handoff.Session
import TaskRelay.Proofs.Handoff.Slot
import TaskRelay.Proofs.Handoff.Wakeup
import TaskRelay.Proofs.Json.Doubles
import TaskRelay.Proofs.Json.Parsed
import TaskRelay.Proofs.Json.Quoted
import TaskRelay.Proofs.Json.Records
import TaskRelay.Proofs.Json.Reread
import TaskRelay.Proofs.Json.Tokens
import TaskRelay.Proofs.Json.Utf8
import TaskRelay.Proofs.Json.Values
import TaskRelay.Proofs.Json.Whole
import TaskRelay.Proofs.Json.Written
import TaskRelay.Proofs.Runner.Acts
import TaskRelay.Proofs.Runner.Admission
import TaskRelay.Proofs.Runner.Annals
import TaskRelay.Proofs.Runner.Dispatch
import TaskRelay.Proofs.Runner.Drain
import TaskRelay.Proofs.Runner.Happenings
import TaskRelay.Proofs.Runner.Passes
import TaskRelay.Proofs.Runner.Permits
import TaskRelay.Proofs.Runner.Record
import TaskRelay.Proofs.Runner.Steps
import TaskRelay.Proofs.Runner.Turns
import TaskRelay.Proofs.Runner.Works
import TaskRelay.Proofs.Server.Labels
import TaskRelay.Proofs.Server.Reading
import TaskRelay.Proofs.Server.Session
import TaskRelay.Proofs.Server.Verdicts
import TaskRelay.Proofs.Settings.Addresses
import TaskRelay.Proofs.Settings.Nodes
import TaskRelay.Proofs.Settings.Padding
import TaskRelay.Proofs.Settings.Variables
import TaskRelay.Proofs.Store.Additions
import TaskRelay.Proofs.Store.Atomic
import TaskRelay.Proofs.Store.Calls
import TaskRelay.Proofs.Store.Citations
import TaskRelay.Proofs.Store.Closed
import TaskRelay.Proofs.Store.Desk
import TaskRelay.Proofs.Store.Group
import TaskRelay.Proofs.Store.Handing
import TaskRelay.Proofs.Store.History
import TaskRelay.Proofs.Store.Hours
import TaskRelay.Proofs.Store.Notices
import TaskRelay.Proofs.Store.Number
import TaskRelay.Proofs.Store.Quiet
import TaskRelay.Proofs.Store.Readers
import TaskRelay.Proofs.Store.Shelf
import TaskRelay.Proofs.Store.Sound
import TaskRelay.Proofs.Task.Identifier
import TaskRelay.Proofs.Task.Members
import TaskRelay.Proofs.Task.RoundTrip
import TaskRelay.Proofs.Text.Cuts
import TaskRelay.Proofs.Text.Integers
import TaskRelay.Proofs.Text.Percent
import TaskRelay.Proofs.Traversal
import TaskRelay.Proofs.Worker.Attention
import TaskRelay.Proofs.Worker.Closing
import TaskRelay.Proofs.Worker.Intake
import TaskRelay.Proofs.Worker.Life
import TaskRelay.Proofs.Worker.Resilience
import TaskRelay.Proofs.Worker.Stopping
import TaskRelay.Proofs.Worker.Watch
import TaskRelay.Proofs.Worker.Window
import TaskRelay.Proofs.Worker.Work
import TaskRelay.Proofs.World.Agents
import TaskRelay.Proofs.World.Bystanders
import TaskRelay.Proofs.World.Chronicle
import TaskRelay.Proofs.World.Clock
import TaskRelay.Proofs.World.Drops
import TaskRelay.Proofs.World.Farewell
import TaskRelay.Proofs.World.Flow
import TaskRelay.Proofs.World.Goes
import TaskRelay.Proofs.World.Intakes
import TaskRelay.Proofs.World.Lifecycle
import TaskRelay.Proofs.World.Lives
import TaskRelay.Proofs.World.Loops
import TaskRelay.Proofs.World.Moves
import TaskRelay.Proofs.World.Postings
import TaskRelay.Proofs.World.Publications
import TaskRelay.Proofs.World.Refinement
import TaskRelay.Proofs.World.Refusal
import TaskRelay.Proofs.World.Requests
import TaskRelay.Proofs.World.Signals
import TaskRelay.Proofs.World.Takers
import TaskRelay.Proofs.World.Visitors
import TaskRelay.Runner.Basic
import TaskRelay.Server.Endpoint
import TaskRelay.Server.Fault
import TaskRelay.Server.Label
import TaskRelay.Server.Link
import TaskRelay.Server.Operation
import TaskRelay.Server.Reply
import TaskRelay.Server.Url
import TaskRelay.Settings.Connection
import TaskRelay.Settings.EnvFile
import TaskRelay.Settings.Environment
import TaskRelay.Settings.Runner
import TaskRelay.Settings.Stream
import TaskRelay.Span
import TaskRelay.Startup
import TaskRelay.Store.Call
import TaskRelay.Store.Error
import TaskRelay.Store.Log
import TaskRelay.Table
import TaskRelay.Task
import TaskRelay.Text.Alphanumeric
import TaskRelay.Text.Blank
import TaskRelay.Text.Cut
import TaskRelay.Text.Hex
import TaskRelay.Text.Integer
import TaskRelay.Text.Percent
import TaskRelay.Uuid
import TaskRelay.Worker.Basic
import TaskRelay.Worker.Consumer
import TaskRelay.Worker.Error
import TaskRelay.Worker.Execution
import TaskRelay.Worker.Publish
import TaskRelay.Worker.Request
import TaskRelay.Worker.Shutdown
import TaskRelay.World.Basic
import TaskRelay.World.Scenario
import TaskRelay.World.Schedule
import TaskRelay.World.Step
