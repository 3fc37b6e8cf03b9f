import AgentHub.Agreement
import AgentHub.Arbitration
import AgentHub.Audit
import AgentHub.AuditFile
import AgentHub.AuditOrder
import AgentHub.Bodiless
import AgentHub.BodyFidelity
import AgentHub.Bounces
import AgentHub.Causality
import AgentHub.Client
import AgentHub.Connection
import AgentHub.Conservation
import AgentHub.Conversation
import AgentHub.Custody
import AgentHub.Deliverable
import AgentHub.DeliveryRecords
import AgentHub.Dialogue
import AgentHub.Envelope
import AgentHub.EnvelopeWriting
import AgentHub.EventualDelivery
import AgentHub.ExitCodes
import AgentHub.Fifo
import AgentHub.Follower
import AgentHub.Handoff
import AgentHub.Heard
import AgentHub.HelloDiagnostics
import AgentHub.HelloErrors
import AgentHub.HelloTwins
import AgentHub.Hub
import AgentHub.HubSteps
import AgentHub.Identity
import AgentHub.Interference
import AgentHub.Invocation
import AgentHub.Isolation
import AgentHub.Journal
import AgentHub.Ledger
import AgentHub.Lib.Custody
import AgentHub.Lib.Json
import AgentHub.Lib.JsonLike
import AgentHub.Lib.JsonReader
import AgentHub.Lib.JsonRecords
import AgentHub.Lib.LeftmostMax
import AgentHub.Lib.Lines
import AgentHub.Lib.Machine
import AgentHub.Lib.Marks
import AgentHub.Lib.Paths
import AgentHub.Lib.PrunedMap
import AgentHub.Lib.Renaming
import AgentHub.Lib.Shadow
import AgentHub.Lib.Split
import AgentHub.Lib.Tagged
import AgentHub.Lib.Trace
import AgentHub.Lib.Utf8
import AgentHub.Lifetimes
import AgentHub.LineIo
import AgentHub.LineReading
import AgentHub.Mailbox
import AgentHub.Matching
import AgentHub.Noninterference
import AgentHub.Outcomes
import AgentHub.PartialDelivery
import AgentHub.PeerClosed
import AgentHub.Progress
import AgentHub.Refinement
import AgentHub.Refusals
import AgentHub.Registry
import AgentHub.Replies
import AgentHub.Representation
import AgentHub.Roster
import AgentHub.RoundTrip
import AgentHub.Routing
import AgentHub.Sample
import AgentHub.Secrecy
import AgentHub.Selection
import AgentHub.Serde
import AgentHub.ServiceFile
import AgentHub.ServiceLog
import AgentHub.Session
import AgentHub.SessionRuns
import AgentHub.Startup
import AgentHub.TaskRuns
import AgentHub.TaskSteps
import AgentHub.Timeout
import AgentHub.TokenFile
import AgentHub.Veil
import AgentHub.Watcher
import AgentHub.Wire
import AgentHub.Wraparound
