import Governance.Lib.Utf8Text
import Governance.Lib.Utf8Decode
import Governance.Lib.KeyedMap
import Governance.Lib.ByteLines
import Governance.Redact.Json
import Governance.Redact.Engine
import Governance.Redact.HoldBack
import Governance.Redact.Streaming
import Governance.Redact.Slots
import Governance.Redact.Sse
import Governance.Redact.Sse.Choice
import Governance.Redact.Sse.Queue
import Governance.Redact.Sse.Undrained
import Governance.Redact.Sse.Flush
import Governance.Redact.Sse.Chunking
import Governance.Redact.Sse.Conservation
import Governance.Extproc.PushAndFlush
import Governance.Redact.Payload
import Governance.Redact.Coverage
import Governance.Gateway.Streaming
import Governance.Gateway.Delivery
import Governance.Gateway.Handle
import Governance.Spool.Tail
import Governance.Lib.Base64
import Governance.Spool.Envelope
import Governance.Spool.Durable
import Governance.Spool.Refusals
import Governance.Spool.Layout
import Governance.Spool.Steps
import Governance.Spool.World
import Governance.Spool.Concurrency
import Governance.Spool.Crash
import Governance.Spool.Fifo
import Governance.Lib.Table
import Governance.Core.Schema
import Governance.Core.Identity
import Governance.Ingest.Telemetry
import Governance.Ingest.Batch
import Governance.Ingest.Idempotence
import Governance.Ingest.Estimate
import Governance.Ingest.Confinement
import Governance.Copilot.Report
import Governance.Copilot.Store
import Governance.Copilot.Ids
import Governance.Copilot.Replay
import Governance.Otel.Enrich
import Governance.Otel.Request
import Governance.Otel.Wedge
import Governance.Otel.Drain
import Governance.Otel.Evidence
import Governance.CopilotPush.Export
import Governance.CopilotPush.Sweep
import Governance.CopilotPush.Steps
import Governance.CopilotPush.Charge
import Governance.CopilotPush.LossCount
import Governance.Copilot.Backfill
import Governance.Copilot.Independence
import Governance.Copilot.Kpis
import Governance.Copilot.Seats
import Governance.Resolve.Handle
import Governance.Resolve.Revocation
import Governance.Auth.FileLock
import Governance.Core.Migrate
import Governance.Auth.Session
import Governance.Auth.HelperTokens
import Governance.Auth.SpentOnce
import Governance.Lib.Documents
import Governance.Managed.Settings
import Governance.Managed.Configure
import Governance.Managed.Retraction
import Governance.Copilot.Cutover
import Governance.Copilot.Decommission
import Governance.Redact.Locality
import Governance.Redact.WholeText
import Governance.Api.Metrics
import Governance.Auth.Endpoints
import Governance.Ide.Catalogue
import Governance.Otel.CodexScan
import Governance.Otel.Workers
import Governance.Managed.OptOut
import Governance.Managed.Ledger
import Governance.Config.Resolve
import Governance.Config.Remember
import Governance.CopilotPush.Conserve
import Governance.Spool.Unstick
import Governance.CopilotPush.Rotation
import Governance.CopilotPush.Reclaim
import Governance.CopilotPush.Once
import Governance.CopilotPush.OnePass
import Governance.Redact.Frame
import Governance.Otel.Lookahead
import Governance.CopilotPush.Batch
import Governance.Otel.Normalize
import Governance.CopilotPush.BatchConserve
import Governance.Extproc.Answers
import Governance.Extproc.FailOpen
import Governance.Redact.SlotTexts
import Governance.Redact.ScanSse
import Governance.Redact.ScanOnce
import Governance.Redact.Sse.Batches
import Governance.Redact.Sse.Delivered
import Governance.Redact.JsonSize
import Governance.Redact.Sse.Lag
import Governance.Redact.Sse.Memory
import Governance.Lib.StableSort
import Governance.Lib.Outcome
import Governance.Lib.Cutting
import Governance.Lib.LinkHeader
import Governance.Lib.Utf8Stream
import Governance.Core.Directory
import Governance.Ingest.RowIds
import Governance.Ingest.Mismatch
import Governance.Resolve.TokenReview
import Governance.Emit.Encode
import Governance.Emit.Numbers
import Governance.Emit.Strict
import Governance.Copilot.Pagination
import Governance.Copilot.Listing
import Governance.Foundry.Otlp
import Governance.Foundry.Normalizers
import Governance.Foundry.Conserve
import Governance.Ide.Sse
import Governance.Ide.JsonParse
import Governance.Ide.Stream
import Governance.Ide.CutShort
import Governance.Lib.Utf8Completable
import Governance.Extproc.Carry
import Governance.Redact.Sse.BestCut
import Governance.Lib.PercentCoding
import Governance.Otel.ResourceAttributes
import Governance.Otel.Annotate
import Governance.Lib.Markers
import Governance.Otel.Rc
import Governance.Lib.SemVer
import Governance.Update.Newer
import Governance.Update.Run
import Governance.Lib.EventStream
import Governance.Ide.Framing
import Governance.CopilotPush.Blank
import Governance.CopilotPush.Wake
import Governance.Lib.QuotedWords
import Governance.Lib.ShellWords
import Governance.Lib.SystemdUnit
import Governance.Lib.XmlText
import Governance.Schedule.CommandLines
import Governance.Logging.Rotate
import Governance.State.DurableState
import Governance.Otel.Pump
import Governance.Extproc.Agree
import Governance.Auth.AuthCode
import Governance.Auth.DeviceFlow
import Governance.Copilot.Client
import Governance.Ide.Messages
import Governance.Ide.Retry
import Governance.Lib.Retry
import Governance.Resolve.Registry
import Governance.Resolve.Serving
