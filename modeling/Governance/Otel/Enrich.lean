import Governance.Spool.Envelope

/-!
# What the daemon adds to a request

`source_stamp.rs`, `source_stamp/metrics.rs` and `codex_cost.rs`: an OTLP request is decoded,
some resources get a `governance.source` attribute, some log records an estimate of their
cost, and the request is encoded again. A request in which nothing is added keeps its bytes.

The OTLP messages have the fields these functions read or write. All other fields of a message
are one value of a type `ρ`, and the encoders and decoders of the messages belong to other
crates: a `RequestCodec` carries them.
-/

namespace Governance

open Utf8Text ByteLines

namespace Otlp

variable (ρ : Type)

/-- `any_value::Value`. -/
inductive Value where
  | stringValue (s : String)
  | intValue (i : ℤ)
  | other (value : ρ)

/-- `common::v1::KeyValue`: the value is optional, and so is what an `AnyValue` holds. -/
structure KeyValue where
  key : String
  value : Option (Option (Value ρ))
  rest : ρ

/-- `resource::v1::Resource`. -/
structure Resource where
  attributes : List (KeyValue ρ)
  rest : ρ

/-- `logs::v1::LogRecord`. -/
structure LogRecord where
  attributes : List (KeyValue ρ)
  rest : ρ

/-- `metrics::v1::Metric`. -/
structure Metric where
  name : String
  rest : ρ

/-- `ScopeLogs` and `ScopeMetrics`. -/
structure Scope (α : Type) where
  items : List α
  rest : ρ

/-- `ResourceLogs` and `ResourceMetrics`. -/
structure ResourceGroup (α : Type) where
  resource : Option (Resource ρ)
  scopes : List (Scope ρ α)
  rest : ρ

/-- `ExportLogsServiceRequest` and `ExportMetricsServiceRequest`. -/
structure ExportRequest (α : Type) where
  groups : List (ResourceGroup ρ α)

/-- The `serde_json` and `prost` functions of one kind of request. -/
structure RequestCodec (α : Type) where
  fromSlice : Bytes → Option (ExportRequest ρ α)
  decode : Bytes → Option (ExportRequest ρ α)
  toVec : ExportRequest ρ α → Option Bytes
  encodeToVec : ExportRequest ρ α → Bytes

/-- The functions of both kinds of requests. -/
structure OtlpCodec where
  logs : RequestCodec ρ (LogRecord ρ)
  metrics : RequestCodec ρ (Metric ρ)

variable {ρ} {α : Type}

/-- Parses a body in the format it came in. -/
def RequestCodec.parse (codec : RequestCodec ρ α) (format : WireFormat) (body : Bytes) :
    Option (ExportRequest ρ α) :=
  match format with
  | .json => codec.fromSlice body
  | .protobuf => codec.decode body

/-- Prints a request that was edited; `body` are the bytes it was parsed from. -/
def RequestCodec.render (codec : RequestCodec ρ α) (format : WireFormat) (body : Bytes)
    (request : ExportRequest ρ α) : Bytes :=
  match format with
  | .json => (codec.toVec request).getD body
  | .protobuf => codec.encodeToVec request

/-- Parses, edits and prints a body. One that does not parse, or in which `edit` finds nothing
to change, stays as it is. -/
def RequestCodec.rewrite (codec : RequestCodec ρ α)
    (edit : ExportRequest ρ α → Option (ExportRequest ρ α)) (body : Bytes) (format : WireFormat) :
    Bytes :=
  match codec.parse format body with
  | none => body
  | some request =>
    match edit request with
    | none => body
    | some request => codec.render format body request

/-- Edits the members of a list for which `f` has an answer; `none` when there are none. -/
def editList {β : Type} (f : β → Option β) (xs : List β) : Option (List β) :=
  if xs.any fun x => (f x).isSome then some (xs.map fun x => (f x).getD x) else none

/-! ## Attributes -/

/-- The value of the only attribute with a key: a repeated key is ambiguous. -/
def soleValue (attributes : List (KeyValue ρ)) (key : String) : Option (Value ρ) :=
  match attributes.filter fun a => a.key = key with
  | [a] => a.value.join
  | _ => none

/-- `codex_cost::string`. -/
def string (record : LogRecord ρ) (key : String) : Option String :=
  match soleValue record.attributes key with
  | some (.stringValue v) => some v
  | _ => none

/-- `str::parse::<u64>`. -/
def parseU64 (v : String) : Option ℕ :=
  let digits := match v.toList with
    | '+' :: rest => rest
    | cs => cs
  if digits = [] ∨ ¬ digits.all Char.isDigit then none
  else
    let n := digits.foldl (fun n c => 10 * n + (c.toNat - '0'.toNat)) 0
    if n < 2 ^ 64 then some n else none

/-- `codex_cost::integer`. -/
def integer (record : LogRecord ρ) (key : String) : Option ℕ :=
  match soleValue record.attributes key with
  | some (.intValue v) => if 0 ≤ v then some v.toNat else none
  | some (.stringValue v) => parseU64 v
  | _ => none

/-- `str::starts_with`. -/
def startsWith (text start : String) : Bool := start.toList.isPrefixOf text.toList

/-! ## The source of a resource -/

/-- `SOURCE_ATTRIBUTE`. -/
def sourceAttribute : String := "governance.source"

/-- `CLAUDE_CODE_EVENTS`. -/
def claudeCodeEvents : List String :=
  ["user_prompt", "assistant_response", "api_request", "api_error", "api_refusal", "tool_decision",
    "tool_result", "auth", "mcp_server_connection"]

/-- `source_stamp::event_source`. -/
def eventSource (record : LogRecord ρ) : Option String :=
  match soleValue record.attributes "event.name" with
  | some (.stringValue name) =>
    if startsWith name "codex." then some "codex"
    else if name ∈ claudeCodeEvents ∨ startsWith name "plugin_" then some "claude-code"
    else none
  | _ => none

/-- `metrics::metric_source`. -/
def metricSource (metric : Metric ρ) : Option String :=
  if startsWith metric.name "copilot_chat." then some "github-copilot" else none

variable [Inhabited ρ]

/-- A `KeyValue` with a value and nothing else. -/
def keyValue (key : String) (value : Value ρ) : KeyValue ρ := ⟨key, some (some value), default⟩

/-- The body of the loops of `enrich` and `enrich_metrics`: the first item that names a source
stamps its resource. -/
def stampGroup (sourceOf : α → Option String) (group : ResourceGroup ρ α) :
    Option (ResourceGroup ρ α) :=
  ((group.scopes.flatMap fun scope => scope.items).findSome? sourceOf).map fun source =>
    let resource := group.resource.getD ⟨[], default⟩
    -- strip what the client supplied, then set
    let attributes := resource.attributes.filter fun a => a.key ≠ sourceAttribute
    { group with resource := some { resource with
        attributes := attributes ++ [keyValue sourceAttribute (.stringValue source)] } }

/-- The loops of `enrich` and `enrich_metrics`. -/
def stamp (sourceOf : α → Option String) (request : ExportRequest ρ α) :
    Option (ExportRequest ρ α) :=
  (editList (stampGroup sourceOf) request.groups).map fun groups => ⟨groups⟩

/-- `source_stamp::enrich`. -/
def enrich (codec : OtlpCodec ρ) (body : Bytes) (format : WireFormat) : Bytes :=
  codec.logs.rewrite (stamp eventSource) body format

/-- `metrics::enrich_metrics`. -/
def enrichMetrics (codec : OtlpCodec ρ) (body : Bytes) (format : WireFormat) : Bytes :=
  codec.metrics.rewrite (stamp metricSource) body format

/-! ## The cost of a Codex response -/

/-- `codex_cost::PREFIX` and `codex_cost::RATE_CARD`. -/
def estimatePrefix : String := "governance.estimate."

def rateCard : String := "openai-standard-us-2026-09-12"

/-- `codex_cost::price`, in micro-USD. -/
def price (input cached writes output : ℕ) : Option ℤ :=
  if writes ≠ 0 then none
  else if input < cached then none
  else
    let uncached := input - cached
    let (inputRate, cacheRate, outputRate) :=
      if input > 272000 then (20, 2, 75) else (10, 1, 50)
    let cost := uncached * inputRate + cached * cacheRate + output * outputRate
    -- `i64::try_from`
    if cost < 2 ^ 63 then some cost else none

/-- `codex_cost::estimate`. -/
def estimate (record : LogRecord ρ) : Option ℤ :=
  if string record "model" ≠ some "gpt-6-astra" then none
  else
    (integer record "input_token_count").bind fun input =>
    (integer record "cached_token_count").bind fun cached =>
    (integer record "cache_write_token_count").bind fun writes =>
    (integer record "output_token_count").bind fun output => price input cached writes output

/-- `codex_cost::attr`. -/
def attr (record : LogRecord ρ) (suffix : String) (value : Value ρ) : LogRecord ρ :=
  { record with attributes := record.attributes ++ [keyValue (estimatePrefix ++ suffix) value] }

/-- The body of the loop of `codex_cost::enrich`. -/
def annotate (record : LogRecord ρ) : Option (LogRecord ρ) :=
  if string record "event.name" ≠ some "codex.sse_event" ∨
      string record "event.kind" ≠ some "response.completed" then none
  else
    let record := { record with
      attributes := record.attributes.filter fun a => !startsWith a.key estimatePrefix }
    let cost := estimate record
    let record := attr record "status"
      (.stringValue (if cost.isSome then "priced" else "unpriced"))
    let record := attr record "rate_card" (.stringValue rateCard)
    some (match cost with
      | some cost => attr record "micro_usd" (.intValue cost)
      | none => record)

/-- The loop of `codex_cost::enrich`, over every record of every scope. -/
def annotateAll (request : ExportRequest ρ (LogRecord ρ)) :
    Option (ExportRequest ρ (LogRecord ρ)) :=
  let inScope (scope : Scope ρ (LogRecord ρ)) : Option (Scope ρ (LogRecord ρ)) :=
    (editList annotate scope.items).map fun items => { scope with items := items }
  let inGroup (group : ResourceGroup ρ (LogRecord ρ)) : Option (ResourceGroup ρ (LogRecord ρ)) :=
    (editList inScope group.scopes).map fun scopes => { group with scopes := scopes }
  (editList inGroup request.groups).map fun groups => ⟨groups⟩

/-- `codex_cost::enrich`. -/
def codexCostEnrich (codec : OtlpCodec ρ) (body : Bytes) (format : WireFormat) : Bytes :=
  codec.logs.rewrite annotateAll body format

/-- What `handle_request` retains of a body, by its signal. -/
def enriched (codec : OtlpCodec ρ) (signal : Signal) (body : Bytes) (format : WireFormat) : Bytes :=
  match signal with
  | .logs => codexCostEnrich codec (enrich codec body format) format
  | .metrics => enrichMetrics codec body format
  | .traces => body

end Otlp

end Governance
