import Governance.Lib.Utf8Decode
import Governance.Core.Identity

/-!
# Telemetry ingest

`ingest/mod.rs` with `types.rs`, `pricing.rs`, `upsert.rs` and `retry.rs`: one batch of
executions with their model and tool calls is written in one transaction. SHA-256 is a
parameter (its hex text), and so are the database failures an attempt meets. 64-bit integers
are integers; the one place where they can leave their range saturates as the source does.
-/

namespace Governance

open Utf8Text

/-! ## Inputs -/

/-- `ModelCallInput`. -/
structure ModelCallInput where
  traceId : String
  spanId : String
  model : String
  inputTokens : Option ℤ
  outputTokens : Option ℤ
  deriving DecidableEq

/-- `ToolCallInput`. -/
structure ToolCallInput where
  traceId : String
  spanId : String
  toolName : String
  durationMs : ℤ
  deriving DecidableEq

/-- `ExecutionInput`. -/
structure ExecutionInput where
  traceId : String
  spanId : String
  userEmail : Option String
  startedAt : ℤ
  durationMs : ℤ
  modelCalls : List ModelCallInput
  toolCalls : List ToolCallInput
  deriving DecidableEq

/-- `IngestResult`. -/
structure IngestResult where
  executionsUpserted : ℕ
  modelCallsUpserted : ℕ
  toolCallsUpserted : ℕ
  identityMismatchDetectionFailed : Bool
  identityMismatches : ℕ
  deriving DecidableEq

/-- The conflict key of each input. -/
def ModelCallInput.key (c : ModelCallInput) : SpanKey := ⟨c.traceId, c.spanId⟩

def ToolCallInput.key (c : ToolCallInput) : SpanKey := ⟨c.traceId, c.spanId⟩

def ExecutionInput.key (x : ExecutionInput) : SpanKey := ⟨x.traceId, x.spanId⟩

/-- `deterministic_id`: 24 hex digits of the digest of the two ids joined by a colon. -/
def deterministicId (sha256 : List UInt8 → String) ( pre : String) (k : SpanKey) : String :=
  let hash := sha256 (encode k.traceId.toList ++ encode [':'] ++ encode k.spanId.toList)
  pre ++ "-" ++ .ofList (hash.toList.take 24)

/-- `{:?}` of a token count. -/
def debugTokens : Option ℤ → String
  | none => "None"
  | some n => s!"Some({n})"

/-- The checks of `validate_input` on one model call. -/
def validateModelCall (c : ModelCallInput) : Except CoreError Unit :=
  if c.traceId.isEmpty || c.spanId.isEmpty then
    .error (.validation "trace_id and span_id are required on every model call")
  else if c.inputTokens.any (· < 0) || c.outputTokens.any (· < 0) then
    .error (.validation ("token counts must be non-negative, got input=" ++
      debugTokens c.inputTokens ++ " output=" ++ debugTokens c.outputTokens ++
      " for model " ++ c.model))
  else .ok ()

/-- The checks of `validate_input` on one tool call. -/
def validateToolCall (c : ToolCallInput) : Except CoreError Unit :=
  if c.traceId.isEmpty || c.spanId.isEmpty then
    .error (.validation "trace_id and span_id are required on every tool call")
  else if c.durationMs < 0 then
    .error (.validation s!"tool duration_ms must be non-negative, got {c.durationMs}")
  else .ok ()

/-- `validate_input`. -/
def validateInput : List ExecutionInput → Except CoreError Unit
  | [] => .ok ()
  | x :: executions => do
    if x.traceId.isEmpty || x.spanId.isEmpty then
      throw (.validation "trace_id and span_id are required on every execution")
    if x.durationMs < 0 then
      throw (.validation s!"duration_ms must be non-negative, got {x.durationMs}")
    x.modelCalls.forM validateModelCall
    x.toolCalls.forM validateToolCall
    validateInput executions

/-! ## Pricing -/

/-- The pricing query: the latest of the rows in force. -/
def currentPricing (pricing : List ModelPricing) (now : ℤ) (model : String) :
    Option ModelPricing :=
  ((pricing.filter fun r => r.model = model ∧ r.effectiveFrom ≤ now ∧
    r.effectiveTo.all fun t => now < t).insertionSort
      fun a b => b.effectiveFrom ≤ a.effectiveFrom).head?

/-- `calculate_model_cost`: `i128` holds both products, and division truncates. -/
def calculateModelCost (pricing : List ModelPricing) (now : ℤ) (c : ModelCallInput) : Option ℤ :=
  match c.inputTokens, c.outputTokens with
  | some inputTokens, some outputTokens =>
    (currentPricing pricing now c.model).map fun rates =>
      let inputCost := (inputTokens * rates.inputPerMillionMicroUsd).tdiv 1000000
      let outputCost := (outputTokens * rates.outputPerMillionMicroUsd).tdiv 1000000
      let cost := inputCost + outputCost
      if i64Min ≤ cost ∧ cost ≤ i64Max then cost else i64Max
  | _, _ => none

/-- One turn of the cost loop: an unknown cost makes the total unknown. -/
def addCost (total cost : Option ℤ) : Option ℤ :=
  match cost with
  | some known => total.map fun t => i64SaturatingAdd t known
  | none => none

/-- `total_cost` of the calls of one execution. -/
def totalCost (costs : List (Option ℤ)) : Option ℤ := costs.foldl addCost (some 0)

/-! ## Upserts -/

/-- The columns that `upsert_execution` rewrites on a conflict. -/
structure ExecutionColumns where
  tenantId : String
  integrationId : String
  provider : String
  userEmail : Option String
  internalUserId : Option String
  durationMs : ℤ

/-- The conflict clause of `upsert_execution`: neither `started_at` nor the cost is refreshed. -/
def Execution.refresh : Refresh Execution.index ExecutionColumns where
  cols r := ⟨r.tenantId, r.integrationId, r.provider, r.userEmail, r.internalUserId, r.durationMs⟩
  set c r :=
    { r with
      tenantId := c.tenantId
      integrationId := c.integrationId
      provider := c.provider
      userEmail := c.userEmail
      internalUserId := c.internalUserId
      durationMs := c.durationMs }
  cols_set _ _ := rfl
  set_cols _ := rfl
  set_set _ _ _ := rfl
  key_set _ _ := rfl
  id_set _ _ := rfl

/-- The conflict clause of `upsert_model_call`: the execution and the cost stay. -/
def ModelCall.refresh : Refresh ModelCall.index (String × Option ℤ × Option ℤ) where
  cols r := (r.model, r.inputTokens, r.outputTokens)
  set c r := { r with model := c.1, inputTokens := c.2.1, outputTokens := c.2.2 }
  cols_set _ _ := rfl
  set_cols _ := rfl
  set_set _ _ _ := rfl
  key_set _ _ := rfl
  id_set _ _ := rfl

/-- The conflict clause of `upsert_tool_call`: the execution stays. -/
def ToolCall.refresh : Refresh ToolCall.index (String × ℤ) where
  cols r := (r.toolName, r.durationMs)
  set c r := { r with toolName := c.1, durationMs := c.2 }
  cols_set _ _ := rfl
  set_cols _ := rfl
  set_set _ _ _ := rfl
  key_set _ _ := rfl
  id_set _ _ := rfl

namespace Database

/-- `upsert_execution`, on the row of its bindings. -/
def upsertExecution (db : Database) (row : Execution) : Except CoreError Database :=
  match h : db.executions.upsert Execution.refresh row with
  | none => .error (.storage .uniqueViolation)
  | some executions =>
    .ok { db with
      executions := executions
      modelCalls_fk := fun r hr => Table.mem_ids_upsert h (db.modelCalls_fk r hr)
      toolCalls_fk := fun r hr => Table.mem_ids_upsert h (db.toolCalls_fk r hr) }

/-- `upsert_model_call`, on the row of its bindings: only an insert meets the foreign key. -/
def upsertModelCall (db : Database) (row : ModelCall) : Except CoreError Database :=
  match h : db.modelCalls.upsert ModelCall.refresh row with
  | none => .error (.storage .uniqueViolation)
  | some modelCalls =>
    if hfk : ModelCall.index.key row ∈ db.modelCalls.keys ∨
        row.executionId ∈ db.executions.ids then
      .ok { db with
        modelCalls := modelCalls
        modelCalls_fk := Table.forall_upsert (P := fun r => r.executionId ∈ db.executions.ids) h
          db.modelCalls_fk (fun hnew => hfk.resolve_left hnew) fun r hr _ => db.modelCalls_fk r hr }
    else .error (.storage .foreignKeyViolation)

/-- `upsert_tool_call`, on the row of its bindings. -/
def upsertToolCall (db : Database) (row : ToolCall) : Except CoreError Database :=
  match h : db.toolCalls.upsert ToolCall.refresh row with
  | none => .error (.storage .uniqueViolation)
  | some toolCalls =>
    if hfk : ToolCall.index.key row ∈ db.toolCalls.keys ∨
        row.executionId ∈ db.executions.ids then
      .ok { db with
        toolCalls := toolCalls
        toolCalls_fk := Table.forall_upsert (P := fun r => r.executionId ∈ db.executions.ids) h
          db.toolCalls_fk (fun hnew => hfk.resolve_left hnew) fun r hr _ => db.toolCalls_fk r hr }
    else .error (.storage .foreignKeyViolation)

end Database

/-! ## The call -/

/-- The arguments of `ingest_telemetry`, and what each attempt meets: the `now()` of its
transaction, a failure of the database, and a failure of the mismatch query. -/
structure IngestCall where
  tenantId : String
  integrationId : String
  provider : String
  executions : List ExecutionInput
  now : ℕ → ℤ
  fault : ℕ → Option StorageError
  mismatchQueryFails : Bool

namespace IngestCall

variable (sha256 : List UInt8 → String) (call : IngestCall)

/-- The bindings of `upsert_execution`. -/
def executionRow (pricing : List ModelPricing) (now : ℤ) (internalUserId : Option String)
    (x : ExecutionInput) : Execution where
  id := deterministicId sha256 "exec" x.key
  tenantId := call.tenantId
  integrationId := call.integrationId
  provider := call.provider
  traceId := x.traceId
  spanId := x.spanId
  userEmail := x.userEmail
  internalUserId := internalUserId
  startedAt := x.startedAt
  durationMs := x.durationMs
  estimatedCostMicroUsd := totalCost (x.modelCalls.map (calculateModelCost pricing now))
  rawBackend := none
  rawSchemaVersion := 1

/-- The bindings of `upsert_model_call`. -/
def modelCallRow (executionId : String) (c : ModelCallInput) (cost : Option ℤ) : ModelCall where
  id := deterministicId sha256 "mc" c.key
  executionId := executionId
  traceId := c.traceId
  spanId := c.spanId
  model := c.model
  inputTokens := c.inputTokens
  outputTokens := c.outputTokens
  costMicroUsd := cost

/-- The bindings of `upsert_tool_call`. -/
def toolCallRow (executionId : String) (c : ToolCallInput) : ToolCall where
  id := deterministicId sha256 "tc" c.key
  executionId := executionId
  traceId := c.traceId
  spanId := c.spanId
  toolName := c.toolName
  durationMs := c.durationMs

/-- The model calls of one execution, priced. -/
def modelCallRows (pricing : List ModelPricing) (now : ℤ) (x : ExecutionInput) :
    List ModelCall :=
  let costs := x.modelCalls.map (calculateModelCost pricing now)
  (x.modelCalls.zip costs).map fun c =>
    modelCallRow sha256 (deterministicId sha256 "exec" x.key) c.1 c.2

def toolCallRows (x : ExecutionInput) : List ToolCall :=
  x.toolCalls.map (toolCallRow sha256 (deterministicId sha256 "exec" x.key))

/-- The writes of one turn of the loop over the executions. -/
def ingestExecution (now : ℤ) (internalUserId : Option String) (db : Database)
    (x : ExecutionInput) : Except CoreError Database := do
  let modelCalls := modelCallRows sha256 db.modelPricing now x
  let db ← db.upsertExecution (call.executionRow sha256 db.modelPricing now internalUserId x)
  let db ← modelCalls.foldlM Database.upsertModelCall db
  (toolCallRows sha256 x).foldlM Database.upsertToolCall db

/-- The loop over the executions and their mismatch flags. -/
def ingestExecutions (now : ℤ) (internalUserId : Option String) :
    List (ExecutionInput × Bool) → Database × IngestResult →
      Except CoreError (Database × IngestResult)
  | [], state => .ok state
  | (x, mismatch) :: rest, (db, result) => do
    let db ← call.ingestExecution sha256 now internalUserId db x
    ingestExecutions now internalUserId rest (db,
      { result with
        executionsUpserted := result.executionsUpserted + 1
        modelCallsUpserted := result.modelCallsUpserted + x.modelCalls.length
        toolCallsUpserted := result.toolCallsUpserted + x.toolCalls.length
        identityMismatches := result.identityMismatches + if mismatch then 1 else 0 })

/-- The last statement of the transaction. -/
def touchIntegration (now : ℤ) (db : Database) : Database :=
  { db with
    integrations := db.integrations.map fun r =>
      if r.id = call.integrationId ∧ r.tenantId = call.tenantId then
        { r with lastTelemetryAt := some now }
      else r }

/-- `ingest_telemetry_inner` when no statement meets a failure of the database. -/
def transaction (now : ℤ) (db : Database) : Except CoreError (IngestResult × Database) := do
  let internalUserId :=
    getIntegrationIdentity db.integrations call.tenantId call.integrationId
  let checked :=
    checkEmailMismatches db.identityMaps call.mismatchQueryFails now call.tenantId
      call.provider internalUserId (call.executions.map ExecutionInput.userEmail)
  let state ← call.ingestExecutions sha256 now internalUserId
    (call.executions.zip checked.2.1) (db, ⟨0, 0, 0, checked.2.2, 0⟩)
  return (state.2, call.touchIntegration now state.1)

/-- `ingest_telemetry_inner`, at one attempt. -/
def ingestTelemetryInner (attempt : ℕ) (db : Database) :
    Except CoreError (IngestResult × Database) :=
  match call.fault attempt with
  | some e => .error (.storage e)
  | none => call.transaction sha256 (call.now attempt) db

/-- `MAX_DEADLOCK_RETRIES`. -/
def maxDeadlockRetries : ℕ := 3

/-- The retry loop of `ingest_telemetry`, with the retries that are left; a failed attempt was
rolled back. -/
def attempts (db : Database) : ℕ → Except CoreError IngestResult × Database
  | 0 =>
    match call.ingestTelemetryInner sha256 maxDeadlockRetries db with
    | .ok (result, db') => (.ok result, db')
    | .error e => (.error e, db)
  | retries + 1 =>
    match call.ingestTelemetryInner sha256 (maxDeadlockRetries - (retries + 1)) db with
    | .ok (result, db') => (.ok result, db')
    | .error (.storage .deadlock) => attempts db retries
    | .error e => (.error e, db)

/-- `ingest_telemetry`. -/
def ingestTelemetry (db : Database) : Except CoreError IngestResult × Database :=
  match validateInput call.executions with
  | .error e => (.error e, db)
  | .ok () => call.attempts sha256 db maxDeadlockRetries

end IngestCall

end Governance
