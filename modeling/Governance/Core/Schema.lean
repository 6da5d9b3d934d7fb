import Governance.Lib.Table

/-!
# The telemetry tables

The tables of the migrations `init` and `telemetry_models` that telemetry ingest and the
identity directory read and write, with their unique indexes and foreign keys. Timestamps are
instants on the integers. `created_at` and `updated_at` are left out: nothing reads them.
-/

namespace Governance

def i64Max : ℤ := 2 ^ 63 - 1

def i64Min : ℤ := -2 ^ 63

/-- `u64::saturating_add`. -/
def u64SaturatingAdd (a b : ℕ) : ℕ := min (2 ^ 64 - 1) (a + b)

/-- `i64::saturating_add`. -/
def i64SaturatingAdd (a b : ℤ) : ℤ := max i64Min (min i64Max (a + b))

/-- The SQLSTATE classes that the code can meet. -/
inductive StorageError where
  | deadlock
  | uniqueViolation
  | foreignKeyViolation
  | decode
  | other
  deriving DecidableEq, Repr

/-- `governance_core::Error`, as far as ingest and the directory return it. -/
inductive CoreError where
  | validation (message : String)
  | storage (error : StorageError)
  deriving DecidableEq, Repr

/-- The columns on which every telemetry write is idempotent. -/
structure SpanKey where
  traceId : String
  spanId : String
  deriving DecidableEq, Repr

/-- A row of `executions`. -/
structure Execution where
  id : String
  tenantId : String
  integrationId : String
  provider : String
  traceId : String
  spanId : String
  userEmail : Option String
  internalUserId : Option String
  startedAt : ℤ
  durationMs : ℤ
  estimatedCostMicroUsd : Option ℤ
  rawBackend : Option String
  rawSchemaVersion : ℤ
  deriving DecidableEq

/-- A row of `model_calls`. -/
structure ModelCall where
  id : String
  executionId : String
  traceId : String
  spanId : String
  model : String
  inputTokens : Option ℤ
  outputTokens : Option ℤ
  costMicroUsd : Option ℤ
  deriving DecidableEq

/-- A row of `tool_calls`. -/
structure ToolCall where
  id : String
  executionId : String
  traceId : String
  spanId : String
  toolName : String
  durationMs : ℤ
  deriving DecidableEq

/-- A row of `model_pricing`. -/
structure ModelPricing where
  model : String
  inputPerMillionMicroUsd : ℤ
  outputPerMillionMicroUsd : ℤ
  effectiveFrom : ℤ
  effectiveTo : Option ℤ
  deriving DecidableEq

/-- A row of `integrations`, with the columns that ingest reads and writes. -/
structure Integration where
  id : String
  tenantId : String
  internalUserId : Option String
  lastTelemetryAt : Option ℤ
  deriving DecidableEq

/-- A row of `identity_maps`. -/
structure IdentityMap where
  id : String
  tenantId : String
  provider : String
  providerUserId : String
  internalUserId : Option String
  mappingSource : String
  validFrom : ℤ
  validTo : Option ℤ
  deriving DecidableEq

/-- `executions_trace_id_span_id_key` and the primary key. -/
def Execution.index : TableIndex Execution SpanKey String where
  key r := ⟨r.traceId, r.spanId⟩
  id := Execution.id

/-- `model_calls_trace_id_span_id_key` and the primary key. -/
def ModelCall.index : TableIndex ModelCall SpanKey String where
  key r := ⟨r.traceId, r.spanId⟩
  id := ModelCall.id

/-- `tool_calls_trace_id_span_id_key` and the primary key. -/
def ToolCall.index : TableIndex ToolCall SpanKey String where
  key r := ⟨r.traceId, r.spanId⟩
  id := ToolCall.id

/-- `identity_maps_natural_key` and the primary key. -/
def IdentityMap.index :
    TableIndex IdentityMap (String × String × String × ℤ) String where
  key r := (r.tenantId, r.provider, r.providerUserId, r.validFrom)
  id := IdentityMap.id

/-- The tables, with the two foreign keys onto `executions` as fields. -/
structure Database where
  executions : Table Execution.index
  modelCalls : Table ModelCall.index
  toolCalls : Table ToolCall.index
  modelPricing : List ModelPricing
  integrations : List Integration
  identityMaps : Table IdentityMap.index
  tenants : List String
  modelCalls_fk : ∀ r ∈ modelCalls.rows, r.executionId ∈ executions.ids
  toolCalls_fk : ∀ r ∈ toolCalls.rows, r.executionId ∈ executions.ids

end Governance
