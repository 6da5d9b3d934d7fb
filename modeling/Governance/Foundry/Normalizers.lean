import Governance.Foundry.Otlp
import Governance.Ingest.Telemetry
import Governance.Lib.Outcome

/-!
# The normalizers

`governance-foundry/src/normalizer.rs` with `claude_code/mod.rs`, `codex/mod.rs` and
`foundry/mod.rs`: an OTLP payload becomes one execution for each span. The three normalizers differ
in the attributes they read token counts from.
-/

namespace Governance

namespace Foundry

open Utf8Text

/-- `TelemetryPayload`. -/
structure TelemetryPayload where
  executions : List ExecutionInput

/-- `ok_or_else` with a missing field. -/
def required {α : Type} (field : String) : Option α → Except NormalizerError α
  | some a => .ok a
  | none => .error (.missingField field)

/-- A field that has to be an array. -/
def requiredArray (key : String) (obj : Json) : Except NormalizerError (List Json) :=
  required key ((obj.get key).bind Json.asArray)

section Normalizing

variable (display : Json → String)

/-- The first of the attributes that has a count. -/
def tokenCount (span : Json) : List String → Except NormalizerError (Option ℤ)
  | [] => .ok none
  | key :: keys => do
    match ← attrI64 display span key "span" with
    | some v => return some v
    | none => tokenCount span keys

/-- The round of the events loop for one event, with its place. -/
def toolCallOf (traceId spanId : String) (event : Json × ℕ) :
    Except NormalizerError (Option ToolCallInput) := do
  let eventName ← spanString display event.1 "name"
  if eventName = some "tool.call" then
    let toolName ← required "tool.name" (← attrString display event.1 "tool.name" "event")
    let toolDurationMs ← required "duration.ms" (← attrI64 display event.1 "duration.ms" "event")
    return some
      { traceId := traceId
        spanId := s!"{spanId}:tc:{event.2}"
        toolName := toolName
        durationMs := toolDurationMs }
  else return none

/-- The body of the three `normalize_span`, for the names of the token counts. A start time is kept
in nanoseconds. -/
def normalizeSpanWith (inputNames outputNames : List String) (userEmail : Option String)
    (span : Json) : Except NormalizerError ExecutionInput := do
  let traceId ← required "traceId" (← spanString display span "traceId")
  let spanId ← required "spanId" (← spanString display span "spanId")
  let _ ← attrString display span "session.id" "span"
  let modelName ← required "model.name" (← attrString display span "model.name" "span")
  let inputTokens ← tokenCount display span inputNames
  let outputTokens ← tokenCount display span outputNames
  let startTimeUnixNano ← spanI64 display span "startTimeUnixNano"
  let endTimeUnixNano ← spanI64 display span "endTimeUnixNano"
  let durationMs ← durationMs startTimeUnixNano endTimeUnixNano
  let events ← events display span "span"
  let toolCalls ← events.zipIdx.mapM (toolCallOf display traceId spanId)
  return {
    traceId := traceId
    spanId := spanId
    userEmail := userEmail
    startedAt := startTimeUnixNano
    durationMs := durationMs
    modelCalls := [
      { traceId := traceId
        spanId := s!"{spanId}:mc"
        model := modelName
        inputTokens := inputTokens
        outputTokens := outputTokens }]
    toolCalls := toolCalls.reduceOption }

/-- The round of the loop over the resources. -/
def normalizeResource (normalizeSpan : Option String → Json → Except NormalizerError ExecutionInput)
    (resourceSpan : Json) : Except NormalizerError (List ExecutionInput) := do
  let resource ← required "resource" (resourceSpan.get "resource")
  let userEmail ← attrString display resource "user.email" "resource"
  let scopeSpans ← requiredArray "scopeSpans" resourceSpan
  let executions ← scopeSpans.mapM fun scopeSpan => do
    let spans ← requiredArray "spans" scopeSpan
    spans.mapM (normalizeSpan userEmail)
  return executions.flatten

/-- The body of the three `normalize`. -/
def normalizeWith (normalizeSpan : Option String → Json → Except NormalizerError ExecutionInput)
    (payload : Json) : Except NormalizerError TelemetryPayload := do
  let resourceSpans ← requiredArray "resourceSpans" payload
  let executions ← resourceSpans.mapM (normalizeResource display normalizeSpan)
  return ⟨executions.flatten⟩

namespace ClaudeCodeNormalizer

def normalizeSpan := normalizeSpanWith display ["tokens.input"] ["tokens.output"]

def normalize := normalizeWith display (normalizeSpan display)

end ClaudeCodeNormalizer

namespace CodexNormalizer

def normalizeSpan :=
  normalizeSpanWith display ["input_token_count", "codex.turn.input_tokens"]
    ["output_token_count", "codex.turn.output_tokens"]

def normalize := normalizeWith display (normalizeSpan display)

end CodexNormalizer

namespace FoundryNormalizer

def normalizeSpan := normalizeSpanWith display ["tokens.input"] ["tokens.output"]

def normalize := normalizeWith display (normalizeSpan display)

end FoundryNormalizer

/-- The normalizers there are. -/
inductive Normalizer where
  | claudeCode
  | codex
  | foundry
  deriving DecidableEq

/-- `Normalizer::normalize`. -/
def Normalizer.normalize : Normalizer → Json → Except NormalizerError TelemetryPayload
  | .claudeCode => ClaudeCodeNormalizer.normalize display
  | .codex => CodexNormalizer.normalize display
  | .foundry => FoundryNormalizer.normalize display

end Normalizing

/-- `NORMALIZERS`. -/
def normalizers : List (String × Normalizer) :=
  [("claude_code", .claudeCode), ("codex", .codex), ("microsoft_foundry", .foundry)]

/-- `dispatch_normalizer`. -/
def dispatchNormalizer (provider : String) : Except NormalizerError Normalizer :=
  match normalizers.lookup provider with
  | some n => .ok n
  | none => .error (.unsupportedProvider provider)

/-! ## A span -/

/-- The ids of a span. -/
def spanKey (span : Json) : Option SpanKey :=
  ((span.get "traceId").bind Json.asStr).bind fun traceId =>
    ((span.get "spanId").bind Json.asStr).map fun spanId => ⟨.ofList traceId, .ofList spanId⟩

/-- The events of a span, each with its place. -/
def eventsOf (span : Json) : List (Json × ℕ) :=
  (((span.get "events").bind Json.asArray).getD []).zipIdx

/-- The event is named `tool.call`. -/
def isToolCall (event : Json) : Bool :=
  ((event.get "name").bind Json.asStr).map String.ofList = some "tool.call"

/-- The tool call of an event. -/
structure ToolCallOf (display : Json → String) (x : ExecutionInput) (event : Json × ℕ)
    (c : ToolCallInput) : Prop where
  traceId : c.traceId = x.traceId
  spanId : c.spanId = s!"{x.spanId}:tc:{event.2}"
  toolName : attrString display event.1 "tool.name" "event" = .ok (some c.toolName)
  durationMs : attrI64 display event.1 "duration.ms" "event" = .ok (some c.durationMs)

/-- The execution of a span: it has the ids of the span, one model call, and one tool call for each
event that is named `tool.call`, in their order. Its duration is exact. -/
structure ExecutionOf (display : Json → String) (span : Json) (x : ExecutionInput) : Prop where
  key : spanKey span = some x.key
  modelCalls : ∃ c, x.modelCalls = [c] ∧ c.traceId = x.traceId ∧ c.spanId = s!"{x.spanId}:mc"
  toolCalls : List.Forall₂ (ToolCallOf display x) ((eventsOf span).filter fun e => isToolCall e.1)
    x.toolCalls
  times : ∃ stop, spanI64 display span "startTimeUnixNano" = .ok x.startedAt ∧
    spanI64 display span "endTimeUnixNano" = .ok stop ∧ IsI64 x.startedAt ∧ IsI64 stop ∧
    x.startedAt ≤ stop ∧ IsI64 (stop - x.startedAt) ∧ x.durationMs = (stop - x.startedAt) / 1000000

section Spans

variable {display : Json → String}

theorem required_eq_ok {α : Type} {field : String} {a? : Option α} {a : α}
    (h : required field a? = .ok a) : a? = some a := by
  cases a? with
  | none => cases h
  | some b => exact congrArg some (Except.ok.inj h)

/-- An event gives a tool call exactly if it is named so. -/
theorem toolCallOf_eq_ok {x : ExecutionInput} {event : Json × ℕ} {c? : Option ToolCallInput}
    (h : toolCallOf display x.traceId x.spanId event = .ok c?) :
    (isToolCall event.1 = true → ∃ c, c? = some c ∧ ToolCallOf display x event c) ∧
      (isToolCall event.1 = false → c? = none) := by
  obtain ⟨eventName, hname, h⟩ := Except.ok_of_bind h
  have hcall : isToolCall event.1 = true ↔ eventName = some "tool.call" := by
    rw [spanString_eq_ok hname]
    exact decide_eq_true_iff
  split at h
  · next hyes =>
    obtain ⟨toolName?, hattr, h⟩ := Except.ok_of_bind h
    obtain ⟨toolName, hrequired, h⟩ := Except.ok_of_bind h
    obtain ⟨duration?, hduration, h⟩ := Except.ok_of_bind h
    obtain ⟨duration, hrequired', h⟩ := Except.ok_of_bind h
    rw [required_eq_ok hrequired] at hattr
    rw [required_eq_ok hrequired'] at hduration
    refine ⟨fun _ => ⟨_, (Except.ok.inj h).symm, rfl, rfl, hattr, hduration⟩, fun hno => ?_⟩
    rw [hcall.mpr hyes] at hno
    cases hno
  · next hno => exact ⟨fun hyes => absurd (hcall.mp hyes) hno, fun _ => (Except.ok.inj h).symm⟩

/-- The tool calls of a list of events are those of the events that are named so. -/
theorem toolCalls_of_events {x : ExecutionInput} {events : List (Json × ℕ)}
    {calls : List (Option ToolCallInput)}
    (h : List.Forall₂ (fun e c => toolCallOf display x.traceId x.spanId e = .ok c) events calls) :
    List.Forall₂ (ToolCallOf display x) (events.filter fun e => isToolCall e.1)
      calls.reduceOption := by
  induction h with
  | nil => exact .nil
  | @cons event c? events calls hevent hrest ih =>
    obtain ⟨hyes, hno⟩ := toolCallOf_eq_ok hevent
    cases hcall : isToolCall event.1 with
    | true =>
      obtain ⟨c, rfl, hc⟩ := hyes hcall
      rw [List.filter_cons_of_pos (by simpa using hcall), List.reduceOption_cons_of_some]
      exact .cons hc ih
    | false =>
      rw [hno hcall, List.filter_cons_of_neg (by simp [hcall]), List.reduceOption_cons_of_none]
      exact ih

/-- What a span that is accepted gives. -/
theorem normalizeSpanWith_eq_ok {inputNames outputNames : List String} {userEmail : Option String}
    {span : Json} {x : ExecutionInput}
    (h : normalizeSpanWith display inputNames outputNames userEmail span = .ok x) :
    ExecutionOf display span x := by
  obtain ⟨traceId?, htrace, h⟩ := Except.ok_of_bind h
  obtain ⟨traceId, hrequired, h⟩ := Except.ok_of_bind h
  obtain ⟨spanId?, hspan, h⟩ := Except.ok_of_bind h
  obtain ⟨spanId, hrequired', h⟩ := Except.ok_of_bind h
  obtain ⟨-, -, h⟩ := Except.ok_of_bind h
  obtain ⟨modelName?, -, h⟩ := Except.ok_of_bind h
  obtain ⟨modelName, -, h⟩ := Except.ok_of_bind h
  obtain ⟨inputTokens, -, h⟩ := Except.ok_of_bind h
  obtain ⟨outputTokens, -, h⟩ := Except.ok_of_bind h
  obtain ⟨start, hstart, h⟩ := Except.ok_of_bind h
  obtain ⟨stop, hstop, h⟩ := Except.ok_of_bind h
  obtain ⟨d, hd, h⟩ := Except.ok_of_bind h
  obtain ⟨events, hevents, h⟩ := Except.ok_of_bind h
  obtain ⟨calls, hcalls, h⟩ := Except.ok_of_bind h
  obtain rfl := Except.ok.inj h
  have htraceId := (spanString_eq_ok htrace).symm.trans (required_eq_ok hrequired)
  have hspanId := (spanString_eq_ok hspan).symm.trans (required_eq_ok hrequired')
  obtain ⟨hle, hrange, hexact⟩ := durationMs_eq_ok hd
  refine ⟨?_, ⟨_, rfl, rfl, rfl⟩, ?_, stop, hstart, hstop, isI64_of_spanI64 hstart,
    isI64_of_spanI64 hstop, hle, hrange, hexact⟩
  · obtain ⟨trace, htrace, rfl⟩ := Option.map_eq_some_iff.mp htraceId
    obtain ⟨sid, hsid, rfl⟩ := Option.map_eq_some_iff.mp hspanId
    rw [spanKey, htrace, hsid]
    rfl
  · rw [eventsOf, ← arrayField_eq_ok hevents]
    exact toolCalls_of_events (Except.mapM_eq_ok_iff.1 hcalls)

end Spans

end Foundry

end Governance
