import Governance.Lib.Documents
import Governance.Core.Schema

/-!
# What the writers put into the clients' files

`governance-auth/src/otel/{settings,claude,codex}.rs`, `vscode/entries.rs`, and the key lists of
`managed/plan.rs`. A writer is the list of its edits of the document; `plan` names the same keys
with dots, whether the writer nests them or not.
-/

namespace Governance

namespace Managed

/-- A value that is not a table. Only strings and arrays of strings are ever recorded. -/
inductive Value where
  | string (text : String)
  | strings (items : List String)
  | other (text : String)
  deriving DecidableEq

abbrev Document := Node String Value

/-- The names that lead to a value. -/
abbrev Place := List String

/-- `OtelSettings`; `resourceAttributes` in the order of its map. -/
structure OtelSettings where
  issuer : String
  clientId : String
  endpoint : Option String
  copilotSpool : String
  copilotDrainAvailable : Bool
  copilotOtlpDirect : Bool
  token : Option String
  resourceAttributes : List (String × String)
  headersHelper : Option String
  headersHelperDebounceMs : ℕ
  tokenCommand : String
  gatewayUrl : Option String

structure ClientOptOut where
  claude : Bool
  codex : Bool
  codexTelemetryOnly : Bool
  vscode : Bool

/-- What the code takes from outside: SHA-256, `serde_json::to_string` of an array of strings, and
the path of the running binary. -/
structure Env where
  digest : String → String
  arrayText : List String → String
  binaryPath : String

/-- `FLAVOURS`. -/
inductive Flavour where
  | code
  | insiders
  | vscodium
  deriving DecidableEq

def flavours : List Flavour := [.code, .insiders, .vscodium]

/-- The files that are written into, and in which the manifest records keys. -/
inductive Target where
  | claude
  | codex
  | vscode (flavour : Flavour)
  deriving DecidableEq

/-- `trim_end_matches('/')`. -/
def trimSlashes (url : String) : String :=
  String.ofList (url.toList.reverse.dropWhile (· = '/')).reverse

namespace OtelSettings

variable (settings : OtelSettings)

def resourceAttributesValue : String :=
  ",".intercalate (settings.resourceAttributes.map fun entry => entry.1 ++ "=" ++ entry.2)

def headersValue : Option String := settings.token.map ("Authorization=Bearer " ++ ·)

def anthropicBaseUrl : Option String :=
  settings.gatewayUrl.map fun base => trimSlashes base ++ "/anthropic"

def openaiBaseUrl : Option String := settings.gatewayUrl.map fun base => trimSlashes base ++ "/v1"

end OtelSettings

/-- One operation of a writer on the document. -/
inductive Edit where
  | put (place : Place) (value : Value)
  | take (place : Place)

/-! ## Claude Code -/

def claudeCodeEnv (settings : OtelSettings) : List (String × String) :=
  [("CLAUDE_CODE_API_KEY_HELPER_TTL_MS", toString settings.headersHelperDebounceMs),
    ("CLAUDE_CODE_ENABLE_GATEWAY_MODEL_DISCOVERY", "1")] ++
  match settings.endpoint with
  | none => []
  | some endpoint =>
    [("CLAUDE_CODE_ENABLE_TELEMETRY", "1"),
      ("OTEL_METRICS_EXPORTER", "otlp"),
      ("OTEL_LOGS_EXPORTER", "otlp"),
      ("OTEL_EXPORTER_OTLP_PROTOCOL", "http/protobuf"),
      ("OTEL_EXPORTER_OTLP_METRICS_TEMPORALITY_PREFERENCE", "cumulative"),
      ("OTEL_EXPORTER_OTLP_ENDPOINT", endpoint),
      ("OTEL_RESOURCE_ATTRIBUTES", settings.resourceAttributesValue),
      ("OTEL_METRICS_INCLUDE_ENTRYPOINT", "1")] ++
    match settings.headersHelper, settings.headersValue with
    | some _, _ =>
      [("CLAUDE_CODE_OTEL_HEADERS_HELPER_DEBOUNCE_MS", toString settings.headersHelperDebounceMs)]
    | none, some headers => [("OTEL_EXPORTER_OTLP_HEADERS", headers)]
    | none, none => []

/-- `configure_claude_code`, from the parsed file on. -/
def configureClaudeCode (settings : OtelSettings) : List Edit :=
  (settings.headersHelper.toList.map fun helper =>
    Edit.put ["otelHeadersHelper"] (.string helper)) ++
  (settings.anthropicBaseUrl.toList.flatMap fun baseUrl =>
    [Edit.put ["apiKeyHelper"] (.string settings.tokenCommand),
      Edit.put ["env", "ANTHROPIC_BASE_URL"] (.string baseUrl)]) ++
  -- The static header goes before the helper's entries come.
  (settings.headersHelper.toList.map fun _ => Edit.take ["env", "OTEL_EXPORTER_OTLP_HEADERS"]) ++
  (claudeCodeEnv settings).map fun entry => Edit.put ["env", entry.1] (.string entry.2)

def claudeKeys (settings : OtelSettings) : List String :=
  (if settings.gatewayUrl.isSome then ["apiKeyHelper", "env.ANTHROPIC_BASE_URL"] else []) ++
  (if settings.headersHelper.isSome then ["otelHeadersHelper"] else []) ++
  (claudeCodeEnv settings).map fun entry => "env." ++ entry.1

/-! ## Codex -/

/-- `CODEX_PROVIDER_ID`. -/
def codexProviderId : String := "governance"

def tokenArgs (issuer clientId : String) : List String :=
  ["--issuer", issuer, "--client-id", clientId, "token"]

/-- `configure_codex`, from the parsed file on. -/
def configureCodex (env : Env) (settings : OtelSettings) : List Edit :=
  (settings.endpoint.toList.flatMap fun endpoint =>
    [Edit.put ["otel", "environment"] (.string "prod"),
      Edit.put ["otel", "log_user_prompt"] (.other "false")] ++
    [("exporter", "logs"), ("metrics_exporter", "metrics")].flatMap fun (kind, signal) =>
      [Edit.put ["otel", kind, "otlp-http", "endpoint"]
          (.string (trimSlashes endpoint ++ "/v1/" ++ signal)),
        Edit.put ["otel", kind, "otlp-http", "protocol"] (.string "binary")] ++
      settings.token.toList.map fun token =>
        Edit.put ["otel", kind, "otlp-http", "headers", "Authorization"]
          (.string ("Bearer " ++ token))) ++
  (settings.openaiBaseUrl.toList.flatMap fun baseUrl =>
    [Edit.put ["model_provider"] (.string codexProviderId),
      Edit.put ["model_providers", codexProviderId, "name"] (.string codexProviderId),
      Edit.put ["model_providers", codexProviderId, "base_url"] (.string baseUrl),
      Edit.put ["model_providers", codexProviderId, "wire_api"] (.string "responses"),
      Edit.put ["model_providers", codexProviderId, "auth", "command"] (.string env.binaryPath),
      Edit.put ["model_providers", codexProviderId, "auth", "args"]
        (.strings (tokenArgs settings.issuer settings.clientId)),
      Edit.put ["model_providers", codexProviderId, "auth", "refresh_interval_ms"]
        (.other (toString
          (if (settings.headersHelperDebounceMs : ℤ) ≤ i64Max then settings.headersHelperDebounceMs
          else 240000)))])

def codexKeys (settings : OtelSettings) (optout : ClientOptOut) : List String :=
  (if settings.gatewayUrl.isSome && !optout.codexTelemetryOnly then
    ["model_provider"] ++
    (["name", "base_url", "wire_api"].map fun leaf =>
      "model_providers." ++ codexProviderId ++ "." ++ leaf) ++
    ["model_providers." ++ codexProviderId ++ ".auth.command",
      "model_providers." ++ codexProviderId ++ ".auth.args"]
  else []) ++
  if settings.endpoint.isSome then
    ["otel.environment"] ++
    ["exporter", "metrics_exporter"].flatMap fun kind =>
      ["otel." ++ kind ++ ".otlp-http.endpoint", "otel." ++ kind ++ ".otlp-http.protocol"] ++
      if settings.token.isSome then ["otel." ++ kind ++ ".otlp-http.headers.Authorization"] else []
  else []

/-- `codex_inference_key`. -/
def codexInferenceKey (key : String) : Bool :=
  key = "model_provider" || "model_providers.".toList.isPrefixOf key.toList

/-! ## VS Code -/

def fileSettings (spool : String) : List (String × Value) :=
  [("github.copilot.chat.otel.enabled", .other "true"),
    ("github.copilot.chat.otel.exporterType", .string "file"),
    ("github.copilot.chat.otel.outfile", .string spool),
    ("github.copilot.chat.otel.captureContent", .other "false")]

def otlpSettings (endpoint : String) : List (String × Value) :=
  [("github.copilot.chat.otel.enabled", .other "true"),
    ("github.copilot.chat.otel.exporterType", .string "otlp-http"),
    ("github.copilot.chat.otel.otlpEndpoint", .string endpoint),
    ("github.copilot.chat.otel.captureContent", .other "false")]

/-- `vscode::entries`. -/
def entries (env : Env) (settings : OtelSettings) : List (String × Value) :=
  (if settings.copilotOtlpDirect then (settings.endpoint.map otlpSettings).getD []
  else if settings.copilotDrainAvailable then fileSettings settings.copilotSpool
  else []) ++
  settings.gatewayUrl.toList.flatMap fun gatewayUrl =>
    [("lightbridge.gatewayUrl", Value.string (trimSlashes gatewayUrl)),
      ("lightbridge.governanceAuthPath", Value.string env.binaryPath)]

/-! ## All of them -/

/-- The edits of the writer of a target. `--codex-telemetry-only` hides the gateway from Codex. -/
def Target.edits (env : Env) (settings : OtelSettings) (optout : ClientOptOut) :
    Target → List Edit
  | .claude => configureClaudeCode settings
  | .codex =>
    configureCodex env
      (if optout.codexTelemetryOnly then { settings with gatewayUrl := none } else settings)
  | .vscode _ => (entries env settings).map fun entry => Edit.put [entry.1] entry.2

/-- The keys of a target in `targets`. -/
def Target.keys (env : Env) (settings : OtelSettings) (optout : ClientOptOut) :
    Target → List String
  | .claude => claudeKeys settings
  | .codex => codexKeys settings optout
  | .vscode _ => (entries env settings).map (·.1)

def Target.declined (optout : ClientOptOut) : Target → Bool
  | .claude => optout.claude
  | .codex => optout.codex
  | .vscode _ => optout.vscode

end Managed

end Governance
