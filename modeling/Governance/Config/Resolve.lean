import Governance.Auth.Endpoints
import Governance.Core.Schema
import Governance.Lib.Sheets

/-!
# The five layers of a setting

`config_file/mod.rs`, `config/mod.rs` and `config/token_exchange.rs`: a flag or an environment
variable wins over the developer's file, that over the machine's, and that over the compiled
default. A value is checked once it has been chosen, so a bad value below a good one is not seen.
-/

namespace Governance

namespace Config

open ByteLines Endpoints

/-! ## A configuration file -/

/-- A TOML value. -/
inductive Toml where
  | string (text : String)
  | integer (value : ℤ)
  | boolean (value : Bool)
  | other (text : String)
  deriving DecidableEq

/-- `toml_edit::DocumentMut`, at its top level. -/
abbrev Doc := Sheet String Toml

/-- `config_file::ConfigFile`. -/
structure ConfigFile where
  issuer : Option String
  clientId : Option String
  scopes : Option String
  audience : Option String
  otelEndpoint : Option String
  otelToken : Option String
  otelTokenFile : Option String
  gatewayUrl : Option String
  profile : Option String
  copilotSpoolPath : Option String
  otelHeadersDebounceMs : Option ℕ
  openBrowser : Option Bool
  tokenExchange : Option Bool
  exchangeIssuer : Option String
  exchangeTokenEndpoint : Option String
  exchangeClientId : Option String
  exchangeScopes : Option String
  noClaude : Option Bool
  noCodex : Option Bool
  noVscode : Option Bool
  codexTelemetryOnly : Option Bool
  callbackPort : Option ℕ
  callbackBind : Option String

/-- `toml_edit`, `Url::parse`, `IpAddr::from_str`, the file that `otel_token_file` names, and the
text that a new configuration file starts with. -/
structure Env where
  parse : Bytes → Option Doc
  render : Doc → Bytes
  parseUrl : String → Option Url
  parseBind : String → Option String
  readTokenFile : String → Option String
  header : Option String

/-- A file on disk; group or others can read it. -/
structure Stored where
  bytes : Bytes
  shared : Bool
  deriving DecidableEq

def stringKeys : List String :=
  ["issuer", "client_id", "scopes", "audience", "otel_endpoint", "otel_token", "otel_token_file",
    "gateway_url", "profile", "copilot_spool_path", "exchange_issuer", "exchange_token_endpoint",
    "exchange_client_id", "exchange_scopes", "callback_bind"]

def boolKeys : List String :=
  ["open_browser", "token_exchange", "no_claude", "no_codex", "no_vscode", "codex_telemetry_only"]

/-- The field exists and has this type. TOML's integers are signed, of 64 bits. -/
def WellTyped (key : String) : Toml → Prop
  | .string _ => key ∈ stringKeys
  | .boolean _ => key ∈ boolKeys
  | .integer value =>
    key = "otel_headers_debounce_ms" ∧ 0 ≤ value ∨
      key = "callback_port" ∧ 0 ≤ value ∧ value < 2 ^ 16
  | .other _ => False

instance (key : String) : ∀ value, Decidable (WellTyped key value)
  | .string _ => inferInstanceAs (Decidable (_ ∈ _))
  | .boolean _ => inferInstanceAs (Decidable (_ ∈ _))
  | .integer _ => inferInstanceAs (Decidable (_ ∨ _))
  | .other _ => .isFalse id

namespace Toml

def asString : Toml → Option String
  | string text => some text
  | _ => none

def asBool : Toml → Option Bool
  | boolean value => some value
  | _ => none

def asNat : Toml → Option ℕ
  | integer value => some value.toNat
  | _ => none

end Toml

/-- The fields of a document. -/
def ConfigFile.ofDoc (doc : Doc) : ConfigFile where
  issuer := (doc.lookup "issuer").bind Toml.asString
  clientId := (doc.lookup "client_id").bind Toml.asString
  scopes := (doc.lookup "scopes").bind Toml.asString
  audience := (doc.lookup "audience").bind Toml.asString
  otelEndpoint := (doc.lookup "otel_endpoint").bind Toml.asString
  otelToken := (doc.lookup "otel_token").bind Toml.asString
  otelTokenFile := (doc.lookup "otel_token_file").bind Toml.asString
  gatewayUrl := (doc.lookup "gateway_url").bind Toml.asString
  profile := (doc.lookup "profile").bind Toml.asString
  copilotSpoolPath := (doc.lookup "copilot_spool_path").bind Toml.asString
  otelHeadersDebounceMs := (doc.lookup "otel_headers_debounce_ms").bind Toml.asNat
  openBrowser := (doc.lookup "open_browser").bind Toml.asBool
  tokenExchange := (doc.lookup "token_exchange").bind Toml.asBool
  exchangeIssuer := (doc.lookup "exchange_issuer").bind Toml.asString
  exchangeTokenEndpoint := (doc.lookup "exchange_token_endpoint").bind Toml.asString
  exchangeClientId := (doc.lookup "exchange_client_id").bind Toml.asString
  exchangeScopes := (doc.lookup "exchange_scopes").bind Toml.asString
  noClaude := (doc.lookup "no_claude").bind Toml.asBool
  noCodex := (doc.lookup "no_codex").bind Toml.asBool
  noVscode := (doc.lookup "no_vscode").bind Toml.asBool
  codexTelemetryOnly := (doc.lookup "codex_telemetry_only").bind Toml.asBool
  callbackPort := (doc.lookup "callback_port").bind Toml.asNat
  callbackBind := (doc.lookup "callback_bind").bind Toml.asString

/-- Why a configuration is not resolved. -/
inductive ResolveError where
  | invalidFile
  | sharedSecret
  | missing (issuer clientId : Bool)
  | insecureIssuer
  | insecureOtelEndpoint
  | twoTokens
  | unreadableToken
  | insecureGatewayUrl
  | unknownProfile
  | insecureExchangeIssuer
  | insecureExchangeEndpoint
  | missingExchangeClientId
  | missingExchangeEndpoint
  | invalidCallbackPort
  | invalidCallbackBind
  deriving DecidableEq

/-- `config_file::load`. -/
def load (env : Env) : Option Stored → Except ResolveError (Option ConfigFile)
  | none => .ok none
  | some file =>
    match env.parse file.bytes with
    | none => .error .invalidFile
    | some doc =>
      if ∃ entry ∈ doc.entries, ¬WellTyped entry.key entry.value then .error .invalidFile
      else if (ConfigFile.ofDoc doc).otelToken.isSome ∧ file.shared then .error .sharedSecret
      else .ok (some (.ofDoc doc))

/-- `ConfigFile::otel_token`. -/
def otelToken (env : Env) (file : ConfigFile) : Except ResolveError (Option String) :=
  match file.otelToken, file.otelTokenFile with
  | some _, some _ => .error .twoTokens
  | some token, none => .ok (some token)
  | none, some path =>
    match env.readTokenFile path with
    | none => .error .unreadableToken
    | some token => .ok (some token)
  | none, none => .ok none

/-- The token of a file that may be missing. -/
def fileToken (env : Env) : Option ConfigFile → Except ResolveError (Option String)
  | none => .ok none
  | some file => otelToken env file

/-! ## Flags, and what is resolved -/

/-- `OauthConfigArgs`: what the flags and the environment supply. -/
structure Args where
  issuer : Option String
  clientId : Option String
  scopes : Option String
  audience : Option String
  otelEndpoint : Option String
  otelToken : Option String
  gatewayUrl : Option String
  profile : Option String
  copilotSpoolPath : Option String
  otelHeadersDebounceMs : Option ℕ
  openBrowser : Option Bool
  callbackPort : Option ℕ
  callbackBind : Option String
  tokenExchange : Option Bool
  exchangeIssuer : Option String
  exchangeTokenEndpoint : Option String
  exchangeClientId : Option String
  exchangeScopes : Option String

/-- No flags and no environment. -/
def Args.bare : Args :=
  ⟨none, none, none, none, none, none, none, none, none, none, none, none, none, none, none, none,
    none, none⟩

/-- `profile::Profile`. -/
inductive Profile where
  | daemon
  | manual
  deriving DecidableEq

/-- `Profile::as_str`. -/
def Profile.asStr : Profile → String
  | daemon => "daemon"
  | manual => "manual"

/-- `Profile::from_str`. -/
def Profile.fromStr (text : String) : Option Profile :=
  if text = "daemon" then some daemon else if text = "manual" then some manual else none

/-- `ExchangeTokenEndpoint`. -/
inductive ExchangeTokenEndpoint where
  | explicit (url : String)
  | issuer (url : String)
  deriving DecidableEq

structure ExchangeConfig where
  tokenEndpoint : ExchangeTokenEndpoint
  clientId : String
  scopes : Option String
  deriving DecidableEq

structure OauthConfig where
  issuer : String
  clientId : String
  scopes : String
  audience : Option String
  otelEndpoint : Option String
  otelToken : Option String
  gatewayUrl : Option String
  profile : Profile
  profileExplicit : Option Profile
  copilotSpoolPath : Option String
  otelHeadersDebounceMs : ℕ
  openBrowser : Bool
  callbackPort : Option ℕ
  callbackBind : String
  tokenExchange : Option ExchangeConfig
  lastNoClaude : Bool
  lastNoCodex : Bool
  lastNoVscode : Bool
  lastCodexTelemetryOnly : Bool
  deriving DecidableEq

/-- `DEFAULT_SCOPES`. -/
def defaultScopes : String := "openid profile offline_access"

/-- `DEFAULT_OTEL_HEADERS_DEBOUNCE_MS`. -/
def defaultOtelHeadersDebounceMs : ℕ := 240000

/-- `DEFAULT_BIND`. -/
def defaultBind : String := "127.0.0.1"

/-- `CALLBACK_PORTS`. -/
def callbackPorts : List ℕ := [17452, 17453, 17454, 17455, 17456]

/-- `parse_issuer` and `parse_exchange_token_endpoint` accept the text, which they return. -/
def secureUrl (env : Env) (raw : String) : Bool := (env.parseUrl raw).any requireSecure

/-- The first of the layers that has a value. -/
def layered {α : Type} (flag : Option α) (field : ConfigFile → Option α)
    (user machine : Option ConfigFile) : Option α :=
  (flag.or (user.bind field)).or (machine.bind field)

/-- `token_exchange::resolve`. -/
def resolveExchange (env : Env) (args : Args) (user machine : Option ConfigFile) :
    Except ResolveError (Option ExchangeConfig) :=
  let exchangeIssuer := layered args.exchangeIssuer (·.exchangeIssuer) user machine
  let endpoint := layered args.exchangeTokenEndpoint (·.exchangeTokenEndpoint) user machine
  let scopes := layered args.exchangeScopes (·.exchangeScopes) user machine
  if (layered args.tokenExchange (·.tokenExchange) user machine).getD false = false then .ok none
  else if exchangeIssuer.all (secureUrl env) = false then .error .insecureExchangeIssuer
  else if endpoint.all (secureUrl env) = false then .error .insecureExchangeEndpoint
  else
    match layered args.exchangeClientId (·.exchangeClientId) user machine, endpoint,
        exchangeIssuer with
    | none, _, _ => .error .missingExchangeClientId
    | some clientId, some url, _ => .ok (some ⟨.explicit url, clientId, scopes⟩)
    | some clientId, none, some url => .ok (some ⟨.issuer url, clientId, scopes⟩)
    | some _, none, none => .error .missingExchangeEndpoint

/-- `.map(parse).transpose()` of a text that may be missing. -/
def parsed {α : Type} (parse : String → Option α) : Option String → Option (Option α)
  | none => some none
  | some text => (parse text).map some

/-- `resolve_with_paths`, from the two files on. -/
def resolveFiles (env : Env) (args : Args) (user machine : Option ConfigFile) :
    Except ResolveError OauthConfig :=
  let otelEndpoint := layered args.otelEndpoint (·.otelEndpoint) user machine
  let gatewayUrl := layered args.gatewayUrl (·.gatewayUrl) user machine
  let callbackPort := layered args.callbackPort (·.callbackPort) user machine
  match layered args.issuer (·.issuer) user machine,
      layered args.clientId (·.clientId) user machine with
  | none, clientId => .error (.missing true clientId.isNone)
  | some _, none => .error (.missing false true)
  | some issuer, some clientId =>
    if secureUrl env issuer = false then .error .insecureIssuer
    else if otelEndpoint.all (secureUrl env) = false then .error .insecureOtelEndpoint
    else match fileToken env user, fileToken env machine with
    | .error e, _ => .error e
    | .ok _, .error e => .error e
    | .ok userToken, .ok machineToken =>
      if gatewayUrl.all (secureUrl env) = false then .error .insecureGatewayUrl
      else match parsed Profile.fromStr (layered args.profile (·.profile) user machine) with
      | none => .error .unknownProfile
      | some profileExplicit =>
        match resolveExchange env args user machine with
        | .error e => .error e
        | .ok tokenExchange =>
          if callbackPort.all (· ∈ callbackPorts) = false then .error .invalidCallbackPort
          else match parsed env.parseBind
              (layered args.callbackBind (·.callbackBind) user machine) with
          | none => .error .invalidCallbackBind
          | some callbackBind =>
            .ok
              { issuer := issuer
                clientId := clientId
                scopes := (layered args.scopes (·.scopes) user machine).getD defaultScopes
                audience := layered args.audience (·.audience) user machine
                otelEndpoint := otelEndpoint
                otelToken := args.otelToken.or (userToken.or machineToken)
                gatewayUrl := gatewayUrl
                profile := profileExplicit.getD .manual
                profileExplicit := profileExplicit
                copilotSpoolPath := layered args.copilotSpoolPath (·.copilotSpoolPath) user machine
                otelHeadersDebounceMs :=
                  (layered args.otelHeadersDebounceMs (·.otelHeadersDebounceMs) user
                    machine).getD defaultOtelHeadersDebounceMs
                openBrowser := (layered args.openBrowser (·.openBrowser) user machine).getD false
                callbackPort := callbackPort
                callbackBind := callbackBind.getD defaultBind
                tokenExchange := tokenExchange
                lastNoClaude := (layered none (·.noClaude) user machine).getD false
                lastNoCodex := (layered none (·.noCodex) user machine).getD false
                lastNoVscode := (layered none (·.noVscode) user machine).getD false
                lastCodexTelemetryOnly :=
                  (layered none (·.codexTelemetryOnly) user machine).getD false }

/-- `resolve_with_paths`. -/
def resolveWithPaths (env : Env) (args : Args) (user machine : Option Stored) :
    Except ResolveError OauthConfig :=
  match load env user, load env machine with
  | .error e, _ => .error e
  | .ok _, .error e => .error e
  | .ok user, .ok machine => resolveFiles env args user machine

end Config

end Governance
