import Governance.Config.Resolve

/-!
# What `login` writes back

`config_persist/mod.rs`: the resolved settings go into the developer's file, key by key, and a
setting that is off is written by taking its key out. For token exchange that is not enough when
the machine's file switches it on; and what only a flag has hidden comes to light without it.
-/

namespace Governance

namespace Config

open ByteLines Endpoints

/-! ## Writing -/

/-- `optout::ClientOptOut`. -/
structure ClientOptOut where
  claude : Bool
  codex : Bool
  codexTelemetryOnly : Bool
  vscode : Bool
  deriving DecidableEq

/-- `set_or_clear`. -/
def setOrClear (key : String) : Option String → Sheet.Op String Toml
  | some text => .set key (.string text)
  | none => .clear key

/-- What `remember` does for token exchange. -/
def exchangeOps : Option ExchangeConfig → List (Sheet.Op String Toml)
  | some exchange =>
    [.set "token_exchange" (.boolean true),
      .set "exchange_client_id" (.string exchange.clientId),
      setOrClear "exchange_scopes" exchange.scopes] ++
    match exchange.tokenEndpoint with
    | .explicit url => [.set "exchange_token_endpoint" (.string url), .clear "exchange_issuer"]
    | .issuer url => [.set "exchange_issuer" (.string url), .clear "exchange_token_endpoint"]
  | none =>
    [.clear "token_exchange", .clear "exchange_issuer", .clear "exchange_token_endpoint",
      .clear "exchange_client_id", .clear "exchange_scopes"]

/-- The edits of `remember`. -/
def rememberOps (config : OauthConfig) (optout : ClientOptOut) : List (Sheet.Op String Toml) :=
  [.set "issuer" (.string config.issuer),
    .set "client_id" (.string config.clientId),
    .set "scopes" (.string config.scopes),
    .set "otel_headers_debounce_ms" (.integer config.otelHeadersDebounceMs),
    .set "open_browser" (.boolean config.openBrowser),
    .set "no_claude" (.boolean optout.claude),
    .set "no_codex" (.boolean optout.codex),
    .set "no_vscode" (.boolean optout.vscode),
    .set "codex_telemetry_only" (.boolean optout.codexTelemetryOnly),
    setOrClear "audience" config.audience,
    setOrClear "otel_endpoint" config.otelEndpoint,
    setOrClear "gateway_url" config.gatewayUrl,
    setOrClear "profile" (config.profileExplicit.map Profile.asStr),
    setOrClear "copilot_spool_path" config.copilotSpoolPath] ++
  exchangeOps config.tokenExchange

/-- The keys of the remembered settings. -/
def rememberedKeys : List String :=
  ["issuer", "client_id", "scopes", "otel_headers_debounce_ms", "open_browser", "no_claude",
    "no_codex", "no_vscode", "codex_telemetry_only", "audience", "otel_endpoint", "gateway_url",
    "profile", "copilot_spool_path", "token_exchange", "exchange_client_id", "exchange_scopes",
    "exchange_token_endpoint", "exchange_issuer"]

/-- How the operations on the file go. A write that fails has already emptied the file and put
some of the bytes. -/
inductive Io where
  | succeeds
  | readFails
  | directoryFails
  | openFails
  | writeFails (written : ℕ)
  deriving DecidableEq

inductive RememberError where
  | reading
  | parsing
  | header
  | debounceTooLarge
  | directory
  | opening
  | writing
  deriving DecidableEq

/-- The file afterwards, and the error if there is one. -/
structure Outcome where
  file : Option Stored
  error : Option RememberError
  deriving DecidableEq

/-- The bytes of a file that may be missing. -/
def bytesOf (file : Option Stored) : Bytes := (file.map Stored.bytes).getD []

/-- The document that is written. A new one gets the header. -/
def rememberedDoc (config : OauthConfig) (optout : ClientOptOut) (header : String) (doc : Doc) :
    Doc :=
  Sheet.applyAll (rememberOps config optout)
    (if doc.entries = [] then { doc with preface := header } else doc)

/-- `config_persist::remember`. A file that is created is the developer's alone. -/
def remember (env : Env) (config : OauthConfig) (optout : ClientOptOut) (io : Io)
    (file : Option Stored) : Outcome :=
  if io = .readFails then ⟨file, some .reading⟩
  else match env.parse (bytesOf file) with
  | none => ⟨file, some .parsing⟩
  | some doc =>
    if doc.entries = [] ∧ env.header = none then ⟨file, some .header⟩
    else if i64Max < config.otelHeadersDebounceMs then ⟨file, some .debounceTooLarge⟩
    else
      let bytes := env.render (rememberedDoc config optout (env.header.getD "") doc)
      let shared := (file.map Stored.shared).getD false
      match io with
      | .directoryFails => ⟨file, some .directory⟩
      | .openFails => ⟨file, some .opening⟩
      | .writeFails written => ⟨some ⟨bytes.take written, shared⟩, some .writing⟩
      | .readFails => ⟨file, some .reading⟩
      | .succeeds => ⟨some ⟨bytes, shared⟩, none⟩

/-! ## The promise -/

/-- The settings that are to be reproduced. -/
structure Durable where
  issuer : String
  clientId : String
  scopes : String
  audience : Option String
  otelEndpoint : Option String
  gatewayUrl : Option String
  profileExplicit : Option Profile
  copilotSpoolPath : Option String
  otelHeadersDebounceMs : ℕ
  openBrowser : Bool
  tokenExchange : Option ExchangeConfig

def OauthConfig.durable (config : OauthConfig) : Durable where
  issuer := config.issuer
  clientId := config.clientId
  scopes := config.scopes
  audience := config.audience
  otelEndpoint := config.otelEndpoint
  gatewayUrl := config.gatewayUrl
  profileExplicit := config.profileExplicit
  copilotSpoolPath := config.copilotSpoolPath
  otelHeadersDebounceMs := config.otelHeadersDebounceMs
  openBrowser := config.openBrowser
  tokenExchange := config.tokenExchange

/-- The opt-outs that a configuration remembers. -/
def OauthConfig.lastOptOut (config : OauthConfig) : ClientOptOut :=
  ⟨config.lastNoClaude, config.lastNoCodex, config.lastCodexTelemetryOnly, config.lastNoVscode⟩

/-- The entries of a document that are not remembered. -/
def otherEntries (doc : Doc) : List (SheetEntry String Toml) :=
  doc.entries.filter fun entry => entry.key ∉ rememberedKeys

/-- What is promised of a configuration that was resolved and remembered. -/
structure Reproduces (env : Env) (config : OauthConfig) (optout : ClientOptOut) (io : Io)
    (user machine : Option Stored) : Prop where
  again : (remember env config optout io user).error = none →
    ∃ config', resolveWithPaths env .bare (remember env config optout io user).file machine =
        .ok config' ∧ config'.durable = config.durable ∧ config'.lastOptOut = optout
  idempotent : (remember env config optout io user).error = none →
    remember env config optout .succeeds (remember env config optout io user).file =
      ⟨(remember env config optout io user).file, none⟩
  others : (remember env config optout io user).error = none →
    ∀ doc doc', env.parse (bytesOf user) = some doc →
      env.parse (bytesOf (remember env config optout io user).file) = some doc' →
      otherEntries doc' = otherEntries doc
  failing : (remember env config optout io user).error ≠ none →
    (remember env config optout io user).file = user

/-! ## The condition -/

/-- The settings can be encoded: the debounce fits, and a new file has its header. -/
def Encodes (env : Env) (config : OauthConfig) (user : Option Stored) : Prop :=
  (config.otelHeadersDebounceMs : ℤ) ≤ i64Max ∧
    ∀ doc, env.parse (bytesOf user) = some doc → doc.entries = [] → env.header ≠ none

/-- The files alone say what they say below the flags. -/
structure Stays (env : Env) (args : Args) (user machine : Option ConfigFile) : Prop where
  exchangeOff : args.tokenExchange.or (user.bind (·.tokenExchange)) = some false →
    machine.bind (·.tokenExchange) ≠ some true
  exchangeIssuer : layered args.tokenExchange (·.tokenExchange) user machine = some true →
    layered args.exchangeTokenEndpoint (·.exchangeTokenEndpoint) user machine ≠ none →
    (machine.bind (·.exchangeIssuer)).all (secureUrl env) = true
  callbackPort :
    (layered none (·.callbackPort) user machine).all (· ∈ callbackPorts) = true
  callbackBind : parsed env.parseBind (layered none (·.callbackBind) user machine) ≠ none

/-- The condition: what is written stays in force, and a write that fails part-way has put back
what was there. -/
structure Lasting (env : Env) (args : Args) (config : OauthConfig) (optout : ClientOptOut)
    (io : Io) (user machine : Option Stored) : Prop where
  stays : io = .succeeds → Encodes env config user →
    ∀ userFile machineFile, load env user = .ok userFile → load env machine = .ok machineFile →
      Stays env args userFile machineFile
  whole : ∀ written, io = .writeFails written → Encodes env config user →
    ∀ doc, env.parse (bytesOf user) = some doc → ∃ file, user = some file ∧
      (env.render (rememberedDoc config optout (env.header.getD "") doc)).take written = file.bytes

/-! ## What is resolved -/

section Resolved

variable {α : Type} {env : Env} {args : Args} {user machine : Option ConfigFile}
  {config : OauthConfig}

/-- A configuration that the layers resolve to. -/
structure Resolves (env : Env) (args : Args) (user machine : Option ConfigFile)
    (config : OauthConfig) : Prop where
  issuer : layered args.issuer (·.issuer) user machine = some config.issuer
  clientId : layered args.clientId (·.clientId) user machine = some config.clientId
  issuerSecure : secureUrl env config.issuer = true
  otelEndpoint : config.otelEndpoint = layered args.otelEndpoint (·.otelEndpoint) user machine
  otelEndpointSecure : config.otelEndpoint.all (secureUrl env) = true
  otelToken : ∃ userToken machineToken, fileToken env user = .ok userToken ∧
    fileToken env machine = .ok machineToken ∧
    config.otelToken = args.otelToken.or (userToken.or machineToken)
  gatewayUrl : config.gatewayUrl = layered args.gatewayUrl (·.gatewayUrl) user machine
  gatewayUrlSecure : config.gatewayUrl.all (secureUrl env) = true
  profileExplicit : parsed Profile.fromStr (layered args.profile (·.profile) user machine) =
    some config.profileExplicit
  profile : config.profile = config.profileExplicit.getD .manual
  tokenExchange : resolveExchange env args user machine = .ok config.tokenExchange
  callbackPort : config.callbackPort = layered args.callbackPort (·.callbackPort) user machine
  callbackPortValid : config.callbackPort.all (· ∈ callbackPorts) = true
  callbackBind : ∃ bind,
    parsed env.parseBind (layered args.callbackBind (·.callbackBind) user machine) = some bind ∧
      config.callbackBind = bind.getD defaultBind
  scopes : config.scopes = (layered args.scopes (·.scopes) user machine).getD defaultScopes
  audience : config.audience = layered args.audience (·.audience) user machine
  copilotSpoolPath : config.copilotSpoolPath =
    layered args.copilotSpoolPath (·.copilotSpoolPath) user machine
  otelHeadersDebounceMs : config.otelHeadersDebounceMs =
    (layered args.otelHeadersDebounceMs (·.otelHeadersDebounceMs) user machine).getD
      defaultOtelHeadersDebounceMs
  openBrowser : config.openBrowser =
    (layered args.openBrowser (·.openBrowser) user machine).getD false
  lastNoClaude : config.lastNoClaude = (layered none (·.noClaude) user machine).getD false
  lastNoCodex : config.lastNoCodex = (layered none (·.noCodex) user machine).getD false
  lastNoVscode : config.lastNoVscode = (layered none (·.noVscode) user machine).getD false
  lastCodexTelemetryOnly : config.lastCodexTelemetryOnly =
    (layered none (·.codexTelemetryOnly) user machine).getD false

theorem resolveFiles_eq_ok_iff :
    resolveFiles env args user machine = .ok config ↔ Resolves env args user machine config := by
  constructor
  · intro h
    unfold resolveFiles at h
    dsimp only at h
    split at h
    · cases h
    · cases h
    · next issuer clientId hissuer hclient =>
      split at h
      · cases h
      · next hissuerSecure =>
        split at h
        · cases h
        · next hotelSecure =>
          split at h
          · cases h
          · cases h
          · next userToken machineToken huser hmachine =>
            split at h
            · cases h
            · next hgatewaySecure =>
              split at h
              · cases h
              · next profileExplicit hprofile =>
                split at h
                · cases h
                · next tokenExchange hexchange =>
                  split at h
                  · cases h
                  · next hport =>
                    split at h
                    · cases h
                    · next callbackBind hbind =>
                      cases h
                      constructor
                      case otelToken => exact ⟨userToken, machineToken, huser, hmachine, rfl⟩
                      case callbackBind => exact ⟨callbackBind, hbind, rfl⟩
                      all_goals first | assumption | rfl | simp_all
  · intro h
    obtain ⟨userToken, machineToken, huser, hmachine, htoken⟩ := h.otelToken
    obtain ⟨callbackBind, hbind, hbindValue⟩ := h.callbackBind
    unfold resolveFiles
    simp only [h.issuer, h.clientId, h.issuerSecure, ← h.otelEndpoint, h.otelEndpointSecure, huser,
      hmachine, ← h.gatewayUrl, h.gatewayUrlSecure, h.profileExplicit, h.tokenExchange,
      ← h.callbackPort, h.callbackPortValid, hbind, ← h.scopes, ← h.audience,
      ← h.copilotSpoolPath, ← h.otelHeadersDebounceMs, ← h.openBrowser, ← h.lastNoClaude,
      ← h.lastNoCodex, ← h.lastNoVscode, ← h.lastCodexTelemetryOnly, ← htoken, ← hbindValue,
      ← h.profile, Bool.true_eq_false, if_false]

/-- A layer that repeats what was resolved resolves to it again. -/
theorem layered_again {flag : Option α} {field : ConfigFile → Option α} {again : ConfigFile}
    (h : field again = layered flag field user machine) :
    layered none field (some again) machine = layered flag field user machine := by
  rw [layered, Option.none_or, Option.bind_some, h]
  cases hvalue : layered flag field user machine with
  | some value => rfl
  | none =>
    -- Nothing was found in any layer, so nothing is in the machine's file.
    rw [layered, Option.or_eq_none_iff] at hvalue
    rw [hvalue.2]
    rfl

theorem layered_of_some {field : ConfigFile → Option α} {again : ConfigFile} {value : α}
    (h : field again = some value) : layered none field (some again) machine = some value := by
  rw [layered, Option.none_or, Option.bind_some, h]
  rfl

theorem Profile.fromStr_asStr (profile : Profile) : fromStr profile.asStr = some profile := by
  cases profile <;> decide

/-- The profile that is written is the one that is read. -/
theorem parsed_profile_again {flag : Option String} {again : ConfigFile}
    {profile : Option Profile}
    (h : parsed Profile.fromStr (layered flag (·.profile) user machine) = some profile)
    (hagain : again.profile = profile.map Profile.asStr) :
    parsed Profile.fromStr (layered none (·.profile) (some again) machine) = some profile := by
  cases profile with
  | some profile =>
    have hsome : layered none (·.profile) (some again) machine = some profile.asStr :=
      layered_of_some hagain
    rw [hsome, parsed, Profile.fromStr_asStr]
    rfl
  | none =>
    have hnone : layered flag (·.profile) user machine = none := by
      cases hvalue : layered flag (·.profile) user machine with
      | none => rfl
      | some text =>
        rw [hvalue, parsed] at h
        cases hparse : Profile.fromStr text with
        | none => simp [hparse] at h
        | some profile => simp [hparse] at h
    have hsame : again.profile = layered flag (·.profile) user machine := by
      rw [hagain, hnone]
      rfl
    rw [layered_again hsame, hnone]
    rfl

/-! ## Token exchange -/

theorem resolveExchange_eq_none_iff : resolveExchange env args user machine = .ok none ↔
    layered args.tokenExchange (·.tokenExchange) user machine ≠ some true := by
  unfold resolveExchange
  dsimp only
  cases henabled : layered args.tokenExchange (·.tokenExchange) user machine with
  | none => simp
  | some enabled =>
    cases enabled with
    | false => simp
    | true =>
      simp only [Option.getD_some, Bool.true_eq_false, if_false, ne_eq, not_true_eq_false,
        iff_false]
      split
      · nofun
      · split
        · nofun
        · split <;> nofun

/-- What an exchange that is on has been resolved from. -/
theorem resolveExchange_eq_some_iff {exchange : ExchangeConfig} :
    resolveExchange env args user machine = .ok (some exchange) ↔
      layered args.tokenExchange (·.tokenExchange) user machine = some true ∧
      (layered args.exchangeIssuer (·.exchangeIssuer) user machine).all (secureUrl env) = true ∧
      (layered args.exchangeTokenEndpoint (·.exchangeTokenEndpoint) user machine).all
        (secureUrl env) = true ∧
      layered args.exchangeClientId (·.exchangeClientId) user machine = some exchange.clientId ∧
      exchange.scopes = layered args.exchangeScopes (·.exchangeScopes) user machine ∧
      match exchange.tokenEndpoint with
      | .explicit url =>
        layered args.exchangeTokenEndpoint (·.exchangeTokenEndpoint) user machine = some url
      | .issuer url =>
        layered args.exchangeTokenEndpoint (·.exchangeTokenEndpoint) user machine = none ∧
          layered args.exchangeIssuer (·.exchangeIssuer) user machine = some url := by
  obtain ⟨endpoint, clientId, scopes⟩ := exchange
  unfold resolveExchange
  dsimp only
  generalize layered args.tokenExchange (·.tokenExchange) user machine = enabled
  generalize layered args.exchangeIssuer (·.exchangeIssuer) user machine = issuerLayer
  generalize layered args.exchangeTokenEndpoint (·.exchangeTokenEndpoint) user machine =
    endpointLayer
  generalize layered args.exchangeClientId (·.exchangeClientId) user machine = clientLayer
  generalize layered args.exchangeScopes (·.exchangeScopes) user machine = scopesLayer
  by_cases henabled : enabled = some true
  · subst henabled
    cases hissuer : issuerLayer.all (secureUrl env) with
    | false => simp
    | true =>
      cases hendpoint : endpointLayer.all (secureUrl env) with
      | false => simp
      | true =>
        cases clientLayer with
        | none => simp
        | some client =>
          cases endpointLayer with
          | some url => cases endpoint <;> simp [eq_comm, and_comm, and_left_comm]
          | none =>
            cases issuerLayer with
            | some url => cases endpoint <;> simp [eq_comm, and_comm, and_left_comm]
            | none => cases endpoint <;> simp
  · have hoff : enabled.getD false = false := by
      cases enabled with
      | none => rfl
      | some value =>
        cases value with
        | false => rfl
        | true => exact absurd rfl henabled
    simp [hoff, henabled]

end Resolved

/-! ## The file that is written -/

section Written

variable {env : Env} {config : OauthConfig} {optout : ClientOptOut} {header : String} {doc : Doc}
  {op : Sheet.Op String Toml}

@[simp] theorem key_setOrClear (key : String) (text : Option String) :
    (setOrClear key text).key = key := by
  cases text <;> rfl

theorem result_setOrClear (key : String) (text : Option String) :
    (setOrClear key text).result = text.map Toml.string := by
  cases text <;> rfl

theorem map_key_exchangeOps (exchange : Option ExchangeConfig) :
    ((exchangeOps exchange).map Sheet.Op.key).Perm
      ["token_exchange", "exchange_client_id", "exchange_scopes", "exchange_token_endpoint",
        "exchange_issuer"] := by
  cases exchange with
  | none =>
    show List.Perm ["token_exchange", "exchange_issuer", "exchange_token_endpoint",
      "exchange_client_id", "exchange_scopes"] _
    decide
  | some exchange =>
    obtain ⟨endpoint, clientId, scopes⟩ := exchange
    cases endpoint with
    | explicit url =>
      simp only [exchangeOps, List.map_append, List.map_cons, List.map_nil, key_setOrClear]
      exact .refl _
    | issuer url =>
      simp only [exchangeOps, List.map_append, List.map_cons, List.map_nil, key_setOrClear]
      show List.Perm ["token_exchange", "exchange_client_id", "exchange_scopes",
        "exchange_issuer", "exchange_token_endpoint"] _
      decide

theorem map_key_rememberOps :
    ((rememberOps config optout).map Sheet.Op.key).Perm rememberedKeys := by
  rw [rememberOps, List.map_append]
  refine (List.Perm.append_left _ (map_key_exchangeOps config.tokenExchange)).trans ?_
  simp only [List.map_cons, List.map_nil, key_setOrClear]
  exact .refl _

theorem nodup_rememberOps : ((rememberOps config optout).map Sheet.Op.key).Nodup :=
  (map_key_rememberOps).nodup_iff.mpr (by decide)

theorem key_mem_rememberedKeys (h : op ∈ rememberOps config optout) : op.key ∈ rememberedKeys :=
  (map_key_rememberOps).mem_iff.mp (List.mem_map_of_mem h)

theorem lookup_rememberedDoc (h : op ∈ rememberOps config optout) :
    (rememberedDoc config optout header doc).lookup op.key = op.result :=
  Sheet.lookup_applyAll_of_mem nodup_rememberOps h

/-- The developer's file afterwards: everything that is remembered, and what else there was. -/
def rememberedFile (config : OauthConfig) (optout : ClientOptOut) (file : ConfigFile) :
    ConfigFile where
  issuer := some config.issuer
  clientId := some config.clientId
  scopes := some config.scopes
  audience := config.audience
  otelEndpoint := config.otelEndpoint
  otelToken := file.otelToken
  otelTokenFile := file.otelTokenFile
  gatewayUrl := config.gatewayUrl
  profile := config.profileExplicit.map Profile.asStr
  copilotSpoolPath := config.copilotSpoolPath
  otelHeadersDebounceMs := some config.otelHeadersDebounceMs
  openBrowser := some config.openBrowser
  tokenExchange := config.tokenExchange.map fun _ => true
  exchangeIssuer := config.tokenExchange.bind fun exchange =>
    match exchange.tokenEndpoint with
    | .explicit _ => none
    | .issuer url => some url
  exchangeTokenEndpoint := config.tokenExchange.bind fun exchange =>
    match exchange.tokenEndpoint with
    | .explicit url => some url
    | .issuer _ => none
  exchangeClientId := config.tokenExchange.map ExchangeConfig.clientId
  exchangeScopes := config.tokenExchange.bind ExchangeConfig.scopes
  noClaude := some optout.claude
  noCodex := some optout.codex
  noVscode := some optout.vscode
  codexTelemetryOnly := some optout.codexTelemetryOnly
  callbackPort := file.callbackPort
  callbackBind := file.callbackBind

/-- A key that is not remembered. -/
theorem lookup_of_notMem {key : String} (h : key ∉ rememberedKeys) :
    (rememberedDoc config optout header doc).lookup key = doc.lookup key := by
  have hkeys : key ∉ (rememberOps config optout).map Sheet.Op.key :=
    fun hmem => h ((map_key_rememberOps).mem_iff.mp hmem)
  rw [rememberedDoc, Sheet.lookup_applyAll_of_notMem hkeys]
  split <;> rfl

theorem lookup_exchange (config : OauthConfig) (optout : ClientOptOut) (header : String)
    (doc : Doc) :
    let doc' := rememberedDoc config optout header doc
    doc'.lookup "token_exchange" = config.tokenExchange.map (fun _ => Toml.boolean true) ∧
      doc'.lookup "exchange_issuer" =
        (rememberedFile config optout (.ofDoc doc)).exchangeIssuer.map Toml.string ∧
      doc'.lookup "exchange_token_endpoint" =
        (rememberedFile config optout (.ofDoc doc)).exchangeTokenEndpoint.map Toml.string ∧
      doc'.lookup "exchange_client_id" =
        (config.tokenExchange.map ExchangeConfig.clientId).map Toml.string ∧
      doc'.lookup "exchange_scopes" =
        (config.tokenExchange.bind ExchangeConfig.scopes).map Toml.string := by
  have hall : ∀ op ∈ exchangeOps config.tokenExchange,
      (rememberedDoc config optout header doc).lookup op.key = op.result :=
    fun op h => lookup_rememberedDoc (List.mem_append_right _ h)
  dsimp only [rememberedFile]
  cases hexchange : config.tokenExchange with
  | none =>
    rw [hexchange] at hall
    simp only [exchangeOps, List.forall_mem_cons, List.not_mem_nil, IsEmpty.forall_iff,
      implies_true, and_true, Sheet.Op.key, Sheet.Op.result] at hall
    exact ⟨hall.1, hall.2.1, hall.2.2.1, hall.2.2.2.1, hall.2.2.2.2⟩
  | some exchange =>
    obtain ⟨endpoint, clientId, scopes⟩ := exchange
    rw [hexchange] at hall
    cases endpoint with
    | explicit url =>
      simp only [exchangeOps, List.forall_mem_append, List.forall_mem_cons, List.not_mem_nil,
        IsEmpty.forall_iff, implies_true, and_true, key_setOrClear, result_setOrClear] at hall
      obtain ⟨⟨hon, hclient, hscopes⟩, hendpoint, hissuer⟩ := hall
      exact ⟨hon, hissuer, hendpoint, hclient, hscopes⟩
    | issuer url =>
      simp only [exchangeOps, List.forall_mem_append, List.forall_mem_cons, List.not_mem_nil,
        IsEmpty.forall_iff, implies_true, and_true, key_setOrClear, result_setOrClear] at hall
      obtain ⟨⟨hon, hclient, hscopes⟩, hissuer, hendpoint⟩ := hall
      exact ⟨hon, hissuer, hendpoint, hclient, hscopes⟩

theorem bind_asString (text : Option String) :
    (text.map Toml.string).bind Toml.asString = text := by
  cases text <;> rfl

/-- The fields of the document that is written. -/
theorem ofDoc_rememberedDoc : ConfigFile.ofDoc (rememberedDoc config optout header doc) =
    rememberedFile config optout (.ofDoc doc) := by
  have hall : ∀ op ∈ rememberOps config optout,
      (rememberedDoc config optout header doc).lookup op.key = op.result :=
    fun op h => lookup_rememberedDoc h
  simp only [rememberOps, List.forall_mem_append, List.forall_mem_cons, List.not_mem_nil,
    IsEmpty.forall_iff, implies_true, and_true, key_setOrClear, result_setOrClear] at hall
  simp only [Sheet.Op.key, Sheet.Op.result] at hall
  obtain ⟨⟨hissuer, hclient, hscopes, hdebounce, hbrowser, hclaude, hcodex, hvscode, honly,
    haudience, hotel, hgateway, hprofile, hspool⟩, -⟩ := hall
  obtain ⟨hon, hexchangeIssuer, hendpoint, hexchangeClient, hexchangeScopes⟩ :=
    lookup_exchange config optout header doc
  have hother : ∀ key ∈ ["otel_token", "otel_token_file", "callback_port", "callback_bind"],
      (rememberedDoc config optout header doc).lookup key = doc.lookup key := by
    intro key hkey
    refine lookup_of_notMem ?_
    revert key
    decide
  simp only [List.forall_mem_cons, List.not_mem_nil, IsEmpty.forall_iff, implies_true,
    and_true] at hother
  obtain ⟨htoken, htokenFile, hport, hbind⟩ := hother
  have hflag : (config.tokenExchange.map fun _ => Toml.boolean true).bind Toml.asBool =
      config.tokenExchange.map fun _ => true := by
    cases config.tokenExchange <;> rfl
  simp only [ConfigFile.ofDoc, hissuer, hclient, hscopes, hdebounce, hbrowser, hclaude, hcodex,
    hvscode, honly, haudience, hotel, hgateway, hprofile, hspool, hon, hexchangeIssuer, hendpoint,
    hexchangeClient, hexchangeScopes, htoken, htokenFile, hport, hbind, bind_asString, hflag]
  rfl

/-- What is set has the type of its field. -/
def OpTyped : Sheet.Op String Toml → Prop
  | .set key value => WellTyped key value
  | .clear _ => True

theorem opTyped_setOrClear {key : String} (hkey : key ∈ stringKeys) (text : Option String) :
    OpTyped (setOrClear key text) := by
  cases text with
  | none => trivial
  | some text => exact hkey

theorem opTyped_exchangeOps (exchange : Option ExchangeConfig) :
    ∀ op ∈ exchangeOps exchange, OpTyped op := by
  have hon : ∀ value, OpTyped (.set "token_exchange" (.boolean value)) :=
    fun _ => show "token_exchange" ∈ boolKeys by decide
  have hclient : ∀ text, OpTyped (.set "exchange_client_id" (.string text)) :=
    fun _ => show "exchange_client_id" ∈ stringKeys by decide
  have hendpoint : ∀ text, OpTyped (.set "exchange_token_endpoint" (.string text)) :=
    fun _ => show "exchange_token_endpoint" ∈ stringKeys by decide
  have hissuer : ∀ text, OpTyped (.set "exchange_issuer" (.string text)) :=
    fun _ => show "exchange_issuer" ∈ stringKeys by decide
  cases exchange with
  | none =>
    simp only [exchangeOps, List.forall_mem_cons, List.not_mem_nil, IsEmpty.forall_iff,
      implies_true, OpTyped, and_self]
  | some exchange =>
    obtain ⟨endpoint, clientId, scopes⟩ := exchange
    have hscopes : OpTyped (setOrClear "exchange_scopes" scopes) :=
      opTyped_setOrClear (by decide) scopes
    cases endpoint with
    | explicit url =>
      simp only [exchangeOps, List.forall_mem_append, List.forall_mem_cons, List.not_mem_nil,
        IsEmpty.forall_iff, implies_true, and_true]
      exact ⟨⟨hon true, hclient clientId, hscopes⟩, hendpoint url, trivial⟩
    | issuer url =>
      simp only [exchangeOps, List.forall_mem_append, List.forall_mem_cons, List.not_mem_nil,
        IsEmpty.forall_iff, implies_true, and_true]
      exact ⟨⟨hon true, hclient clientId, hscopes⟩, hissuer url, trivial⟩

theorem opTyped_rememberOps : ∀ op ∈ rememberOps config optout, OpTyped op := by
  rw [rememberOps, List.forall_mem_append]
  refine ⟨?_, opTyped_exchangeOps config.tokenExchange⟩
  have hflags : ∀ key ∈ boolKeys, ∀ value, OpTyped (.set key (.boolean value)) :=
    fun key hkey _ => hkey
  have htexts : ∀ key ∈ stringKeys, ∀ text, OpTyped (.set key (.string text)) :=
    fun key hkey _ => hkey
  simp only [List.forall_mem_cons, List.not_mem_nil, IsEmpty.forall_iff, implies_true, and_true]
  exact ⟨htexts _ (by decide) _, htexts _ (by decide) _, htexts _ (by decide) _,
    .inl ⟨rfl, Int.natCast_nonneg _⟩, hflags _ (by decide) _, hflags _ (by decide) _,
    hflags _ (by decide) _, hflags _ (by decide) _, hflags _ (by decide) _,
    opTyped_setOrClear (by decide) _, opTyped_setOrClear (by decide) _,
    opTyped_setOrClear (by decide) _, opTyped_setOrClear (by decide) _,
    opTyped_setOrClear (by decide) _⟩

theorem wellTyped_rememberedDoc (config : OauthConfig) (optout : ClientOptOut) (header : String)
    (h : ∀ entry ∈ doc.entries, WellTyped entry.key entry.value) :
    ∀ entry ∈ (rememberedDoc config optout header doc).entries,
      WellTyped entry.key entry.value := by
  refine Sheet.forall_mem_applyAll (fun key value hmem => opTyped_rememberOps _ hmem) ?_
  split
  · exact h
  · exact h

/-- The file is not empty afterwards. -/
theorem entries_rememberedDoc_ne_nil :
    (rememberedDoc config optout header doc).entries ≠ [] := by
  have hissuer : (rememberedDoc config optout header doc).lookup "issuer" =
      some (.string config.issuer) :=
    lookup_rememberedDoc (List.mem_append_left _ List.mem_cons_self)
  intro hnil
  rw [Sheet.lookup, hnil] at hissuer
  cases hissuer

theorem rememberedDoc_again :
    rememberedDoc config optout header (rememberedDoc config optout header doc) =
      rememberedDoc config optout header doc := by
  conv_lhs => rw [rememberedDoc, if_neg entries_rememberedDoc_ne_nil]
  exact Sheet.applyAll_applyAll nodup_rememberOps

theorem otherEntries_rememberedDoc :
    otherEntries (rememberedDoc config optout header doc) = otherEntries doc := by
  have hkeys : ∀ op ∈ rememberOps config optout, decide (op.key ∉ rememberedKeys) = false := by
    intro op hmem
    simpa using key_mem_rememberedKeys hmem
  rw [otherEntries, rememberedDoc,
    Sheet.filter_applyAll (p := fun key => decide (key ∉ rememberedKeys)) hkeys]
  split <;> rfl

end Written

/-! ## Resolving again -/

section Again

variable {env : Env} {args : Args} {user machine : Option ConfigFile} {config : OauthConfig}
  {optout : ClientOptOut} {base : ConfigFile}

/-- Token exchange is resolved again as it was, where the files alone say so. -/
theorem resolveExchange_again (h : resolveExchange env args user machine = .ok config.tokenExchange)
    (hstays : Stays env args user machine) :
    resolveExchange env .bare (some (rememberedFile config optout base)) machine =
      .ok config.tokenExchange := by
  cases hexchange : config.tokenExchange with
  | none =>
    rw [hexchange, resolveExchange_eq_none_iff] at h
    rw [resolveExchange_eq_none_iff]
    have hcleared : (rememberedFile config optout base).tokenExchange = none := by
      rw [rememberedFile, hexchange]
      rfl
    have hmachine : layered Args.bare.tokenExchange (·.tokenExchange)
        (some (rememberedFile config optout base)) machine = machine.bind (·.tokenExchange) := by
      rw [layered, Option.bind_some, hcleared]
      rfl
    rw [hmachine]
    intro htrue
    -- Only a `false` above the machine's `true` can have switched it off.
    cases habove : args.tokenExchange.or (user.bind (·.tokenExchange)) with
    | none =>
      apply h
      rw [layered, habove, htrue]
      rfl
    | some value =>
      cases value with
      | false => exact hstays.exchangeOff habove htrue
      | true =>
        apply h
        rw [layered, habove]
        rfl
  | some exchange =>
    rw [hexchange, resolveExchange_eq_some_iff] at h
    obtain ⟨hon, hissuerSecure, hendpointSecure, hclient, hscopes, hendpoint⟩ := h
    have hscopesAgain : layered none (·.exchangeScopes)
        (some (rememberedFile config optout base)) machine = exchange.scopes := by
      rw [hscopes]
      refine layered_again ?_
      rw [← hscopes, rememberedFile, hexchange]
      rfl
    have hendpointAgain : layered none (·.exchangeTokenEndpoint)
        (some (rememberedFile config optout base)) machine =
        layered args.exchangeTokenEndpoint (·.exchangeTokenEndpoint) user machine := by
      refine layered_again ?_
      rw [rememberedFile, hexchange]
      cases hkind : exchange.tokenEndpoint with
      | explicit url =>
        rw [hkind] at hendpoint
        simp only [Option.bind_some, hkind, hendpoint]
      | issuer url =>
        rw [hkind] at hendpoint
        simp only [Option.bind_some, hkind, hendpoint.1]
    have hissuerAgain : (layered none (·.exchangeIssuer)
        (some (rememberedFile config optout base)) machine).all (secureUrl env) = true ∧
        ∀ url, exchange.tokenEndpoint = .issuer url →
          layered none (·.exchangeIssuer) (some (rememberedFile config optout base)) machine =
            some url := by
      cases hkind : exchange.tokenEndpoint with
      | explicit url =>
        rw [hkind] at hendpoint
        have hcleared : (rememberedFile config optout base).exchangeIssuer = none := by
          rw [rememberedFile, hexchange]
          simp only [Option.bind_some, hkind]
        refine ⟨?_, nofun⟩
        rw [layered, Option.bind_some, hcleared]
        exact hstays.exchangeIssuer hon (by rw [hendpoint]; exact Option.some_ne_none _)
      | issuer url =>
        rw [hkind] at hendpoint
        have hset : (rememberedFile config optout base).exchangeIssuer = some url := by
          rw [rememberedFile, hexchange]
          simp only [Option.bind_some, hkind]
        have hfound : layered none (·.exchangeIssuer)
            (some (rememberedFile config optout base)) machine = some url := layered_of_some hset
        rw [hendpoint.2] at hissuerSecure
        rw [hfound]
        exact ⟨hissuerSecure, fun url' h => by cases h; rfl⟩
    rw [resolveExchange_eq_some_iff]
    refine ⟨layered_of_some (by rw [rememberedFile, hexchange]; rfl), hissuerAgain.1, ?_,
      layered_of_some (by rw [rememberedFile, hexchange]; rfl), hscopesAgain.symm, ?_⟩
    · show (layered none (·.exchangeTokenEndpoint) _ machine).all _ = true
      rw [hendpointAgain]
      exact hendpointSecure
    · cases hkind : exchange.tokenEndpoint with
      | explicit url =>
        rw [hkind] at hendpoint
        exact hendpointAgain.trans hendpoint
      | issuer url =>
        rw [hkind] at hendpoint
        exact ⟨hendpointAgain.trans hendpoint.1, hissuerAgain.2 url hkind⟩

/-- The files alone resolve to the same settings exactly if they say so below the flags. -/
theorem again_iff_stays (optout : ClientOptOut) (h : Resolves env args user machine config)
    (hport : user.bind (·.callbackPort) = base.callbackPort)
    (hbind : user.bind (·.callbackBind) = base.callbackBind)
    (htoken : fileToken env user = otelToken env base) :
    (∃ config', resolveFiles env .bare (some (rememberedFile config optout base)) machine =
        .ok config' ∧ config'.durable = config.durable ∧ config'.lastOptOut = optout) ↔
      Stays env args user machine := by
  have hportAgain : layered none (·.callbackPort) (some (rememberedFile config optout base))
      machine = layered none (·.callbackPort) user machine := by
    rw [layered, layered, hport]
    rfl
  have hbindAgain : layered none (·.callbackBind) (some (rememberedFile config optout base))
      machine = layered none (·.callbackBind) user machine := by
    rw [layered, layered, hbind]
    rfl
  constructor
  · rintro ⟨config', hresolve, hdurable, -⟩
    have h' := resolveFiles_eq_ok_iff.1 hresolve
    have hsame : config'.tokenExchange = config.tokenExchange :=
      congrArg Durable.tokenExchange hdurable
    have hexchange' := h'.tokenExchange
    rw [hsame] at hexchange'
    refine ⟨?_, ?_, ?_, ?_⟩
    · intro habove htrue
      have hoff : resolveExchange env args user machine = .ok none := by
        rw [resolveExchange_eq_none_iff, layered, habove]
        nofun
      have hnone : config.tokenExchange = none := Except.ok.inj (h.tokenExchange.symm.trans hoff)
      rw [hnone, resolveExchange_eq_none_iff] at hexchange'
      apply hexchange'
      have hcleared : (rememberedFile config optout base).tokenExchange = none := by
        rw [rememberedFile, hnone]
        rfl
      rw [layered, Option.bind_some, hcleared, htrue]
      rfl
    · intro hon hendpoint
      cases hexchange : config.tokenExchange with
      | none =>
        have hoff := h.tokenExchange
        rw [hexchange, resolveExchange_eq_none_iff] at hoff
        exact absurd hon hoff
      | some exchange =>
        have hfirst := h.tokenExchange
        rw [hexchange, resolveExchange_eq_some_iff] at hfirst
        rw [hexchange, resolveExchange_eq_some_iff] at hexchange'
        cases hkind : exchange.tokenEndpoint with
        | issuer url =>
          rw [hkind] at hfirst
          exact absurd hfirst.2.2.2.2.2.1 hendpoint
        | explicit url =>
          have hcleared : (rememberedFile config optout base).exchangeIssuer = none := by
            rw [rememberedFile, hexchange]
            simp only [Option.bind_some, hkind]
          have hsecure := hexchange'.2.1
          rw [layered, Option.bind_some, hcleared] at hsecure
          exact hsecure
    · have hvalid := h'.callbackPortValid
      rw [h'.callbackPort] at hvalid
      rw [← hportAgain]
      exact hvalid
    · obtain ⟨bind, hparsed, -⟩ := h'.callbackBind
      rw [← hbindAgain]
      exact hparsed ▸ Option.some_ne_none _
  · intro hstays
    obtain ⟨userToken, machineToken, huser, hmachine, -⟩ := h.otelToken
    obtain ⟨bind, hparsed⟩ := Option.ne_none_iff_exists'.mp hstays.callbackBind
    have hspool : layered none (·.copilotSpoolPath) (some (rememberedFile config optout base))
        machine = layered args.copilotSpoolPath (·.copilotSpoolPath) user machine :=
      layered_again h.copilotSpoolPath
    have haudience : layered none (·.audience) (some (rememberedFile config optout base)) machine =
        layered args.audience (·.audience) user machine := layered_again h.audience
    have hotel : layered none (·.otelEndpoint) (some (rememberedFile config optout base)) machine =
        layered args.otelEndpoint (·.otelEndpoint) user machine := layered_again h.otelEndpoint
    have hgateway : layered none (·.gatewayUrl) (some (rememberedFile config optout base)) machine =
        layered args.gatewayUrl (·.gatewayUrl) user machine := layered_again h.gatewayUrl
    refine ⟨{ config with
      otelToken := userToken.or machineToken
      callbackPort := layered none (·.callbackPort) user machine
      callbackBind := bind.getD defaultBind
      lastNoClaude := optout.claude
      lastNoCodex := optout.codex
      lastNoVscode := optout.vscode
      lastCodexTelemetryOnly := optout.codexTelemetryOnly }, ?_, rfl, rfl⟩
    rw [resolveFiles_eq_ok_iff]
    exact
      { issuer := layered_of_some rfl
        clientId := layered_of_some rfl
        issuerSecure := h.issuerSecure
        otelEndpoint := h.otelEndpoint.trans hotel.symm
        otelEndpointSecure := h.otelEndpointSecure
        otelToken := ⟨userToken, machineToken, htoken.symm.trans huser, hmachine, rfl⟩
        gatewayUrl := h.gatewayUrl.trans hgateway.symm
        gatewayUrlSecure := h.gatewayUrlSecure
        profileExplicit := parsed_profile_again h.profileExplicit rfl
        profile := h.profile
        tokenExchange := resolveExchange_again h.tokenExchange hstays
        callbackPort := hportAgain.symm
        callbackPortValid := hstays.callbackPort
        callbackBind := ⟨bind, (congrArg _ hbindAgain).trans hparsed, rfl⟩
        scopes := rfl
        audience := h.audience.trans haudience.symm
        copilotSpoolPath := h.copilotSpoolPath.trans hspool.symm
        otelHeadersDebounceMs := rfl
        openBrowser := rfl
        lastNoClaude := rfl
        lastNoCodex := rfl
        lastNoVscode := rfl
        lastCodexTelemetryOnly := rfl }

end Again

/-! ## The condition is exact -/

section Exact

variable {env : Env} {args : Args} {config : OauthConfig} {optout : ClientOptOut} {io : Io}
  {user machine : Option Stored} {doc : Doc}

/-- The permissions of the file that is written. -/
def sharedOf (file : Option Stored) : Bool := (file.map Stored.shared).getD false

theorem remember_of_encodes (optout : ClientOptOut) (io : Io)
    (hparse : env.parse (bytesOf user) = some doc) (hencodes : Encodes env config user)
    (hread : io ≠ .readFails) :
    remember env config optout io user =
      let bytes := env.render (rememberedDoc config optout (env.header.getD "") doc)
      match io with
      | .directoryFails => ⟨user, some .directory⟩
      | .openFails => ⟨user, some .opening⟩
      | .writeFails written => ⟨some ⟨bytes.take written, sharedOf user⟩, some .writing⟩
      | .readFails => ⟨user, some .reading⟩
      | .succeeds => ⟨some ⟨bytes, sharedOf user⟩, none⟩ := by
  have hheader : ¬(doc.entries = [] ∧ env.header = none) :=
    fun h => hencodes.2 doc hparse h.1 h.2
  simp only [remember, if_neg hread, hparse, if_neg hheader, if_neg (not_lt.mpr hencodes.1),
    sharedOf]
  cases io <;> rfl

theorem remember_of_not_encodes (optout : ClientOptOut) (io : Io)
    (hparse : env.parse (bytesOf user) = some doc) (hencodes : ¬Encodes env config user) :
    (remember env config optout io user).file = user ∧
      (remember env config optout io user).error ≠ none := by
  by_cases hread : io = .readFails
  · simp [remember, hread]
  · simp only [remember, if_neg hread, hparse]
    split
    · exact ⟨rfl, nofun⟩
    · next hheader =>
      split
      · exact ⟨rfl, nofun⟩
      · next hdebounce =>
        refine absurd ⟨not_lt.mp hdebounce, ?_⟩ hencodes
        intro doc' hparse' hnil hnone
        rw [hparse] at hparse'
        cases hparse'
        exact hheader ⟨hnil, hnone⟩

/-- Only a write that went through reports no error. -/
theorem succeeds_of_error_eq_none (hparse : env.parse (bytesOf user) = some doc)
    (h : (remember env config optout io user).error = none) :
    io = .succeeds ∧ Encodes env config user := by
  by_cases hencodes : Encodes env config user
  · refine ⟨?_, hencodes⟩
    by_cases hread : io = .readFails
    · subst hread
      cases h
    · rw [remember_of_encodes optout io hparse hencodes hread] at h
      cases io with
      | succeeds => rfl
      | readFails => exact absurd rfl hread
      | directoryFails => cases h
      | openFails => cases h
      | writeFails written => cases h
  · exact absurd h (remember_of_not_encodes optout io hparse hencodes).2

/-- A call that fails leaves the file, unless its write was cut off. -/
theorem file_of_error_ne_none (hparse : env.parse (bytesOf user) = some doc)
    (hcut : ∀ written, io = .writeFails written → Encodes env config user →
      some ⟨(env.render (rememberedDoc config optout (env.header.getD "") doc)).take written,
        sharedOf user⟩ = user)
    (h : (remember env config optout io user).error ≠ none) :
    (remember env config optout io user).file = user := by
  by_cases hencodes : Encodes env config user
  · by_cases hread : io = .readFails
    · subst hread
      rfl
    · rw [remember_of_encodes optout io hparse hencodes hread] at h ⊢
      cases io with
      | succeeds => exact absurd rfl h
      | readFails => exact absurd rfl hread
      | directoryFails => rfl
      | openFails => rfl
      | writeFails written => exact hcut written rfl hencodes
  · exact (remember_of_not_encodes optout io hparse hencodes).1

/-- What was written is written again. -/
theorem remember_written
    (hback : env.parse (env.render (rememberedDoc config optout (env.header.getD "") doc)) =
      some (rememberedDoc config optout (env.header.getD "") doc))
    (hencodes : Encodes env config user) :
    let file : Option Stored :=
      some ⟨env.render (rememberedDoc config optout (env.header.getD "") doc), sharedOf user⟩
    remember env config optout .succeeds file = ⟨file, none⟩ := by
  intro file
  have hencodes' : Encodes env config file := by
    refine ⟨hencodes.1, ?_⟩
    intro doc' hparse' hnil
    rw [show bytesOf file = env.render _ from rfl, hback] at hparse'
    cases hparse'
    exact absurd hnil entries_rememberedDoc_ne_nil
  rw [remember_of_encodes optout .succeeds hback hencodes' nofun, rememberedDoc_again]
  rfl

/-- A file that is loaded is a document with the fields of a configuration file. A missing one is
the blank document. -/
theorem load_user {userFile : Option ConfigFile} (hempty : env.parse [] = some .blank)
    (h : load env user = .ok userFile) :
    ∃ doc, env.parse (bytesOf user) = some doc ∧
      (∀ entry ∈ doc.entries, WellTyped entry.key entry.value) ∧
      ¬((ConfigFile.ofDoc doc).otelToken.isSome ∧ sharedOf user = true) ∧
      userFile.bind (·.callbackPort) = (ConfigFile.ofDoc doc).callbackPort ∧
      userFile.bind (·.callbackBind) = (ConfigFile.ofDoc doc).callbackBind ∧
      fileToken env userFile = otelToken env (.ofDoc doc) := by
  cases user with
  | none =>
    cases h
    exact ⟨.blank, hempty, nofun, by simp [sharedOf], rfl, rfl, rfl⟩
  | some file =>
    rw [load] at h
    split at h
    · cases h
    · next doc hparse =>
      split at h
      · cases h
      · next htyped =>
        split at h
        · cases h
        · next hshared =>
          cases h
          push Not at htyped
          exact ⟨doc, hparse, htyped, hshared, rfl, rfl, rfl⟩

/-- The file that was written is loaded again. -/
theorem load_written
    (hback : env.parse (env.render (rememberedDoc config optout (env.header.getD "") doc)) =
      some (rememberedDoc config optout (env.header.getD "") doc))
    (htyped : ∀ entry ∈ doc.entries, WellTyped entry.key entry.value)
    (hshared : ¬((ConfigFile.ofDoc doc).otelToken.isSome ∧ sharedOf user = true)) :
    load env (some ⟨env.render (rememberedDoc config optout (env.header.getD "") doc),
      sharedOf user⟩) = .ok (some (rememberedFile config optout (.ofDoc doc))) := by
  have htyped' := wellTyped_rememberedDoc config optout (env.header.getD "") htyped
  rw [load, hback]
  dsimp only
  rw [if_neg (by push Not; exact htyped'), ofDoc_rememberedDoc]
  exact if_neg hshared

/-- Settings that were resolved and remembered reproduce themselves exactly if the files alone say
the same below the flags, and no write fails part-way. -/
theorem remember_reproduces_iff (env : Env) (args : Args) (config : OauthConfig)
    (optout : ClientOptOut) (io : Io) (user machine : Option Stored)
    (hresolve : resolveWithPaths env args user machine = .ok config)
    (hempty : env.parse [] = some .blank)
    (hback : ∀ doc, env.parse (bytesOf user) = some doc →
      env.parse (env.render (rememberedDoc config optout (env.header.getD "") doc)) =
        some (rememberedDoc config optout (env.header.getD "") doc)) :
    Reproduces env config optout io user machine ↔
      Lasting env args config optout io user machine := by
  obtain ⟨userFile, machineFile, huser, hmachine, hfiles⟩ : ∃ userFile machineFile,
      load env user = .ok userFile ∧ load env machine = .ok machineFile ∧
        resolveFiles env args userFile machineFile = .ok config := by
    unfold resolveWithPaths at hresolve
    split at hresolve
    · cases hresolve
    · cases hresolve
    · next userFile machineFile huser hmachine => exact ⟨_, _, huser, hmachine, hresolve⟩
  have hresolves := resolveFiles_eq_ok_iff.1 hfiles
  obtain ⟨doc, hparse, htyped, hshared, hport, hbind, htoken⟩ := load_user hempty huser
  have hagain := again_iff_stays optout hresolves hport hbind htoken
  have hloaded := load_written (hback doc hparse) htyped hshared
  constructor
  · intro h
    refine ⟨?_, ?_⟩
    · intro hio hencodes userFile' machineFile' huser' hmachine'
      cases huser.symm.trans huser'
      cases hmachine.symm.trans hmachine'
      subst hio
      have hsaved := remember_of_encodes optout .succeeds hparse hencodes nofun
      obtain ⟨config', hresolve', hsame⟩ := h.again (by rw [hsaved])
      rw [hsaved] at hresolve'
      refine hagain.mp ⟨config', ?_, hsame⟩
      simpa only [resolveWithPaths, hloaded, hmachine] using hresolve'
    · intro written hio hencodes doc' hparse'
      cases hparse.symm.trans hparse'
      subst hio
      have hcut := remember_of_encodes optout (.writeFails written) hparse hencodes nofun
      have hsame := h.failing (by rw [hcut]; nofun)
      rw [hcut] at hsame
      exact ⟨_, hsame.symm, rfl⟩
  · intro h
    -- A call that reports no error has written the document, and all else follows from that.
    have hsaved : (remember env config optout io user).error = none →
        Encodes env config user ∧ io = .succeeds ∧ remember env config optout io user =
          ⟨some ⟨env.render (rememberedDoc config optout (env.header.getD "") doc),
            sharedOf user⟩, none⟩ := by
      intro hnone
      obtain ⟨rfl, hencodes⟩ := succeeds_of_error_eq_none hparse hnone
      exact ⟨hencodes, rfl, remember_of_encodes optout .succeeds hparse hencodes nofun⟩
    refine ⟨?_, ?_, ?_, ?_⟩
    · intro hnone
      obtain ⟨hencodes, hio, hwritten⟩ := hsaved hnone
      obtain ⟨config', hresolve', hsame⟩ :=
        hagain.mpr (h.stays hio hencodes userFile machineFile huser hmachine)
      refine ⟨config', ?_, hsame⟩
      simpa only [resolveWithPaths, hwritten, hloaded, hmachine] using hresolve'
    · intro hnone
      obtain ⟨hencodes, -, hwritten⟩ := hsaved hnone
      rw [hwritten]
      exact remember_written (hback doc hparse) hencodes
    · intro hnone doc₁ doc₂ hparse₁ hparse₂
      obtain ⟨-, -, hwritten⟩ := hsaved hnone
      rw [hwritten] at hparse₂
      cases hparse.symm.trans hparse₁
      cases (hback doc hparse).symm.trans hparse₂
      exact otherEntries_rememberedDoc
    · refine file_of_error_ne_none hparse ?_
      intro written hio hencodes
      obtain ⟨file, rfl, hbytes⟩ := h.whole written hio hencodes doc hparse
      rw [hbytes]
      rfl

/-- The text of a value. -/
def Toml.text : Toml → String
  | string text => "\"" ++ text ++ "\""
  | integer value => toString value
  | boolean value => toString value
  | other text => text

/-- The text of a document. -/
def Doc.bytes (doc : Doc) : Bytes :=
  (doc.preface ++ String.join (doc.entries.map fun entry =>
    entry.decor ++ entry.key ++ " = " ++ entry.value.text ++ entry.suffix ++ "\n")).toUTF8.toList

/-- A machine on which only these documents are read. -/
def deskEnv (docs : List Doc) : Env where
  parse bytes := if bytes = [] then some .blank else docs.find? fun doc => doc.bytes = bytes
  render := Doc.bytes
  parseUrl raw :=
    if raw = "https://id.example" then some ⟨"https", some (.domain "id.example"), none, "/"⟩
    else none
  parseBind text := if text = defaultBind then some text else none
  readTokenFile _ := none
  header := some "# Written by login.\n"

/-- `login --issuer https://id.example --client-id cli`. -/
def deskArgs : Args :=
  { Args.bare with issuer := some "https://id.example", clientId := some "cli" }

def deskConfig : OauthConfig where
  issuer := "https://id.example"
  clientId := "cli"
  scopes := defaultScopes
  audience := none
  otelEndpoint := none
  otelToken := none
  gatewayUrl := none
  profile := .manual
  profileExplicit := none
  copilotSpoolPath := none
  otelHeadersDebounceMs := defaultOtelHeadersDebounceMs
  openBrowser := false
  callbackPort := none
  callbackBind := defaultBind
  tokenExchange := none
  lastNoClaude := false
  lastNoCodex := false
  lastNoVscode := false
  lastCodexTelemetryOnly := false

/-- Codex is left out. -/
def deskOptOut : ClientOptOut := ⟨false, true, false, false⟩

/-- The first document that `login` writes. -/
def deskDoc : Doc := rememberedDoc deskConfig deskOptOut "# Written by login.\n" .blank

/-- What `login` wrote is read back, without a look at its bytes. -/
theorem parse_deskDoc (docs : List Doc) :
    (deskEnv (deskDoc :: docs)).parse deskDoc.bytes = some deskDoc := by
  have hne : deskDoc.bytes ≠ [] := by decide +kernel
  show (if deskDoc.bytes = [] then _ else _) = _
  rw [if_neg hne]
  exact List.find?_cons_of_pos (decide_eq_true rfl)

/-- The first `login` on a machine without files. -/
theorem remember_reproduces_first_login :
    Reproduces (deskEnv [deskDoc]) deskConfig deskOptOut .succeeds none none ↔
      Lasting (deskEnv [deskDoc]) deskArgs deskConfig deskOptOut .succeeds none none := by
  refine remember_reproduces_iff _ _ _ _ _ _ _ (by decide) rfl ?_
  intro doc hparse
  cases hparse
  exact parse_deskDoc []

/-- A machine that switches token exchange on for everybody. -/
def exchangeDoc : Doc :=
  ⟨"", [⟨"", "token_exchange", .boolean true, ""⟩,
    ⟨"", "exchange_client_id", .string "exchange", ""⟩,
    ⟨"", "exchange_issuer", .string "https://id.example", ""⟩]⟩

/-- A developer switches token exchange off, and `login` remembers it by taking the key out: the
next run without the flag has the machine's token exchange. -/
theorem switched_off_comes_back :
    let env := deskEnv [deskDoc, exchangeDoc]
    let args := { deskArgs with tokenExchange := some false }
    let machine : Option Stored := some ⟨exchangeDoc.bytes, true⟩
    resolveWithPaths env args none machine = .ok deskConfig ∧
      (remember env deskConfig deskOptOut .succeeds none).error = none ∧
      ¬Reproduces env deskConfig deskOptOut .succeeds none machine := by
  refine ⟨by decide +kernel, by decide +kernel, ?_⟩
  intro h
  obtain ⟨config, hresolve, hdurable, -⟩ := h.again (by decide +kernel)
  have hexchange : resolveWithPaths (deskEnv [deskDoc, exchangeDoc]) .bare
      (remember (deskEnv [deskDoc, exchangeDoc]) deskConfig deskOptOut .succeeds none).file
      (some ⟨exchangeDoc.bytes, true⟩) =
      .ok { deskConfig with
        tokenExchange := some ⟨.issuer "https://id.example", "exchange", none⟩
        lastNoCodex := true } := by
    have hwritten : (remember (deskEnv [deskDoc, exchangeDoc]) deskConfig deskOptOut .succeeds none).file =
        some ⟨deskDoc.bytes, false⟩ := rfl
    have huser : load (deskEnv [deskDoc, exchangeDoc]) (some ⟨deskDoc.bytes, false⟩) =
        .ok (some (rememberedFile deskConfig deskOptOut (.ofDoc .blank))) := by
      show load _ (some ⟨deskDoc.bytes, sharedOf none⟩) = _
      exact load_written (parse_deskDoc [exchangeDoc]) nofun (by rintro ⟨-, h⟩; cases h)
    have hparse : (deskEnv [deskDoc, exchangeDoc]).parse exchangeDoc.bytes = some exchangeDoc := by
      decide +kernel
    have hmachine : load (deskEnv [deskDoc, exchangeDoc]) (some ⟨exchangeDoc.bytes, true⟩) =
        .ok (some (.ofDoc exchangeDoc)) := by
      rw [load, hparse]
      dsimp only
      rw [if_neg (by decide +kernel), if_neg (by decide +kernel)]
    rw [hwritten, resolveWithPaths, huser, hmachine]
    decide +kernel
  cases hresolve.symm.trans hexchange
  exact absurd (congrArg Durable.tokenExchange hdurable) nofun

end Exact

end Config

end Governance
