import Governance.Gateway.Streaming

/-!
# The proxy handler

`proxy.rs` of `redact-gateway`: `handle` scans the request, asks the upstream and scans its
answer, buffered or as a stream. `requestSide` is the half before the upstream answers,
`responseSide` the half after it.

The upstream is a function of the request it gets, and the texts of the errors `serde_json`,
`reqwest` and `String::from_utf8` raise are parameters too. A response is kept as what it is
made from; `Response.sse` carries the state the streaming task ends in.
-/

namespace Governance

open Utf8Text

/-- `http::HeaderMap`: names in lower case, and the bytes of their first values. -/
abbrev HeaderMap := List (String × List UInt8)

/-- `HeaderValue::to_str`: only visible ASCII, blanks and tabs have a text. -/
def headerText (value : List UInt8) : Option Text :=
  if value.all fun b => (32 ≤ b.toNat && b.toNat < 127) || b.toNat = 9 then
    some (value.map fun b => Char.ofNat b.toNat)
  else none

/-- `forwarded_headers`. -/
def forwardedHeaders (headers : HeaderMap) : HeaderMap :=
  ["authorization", "accept", "user-agent", "traceparent", "tracestate", "x-request-id"].filterMap
    fun name => (headers.lookup name).map fun value => (name, value)

/-- `reqwest::Response`, as far as `handle` reads it. -/
structure UpstreamResponse where
  status : ℕ
  headers : HeaderMap
  chunks : List (Except String (List UInt8))

namespace UpstreamResponse

/-- `StatusCode::is_success`. -/
def isSuccess (up : UpstreamResponse) : Bool := 200 ≤ up.status && up.status < 300

/-- The `content_type` of `handle`. -/
def contentType (up : UpstreamResponse) : Text :=
  ((up.headers.lookup "content-type").bind headerText).getD []

/-- `content_type.starts_with("text/event-stream")`. -/
def isEventStream (up : UpstreamResponse) : Bool :=
  "text/event-stream".toList.isPrefixOf up.contentType

end UpstreamResponse

/-- `proxy::Refusal`. -/
inductive Refusal where
  | blocked (entities : List String)
  | undetermined (why : Text)
  deriving DecidableEq

namespace Refusal

/-- The status `Refusal::into_response` answers with. -/
def status : Refusal → ℕ
  | .blocked _ => 422
  | .undetermined _ => 502

/-- The error code of `Refusal::into_response`. -/
def code : Refusal → String
  | .blocked _ => "content_blocked"
  | .undetermined _ => "redaction_unavailable"

/-- The message of `Refusal::into_response`. -/
def message : Refusal → Text
  | .blocked entities => "request blocked: content matched a prohibited category (".toList ++
      joinEntities entities ++ ")".toList
  | .undetermined why => "request refused: redaction could not be completed (".toList ++ why ++
      ")".toList

end Refusal

/-- What `handle` answers the client. -/
inductive Response where
  | json (status : ℕ) (value : Json)
  | text (status : ℕ) (body : Text)
  | sse (status : ℕ) (task : StreamState)

/-- `Refusal::into_response`. -/
def Refusal.intoResponse (r : Refusal) : Response := .json r.status (errorBody r.code r.message)

/-- `AppState`, and the functions of other crates `handle` calls. -/
structure GatewayEnv where
  codec : JsonCodec
  engine : Engine
  order : IterOrder ContentKey
  providerBaseUrl : String
  maxBodyBytes : ℕ
  connected : ℕ → Bool
  fromSlice : List UInt8 → Except Text Json
  fromStrError : Text → Text
  utf8Error : List UInt8 → Text
  post : String → HeaderMap → Json → Except Text UpstreamResponse

namespace GatewayEnv

variable (env : GatewayEnv)

/-- What the streaming path is given. -/
def streamEnv : StreamEnv where
  codec := env.codec
  engine := env.engine
  order := env.order
  maxBodyBytes := env.maxBodyBytes
  failClosed := env.engine.profile.failClosed
  connected := env.connected

/-- The loop of `read_capped`. -/
def readBytes : List UInt8 → List (Except String (List UInt8)) → Except Text (List UInt8)
  | buf, [] => .ok buf
  | _, .error e :: _ => .error e.toList
  | buf, .ok chunk :: rest =>
    if saturatingAdd buf.length chunk.length > env.maxBodyBytes then
      .error ("upstream response exceeded ".toList ++ (Nat.repr env.maxBodyBytes).toList ++
        " bytes".toList)
    else readBytes (buf ++ chunk) rest

/-- `read_capped`. -/
def readCapped (up : UpstreamResponse) : Except Text Text :=
  match env.readBytes [] up.chunks with
  | .error e => .error e
  | .ok buf =>
    match fromUtf8 buf with
    | (text, .complete) => .ok text
    | _ => .error ("upstream response is not UTF-8: ".toList ++ env.utf8Error buf)

/-- `refuse`: it refuses on every profile. -/
def refuse (m : Metrics) (why : Text) : Refusal × Metrics :=
  (.undetermined why, { m with refusedTotal := m.refusedTotal + 1 })

/-- The half of `handle` before the upstream answers: a refusal, or whether the client asked
for a stream and what the upstream answered. -/
def requestSide (m : Metrics) (headers : HeaderMap) (path : String) (body : List UInt8) :
    Except Refusal (Bool × UpstreamResponse) × Metrics :=
  let m := { m with requestsTotal := m.requestsTotal + 1 }
  match env.fromSlice body with
  | .error e =>
    let r := refuse m ("request body is not JSON: ".toList ++ e)
    (.error r.1, r.2)
  | .ok json =>
    let streaming := ((json.get "stream").bind Json.asBool).getD false
    match scanRequest env.engine json with
    | .error err =>
      let r := refuse m ("request scan failed: ".toList ++ err.display)
      (.error r.1, r.2)
    | .ok (json, report) =>
      let m := m.record report
      if report.isBlocked then
        (.error (.blocked report.blocked), { m with blockedTotal := m.blockedTotal + 1 })
      else
        let m := if report.scannedFields = 0 then
          { m with uninspectedTotal := m.uninspectedTotal + 1 } else m
        match env.post (env.providerBaseUrl ++ path) (forwardedHeaders headers) json with
        | .error e => (.error (.undetermined ("upstream unavailable: ".toList ++ e)), m)
        | .ok up => (.ok (streaming, up), m)

/-- The half of `handle` after the upstream answered. -/
def responseSide (m : Metrics) (streaming : Bool) (up : UpstreamResponse) : Response × Metrics :=
  if streaming || up.isEventStream then
    if !up.isSuccess then
      match env.readCapped up with
      | .error e =>
        let r := refuse m ("could not read upstream response: ".toList ++ e)
        (r.1.intoResponse, r.2)
      | .ok body => (.text up.status body, m)
    else
      let task := env.streamEnv.scanSseStreaming m up.chunks
      (.sse up.status task, task.metrics)
  else
    match env.readCapped up with
    | .error e =>
      let r := refuse m ("could not read upstream response: ".toList ++ e)
      (r.1.intoResponse, r.2)
    | .ok body =>
      if !up.isSuccess then (.text up.status body, m)
      else
        match env.codec.fromStr body with
        | none =>
          let r := refuse m ("upstream response is not JSON: ".toList ++ env.fromStrError body)
          (r.1.intoResponse, r.2)
        | some json =>
          match scanResponse env.engine json with
          | .error err =>
            let r := refuse m ("response scan failed: ".toList ++ err.display)
            (r.1.intoResponse, r.2)
          | .ok (json, report) =>
            let m := m.record report
            if report.isBlocked then
              ((Refusal.blocked report.blocked).intoResponse,
                { m with blockedTotal := m.blockedTotal + 1 })
            else (.json up.status json, m)

/-- `handle`. -/
def handle (m : Metrics) (headers : HeaderMap) (path : String) (body : List UInt8) :
    Response × Metrics :=
  match env.requestSide m headers path body with
  | (.error refusal, m) => (refusal.intoResponse, m)
  | (.ok (streaming, up), m) => env.responseSide m streaming up

/-! ## Which answers were inspected -/

/-- Whether the client asked for a stream. -/
def asksForStream (json : Json) : Bool := ((json.get "stream").bind Json.asBool).getD false

/-- The answer is a refusal, or the upstream's body as `scan_response` leaves it, all of
whose texts the engine has scanned. -/
def Inspected (up : UpstreamResponse) (answer : Response) : Prop :=
  (∃ refusal : Refusal, answer = refusal.intoResponse) ∨
  ∃ body json json' report, env.readCapped up = .ok body ∧ env.codec.fromStr body = some json ∧
    (∀ text ∈ responseTexts json, ∃ verdict, env.engine.scan text = .ok verdict) ∧
    scanResponse env.engine json = .ok (json', report) ∧ report.isBlocked = false ∧
    answer = .json up.status json'

theorem requestSide_upstream (m : Metrics) (headers : HeaderMap) (path : String)
    {body : List UInt8} {json json' : Json} {report : ScanReport} {up : UpstreamResponse}
    (hjson : env.fromSlice body = .ok json)
    (hscan : scanRequest env.engine json = .ok (json', report)) (hpass : report.isBlocked = false)
    (hpost : env.post (env.providerBaseUrl ++ path) (forwardedHeaders headers) json' = .ok up) :
    ∃ m', env.requestSide m headers path body = (.ok (asksForStream json, up), m') := by
  simp only [requestSide, hjson, hscan, hpass, hpost, Bool.false_eq_true, if_false]
  exact ⟨_, rfl⟩

theorem scan_of_scanTexts {e : Engine} {texts : List Text} {report report' : ScanReport}
    (h : scanTexts e texts report = .ok report') :
    ∀ text ∈ texts, ∃ verdict, e.scan text = .ok verdict := by
  induction texts generalizing report with
  | nil => simp
  | cons text texts ih =>
    rw [scanTexts] at h
    cases hscan : e.scan text with
    | error err => simp [hscan] at h
    | ok verdict =>
      simp only [hscan] at h
      rw [List.forall_mem_cons]
      exact ⟨⟨verdict, hscan⟩, ih h⟩

/-- The buffered half inspects what it delivers. -/
theorem responseSide_inspected (m : Metrics) {up : UpstreamResponse}
    (hevent : up.isEventStream = false) (h2xx : up.isSuccess = true) :
    env.Inspected up (env.responseSide m false up).1 := by
  simp only [responseSide, hevent, h2xx, Bool.or_self, Bool.not_true, Bool.false_eq_true, if_false]
  cases hread : env.readCapped up with
  | error e => exact .inl ⟨_, rfl⟩
  | ok body =>
    simp only
    cases hjson : env.codec.fromStr body with
    | none => exact .inl ⟨_, rfl⟩
    | some json =>
      simp only
      cases hscan : scanResponse env.engine json with
      | error err => exact .inl ⟨_, rfl⟩
      | ok r =>
        obtain ⟨json', report⟩ := r
        have htexts : scanTexts env.engine (responseTexts json) .default = .ok report := by
          rw [← scanResponse_report, hscan]
          rfl
        cases hblocked : report.isBlocked with
        | true => exact .inl ⟨.blocked report.blocked, by simp [hblocked]⟩
        | false =>
          exact .inr ⟨body, json, json', report, hread, hjson, scan_of_scanTexts htexts, hscan,
            hblocked, by simp [hblocked]⟩

/-- What a streamed answer sends, with its status. -/
def streamed : Response → Option (ℕ × List (List UInt8))
  | .sse status task => some (status, task.sent)
  | _ => none

theorem streamed_of_inspected {up : UpstreamResponse} {answer : Response}
    (h : env.Inspected up answer) : streamed answer = none := by
  rcases h with ⟨refusal, rfl⟩ | ⟨body, json, json', report, -, -, -, -, -, rfl⟩
  · rfl
  · rfl

/-- The streaming half does not: neither a refusal nor a scanned body is a stream. -/
theorem responseSide_not_inspected (m : Metrics) {streaming : Bool} {up : UpstreamResponse}
    (hstream : (streaming || up.isEventStream) = true) (h2xx : up.isSuccess = true) :
    ¬ env.Inspected up (env.responseSide m streaming up).1 := by
  intro hins
  have hnone := env.streamed_of_inspected hins
  simp [responseSide, hstream, h2xx, streamed] at hnone

/-- A successful answer of the upstream is inspected before it is delivered if and only if
neither the request's `stream` flag nor the answer's content type asks for a stream. -/
theorem handle_inspects_iff (m : Metrics) (headers : HeaderMap) (path : String)
    {body : List UInt8} {json json' : Json} {report : ScanReport} {up : UpstreamResponse}
    (hjson : env.fromSlice body = .ok json)
    (hscan : scanRequest env.engine json = .ok (json', report)) (hpass : report.isBlocked = false)
    (hpost : env.post (env.providerBaseUrl ++ path) (forwardedHeaders headers) json' = .ok up)
    (h2xx : up.isSuccess = true) :
    env.Inspected up (env.handle m headers path body).1 ↔
      asksForStream json = false ∧ up.isEventStream = false := by
  obtain ⟨m', hreq⟩ := env.requestSide_upstream m headers path hjson hscan hpass hpost
  rw [handle, hreq]
  constructor
  · intro hins
    by_contra hne
    refine env.responseSide_not_inspected m' ?_ h2xx hins
    cases hs : asksForStream json with
    | true => rfl
    | false =>
      cases he : up.isEventStream with
      | true => rfl
      | false => exact absurd ⟨hs, he⟩ hne
  · rintro ⟨hs, he⟩
    rw [hs]
    exact env.responseSide_inspected m' he h2xx

/-- A response of one choice, and its text. -/
def answerValue (content : Char) : Json :=
  .obj [("choices", .arr [.obj [("message", .obj [("content", .str [content])])]])]

def answerText (content : Char) : Text :=
  "\x7b\"choices\":[\x7b\"message\":\x7b\"content\":\"".toList ++ [content] ++
    "\"\x7d\x7d]\x7d".toList

/-- The request bodies of the runs below, the second one asking for a stream. -/
def plainRequest : List UInt8 := encode "\x7b\x7d".toList

def streamRequest : List UInt8 := encode "\x7b\"stream\":true\x7d".toList

/-- A gateway whose engine blocks the character `7`, before an upstream that answers every
request with one choice as JSON. -/
def ofAnswer (content : Char) : GatewayEnv where
  codec := .ofTable [(answerText content, answerValue content)]
  engine := charEngine '7' .block
  order := ⟨id, List.Perm.refl⟩
  providerBaseUrl := "http://upstream"
  maxBodyBytes := 1024
  connected := fun _ => true
  fromSlice := fun body =>
    if body = plainRequest then .ok (.obj [])
    else if body = streamRequest then .ok (.obj [("stream", .bool true)])
    else .error "expected value".toList
  fromStrError := fun _ => "expected value".toList
  utf8Error := fun _ => "invalid utf-8 sequence".toList
  post := fun _ _ _ => .ok ⟨200, [("content-type", encode "application/json".toList)],
    [.ok (encode (answerText content))]⟩

theorem handle_inspects_plain :
    (ofAnswer '1').Inspected ⟨200, [("content-type", encode "application/json".toList)],
        [.ok (encode (answerText '1'))]⟩
      ((ofAnswer '1').handle ⟨0, 0, 0, 0, 0, 0, 0⟩ [] "/v1" plainRequest).1 := by
  have hjson : (ofAnswer '1').fromSlice plainRequest = .ok (.obj []) := by
    simp only [ofAnswer, if_true]
  exact ((ofAnswer '1').handle_inspects_iff ⟨0, 0, 0, 0, 0, 0, 0⟩ [] "/v1" hjson rfl rfl rfl
    rfl).mpr ⟨rfl, by decide +kernel⟩

/-- With `stream` set, a JSON body is taken for a stream. No line of it starts with `data:`,
so a body `scan_response` refuses reaches the client byte for byte. -/
theorem handle_forwards_blocked_answer :
    (scanResponse (ofAnswer '7').engine (answerValue '7')).map (fun r => r.2.isBlocked) =
      .ok true ∧
    streamed ((ofAnswer '7').handle ⟨0, 0, 0, 0, 0, 0, 0⟩ [] "/v1"
      streamRequest).1 = some (200, [encode (answerText '7')]) ∧
    ¬ (ofAnswer '7').Inspected ⟨200, [("content-type", encode "application/json".toList)],
        [.ok (encode (answerText '7'))]⟩
      ((ofAnswer '7').handle ⟨0, 0, 0, 0, 0, 0, 0⟩ [] "/v1"
        streamRequest).1 := by
  have hsent : streamed ((ofAnswer '7').handle ⟨0, 0, 0, 0, 0, 0, 0⟩ [] "/v1"
      streamRequest).1 = some (200, [encode (answerText '7')]) := by
    decide +kernel
  refine ⟨by decide +kernel, hsent, fun hins => ?_⟩
  have hnone := (ofAnswer '7').streamed_of_inspected hins
  rw [hsent] at hnone
  cases hnone

end GatewayEnv

end Governance
