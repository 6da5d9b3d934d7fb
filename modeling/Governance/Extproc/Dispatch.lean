import Governance.Extproc.PushAndFlush
import Governance.Gateway.Streaming

/-!
# The Envoy message loop

`service/dispatch.rs`, `service/state.rs`, `service/builders.rs`, `service/request.rs` and
`service/response/` of `redact-extproc`: one HTTP exchange is a sequence of messages from Envoy,
and `dispatch` advances a `Phase` and answers each.

Reading and printing JSON, gzip and the order in which a hash map is visited are parameters.
The counters that feed Prometheus and the log lines are left out. A panic in `push_and_flush`
ends the task that reads the stream, so it is an outcome of its own.
-/

namespace Governance

open Utf8Text
open String (utf8Len)

namespace Extproc

/-- The bytes of a body. -/
abbrev Bytes := List UInt8

/-- `state::Direction`. -/
inductive Direction where
  | request
  | response
  deriving DecidableEq, Repr

/-- `HeaderValue`. -/
structure HeaderValue where
  key : Text
  value : Text
  rawValue : Bytes

/-- `processing_request::Request`, with what `dispatch` reads of each message. -/
inductive Message where
  | requestHeaders
  | responseHeaders (headers : Option (List HeaderValue))
  | requestBody (body : Bytes) (endOfStream : Bool)
  | responseBody (body : Bytes) (endOfStream : Bool)
  | requestTrailers
  | responseTrailers

/-- `CommonResponse`, whose status is always `Continue`. -/
structure CommonResponse where
  removeHeaders : List String
  body : Option Bytes
  deriving DecidableEq

/-- `processing_response::Response`. -/
inductive Reply where
  | requestHeaders (common : CommonResponse)
  | responseHeaders (common : CommonResponse)
  | requestBody (common : CommonResponse)
  | responseBody (common : CommonResponse)
  | immediateResponse (status : ℕ) (headers : List (String × String)) (body : Bytes)
      (details : Text)
  deriving DecidableEq

/-- `state::ResponseBodyMode`. -/
inductive ResponseBodyMode where
  | sse
  | buffered (buf : Bytes)

/-- `state::ResponseState`. -/
structure ResponseState where
  hold : SseHoldBack
  utf8Carry : Bytes
  mode : ResponseBodyMode
  contentType : Option Text
  contentEncoding : Option Text
  gzipBuf : Option Bytes

/-- `state::Phase`. -/
inductive Phase where
  | requestBody (buf : Bytes)
  | responseBody (state : ResponseState)

/-- What `dispatch` does with a message. -/
inductive Outcome where
  | panics
  | waits
  | replies (reply : Reply)

/-- The engine and the window of the processor, and the functions of other crates:
`serde_json`, the gzip decoder read to a limit, the gzip encoder. -/
structure ExtEnv where
  codec : JsonCodec
  fromSlice : Bytes → Option Json
  toVec : Json → Option Bytes
  gunzip : Bytes → ℕ → Except Text Bytes
  gzip : Bytes → Option Bytes
  order : IterOrder ContentKey
  engine : Engine
  window : ℕ

/-! ## Headers -/

/-- `to_ascii_lowercase`. -/
def asciiLower (t : Text) : Text := t.map Char.toLower

/-- `eq_ignore_ascii_case` with a name of the program text in lower case. -/
def isNamed (name : String) (t : Text) : Bool := asciiLower t = name.toList

/-- `hdr_val`. -/
def HeaderValue.text (h : HeaderValue) : Text :=
  if h.value ≠ [] then h.value else fromUtf8Lossy h.rawValue

/-- `ResponseState::new`. -/
def ResponseState.new (window : ℕ) : ResponseState where
  hold := .withWindow window
  utf8Carry := []
  mode := .buffered []
  contentType := none
  contentEncoding := none
  gzipBuf := none

/-- The value of the last header of a name. -/
def lastNamed (name : String) (headers : List HeaderValue) : Option Text :=
  headers.foldl (fun found h => if isNamed name h.key then some h.text else found) none

/-- `is_sse`. -/
def isSse (contentType : Option Text) : Bool :=
  contentType.any fun ct => "text/event-stream".toList.isPrefixOf (asciiLower ct)

/-- `is_gzip`, which `compress_as_gzip` tests too. -/
def isGzip (contentEncoding : Option Text) : Bool := contentEncoding.any (isNamed "gzip")

/-- `ResponseState::set_mode_from_headers`. -/
def ResponseState.setModeFromHeaders (s : ResponseState) :
    Option (List HeaderValue) → ResponseState
  | none => s
  | some headers =>
    let contentType := lastNamed "content-type" headers
    let contentEncoding := lastNamed "content-encoding" headers
    { s with
      mode := if isSse contentType then .sse else s.mode
      gzipBuf := if isSse contentType && isGzip contentEncoding then some [] else s.gzipBuf
      contentType := contentType
      contentEncoding := contentEncoding }

/-! ## Replies -/

variable (env : ExtEnv)

/-- `continue_headers`. -/
def continueHeaders : Direction → Reply
  | .request => .requestHeaders ⟨[], none⟩
  | .response => .responseHeaders ⟨[], none⟩

/-- `immediate_response`. -/
def immediateResponse (status : ℕ) (code : String) (message : Text) : Reply :=
  .immediateResponse status [("content-type", "application/json")]
    (encode (env.codec.toString (errorBody code message))) message

/-- `refuse_or_block`. -/
def refuseOrBlock (dir : Direction) (reason : Text) : Reply :=
  if env.engine.profile.failClosed then
    immediateResponse env 502 "redaction_unavailable"
      ("request refused: redaction could not be completed (".toList ++ reason ++ ")".toList)
  else continueHeaders dir

/-- The refusal of content of a prohibited category. -/
def blockedResponse (what : String) (entities : List String) : Reply :=
  immediateResponse env 422 "content_blocked"
    (what.toList ++ " blocked: content matched a prohibited category (".toList ++
      joinEntities entities ++ ")".toList)

/-- `body_response_with_original_length`. -/
def bodyResponseWithOriginalLength (dir : Direction) (bytes : Bytes)
    (originalLength : Option ℕ) : Reply :=
  let removeHeaders := match originalLength with
    | some oldLen => if bytes.length = oldLen then [] else ["content-length"]
    | none => []
  match dir with
  | .request => .requestBody ⟨removeHeaders, some bytes⟩
  | .response => .responseBody ⟨removeHeaders, some bytes⟩

/-- `body_response`. -/
def bodyResponse (dir : Direction) (bytes : Bytes) : Reply :=
  bodyResponseWithOriginalLength dir bytes none

/-! ## The request body -/

/-- `handle_request_body`. -/
def handleRequestBody (raw : Bytes) : Reply :=
  match env.fromSlice raw with
  | none => refuseOrBlock env .request "request body is not JSON".toList
  | some json =>
    match scanRequest env.engine json with
    | .ok (json, report) =>
      if report.isBlocked then blockedResponse env "request" report.blocked
      else bodyResponseWithOriginalLength .request ((env.toVec json).getD raw) (some raw.length)
    | .error e => refuseOrBlock env .request ("request scan failed: ".toList ++ e.display)

/-! ## The response body -/

/-- `MAX_BUFFERED_RESPONSE_BYTES`. -/
def maxBufferedResponseBytes : ℕ := 33554432

/-- `decompress_gzip`. -/
def decompressGzip (buf : Bytes) : Except Text Bytes :=
  if buf.length < 2 || buf.head? ≠ some 0x1f || buf[1]? ≠ some 0x8b then .ok buf
  else
    match env.gunzip buf (maxBufferedResponseBytes + 1) with
    | .error e => .error ("gzip decompression failed: ".toList ++ e)
    | .ok out =>
      if out.length > maxBufferedResponseBytes then
        .error ("decompressed output exceeds ".toList ++
          (Nat.repr maxBufferedResponseBytes).toList ++ " bytes".toList)
      else .ok out

/-- `compress_as_gzip`. -/
def compressAsGzip (data : Bytes) (contentEncoding : Option Text) : Option Bytes :=
  if !isGzip contentEncoding then none else env.gzip data

/-- The test of the size cap: both handlers that accumulate make it. -/
def exceedsCap (buf chunk : Bytes) : Bool :=
  saturatingAdd buf.length chunk.length > maxBufferedResponseBytes

/-- The text of a refusal that names the size cap. -/
def capText (what : String) : Text :=
  what.toList ++ " exceeded ".toList ++ (Nat.repr maxBufferedResponseBytes).toList ++
    " bytes".toList

/-- `handle_buffered_response_chunk`: the reply, and the buffer it leaves. -/
def handleBufferedResponseChunk (buf chunk : Bytes) (endOfStream : Bool)
    (contentEncoding : Option Text) : Reply × Bytes :=
  if exceedsCap buf chunk then (refuseOrBlock env .response (capText "response"), buf)
  else
    let buf := buf ++ chunk
    if !endOfStream then (bodyResponse .response [], buf)
    else
      let compressedLen := buf.length
      match decompressGzip env buf with
      | .error e =>
        (refuseOrBlock env .response ("response body decompression failed: ".toList ++ e), buf)
      | .ok buf =>
        match env.fromSlice buf with
        | none => (refuseOrBlock env .response "response body is not JSON".toList, buf)
        | some json =>
          match scanResponse env.engine json with
          | .ok (json, report) =>
            if report.isBlocked then (blockedResponse env "response" report.blocked, buf)
            else
              let redacted := (env.toVec json).getD buf
              let output := (compressAsGzip env redacted contentEncoding).getD redacted
              (bodyResponseWithOriginalLength .response output (some compressedLen), buf)
          | .error e =>
            (refuseOrBlock env .response ("response scan failed: ".toList ++ e.display), buf)

/-- `decode_chunk_with_carry`: the text, and the carry it leaves. -/
def decodeChunkWithCarry (carry chunk : Bytes) : Option Text × Bytes :=
  match fromUtf8 (carry ++ chunk) with
  | (text, .complete) => (some text, [])
  | (_, .invalid) => (none, carry ++ chunk)
  | (text, .incomplete rest) => (some text, rest)

/-- `emit_response`. -/
def emitResponse (emit : Except Error SseEmit) (release : Text → Bytes) : Reply :=
  match emit with
  | .ok .nothing => bodyResponse .response []
  | .ok (.release out) => bodyResponse .response (release out)
  | .ok (.blocked entities) => blockedResponse env "response" entities
  | .error e => refuseOrBlock env .response ("response scan failed: ".toList ++ e.display)

/-- `handle_gzip_sse_chunk`. No reply is a panic. -/
def handleGzipSseChunk (s : ResponseState) (chunk : Bytes) (endOfStream : Bool) :
    Option Reply × ResponseState :=
  match s.gzipBuf with
  | none => (some (refuseOrBlock env .response "gzip-SSE buffer not armed".toList), s)
  | some buf =>
    if exceedsCap buf chunk then
      (some (refuseOrBlock env .response (capText "gzip-SSE buffer")), s)
    else
      let buf := buf ++ chunk
      if !endOfStream then (some (bodyResponse .response []), { s with gzipBuf := some buf })
      else
        match decompressGzip env buf with
        | .error e =>
          (some (refuseOrBlock env .response ("SSE gzip decompression failed: ".toList ++ e)),
            { s with gzipBuf := some buf })
        | .ok buf =>
          match fromUtf8 buf with
          | (text, .complete) =>
            let r := s.hold.pushAndFlush env.codec env.engine env.order text
            (r.1.map fun emit => emitResponse env emit fun out =>
                (compressAsGzip env (encode out) s.contentEncoding).getD (encode out),
              { s with gzipBuf := some buf, hold := r.2 })
          | _ =>
            (some (refuseOrBlock env .response "decompressed SSE bytes are not valid UTF-8".toList),
              { s with gzipBuf := some buf })

/-- `push_and_flush` or `push`, whichever the end of the stream asks for. -/
def pushText (hold : SseHoldBack) (text : Text) (endOfStream : Bool) :
    Option (Except Error SseEmit) × SseHoldBack :=
  if endOfStream then hold.pushAndFlush env.codec env.engine env.order text
  else
    let r := hold.push env.codec env.engine text
    (some r.1, r.2)

/-- `handle_sse_chunk`. No reply is a panic. -/
def handleSseChunk (s : ResponseState) (chunk : Bytes) (endOfStream : Bool) :
    Option Reply × ResponseState :=
  match decodeChunkWithCarry s.utf8Carry chunk with
  | (none, carry) =>
    (some (refuseOrBlock env .response "response bytes are not valid UTF-8".toList),
      { s with utf8Carry := carry })
  | (some text, carry) =>
    if endOfStream && carry ≠ [] then
      (some (refuseOrBlock env .response "response ended mid UTF-8 codepoint".toList),
        { s with utf8Carry := carry })
    else
      let r := pushText env s.hold text endOfStream
      (r.1.map fun emit => emitResponse env emit encode,
        { s with utf8Carry := carry, hold := r.2 })

/-- `handle_response_chunk`. -/
def handleResponseChunk (s : ResponseState) (chunk : Bytes) (endOfStream : Bool) :
    Option Reply × ResponseState :=
  match s.mode with
  | .buffered buf =>
    let r := handleBufferedResponseChunk env buf chunk endOfStream s.contentEncoding
    (some r.1, { s with mode := .buffered r.2 })
  | .sse =>
    if s.gzipBuf.isSome then handleGzipSseChunk env s chunk endOfStream
    else handleSseChunk env s chunk endOfStream

/-! ## The state machine -/

/-- `dispatch`. -/
def dispatch (message : Message) (phase : Phase) : Outcome × Phase :=
  match message, phase with
  | .requestHeaders, phase => (.replies (continueHeaders .request), phase)
  | .responseHeaders headers, phase =>
    let state := match phase with
      -- a request without a body: there was no `RequestBody` message
      | .requestBody _ => ResponseState.new env.window
      | .responseBody state => state
    (.replies (continueHeaders .response), .responseBody (state.setModeFromHeaders headers))
  | .requestBody body endOfStream, .requestBody buf =>
    let buf := buf ++ body
    if !endOfStream then (.waits, .requestBody buf)
    else (.replies (handleRequestBody env buf), .responseBody (ResponseState.new env.window))
  | .responseBody body endOfStream, .responseBody state =>
    match handleResponseChunk env state body endOfStream with
    | (some reply, state) => (.replies reply, .responseBody state)
    | (none, state) => (.panics, .responseBody state)
  | _, phase =>
    (.replies (immediateResponse env 500 "internal_error" "processing state mismatch".toList),
      phase)

/-- The phase of a new stream. -/
def Phase.start : Phase := .requestBody []

/-- Every message of a stream with the phase it meets and what `dispatch` does. A panic ends the
stream. -/
def trace : Phase → List Message → List (Phase × Message × Outcome)
  | _, [] => []
  | phase, message :: rest =>
    match dispatch env message phase with
    | (.panics, _) => [(phase, message, .panics)]
    | (outcome, phase') => (phase, message, outcome) :: trace phase' rest

/-! ## A small environment -/

/-- The `observe-only` profile, an engine that finds nothing, and no text that is JSON or gzip, for
concrete runs. -/
def observeEnv : ExtEnv where
  codec := .ofTable []
  fromSlice := fun _ => none
  toVec := fun _ => none
  gunzip := fun _ _ => .error "invalid gzip header".toList
  gzip := fun _ => none
  order := ⟨id, List.Perm.refl⟩
  engine := ⟨fun _ => .ok [], fun text _ _ => .ok (text, 0), ⟨.allow, [], false⟩, ""⟩
  window := 64

end Extproc

end Governance
