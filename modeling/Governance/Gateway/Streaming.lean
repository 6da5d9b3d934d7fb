import Governance.Lib.Utf8Decode
import Governance.Redact.Payload
import Governance.Redact.Sse.Chunking

/-!
# The streaming path of the gateway

`proxy.rs` of `redact-gateway`: `scan_sse_streaming` decodes the chunks of an upstream body,
feeds them to an `SseHoldBack` and sends what it releases to the client.

The loop is a step function on `StreamState`, folded over what the upstream hands out. The
upstream is the list of its chunks, a read error among them; the client is a predicate that
says whether it still takes its n-th message. `StreamState.answers` is a ghost: the source
does not keep the answers of the scanner, but every claim about the path is about them.
-/

namespace Governance

open Utf8Text
open String (utf8Len)

/-- `metrics::Metrics`, less the registry. -/
structure Metrics where
  requestsTotal : ℕ
  redactionsTotal : ℕ
  blockedTotal : ℕ
  refusedTotal : ℕ
  failOpenTotal : ℕ
  scannedFieldsTotal : ℕ
  uninspectedTotal : ℕ
  deriving DecidableEq, Repr

/-- `Metrics::record`. -/
def Metrics.record (m : Metrics) (report : ScanReport) : Metrics :=
  { m with
    redactionsTotal := m.redactionsTotal + report.redactions
    scannedFieldsTotal := m.scannedFieldsTotal + report.scannedFields }

/-- The `Display` of `error::Error`. -/
def Error.display : Error → Text
  | .analyze message => "detection failed: ".toList ++ message.toList
  | .anonymize message => "anonymization failed: ".toList ++ message.toList

/-- The OpenAI-shaped error body both `sse_error_event` and `Refusal` send. -/
def errorBody (code : String) (message : Text) : Json :=
  .obj [("error", .obj [("message", .str message), ("type", .str code.toList),
    ("code", .str code.toList)])]

/-- `sse_error_event`. -/
def sseErrorEvent (codec : JsonCodec) (code : String) (message : Text) : Text :=
  "data: ".toList ++ codec.toString (errorBody code message) ++ "\n\n".toList

/-- `entities.join(", ")`. -/
def joinEntities (entities : List String) : Text := (", ".intercalate entities).toList

/-- `sse_blocked_event`. -/
def sseBlockedEvent (codec : JsonCodec) (entities : List String) : Text :=
  sseErrorEvent codec "content_blocked"
    ("response blocked: content matched a prohibited category (".toList ++
      joinEntities entities ++ ")".toList)

/-- `decode_chunk_with_carry`: the decoded text and whether the buffer ends inside a
codepoint, with the carry it leaves. Bytes that no codepoint can continue are an error. -/
def decodeChunkWithCarry (carry chunk : List UInt8) : Except Unit (Text × Bool) × List UInt8 :=
  match fromUtf8 (carry ++ chunk) with
  | (text, .complete) => (.ok (text, false), [])
  | (_, .invalid) => (.error (), carry ++ chunk)
  | (text, .incomplete rest) => (.ok (text, true), rest)

/-- One line of `str::lines`: without its line feed, and without the carriage return before
that line feed. -/
def stripLineEnd (line : Text) : Text :=
  match line.reverse with
  | '\n' :: '\r' :: rest => rest.reverse
  | '\n' :: rest => rest.reverse
  | _ => line

/-- The data frames of a text, as `data_frames` counts them. -/
def countDataFrames (text : Text) : ℕ :=
  (((linesInclusive text).map stripLineEnd).filter fun l =>
    "data:".toList.isPrefixOf l && l ≠ "data: [DONE]".toList).length

/-- `usize::saturating_add`. -/
def saturatingAdd (a b : ℕ) : ℕ := min (a + b) (2 ^ 64 - 1)

/-- The variables of the task `scan_sse_streaming` spawns, what it sent, and the answers the
scanner gave it. -/
structure StreamState where
  holdback : SseHoldBack
  totalBytes : ℕ
  carry : List UInt8
  dataFrames : ℕ
  observePassthrough : Bool
  metrics : Metrics
  sent : List (List UInt8)
  answers : List (Except Error SseEmit)

/-- Whether the task goes on or has returned. -/
inductive Turn where
  | goOn (s : StreamState)
  | done (s : StreamState)

namespace StreamState

/-- The state the task starts from. -/
def init (metrics : Metrics) : StreamState where
  holdback := .withWindow defaultWindow
  totalBytes := 0
  carry := []
  dataFrames := 0
  observePassthrough := false
  metrics := metrics
  sent := []
  answers := []

/-- `tx.send`, before its result is looked at. -/
def send (s : StreamState) (bytes : List UInt8) : StreamState :=
  { s with sent := s.sent ++ [bytes] }

/-- The report every exit but a lost client records. -/
def recorded (s : StreamState) : StreamState :=
  { s with metrics := s.metrics.record ⟨[], s.holdback.redactions, s.dataFrames⟩ }

/-- An exit that tells the client why, on a profile that fails closed. -/
def refused (codec : JsonCodec) (failClosed : Bool) (message : Text) (s : StreamState) :
    StreamState :=
  if failClosed then
    (s.send (encode (sseErrorEvent codec "redaction_unavailable" message))).recorded
  else s.recorded

/-- Takes over an answer of the scanner. -/
def heard (s : StreamState) (r : Except Error SseEmit × SseHoldBack) : StreamState :=
  { s with holdback := r.2, answers := s.answers ++ [r.1] }

end StreamState

/-- What `scan_sse_streaming` is given besides the upstream response. -/
structure StreamEnv where
  codec : JsonCodec
  engine : Engine
  order : IterOrder ContentKey
  maxBodyBytes : ℕ
  failClosed : Bool
  connected : ℕ → Bool

namespace StreamEnv

open StreamState

variable (env : StreamEnv)

/-- The push of a chunk that decodes completely, and what the task does with the answer. -/
def pushText (s : StreamState) (text : Text) : Turn :=
  let s := { s with dataFrames := s.dataFrames + countDataFrames text }
  let r := s.holdback.push env.codec env.engine text
  let s := s.heard r
  match r.1 with
  | .ok (.release released) =>
    let s' := s.send (encode released)
    if env.connected s.sent.length then .goOn s' else .done s'
  | .ok .nothing => .goOn s
  | .ok (.blocked entities) =>
    let s := { s with metrics := { s.metrics with blockedTotal := s.metrics.blockedTotal + 1 } }
    if env.failClosed then
      .done (s.send (encode (sseBlockedEvent env.codec entities))).recorded
    else
      -- the scanner has latched: what follows is forwarded raw
      let s := s.recorded
      .goOn { s with
        metrics := { s.metrics with failOpenTotal := s.metrics.failOpenTotal + 1 }
        observePassthrough := true }
  | .error err => .done (s.refused env.codec env.failClosed err.display)

/-- A chunk that ends inside a codepoint: the whole text before it is pushed, and the answer
is dropped. -/
def pushPartial (s : StreamState) (text : Text) : StreamState :=
  if text = [] then s
  else s.heard (s.holdback.push env.codec env.engine text)

/-- One turn of the loop of `scan_sse_streaming`. -/
def streamStep (s : StreamState) : Except String (List UInt8) → Turn
  | .error e =>
    .done (s.refused env.codec env.failClosed ("upstream read error: ".toList ++ e.toList))
  | .ok chunk =>
    if s.observePassthrough then
      if env.connected s.sent.length then .goOn (s.send chunk) else .done (s.send chunk)
    else
      let s := { s with totalBytes := saturatingAdd s.totalBytes chunk.length }
      if s.totalBytes > env.maxBodyBytes then
        .done (s.refused env.codec env.failClosed
          ("upstream response exceeded ".toList ++ (Nat.repr env.maxBodyBytes).toList ++
            " bytes".toList))
      else
        match decodeChunkWithCarry s.carry chunk with
        | (.error (), carry) =>
          .done ({ s with carry := carry }.refused env.codec env.failClosed
            "upstream chunk is corrupt UTF-8".toList)
        | (.ok (text, true), carry) => .goOn (env.pushPartial { s with carry := carry } text)
        | (.ok (text, false), carry) => env.pushText { s with carry := carry } text

/-- The loop of `scan_sse_streaming`. -/
def streamLoop : StreamState → List (Except String (List UInt8)) → Turn
  | s, [] => .goOn s
  | s, chunk :: rest =>
    match env.streamStep s chunk with
    | .goOn s' => streamLoop s' rest
    | .done s' => .done s'

/-- What follows the loop of `scan_sse_streaming`. -/
def streamEnd (s : StreamState) : StreamState :=
  if s.carry ≠ [] then
    s.refused env.codec env.failClosed "upstream response ended mid UTF-8 codepoint".toList
  else
    let r := s.holdback.flush env.codec env.engine env.order
    let s := s.heard r
    match r.1 with
    | .ok (.release released) => (s.send (encode released)).recorded
    | .ok (.blocked entities) =>
      let s := { s with metrics := { s.metrics with blockedTotal := s.metrics.blockedTotal + 1 } }
      (s.send (encode (sseBlockedEvent env.codec entities))).recorded
    | .ok .nothing => s.recorded
    | .error err =>
      (s.send (encode (sseErrorEvent env.codec "redaction_unavailable" err.display))).recorded

/-- The state the task ends in once its loop has. -/
def afterLoop : Turn → StreamState
  | .goOn s => env.streamEnd s
  | .done s => s

/-- The task `scan_sse_streaming` spawns. -/
def scanSseStreaming (metrics : Metrics) (chunks : List (Except String (List UInt8))) :
    StreamState :=
  env.afterLoop (env.streamLoop (.init metrics) chunks)

end StreamEnv

end Governance
