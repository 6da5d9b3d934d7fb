import Governance.Otel.Enrich
import Governance.Spool.Crash

/-!
# Admission of a request

`receive::build` and `request::handle_request`: the two header checks and the size limit, the
signal of the body, the enrichment, and the append to the durable spool. The answer is given
as a `DaemonResponse`. The client's connection, logging and the wake-up of the drain are left out.
-/

namespace Governance

open Utf8Text ByteLines Otlp

/-- `spool::ENVELOPE_OVERHEAD`. -/
def envelopeAllowance : ℕ := 64

/-- `spool::MAX_RETAINABLE_PAYLOAD`. -/
def maxRetainablePayload : ℕ := (maxRead - envelopeAllowance) / 4 * 3

/-- `receive::MAX_BODY_SIZE`. -/
def maxBodySize : ℕ := maxRetainablePayload

/-- `otel_port::TRUSTED_HOSTS`. -/
def trustedHosts : List Text := ["127.0.0.1:17457".toList, "localhost:17457".toList]

/-- What the receiver reads of an HTTP request. A header that is missing or not text is
`none`. -/
structure HttpRequest where
  host : Option Text
  contentType : Option Text
  path : String
  body : Bytes

/-- `receive::Incoming`. -/
structure Incoming where
  path : String
  body : Bytes
  format : WireFormat

/-- `receive::ReceiveError`. -/
inductive ReceiveError where
  | untrustedHost
  | unsupportedContentType
  | body
  deriving DecidableEq

/-- `WireFormat::content_type`. -/
def WireFormat.contentType : WireFormat → String
  | .json => "application/json"
  | .protobuf => "application/x-protobuf"

/-- The OTLP success response with nothing in it. -/
def WireFormat.emptySuccess : WireFormat → String
  | .json => "\x7b\x7d"
  | .protobuf => ""

/-- `str::to_ascii_lowercase`. -/
def toAsciiLowercase (t : Text) : Text := t.map Char.toLower

/-- `receive::host_is_trusted`. -/
def hostIsTrusted (host : Option Text) : Bool :=
  host.any fun h => toAsciiLowercase (Utf8Text.trim h) ∈ trustedHosts

/-- `receive::content_type_is_otlp`. -/
def contentTypeIsOtlp (contentType : Option Text) : Option WireFormat :=
  contentType.bind fun c =>
    let essence := toAsciiLowercase (Utf8Text.trim (c.takeWhile (· ≠ ';')))
    if essence = WireFormat.json.contentType.toList then some .json
    else if essence = WireFormat.protobuf.contentType.toList then some .protobuf
    else none

/-- `receive::build`. -/
def receiveBuild (request : HttpRequest) : Except ReceiveError Incoming :=
  if !hostIsTrusted request.host then .error .untrustedHost
  else match contentTypeIsOtlp request.contentType with
    | none => .error .unsupportedContentType
    | some format =>
      if request.body.length > maxBodySize then .error .body
      else .ok ⟨request.path, request.body, format⟩

/-- What a client is answered. -/
inductive DaemonResponse where
  | forbidden
  | unsupportedMediaType
  | payloadTooLarge
  | badRequest
  | ok (contentType : String) (body : String)
  | serviceUnavailable (retryAfter : String)
  deriving DecidableEq

section Handle

variable {ρ : Type} [Inhabited ρ] (env : SpoolEnv) (codec : OtlpCodec ρ)

/-- The part of `request::handle_request` before the spool: what is retained, or the refusal. -/
def admission (request : HttpRequest) : Except DaemonResponse Record :=
  match receiveBuild request with
  | .error .untrustedHost => .error .forbidden
  | .error .unsupportedContentType => .error .unsupportedMediaType
  | .error .body => .error .payloadTooLarge
  | .ok incoming =>
    match classify env.codec incoming.body incoming.format incoming.path with
    | none => .error .badRequest
    | some signal =>
      .ok ⟨signal, enriched codec signal incoming.body incoming.format, incoming.format⟩

/-- `request::retained_response`. -/
def retainedResponse (s : DurableSpool) (r : Record) : DaemonResponse × DurableSpool :=
  match s.retain env r with
  | (.ok (), s) =>
    (.ok r.format.contentType r.format.emptySuccess, s)
  | (.error _, s) => (.serviceUnavailable "5", s)

/-- `request::handle_request`. -/
def handleRequest (s : DurableSpool) (request : HttpRequest) : DaemonResponse × DurableSpool :=
  match admission env codec request with
  | .error response => (response, s)
  | .ok r => retainedResponse env s r

variable {env codec}

/-- What an admitted request gives the spool. -/
theorem admission_ok {request : HttpRequest} {r : Record} (h : admission env codec request = .ok r) :
    request.body.length ≤ maxBodySize ∧
      classify env.codec request.body r.format request.path = some r.signal ∧
      r.payload = enriched codec r.signal request.body r.format := by
  simp only [admission] at h
  split at h
  · cases h
  · cases h
  · cases h
  · next incoming hbuild =>
    simp only [receiveBuild] at hbuild
    split at hbuild
    · cases hbuild
    · split at hbuild
      · cases hbuild
      · split at hbuild
        · cases hbuild
        · next hsize =>
          cases hbuild
          split at h
          · cases h
          · next hclass =>
            cases h
            exact ⟨by simpa using hsize, hclass, rfl⟩

end Handle

/-! ## The lines of admitted requests -/

/-- The largest payload whose line, with its line feed, the reader's window takes whole. -/
def maxPayload (signal : Signal) (format : WireFormat) : ℕ :=
  3 * ((maxRead - 1 - envelopeOverhead signal format) / 4)

/-- The base64 arithmetic of the limit, exactly. -/
theorem endOf_le_maxRead_iff (r : Record) :
    endOf [r] ≤ maxRead ↔ r.payload.length ≤ maxPayload r.signal r.format := by
  have hover := envelopeOverhead_bounds r.signal r.format
  rw [endOf_singleton, length_encode_line, maxPayload, maxRead]
  omega

/-- A body at the limit leaves room for the envelope, as long as nothing is added to it. -/
theorem maxBodySize_le_maxPayload (signal : Signal) (format : WireFormat) :
    maxBodySize ≤ maxPayload signal format := by
  have hover := envelopeOverhead_bounds signal format
  rw [maxBodySize, maxRetainablePayload, envelopeAllowance, maxPayload, maxRead]
  omega

end Governance
