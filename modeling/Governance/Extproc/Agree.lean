import Governance.Extproc.FailOpen
import Governance.Gateway.Handle

/-!
# The gateway and the processor decide alike

`redact-gateway` and `redact-extproc` put the same redaction in front of a provider, one as a proxy
and one behind Envoy. `Decision` is what redaction says about a body, whoever asks. Both refine it:
a body of a request or of a buffered response is blocked, refused or passed on by both or by
neither, with the same entities and the same rewritten JSON, however each of them gets it in chunks.

That holds for a profile that fails closed and one size cap, and for bodies that the processor does
not take for gzip.
-/

namespace Governance

open Utf8Text

namespace Extproc

/-- What redaction decides about a body. -/
inductive Decision where
  | blocked (entities : List String)
  | refused
  | passed (json : Json)

namespace Decision

/-- The decision about a body, as it parses, that `scan` walks. -/
def ofScan (scan : Json → Except Error (Json × ScanReport)) : Option Json → Decision
  | none => .refused
  | some json =>
    match scan json with
    | .error _ => .refused
    | .ok (json, report) => if report.isBlocked then .blocked report.blocked else .passed json

/-- The decision about a body that may have been too long. -/
def ofBody (scan : Json → Except Error (Json × ScanReport)) (parse : Bytes → Option Json)
    (body : Bytes) : Decision :=
  if body.length > maxBufferedResponseBytes then .refused else ofScan scan (parse body)

end Decision

/-- What the gateway does with a request it has decided. -/
inductive AsksUpstream (gw : GatewayEnv) (url : String) (headers : HeaderMap) :
    Decision → Except Refusal (Bool × UpstreamResponse) → Prop where
  | blocked (entities : List String) :
      AsksUpstream gw url headers (.blocked entities) (.error (.blocked entities))
  | refused (why : Text) : AsksUpstream gw url headers .refused (.error (.undetermined why))
  | passed {json : Json} {streaming : Bool} {up : UpstreamResponse}
      (h : gw.post url headers json = .ok up) :
      AsksUpstream gw url headers (.passed json) (.ok (streaming, up))
  | unavailable {json : Json} {e : Text} (h : gw.post url headers json = .error e) :
      AsksUpstream gw url headers (.passed json)
        (.error (.undetermined ("upstream unavailable: ".toList ++ e)))

/-- What the gateway answers with a response it has decided. -/
inductive AnswersClient (status : ℕ) : Decision → Response → Prop where
  | blocked (entities : List String) :
      AnswersClient status (.blocked entities) (Refusal.blocked entities).intoResponse
  | refused (why : Text) :
      AnswersClient status .refused (Refusal.undetermined why).intoResponse
  | passed (json : Json) : AnswersClient status (.passed json) (.json status json)

/-- What the processor replies with a body of some length that it has decided. -/
inductive RepliesTo (ext : ExtEnv) (dir : Direction) (what : String) (length : ℕ) :
    Decision → Reply → Prop where
  | blocked (entities : List String) :
      RepliesTo ext dir what length (.blocked entities) (blockedResponse ext what entities)
  | refused (why : Text) : RepliesTo ext dir what length .refused
      (immediateResponse ext 502 "redaction_unavailable"
        ("request refused: redaction could not be completed (".toList ++ why ++ ")".toList))
  | passed {json : Json} {raw : Bytes} (hlen : raw.length = length) :
      RepliesTo ext dir what length (.passed json)
        (bodyResponseWithOriginalLength dir ((ext.toVec json).getD raw) (some length))

/-- The two are set up alike: one engine whose profile fails closed, one size cap, and
`serde_json::from_slice`, which reads what `from_str` reads from the text of the bytes. -/
structure SetUpAlike (gw : GatewayEnv) (ext : ExtEnv) : Prop where
  engine : ext.engine = gw.engine
  closed : gw.engine.profile.failClosed = true
  cap : gw.maxBodyBytes = maxBufferedResponseBytes
  slice : ∀ bytes, (gw.fromSlice bytes).toOption = ext.fromSlice bytes
  text : ∀ bytes text, fromUtf8 bytes = (text, .complete) →
    ext.fromSlice bytes = gw.codec.fromStr text
  notText : ∀ bytes, (fromUtf8 bytes).2 ≠ .complete → ext.fromSlice bytes = none

variable {gw : GatewayEnv} {ext : ExtEnv}

theorem SetUpAlike.refuse (h : SetUpAlike gw ext) (dir : Direction) (why : Text) :
    refuseOrBlock ext dir why = immediateResponse ext 502 "redaction_unavailable"
      ("request refused: redaction could not be completed (".toList ++ why ++ ")".toList) := by
  rw [refuseOrBlock, if_pos (by rw [h.engine]; exact h.closed)]

/-! ## Requests -/

/-- The gateway decides a request as `scan_request` says. -/
theorem requestSide_decides (gw : GatewayEnv) (m : Metrics) (headers : HeaderMap) (path : String)
    (body : Bytes) : AsksUpstream gw (gw.providerBaseUrl ++ path) (forwardedHeaders headers)
      (.ofScan (scanRequest gw.engine) (gw.fromSlice body).toOption)
      (gw.requestSide m headers path body).1 := by
  unfold GatewayEnv.requestSide
  cases gw.fromSlice body with
  | error e => exact .refused _
  | ok json =>
    simp only [Except.toOption, Decision.ofScan]
    cases scanRequest gw.engine json with
    | error err => exact .refused _
    | ok r =>
      obtain ⟨json', report⟩ := r
      dsimp only
      cases report.isBlocked with
      | true =>
        simp only [if_true]
        exact .blocked _
      | false =>
        simp only [Bool.false_eq_true, if_false]
        cases hpost : gw.post (gw.providerBaseUrl ++ path) (forwardedHeaders headers) json' with
        | error e => exact .unavailable hpost
        | ok up => exact .passed hpost

/-- The processor decides a whole request body so too. -/
theorem handleRequestBody_decision (h : SetUpAlike gw ext) (raw : Bytes) :
    RepliesTo ext .request "request" raw.length
      (.ofScan (scanRequest gw.engine) (gw.fromSlice raw).toOption)
      (handleRequestBody ext raw) := by
  unfold handleRequestBody
  rw [h.slice]
  cases ext.fromSlice raw with
  | none =>
    simp only [h.refuse]
    exact .refused _
  | some json =>
    simp only [Decision.ofScan, h.engine]
    cases scanRequest gw.engine json with
    | error err =>
      simp only [h.refuse]
      exact .refused _
    | ok r =>
      obtain ⟨json', report⟩ := r
      dsimp only
      cases report.isBlocked with
      | true =>
        simp only [if_true]
        exact .blocked _
      | false =>
        simp only [Bool.false_eq_true, if_false]
        exact .passed rfl

/-- A request body that Envoy sends in chunks. -/
def requestMessages (earlier : List Bytes) (last : Bytes) : List Message :=
  earlier.map (Message.requestBody · false) ++ [Message.requestBody last true]

/-- What `dispatch` does with each message. -/
def outcomes (ext : ExtEnv) (phase : Phase) (messages : List Message) : List Outcome :=
  (trace ext phase messages).map fun t => t.2.2

theorem outcomes_request (ext : ExtEnv) (buf : Bytes) (earlier : List Bytes) (last : Bytes) :
    outcomes ext (.requestBody buf) (requestMessages earlier last) =
      List.replicate earlier.length Outcome.waits ++
        [Outcome.replies (handleRequestBody ext (buf ++ earlier.flatten ++ last))] := by
  induction earlier generalizing buf with
  | nil =>
    rw [List.flatten_nil, List.append_nil]
    rfl
  | cons chunk earlier ih =>
    have hstep : outcomes ext (.requestBody buf) (requestMessages (chunk :: earlier) last) =
        .waits :: outcomes ext (.requestBody (buf ++ chunk)) (requestMessages earlier last) := rfl
    rw [hstep, ih, List.flatten_cons, List.length_cons, List.replicate_succ, List.cons_append,
      ← List.append_assoc]

/-- A request is blocked, refused or passed on by both, whatever chunks Envoy makes of its body: the
processor waits for the last one, and its reply is the gateway's decision. -/
theorem request_decided_alike (h : SetUpAlike gw ext) (m : Metrics) (headers : HeaderMap)
    (path : String) (earlier : List Bytes) (last : Bytes) :
    ∃ d reply,
      AsksUpstream gw (gw.providerBaseUrl ++ path) (forwardedHeaders headers) d
        (gw.requestSide m headers path (earlier.flatten ++ last)).1 ∧
      outcomes ext .start (requestMessages earlier last) =
        List.replicate earlier.length Outcome.waits ++ [Outcome.replies reply] ∧
      RepliesTo ext .request "request" (earlier.flatten ++ last).length d reply :=
  ⟨_, _, requestSide_decides gw m headers path _, outcomes_request ext [] earlier last,
    handleRequestBody_decision h _⟩

/-! ## Buffered responses -/

theorem saturatingAdd_gt_iff (a b : ℕ) :
    saturatingAdd a b > maxBufferedResponseBytes ↔ maxBufferedResponseBytes < a + b := by
  unfold saturatingAdd maxBufferedResponseBytes
  omega

/-- The gateway reads the whole body, or finds it too long. -/
theorem readBytes_eq (hcap : gw.maxBodyBytes = maxBufferedResponseBytes) (chunks : List Bytes)
    {buf : Bytes} (hbuf : buf.length ≤ maxBufferedResponseBytes) :
    (maxBufferedResponseBytes < (buf ++ chunks.flatten).length ∧
        ∃ why, gw.readBytes buf (chunks.map .ok) = .error why) ∨
      (buf ++ chunks.flatten).length ≤ maxBufferedResponseBytes ∧
        gw.readBytes buf (chunks.map .ok) = .ok (buf ++ chunks.flatten) := by
  induction chunks generalizing buf with
  | nil =>
    rw [List.flatten_nil, List.append_nil]
    exact .inr ⟨hbuf, rfl⟩
  | cons chunk chunks ih =>
    rw [List.flatten_cons, ← List.append_assoc, List.map_cons, GatewayEnv.readBytes, hcap]
    by_cases hlong : saturatingAdd buf.length chunk.length > maxBufferedResponseBytes
    · rw [if_pos hlong]
      refine .inl ⟨?_, _, rfl⟩
      rw [saturatingAdd_gt_iff] at hlong
      rw [List.length_append, List.length_append]
      omega
    · rw [if_neg hlong]
      rw [saturatingAdd_gt_iff] at hlong
      refine ih ?_
      rw [List.length_append]
      omega

/-- The gateway decides a buffered response as `scan_response` says. -/
theorem responseSide_decides (h : SetUpAlike gw ext) (m : Metrics) {up : UpstreamResponse}
    {chunks : List Bytes} (hevent : up.isEventStream = false) (h2xx : up.isSuccess = true)
    (hchunks : up.chunks = chunks.map .ok) :
    AnswersClient up.status (.ofBody (scanResponse gw.engine) ext.fromSlice chunks.flatten)
      (gw.responseSide m false up).1 := by
  simp only [GatewayEnv.responseSide, hevent, h2xx, Bool.or_self, Bool.not_true,
    Bool.false_eq_true, if_false, GatewayEnv.readCapped, hchunks]
  unfold Decision.ofBody
  have hempty : ([] : Bytes).length ≤ maxBufferedResponseBytes := Nat.zero_le _
  obtain ⟨hlong, why, hread⟩ | ⟨hfits, hread⟩ := readBytes_eq h.cap chunks hempty
  · rw [List.nil_append] at hlong
    simp only [hread, if_pos hlong]
    exact .refused _
  rw [List.nil_append] at hfits hread
  rw [if_neg (by omega), hread]
  dsimp only
  rcases htext : fromUtf8 chunks.flatten with ⟨text, _ | _ | rest⟩
  · rw [h.text _ text htext]
    dsimp only
    cases gw.codec.fromStr text with
    | none => exact .refused _
    | some json =>
      simp only [Decision.ofScan]
      cases scanResponse gw.engine json with
      | error err => exact .refused _
      | ok r =>
        obtain ⟨json', report⟩ := r
        dsimp only
        cases report.isBlocked with
        | true =>
          simp only [if_true]
          exact .blocked _
        | false =>
          simp only [Bool.false_eq_true, if_false]
          exact .passed _
  · rw [h.notText _ (by rw [htext]; exact fun hne => by cases hne)]
    exact .refused _
  · rw [h.notText _ (by rw [htext]; exact fun hne => by cases hne)]
    exact .refused _

/-- The two bytes that `decompress_gzip` looks for. -/
def looksGzip (body : Bytes) : Bool := body.head? = some 0x1f && body[1]? = some 0x8b

theorem decompressGzip_plain {body : Bytes} (h : looksGzip body = false) :
    decompressGzip ext body = .ok body := by
  unfold decompressGzip
  refine if_pos ?_
  unfold looksGzip at h
  by_cases hhead : body.head? = some 0x1f
  · have hnext : body[1]? ≠ some 0x8b := by
      intro hnext
      simp [hhead, hnext] at h
    simp [hnext]
  · simp [hhead]

/-- The reply that ends a response: the first immediate one, or the reply to the last chunk. -/
def answer (ext : ExtEnv) : ResponseState → List Bytes → Bytes → Option Reply
  | s, [], last => (handleResponseChunk ext s last true).1
  | s, chunk :: earlier, last =>
    match handleResponseChunk ext s chunk false with
    | (some reply, s') => if reply.kind = none then some reply else answer ext s' earlier last
    | (none, _) => none

/-- The last chunk of a buffered response decides it. -/
theorem handleBufferedResponseChunk_decision (h : SetUpAlike gw ext) {buf last : Bytes}
    {contentEncoding : Option Text} (hplain : isGzip contentEncoding = false)
    (hgzip : looksGzip (buf ++ last) = false) :
    RepliesTo ext .response "response" (buf ++ last).length
      (.ofBody (scanResponse gw.engine) ext.fromSlice (buf ++ last))
      (handleBufferedResponseChunk ext buf last true contentEncoding).1 := by
  unfold handleBufferedResponseChunk Decision.ofBody exceedsCap
  rw [List.length_append]
  by_cases hlong : saturatingAdd buf.length last.length > maxBufferedResponseBytes
  · rw [if_pos ((saturatingAdd_gt_iff _ _).mp hlong), if_pos (decide_eq_true hlong), h.refuse]
    exact .refused _
  rw [if_neg (by rw [saturatingAdd_gt_iff] at hlong; exact hlong), if_neg (by simpa using hlong)]
  simp only [Bool.not_true, Bool.false_eq_true, if_false, decompressGzip_plain hgzip]
  cases ext.fromSlice (buf ++ last) with
  | none =>
    simp only [h.refuse]
    exact .refused _
  | some json =>
    simp only [Decision.ofScan, h.engine]
    cases scanResponse gw.engine json with
    | error err =>
      simp only [h.refuse]
      exact .refused _
    | ok r =>
      obtain ⟨json', report⟩ := r
      dsimp only
      cases report.isBlocked with
      | true =>
        simp only [if_true]
        exact .blocked _
      | false =>
        simp only [Bool.false_eq_true, if_false, compressAsGzip, hplain, Bool.not_false, if_true,
          Option.getD_none, List.length_append]
        exact .passed (List.length_append ..)

/-- The processor decides a buffered response so too, from the chunks it accumulates. -/
theorem answer_decides (h : SetUpAlike gw ext) (earlier : List Bytes) {last buf : Bytes}
    {s : ResponseState} (hmode : s.mode = .buffered buf) (hplain : isGzip s.contentEncoding = false)
    (hgzip : looksGzip (buf ++ earlier.flatten ++ last) = false) :
    ∃ reply, answer ext s earlier last = some reply ∧
      RepliesTo ext .response "response" (buf ++ earlier.flatten ++ last).length
        (.ofBody (scanResponse gw.engine) ext.fromSlice (buf ++ earlier.flatten ++ last))
        reply := by
  induction earlier generalizing buf s with
  | nil =>
    rw [List.flatten_nil, List.append_nil] at hgzip ⊢
    refine ⟨_, ?_, handleBufferedResponseChunk_decision h hplain hgzip⟩
    simp only [answer, handleResponseChunk, hmode]
  | cons chunk earlier ih =>
    rw [List.flatten_cons, ← List.append_assoc] at hgzip ⊢
    simp only [answer, handleResponseChunk, hmode, handleBufferedResponseChunk]
    cases hlong : exceedsCap buf chunk with
    | true =>
      -- the body is too long, whatever comes after this chunk
      have hlong : maxBufferedResponseBytes < buf.length + chunk.length := by
        rw [← saturatingAdd_gt_iff]
        exact of_decide_eq_true hlong
      have hrefused : Decision.ofBody (scanResponse gw.engine) ext.fromSlice
          (buf ++ chunk ++ earlier.flatten ++ last) = .refused := by
        refine if_pos ?_
        rw [List.length_append, List.length_append, List.length_append]
        omega
      rw [hrefused]
      simp only [if_true, h.refuse]
      exact ⟨_, rfl, .refused _⟩
    | false =>
      have hkind : (bodyResponse .response []).kind ≠ none := by
        intro hkind
        cases hkind
      simp only [Bool.false_eq_true, if_false, Bool.not_false, if_true, if_neg hkind]
      exact ih rfl hplain hgzip

/-- A successful response that is neither an event stream nor compressed is blocked, refused or
passed on by both, whatever chunks each of them gets it in. -/
theorem response_decided_alike (h : SetUpAlike gw ext) (m : Metrics) {up : UpstreamResponse}
    {chunks : List Bytes} (hevent : up.isEventStream = false) (h2xx : up.isSuccess = true)
    (hchunks : up.chunks = chunks.map .ok) {headers : List HeaderValue}
    (hsse : isSse (lastNamed "content-type" headers) = false)
    (hplain : isGzip (lastNamed "content-encoding" headers) = false) {earlier : List Bytes}
    {last : Bytes} (hbody : earlier.flatten ++ last = chunks.flatten)
    (hgzip : looksGzip chunks.flatten = false) :
    ∃ d reply, AnswersClient up.status d (gw.responseSide m false up).1 ∧
      answer ext (responseStart ext (some headers)) earlier last = some reply ∧
      RepliesTo ext .response "response" chunks.flatten.length d reply := by
  have hmode : (responseStart ext (some headers)).mode = .buffered [] := by
    simp only [responseStart, ResponseState.setModeFromHeaders, hsse]
    rfl
  have hsame : ([] : Bytes) ++ earlier.flatten ++ last = chunks.flatten := hbody
  rw [← hsame] at hgzip
  obtain ⟨reply, hanswer, hreply⟩ := answer_decides h earlier hmode hplain hgzip
  rw [hsame] at hreply
  exact ⟨_, reply, responseSide_decides h m hevent h2xx hchunks, hanswer, hreply⟩

/-! ## A pair -/

/-- The answer of `answerText`, in one chunk. -/
def jsonAnswer (content : Char) : UpstreamResponse :=
  ⟨200, [("content-type", encode "application/json".toList)],
    [encode (GatewayEnv.answerText content)].map .ok⟩

def pairCodec (content : Char) : JsonCodec :=
  .ofTable [(GatewayEnv.answerText content, GatewayEnv.answerValue content)]

/-- A processor whose engine blocks the character `7`. -/
def pairExt (content : Char) : ExtEnv where
  codec := pairCodec content
  fromSlice := fun bytes =>
    if (fromUtf8 bytes).2 = .complete then (pairCodec content).fromStr (fromUtf8 bytes).1 else none
  toVec := fun json => some (encode ((pairCodec content).toString json))
  gunzip := fun _ _ => .error "invalid gzip header".toList
  gzip := fun _ => none
  order := ⟨id, List.Perm.refl⟩
  engine := charEngine '7' .block
  window := 64

/-- The gateway that is set up like it. -/
def pairGateway (content : Char) : GatewayEnv where
  codec := pairCodec content
  engine := charEngine '7' .block
  order := ⟨id, List.Perm.refl⟩
  providerBaseUrl := "http://upstream"
  maxBodyBytes := maxBufferedResponseBytes
  connected := fun _ => true
  fromSlice := fun bytes =>
    match (pairExt content).fromSlice bytes with
    | none => .error "expected value".toList
    | some json => .ok json
  fromStrError := fun _ => "expected value".toList
  utf8Error := fun _ => "invalid utf-8 sequence".toList
  post := fun _ _ _ => .ok (jsonAnswer content)

theorem pair_setUpAlike (content : Char) : SetUpAlike (pairGateway content) (pairExt content) where
  engine := rfl
  closed := rfl
  cap := rfl
  slice bytes := by
    simp only [pairGateway]
    cases (pairExt content).fromSlice bytes <;> rfl
  text bytes text h := by
    simp only [pairExt, pairGateway, h, if_true]
  notText bytes h := by
    simp only [pairExt, if_neg h]

theorem request_decided_alike_pair :
    ∃ d reply,
      AsksUpstream (pairGateway '1') ((pairGateway '1').providerBaseUrl ++ "/v1")
        (forwardedHeaders []) d ((pairGateway '1').requestSide ⟨0, 0, 0, 0, 0, 0, 0⟩ [] "/v1"
          (List.flatten [[0x7b]] ++ [0x7d])).1 ∧
      outcomes (pairExt '1') .start (requestMessages [[0x7b]] [0x7d]) =
        List.replicate [[0x7b]].length Outcome.waits ++ [Outcome.replies reply] ∧
      RepliesTo (pairExt '1') .request "request" (List.flatten [[0x7b]] ++ [0x7d]).length d
        reply :=
  request_decided_alike (pair_setUpAlike '1') ⟨0, 0, 0, 0, 0, 0, 0⟩ [] "/v1" [[0x7b]] [0x7d]

theorem response_decided_alike_pair :
    ∃ d reply, AnswersClient (jsonAnswer '7').status d
        ((pairGateway '7').responseSide ⟨0, 0, 0, 0, 0, 0, 0⟩ false (jsonAnswer '7')).1 ∧
      answer (pairExt '7') (responseStart (pairExt '7') (some [])) []
        (encode (GatewayEnv.answerText '7')) = some reply ∧
      RepliesTo (pairExt '7') .response "response"
        (List.flatten [encode (GatewayEnv.answerText '7')]).length d reply :=
  response_decided_alike (pair_setUpAlike '7') ⟨0, 0, 0, 0, 0, 0, 0⟩ (by decide) rfl rfl rfl rfl
    (List.append_nil _).symm (by decide)

end Extproc

end Governance
