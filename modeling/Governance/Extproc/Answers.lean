import Governance.Extproc.Dispatch

/-!
# What a message is answered with

Envoy takes an answer only if it is of the kind of the message, headers for headers and a body for
a body, in the same direction, or an `ImmediateResponse`. `refuse_or_block` on a profile that does
not fail closed answers a body with headers; everything else is right. So a stream is answered
rightly if and only if the profile fails closed or none of its bodies is `Indeterminate`.
-/

namespace Governance

open Utf8Text

namespace Extproc

/-- The part of an exchange that a message or a reply is about. -/
inductive Part where
  | headers
  | body
  | trailers
  deriving DecidableEq, Repr

/-- The direction and the part of a message. -/
def Message.kind : Message → Direction × Part
  | .requestHeaders => (.request, .headers)
  | .responseHeaders _ => (.response, .headers)
  | .requestBody _ _ => (.request, .body)
  | .responseBody _ _ => (.response, .body)
  | .requestTrailers => (.request, .trailers)
  | .responseTrailers => (.response, .trailers)

/-- The direction and the part a reply is for. An immediate response is for any. -/
def Reply.kind : Reply → Option (Direction × Part)
  | .requestHeaders _ => some (.request, .headers)
  | .responseHeaders _ => some (.response, .headers)
  | .requestBody _ => some (.request, .body)
  | .responseBody _ => some (.response, .body)
  | .immediateResponse .. => none

/-- A reply that Envoy takes for a message of a kind. -/
def Reply.Suits (kind : Direction × Part) (r : Reply) : Prop := r.kind = none ∨ r.kind = some kind

/-- A message in a phase is answered as it should be: with a reply that suits it, or not at all
because the request body goes on. -/
def Answered (phase : Phase) (message : Message) : Outcome → Prop
  | .panics => True
  | .waits => ∃ buf body, phase = .requestBody buf ∧ message = .requestBody body false
  | .replies reply => reply.Suits message.kind

variable (env : ExtEnv)

/-! ## Bodies that cannot be decided -/

/-- A request body that is not JSON, or that the engine fails on. -/
def RequestIndeterminate (raw : Bytes) : Prop :=
  ∀ json, env.fromSlice raw = some json → ∃ err, scanRequest env.engine json = .error err

/-- A chunk of a buffered response over the size cap, or the last one of a response that cannot be
decompressed, is not JSON or that the engine fails on. -/
def BufferedIndeterminate (buf chunk : Bytes) (endOfStream : Bool) : Prop :=
  exceedsCap buf chunk = true ∨ exceedsCap buf chunk = false ∧ endOfStream = true ∧
    ∀ plain, decompressGzip env (buf ++ chunk) = .ok plain →
      ∀ json, env.fromSlice plain = some json → ∃ err, scanResponse env.engine json = .error err

/-- A chunk of a compressed event stream over the size cap, or the last one of a stream that cannot
be decompressed, is not UTF-8 or that the hold-back fails on. -/
def GzipIndeterminate (hold : SseHoldBack) (buf chunk : Bytes) (endOfStream : Bool) : Prop :=
  exceedsCap buf chunk = true ∨ exceedsCap buf chunk = false ∧ endOfStream = true ∧
    ∀ plain, decompressGzip env (buf ++ chunk) = .ok plain →
      ∀ text, fromUtf8 plain = (text, .complete) →
        ∃ err, (hold.pushAndFlush env.codec env.engine env.order text).1 = some (.error err)

/-- A chunk of an event stream that is not UTF-8, ends it within a character, or that the hold-back
fails on. -/
def SseIndeterminate (hold : SseHoldBack) (carry chunk : Bytes) (endOfStream : Bool) : Prop :=
  ∀ text rest, decodeChunkWithCarry carry chunk = (some text, rest) →
    (endOfStream = true ∧ rest ≠ []) ∨
      ∃ err, (pushText env hold text endOfStream).1 = some (.error err)

/-- A chunk of a response that cannot be decided. -/
def ResponseIndeterminate (s : ResponseState) (chunk : Bytes) (endOfStream : Bool) : Prop :=
  match s.mode, s.gzipBuf with
  | .buffered buf, _ => BufferedIndeterminate env buf chunk endOfStream
  | .sse, some buf => GzipIndeterminate env s.hold buf chunk endOfStream
  | .sse, none => SseIndeterminate env s.hold s.utf8Carry chunk endOfStream

/-- A message with a body that cannot be decided. -/
def Indeterminate (phase : Phase) (message : Message) : Prop :=
  match phase, message with
  | .requestBody buf, .requestBody body true => RequestIndeterminate env (buf ++ body)
  | .responseBody s, .responseBody chunk endOfStream =>
    ResponseIndeterminate env s chunk endOfStream
  | _, _ => False

/-! ## The handlers -/

/-- What a handler answers: a refusal if the body cannot be decided, else something that suits, if
it does not panic. -/
def Decides (dir : Direction) (indeterminate : Prop) (reply : Option Reply) : Prop :=
  (indeterminate ∧ ∃ why, reply = some (refuseOrBlock env dir why)) ∨
    (¬ indeterminate ∧ ∀ r, reply = some r → r.Suits (dir, .body))

theorem decides_refusal {dir : Direction} {p : Prop} (hp : p) (why : Text) :
    Decides env dir p (some (refuseOrBlock env dir why)) := .inl ⟨hp, why, rfl⟩

theorem decides_suiting {dir : Direction} {p : Prop} (hp : ¬ p) {r : Reply}
    (hr : r.Suits (dir, .body)) : Decides env dir p (some r) :=
  .inr ⟨hp, fun _ h => Option.some.inj h ▸ hr⟩

theorem handleRequestBody_decides (raw : Bytes) :
    Decides env .request (RequestIndeterminate env raw) (some (handleRequestBody env raw)) := by
  unfold handleRequestBody RequestIndeterminate
  cases hjson : env.fromSlice raw with
  | none => exact decides_refusal env (by simp) _
  | some json =>
    simp only
    cases hscan : scanRequest env.engine json with
    | error err =>
      refine decides_refusal env (fun j hj => ⟨err, ?_⟩) _
      cases hj
      exact hscan
    | ok r =>
      refine decides_suiting env (fun h => ?_) ?_
      · obtain ⟨err, herr⟩ := h json rfl
        rw [hscan] at herr
        cases herr
      · simp only
        split
        · exact .inl rfl
        · exact .inr rfl

theorem handleBufferedResponseChunk_decides (buf chunk : Bytes) (endOfStream : Bool)
    (contentEncoding : Option Text) :
    Decides env .response (BufferedIndeterminate env buf chunk endOfStream)
      (some (handleBufferedResponseChunk env buf chunk endOfStream contentEncoding).1) := by
  unfold handleBufferedResponseChunk
  by_cases hcap : exceedsCap buf chunk = true
  · rw [if_pos hcap]
    exact decides_refusal env (.inl hcap) _
  have hfits : exceedsCap buf chunk = false := by simpa using hcap
  rw [if_neg hcap]
  cases endOfStream with
  | false => exact decides_suiting env (by simp [BufferedIndeterminate, hfits]) (.inr rfl)
  | true =>
    simp only [Bool.not_true, Bool.false_eq_true, if_false]
    have hiff : BufferedIndeterminate env buf chunk true ↔
        ∀ plain, decompressGzip env (buf ++ chunk) = .ok plain → ∀ json,
          env.fromSlice plain = some json → ∃ err, scanResponse env.engine json = .error err := by
      simp [BufferedIndeterminate, hfits]
    rw [hiff]
    cases hgz : decompressGzip env (buf ++ chunk) with
    | error err => exact decides_refusal env (by simp) _
    | ok plain =>
      simp only [Except.ok.injEq, forall_eq']
      cases hjson : env.fromSlice plain with
      | none => exact decides_refusal env (by simp) _
      | some json =>
        simp only [Option.some.injEq, forall_eq']
        cases hscan : scanResponse env.engine json with
        | error err => exact decides_refusal env ⟨err, rfl⟩ _
        | ok r =>
          refine decides_suiting env (by simp) ?_
          simp only
          split
          · exact .inl rfl
          · exact .inr rfl

/-- What the hold-back answers is refused if it is an error. -/
theorem emitResponse_decides (emit : Option (Except Error SseEmit)) (release : Text → Bytes) :
    Decides env .response (∃ err, emit = some (.error err))
      (emit.map fun emit => emitResponse env emit release) := by
  rcases emit with _ | err | _ | out | entities
  · exact .inr ⟨by simp, by simp⟩
  · exact decides_refusal env ⟨err, rfl⟩ _
  · exact decides_suiting env (by simp) (.inr rfl)
  · exact decides_suiting env (by simp) (.inr rfl)
  · exact decides_suiting env (by simp) (.inl rfl)

theorem handleGzipSseChunk_decides (s : ResponseState) {buf : Bytes} (hbuf : s.gzipBuf = some buf)
    (chunk : Bytes) (endOfStream : Bool) :
    Decides env .response (GzipIndeterminate env s.hold buf chunk endOfStream)
      (handleGzipSseChunk env s chunk endOfStream).1 := by
  unfold handleGzipSseChunk
  rw [hbuf]
  simp only
  by_cases hcap : exceedsCap buf chunk = true
  · rw [if_pos hcap]
    exact decides_refusal env (.inl hcap) _
  have hfits : exceedsCap buf chunk = false := by simpa using hcap
  rw [if_neg hcap]
  cases endOfStream with
  | false => exact decides_suiting env (by simp [GzipIndeterminate, hfits]) (.inr rfl)
  | true =>
    simp only [Bool.not_true, Bool.false_eq_true, if_false]
    have hiff : GzipIndeterminate env s.hold buf chunk true ↔
        ∀ plain, decompressGzip env (buf ++ chunk) = .ok plain → ∀ text,
          fromUtf8 plain = (text, .complete) → ∃ err,
            (s.hold.pushAndFlush env.codec env.engine env.order text).1 = some (.error err) := by
      simp [GzipIndeterminate, hfits]
    rw [hiff]
    cases hgz : decompressGzip env (buf ++ chunk) with
    | error err => exact decides_refusal env (by simp) _
    | ok plain =>
      simp only [Except.ok.injEq, forall_eq']
      split
      · rename_i text htext
        simp only [htext, Prod.mk.injEq, and_true, forall_eq']
        exact emitResponse_decides env _ _
      · rename_i hne
        exact decides_refusal env (fun text htext => absurd htext (hne text)) _

theorem handleSseChunk_decides (s : ResponseState) (chunk : Bytes) (endOfStream : Bool) :
    Decides env .response (SseIndeterminate env s.hold s.utf8Carry chunk endOfStream)
      (handleSseChunk env s chunk endOfStream).1 := by
  unfold handleSseChunk SseIndeterminate
  rcases hdec : decodeChunkWithCarry s.utf8Carry chunk with ⟨_ | text, carry⟩
  · exact decides_refusal env (by simp) _
  · have hiff : (∀ t rest, (some text, carry) = (some t, rest) →
        (endOfStream = true ∧ rest ≠ []) ∨
          ∃ err, (pushText env s.hold t endOfStream).1 = some (.error err)) ↔
        (endOfStream = true ∧ carry ≠ []) ∨
          ∃ err, (pushText env s.hold text endOfStream).1 = some (.error err) := by
      refine ⟨fun h => h text carry rfl, fun h t rest heq => ?_⟩
      cases heq
      exact h
    rw [hiff]
    simp only
    by_cases hend : (endOfStream && decide (carry ≠ [])) = true
    · rw [if_pos hend]
      exact decides_refusal env (.inl (by simpa using hend)) _
    · rw [if_neg hend]
      have hno : ¬ (endOfStream = true ∧ carry ≠ []) := by simpa using hend
      rw [or_iff_right hno]
      exact emitResponse_decides env _ _

theorem handleResponseChunk_decides (s : ResponseState) (chunk : Bytes) (endOfStream : Bool) :
    Decides env .response (ResponseIndeterminate env s chunk endOfStream)
      (handleResponseChunk env s chunk endOfStream).1 := by
  unfold handleResponseChunk ResponseIndeterminate
  cases hmode : s.mode with
  | buffered buf =>
    exact handleBufferedResponseChunk_decides env buf chunk endOfStream s.contentEncoding
  | sse =>
    cases hbuf : s.gzipBuf with
    | none => exact handleSseChunk_decides env s chunk endOfStream
    | some buf => exact handleGzipSseChunk_decides env s hbuf chunk endOfStream

/-! ## The state machine -/

/-- A refusal suits a body if the profile fails closed. -/
theorem suits_refuseOrBlock_iff (dir : Direction) (why : Text) :
    (refuseOrBlock env dir why).Suits (dir, .body) ↔ env.engine.profile.failClosed = true := by
  unfold refuseOrBlock
  by_cases hclosed : env.engine.profile.failClosed = true
  · rw [if_pos hclosed]
    exact ⟨fun _ => hclosed, fun _ => .inl rfl⟩
  · rw [if_neg hclosed]
    -- the reply is for the headers
    cases dir <;> simp [continueHeaders, Reply.Suits, Reply.kind, hclosed]

theorem Decides.suits_iff {dir : Direction} {p : Prop} {reply : Option Reply}
    (h : Decides env dir p reply) :
    (∀ r, reply = some r → r.Suits (dir, .body)) ↔
      env.engine.profile.failClosed = true ∨ ¬ p := by
  obtain ⟨hp, why, rfl⟩ | ⟨hp, hsuits⟩ := h
  · simp [suits_refuseOrBlock_iff, hp]
  · exact ⟨fun _ => .inr hp, fun _ => hsuits⟩

/-- One message. -/
theorem answered_dispatch_iff (message : Message) (phase : Phase) :
    Answered phase message (dispatch env message phase).1 ↔
      env.engine.profile.failClosed = true ∨ ¬ Indeterminate env phase message := by
  have himmediate : ∀ code text kind, (immediateResponse env 500 code text).Suits kind :=
    fun _ _ _ => .inl rfl
  cases message with
  | requestHeaders => cases phase <;> simp [dispatch, Answered, Indeterminate, Reply.Suits,
      continueHeaders, Reply.kind, Message.kind]
  | responseHeaders headers => cases phase <;> simp [dispatch, Answered, Indeterminate, Reply.Suits,
      continueHeaders, Reply.kind, Message.kind]
  | requestTrailers => cases phase <;> simp [dispatch, Answered, Indeterminate, himmediate]
  | responseTrailers => cases phase <;> simp [dispatch, Answered, Indeterminate, himmediate]
  | requestBody body endOfStream =>
    cases phase with
    | responseBody s => simp [dispatch, Answered, Indeterminate, himmediate]
    | requestBody buf =>
      cases endOfStream with
      | false => simp [dispatch, Answered, Indeterminate]
      | true =>
        rw [Indeterminate, ← (handleRequestBody_decides env (buf ++ body)).suits_iff env]
        exact ⟨fun h r hr => Option.some.inj hr ▸ h, fun h => h _ rfl⟩
  | responseBody chunk endOfStream =>
    cases phase with
    | requestBody buf => simp [dispatch, Answered, Indeterminate, himmediate]
    | responseBody s =>
      rw [Indeterminate, ← (handleResponseChunk_decides env s chunk endOfStream).suits_iff env]
      simp only [dispatch]
      rcases handleResponseChunk env s chunk endOfStream with ⟨_ | reply, s'⟩
      · simp [Answered]
      · exact ⟨fun h r hr => Option.some.inj hr ▸ h, fun h => h _ rfl⟩

/-- Every message of every stream is answered by a reply of its kind and direction or by an immediate
response, and only an unfinished request body is left unanswered, if and only if the profile fails
closed or no body that the stream meets is indeterminate. -/
theorem stream_answered_iff (messages : List Message) :
    (∀ x ∈ trace env .start messages, Answered x.1 x.2.1 x.2.2) ↔
      env.engine.profile.failClosed = true ∨
        ∀ x ∈ trace env .start messages, ¬ Indeterminate env x.1 x.2.1 := by
  have hstep : ∀ (phase : Phase) (messages : List Message), ∀ x ∈ trace env phase messages,
      x.2.2 = (dispatch env x.2.1 x.1).1 := by
    intro phase messages
    induction messages generalizing phase with
    | nil => simp [trace]
    | cons message rest ih =>
      unfold trace
      split
      · rename_i hd
        simp [hd]
      · rename_i outcome phase' _ hd
        rw [List.forall_mem_cons]
        exact ⟨by simp [hd], ih phase'⟩
  have hiff : ∀ x ∈ trace env .start messages, Answered x.1 x.2.1 x.2.2 ↔
      env.engine.profile.failClosed = true ∨ ¬ Indeterminate env x.1 x.2.1 := by
    intro x hx
    rw [hstep _ _ x hx]
    exact answered_dispatch_iff env x.2.1 x.1
  rw [forall₂_congr hiff]
  by_cases hclosed : env.engine.profile.failClosed = true
  · simp [hclosed]
  · simp [hclosed]

/-- A request body that is not JSON, on a profile that does not fail closed, is answered as if it
were headers. -/
theorem request_body_answered_as_headers :
    ∃ x ∈ trace observeEnv .start [.requestHeaders, .requestBody [0x78] true],
      ¬ Answered x.1 x.2.1 x.2.2 := by
  refine ⟨(.requestBody [], .requestBody [0x78] true, .replies (.requestHeaders ⟨[], none⟩)),
    ?_, ?_⟩
  · simp [trace, dispatch, observeEnv, handleRequestBody, refuseOrBlock, continueHeaders,
      Phase.start]
  · simp [Answered, Reply.Suits, Reply.kind, Message.kind]

end Extproc

end Governance
