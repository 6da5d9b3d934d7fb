import Governance.Gateway.Streaming

/-!
# What the streaming path delivers

`StreamEnv.calls` lists the answers the scanner gives to the pieces of a decoded body, each
with whether the task listens to it. `streamLoop_calls` proves that a whole task sends the
messages of exactly the answers it listens to. The answers it does not listen to are those
to a chunk that ends inside a codepoint, so the client gets every message of the scanner if
and only if the scanner has nothing to say there (`scanSseStreaming_delivers_iff`).
-/

namespace Governance

open Utf8Text

/-- What the client is to be sent for an answer. -/
def messageOf (codec : JsonCodec) : Except Error SseEmit → Text
  | .ok .nothing => []
  | .ok (.release text) => text
  | .ok (.blocked entities) => sseBlockedEvent codec entities
  | .error err => sseErrorEvent codec "redaction_unavailable" err.display

/-- Whether an answer ends the stream. -/
def isTerminal : Except Error SseEmit → Bool
  | .ok (.blocked _) | .error _ => true
  | _ => false

/-- The client was sent the message of every answer in order, and an answer that ends the
stream was the last. -/
structure Delivered (codec : JsonCodec) (s : StreamState) : Prop where
  bytes : s.sent.flatten = encode (s.answers.flatMap (messageOf codec))
  last : ∀ a ∈ s.answers.dropLast, isTerminal a = false

/-- The texts the chunks of a body decode to, each with whether its chunk ended inside a
codepoint. -/
def decodeAll : List UInt8 → List (List UInt8) → List (Text × Bool)
  | _, [] => []
  | carry, chunk :: rest =>
    match decodeChunkWithCarry carry chunk with
    | (.ok piece, carry') => piece :: decodeAll carry' rest
    | (.error (), _) => []

theorem sseErrorEvent_ne_nil (codec : JsonCodec) (code : String) (message : Text) :
    sseErrorEvent codec code message ≠ [] := by
  have hfield : "data: ".toList ≠ [] := by decide
  delta sseErrorEvent
  rw [List.append_assoc]
  exact List.append_ne_nil_of_left_ne_nil hfield _

/-- A release is never empty, so only `Nothing` has no message. -/
theorem messageOf_eq_nil (codec : JsonCodec) {a : Except Error SseEmit}
    (ha : a ≠ .ok (.release [])) : messageOf codec a = [] ↔ a = .ok .nothing := by
  match a with
  | .ok .nothing => simp [messageOf]
  | .ok (.release text) =>
    have hne : text ≠ [] := by
      rintro rfl
      exact ha rfl
    simp [messageOf, hne]
  | .ok (.blocked entities) => simp [messageOf, sseBlockedEvent, sseErrorEvent_ne_nil]
  | .error err => simp [messageOf, sseErrorEvent_ne_nil]

namespace SseHoldBack

theorem finish_ne_release_nil (codec : JsonCodec)
    (r : Except Error (Option (List String)) × SseHoldBack) :
    (finish codec r).1 ≠ .ok (.release []) := by
  match r with
  | (.error err, h) => simp [finish]
  | (.ok (some entities), h) => simp [finish]
  | (.ok none, h) =>
    by_cases hout : (h.drainReady codec).1 = []
    · simp [finish, SseEmit.ofText, hout]
    · simp [finish, SseEmit.ofText, hout]

theorem push_ne_release_nil (codec : JsonCodec) (e : Engine) (h : SseHoldBack) (text : Text) :
    (h.push codec e text).1 ≠ .ok (.release []) := by
  by_cases hb : h.blocked = true
  · simp [push, hb]
  · simp only [push, hb]
    exact finish_ne_release_nil codec _

theorem flush_ne_release_nil (codec : JsonCodec) (e : Engine) (order : IterOrder ContentKey)
    (h : SseHoldBack) : (h.flush codec e order).1 ≠ .ok (.release []) := by
  by_cases hb : h.blocked = true
  · simp [flush, hb]
  · have hb : h.blocked = false := by simpa using hb
    simp only [flush, hb, Bool.false_eq_true, if_false]
    split
    · exact finish_ne_release_nil codec _
    · exact finish_ne_release_nil codec _

end SseHoldBack

namespace StreamEnv

variable (env : StreamEnv)

/-- The answers of the scanner to the pieces of a decoded body and, unless one of them ends
the stream, to the flush, each with whether the task listens to it. -/
def calls : SseHoldBack → List (Text × Bool) → List (Bool × Except Error SseEmit)
  | h, [] => [(true, (h.flush env.codec env.engine env.order).1)]
  | h, (text, inside) :: rest =>
    let r := h.push env.codec env.engine text
    if inside then
      if text = [] then calls h rest else (false, r.1) :: calls r.2 rest
    else (true, r.1) :: if isTerminal r.1 then [] else calls r.2 rest

/-- The scanner has nothing to say to a chunk that ends inside a codepoint, as long as the
stream goes on. -/
def Quiet : SseHoldBack → List (Text × Bool) → Prop
  | _, [] => True
  | h, (text, inside) :: rest =>
    let r := h.push env.codec env.engine text
    if inside then if text = [] then Quiet h rest else r.1 = .ok .nothing ∧ Quiet r.2 rest
    else if isTerminal r.1 then True else Quiet r.2 rest

/-- The messages of the answers the task listens to. -/
def heardText (cs : List (Bool × Except Error SseEmit)) : Text :=
  (cs.filter Prod.fst).flatMap fun c => messageOf env.codec c.2

theorem heardText_append (cs cs' : List (Bool × Except Error SseEmit)) :
    env.heardText (cs ++ cs') = env.heardText cs ++ env.heardText cs' := by
  simp [heardText]

theorem calls_ne_release_nil (h : SseHoldBack) (pieces : List (Text × Bool)) :
    ∀ c ∈ env.calls h pieces, c.2 ≠ .ok (.release []) := by
  induction pieces generalizing h with
  | nil => simpa [calls] using h.flush_ne_release_nil env.codec env.engine env.order
  | cons piece rest ih =>
    obtain ⟨text, inside⟩ := piece
    have hpush := h.push_ne_release_nil env.codec env.engine text
    intro c hc
    simp only [calls] at hc
    split at hc
    · split at hc
      · exact ih h c hc
      · rcases List.mem_cons.mp hc with rfl | hc
        · exact hpush
        · exact ih _ c hc
    · rcases List.mem_cons.mp hc with rfl | hc
      · exact hpush
      · split at hc
        · simp at hc
        · exact ih _ c hc

theorem quiet_iff (h : SseHoldBack) (pieces : List (Text × Bool)) :
    env.Quiet h pieces ↔ ∀ c ∈ env.calls h pieces, c.1 = false → c.2 = .ok .nothing := by
  induction pieces generalizing h with
  | nil => simp [Quiet, calls]
  | cons piece rest ih =>
    obtain ⟨text, inside⟩ := piece
    simp only [Quiet, calls]
    split
    · split
      · exact ih h
      · simp [ih]
    · split
      · simp
      · simp [ih]

theorem length_heardText_le (cs : List (Bool × Except Error SseEmit)) :
    (env.heardText cs).length ≤ (cs.flatMap fun c => messageOf env.codec c.2).length :=
  (List.Sublist.flatMap List.filter_sublist _).length_le

instance (h : SseHoldBack) (pieces : List (Text × Bool)) : Decidable (env.Quiet h pieces) :=
  decidable_of_iff _ (env.quiet_iff h pieces).symm

/-- Nothing is missing from what the task listens to exactly if what it ignores has no
message. -/
theorem heardText_eq_iff {cs : List (Bool × Except Error SseEmit)}
    (hcs : ∀ c ∈ cs, c.2 ≠ .ok (.release [])) :
    env.heardText cs = cs.flatMap (fun c => messageOf env.codec c.2) ↔
      ∀ c ∈ cs, c.1 = false → c.2 = .ok .nothing := by
  induction cs with
  | nil => simp [heardText]
  | cons c cs ih =>
    have ih := ih fun d hd => hcs d (List.mem_cons_of_mem c hd)
    have hmsg := messageOf_eq_nil env.codec (hcs c (by simp))
    rw [List.forall_mem_cons, ← ih, List.flatMap_cons]
    cases hc : c.1 with
    | true => simp [heardText, hc]
    | false =>
      have hdrop : env.heardText (c :: cs) = env.heardText cs := by simp [heardText, hc]
      rw [hdrop]
      constructor
      · intro heq
        -- the ignored message would make the right-hand side longer
        have hle := env.length_heardText_le cs
        have hsum := congrArg List.length heq
        rw [List.length_append] at hsum
        have hnil : messageOf env.codec c.2 = [] := List.length_eq_zero_iff.mp (by omega)
        rw [hnil, List.nil_append] at heq
        exact ⟨fun _ => hmsg.mp hnil, heq⟩
      · rintro ⟨hnothing, heq⟩
        rw [hmsg.mpr (hnothing rfl), List.nil_append]
        exact heq

theorem calls_ne_nil (h : SseHoldBack) (pieces : List (Text × Bool)) :
    env.calls h pieces ≠ [] := by
  induction pieces generalizing h with
  | nil => simp [calls]
  | cons piece rest ih =>
    simp only [calls]
    split
    · split
      · exact ih h
      · simp
    · simp

/-- An answer that ends the stream is the last, when the ignored ones do not. -/
theorem calls_last {h : SseHoldBack} {pieces : List (Text × Bool)} (hq : env.Quiet h pieces) :
    ∀ c ∈ (env.calls h pieces).dropLast, isTerminal c.2 = false := by
  induction pieces generalizing h with
  | nil => simp [calls]
  | cons piece rest ih =>
    obtain ⟨text, inside⟩ := piece
    simp only [calls]
    simp only [Quiet] at hq
    split at hq
    · next hinside =>
      rw [if_pos hinside]
      split at hq
      · next htext =>
        rw [if_pos htext]
        exact ih hq
      · next htext =>
        rw [if_neg htext, List.dropLast_cons_of_ne_nil (env.calls_ne_nil _ _),
          List.forall_mem_cons, hq.1]
        exact ⟨rfl, ih hq.2⟩
    · next hinside =>
      rw [if_neg hinside]
      split at hq
      · next hterm => simp [hterm]
      · next hterm =>
        rw [if_neg hterm, List.dropLast_cons_of_ne_nil (env.calls_ne_nil _ _),
          List.forall_mem_cons]
        exact ⟨by simpa using hterm, ih hq⟩

/-! ## The task makes these calls -/

/-- The task went from `s` to `s'` with the calls `cs`. -/
structure Spoke (cs : List (Bool × Except Error SseEmit)) (s s' : StreamState) : Prop where
  answers : s'.answers = s.answers ++ cs.map Prod.snd
  sent : s'.sent.flatten = s.sent.flatten ++ encode (env.heardText cs)

theorem Spoke.trans {cs cs' : List (Bool × Except Error SseEmit)} {a b c : StreamState}
    (hab : env.Spoke cs a b) (hbc : env.Spoke cs' b c) : env.Spoke (cs ++ cs') a c where
  answers := by rw [hbc.answers, hab.answers, List.map_append, List.append_assoc]
  sent := by rw [hbc.sent, hab.sent, heardText_append, encode_append, List.append_assoc]

theorem spoke_heard {s s' : StreamState} {a : Except Error SseEmit}
    (hanswers : s'.answers = s.answers ++ [a])
    (hsent : s'.sent.flatten = s.sent.flatten ++ encode (messageOf env.codec a)) :
    env.Spoke [(true, a)] s s' := by
  refine ⟨hanswers, ?_⟩
  rw [hsent]
  simp [heardText]

theorem pushPartial_spoke (s : StreamState) {text : Text} (htext : text ≠ []) :
    env.Spoke [(false, (s.holdback.push env.codec env.engine text).1)] s
      (env.pushPartial s text) := by
  rw [pushPartial, if_neg htext]
  exact ⟨rfl, by simp [heardText, StreamState.heard]⟩

/-- The push of a whole text: the task returns exactly when the answer ends the stream. -/
theorem pushText_spoke (hclosed : env.failClosed = true) (hconn : ∀ n, env.connected n = true)
    (s : StreamState) (text : Text) :
    ∃ s', env.pushText s text =
        (if isTerminal (s.holdback.push env.codec env.engine text).1 then .done s' else .goOn s') ∧
      s'.holdback = (s.holdback.push env.codec env.engine text).2 ∧ s'.carry = s.carry ∧
      s'.totalBytes = s.totalBytes ∧ s'.observePassthrough = s.observePassthrough ∧
      env.Spoke [(true, (s.holdback.push env.codec env.engine text).1)] s s' := by
  simp only [pushText, StreamState.heard]
  match hr : (s.holdback.push env.codec env.engine text).1 with
  | .ok .nothing =>
    refine ⟨_, rfl, rfl, rfl, rfl, rfl, env.spoke_heard rfl ?_⟩
    simp [messageOf]
  | .ok (.release released) =>
    simp only [hconn, if_true]
    refine ⟨_, rfl, rfl, rfl, rfl, rfl, env.spoke_heard rfl ?_⟩
    simp [StreamState.send, messageOf]
  | .ok (.blocked entities) =>
    simp only [hclosed, if_true]
    refine ⟨_, rfl, rfl, rfl, rfl, rfl, env.spoke_heard rfl ?_⟩
    simp [StreamState.send, StreamState.recorded, messageOf]
  | .error err =>
    simp only [StreamState.refused, hclosed, if_true]
    refine ⟨_, rfl, rfl, rfl, rfl, rfl, env.spoke_heard rfl ?_⟩
    simp [StreamState.send, StreamState.recorded, messageOf]

/-- The flush that ends a body without a rest. -/
theorem streamEnd_spoke (s : StreamState) (hcarry : s.carry = []) :
    env.Spoke [(true, (s.holdback.flush env.codec env.engine env.order).1)] s
      (env.streamEnd s) := by
  rw [streamEnd, if_neg (by simp [hcarry])]
  simp only [StreamState.heard]
  match hr : (s.holdback.flush env.codec env.engine env.order).1 with
  | .ok .nothing => exact env.spoke_heard rfl (by simp [StreamState.recorded, messageOf])
  | .ok (.release released) =>
    exact env.spoke_heard rfl (by simp [StreamState.send, StreamState.recorded, messageOf])
  | .ok (.blocked entities) =>
    exact env.spoke_heard rfl (by simp [StreamState.send, StreamState.recorded, messageOf])
  | .error err =>
    exact env.spoke_heard rfl (by simp [StreamState.send, StreamState.recorded, messageOf])

/-- One chunk of an encoded text never fails to decode. -/
theorem decodeChunkWithCarry_encoded {t : Text} {carry chunk : List UInt8}
    (h : carry ++ chunk <+: encode t) :
    ∃ q rest, decodeChunkWithCarry carry chunk = (.ok (q, rest ≠ []), rest) ∧ Unfinished rest ∧
      ∃ t', t = q ++ t' ∧ carry ++ chunk = encode q ++ rest := by
  obtain ⟨q, rest, hbytes, ⟨t', ht⟩, hrest, hdec⟩ := fromUtf8_isPrefixOf h
  refine ⟨q, rest, ?_, hrest, t', ht.symm, hbytes⟩
  by_cases hnil : rest = []
  · simp [decodeChunkWithCarry, hdec, Tail.ofRest, hnil]
  · simp [decodeChunkWithCarry, hdec, Tail.ofRest, hnil]

/-- A turn of the loop within the cap, on bytes that decode. -/
theorem streamStep_eq {s : StreamState} {chunk rest : List UInt8} {q : Text} {inside : Bool}
    (hobs : s.observePassthrough = false)
    (hcap : saturatingAdd s.totalBytes chunk.length ≤ env.maxBodyBytes)
    (hdec : decodeChunkWithCarry s.carry chunk = (.ok (q, inside), rest)) :
    env.streamStep s (.ok chunk) =
      if inside then
        .goOn (env.pushPartial
          { s with totalBytes := saturatingAdd s.totalBytes chunk.length, carry := rest } q)
      else env.pushText
        { s with totalBytes := saturatingAdd s.totalBytes chunk.length, carry := rest } q := by
  have hle : ¬ saturatingAdd s.totalBytes chunk.length > env.maxBodyBytes := by omega
  simp only [streamStep, hobs, Bool.false_eq_true, if_false, if_neg hle, hdec]
  cases inside with
  | true => rfl
  | false => rfl

/-- The whole task, from any state of its loop. -/
theorem streamLoop_calls (hclosed : env.failClosed = true) (hconn : ∀ n, env.connected n = true)
    {chunks : List (List UInt8)} {s : StreamState} {t : Text}
    (hobs : s.observePassthrough = false) (hcarry : Unfinished s.carry)
    (hbody : s.carry ++ chunks.flatten = encode t)
    (hcap : s.totalBytes + chunks.flatten.length ≤ env.maxBodyBytes) :
    ((decodeAll s.carry chunks).map Prod.fst).flatten = t ∧
      env.Spoke (env.calls s.holdback (decodeAll s.carry chunks)) s
        (env.afterLoop (env.streamLoop s (chunks.map .ok))) := by
  induction chunks generalizing s t with
  | nil =>
    rw [List.flatten_nil, List.append_nil] at hbody
    have ht : t = [] := encode_unfinished (hbody ▸ hcarry)
    subst ht
    exact ⟨rfl, env.streamEnd_spoke s hbody⟩
  | cons chunk chunks ih =>
    rw [List.flatten_cons] at hbody hcap
    rw [List.length_append] at hcap
    have hpre : s.carry ++ chunk <+: encode t := ⟨chunks.flatten, by rw [← hbody]; simp⟩
    obtain ⟨q, rest, hdec, hrest, t', rfl, hbytes⟩ := decodeChunkWithCarry_encoded hpre
    have hbody' : rest ++ chunks.flatten = encode t' := by
      rw [← List.append_assoc, hbytes, encode_append, List.append_assoc] at hbody
      exact List.append_cancel_left hbody
    have htotal : saturatingAdd s.totalBytes chunk.length ≤ s.totalBytes + chunk.length :=
      min_le_left _ _
    have hstep := env.streamStep_eq hobs (by omega) hdec
    have hall : decodeAll s.carry (chunk :: chunks) = (q, decide (rest ≠ [])) ::
        decodeAll rest chunks := by rw [decodeAll, hdec]
    rw [hall, List.map_cons, List.map_cons, streamLoop, hstep]
    by_cases hin : rest = []
    · -- the whole buffer decodes: the task listens
      rw [if_neg (by simpa using hin)]
      obtain ⟨s', hturn, hhold, hcarry', htot, hobs', hspoke⟩ := env.pushText_spoke hclosed hconn
        { s with totalBytes := saturatingAdd s.totalBytes chunk.length, carry := rest } q
      replace hcarry' : s'.carry = rest := hcarry'
      have hcap' : s'.totalBytes + chunks.flatten.length ≤ env.maxBodyBytes := by
        rw [htot]
        simp only
        omega
      obtain ⟨htexts, hrun⟩ := ih (hobs'.trans hobs) (hcarry'.symm ▸ hrest)
        (hcarry'.symm ▸ hbody') hcap'
      rw [hcarry'] at htexts hrun
      have hfirst : env.Spoke [(true, (s.holdback.push env.codec env.engine q).1)] s s' :=
        ⟨hspoke.answers, hspoke.sent⟩
      refine ⟨by rw [List.flatten_cons, htexts], ?_⟩
      rw [hturn]
      simp only [calls, hin, ne_eq, not_true_eq_false, decide_false, Bool.false_eq_true, if_false]
      by_cases hterm : isTerminal (s.holdback.push env.codec env.engine q).1 = true
      · rw [if_pos hterm, if_pos hterm]
        exact hfirst
      · rw [if_neg hterm, if_neg hterm]
        rw [hhold, hin] at hrun
        exact hfirst.trans env hrun
    · -- the buffer ends inside a codepoint: the answer is dropped
      rw [if_pos (by simpa using hin)]
      simp only [calls, hin, ne_eq, not_false_eq_true, decide_true, if_true]
      by_cases hq : q = []
      · subst hq
        obtain ⟨htexts, hrun⟩ := ih
          (s := { s with totalBytes := saturatingAdd s.totalBytes chunk.length, carry := rest })
          hobs hrest hbody' (by simp only; omega)
        refine ⟨htexts, ?_⟩
        exact ⟨hrun.answers, hrun.sent⟩
      · have hpart := env.pushPartial_spoke
          { s with totalBytes := saturatingAdd s.totalBytes chunk.length, carry := rest } hq
        have hfirst : env.Spoke [(false, (s.holdback.push env.codec env.engine q).1)] s
            (env.pushPartial
              { s with totalBytes := saturatingAdd s.totalBytes chunk.length, carry := rest } q) :=
          ⟨hpart.answers, hpart.sent⟩
        rw [if_neg hq]
        rw [pushPartial, if_neg hq] at hfirst ⊢
        obtain ⟨htexts, hrun⟩ := ih
          (s := { s with totalBytes := saturatingAdd s.totalBytes chunk.length, carry := rest }.heard
            (s.holdback.push env.codec env.engine q))
          hobs hrest hbody' (by simp only [StreamState.heard]; omega)
        refine ⟨by rw [List.flatten_cons]; exact congrArg (q ++ ·) htexts, ?_⟩
        exact hfirst.trans env hrun

/-! ## The calls are a run of the scanner -/

/-- The texts the task pushes: an empty text is not, when its chunk ended inside a codepoint. -/
def pushed (pieces : List (Text × Bool)) : List Text :=
  (pieces.filter fun p => !p.2 || p.1 ≠ []).map Prod.fst

theorem flatten_pushed (pieces : List (Text × Bool)) :
    (pushed pieces).flatten = (pieces.map Prod.fst).flatten := by
  induction pieces with
  | nil => rfl
  | cons piece rest ih =>
    obtain ⟨text, inside⟩ := piece
    cases inside with
    | false => simpa [pushed] using ih
    | true =>
      by_cases htext : text = []
      · simpa [pushed, htext] using ih
      · simpa [pushed, htext] using ih

theorem calls_run (h : SseHoldBack) (pieces : List (Text × Bool)) :
    let r := h.pushAll env.codec env.engine (pushed pieces)
    (env.calls h pieces).map Prod.snd <+:
        r.1 ++ [(r.2.flush env.codec env.engine env.order).1] ∧
      ((∀ c ∈ env.calls h pieces, isTerminal c.2 = false) →
        (env.calls h pieces).map Prod.snd =
          r.1 ++ [(r.2.flush env.codec env.engine env.order).1]) := by
  induction pieces generalizing h with
  | nil => exact ⟨List.prefix_rfl, fun _ => rfl⟩
  | cons piece rest ih =>
    obtain ⟨text, inside⟩ := piece
    by_cases hskip : inside = true ∧ text = []
    · obtain ⟨rfl, rfl⟩ := hskip
      simpa [calls, pushed] using ih h
    · obtain ⟨hpre, heq⟩ := ih (h.push env.codec env.engine text).2
      have hpushed : pushed ((text, inside) :: rest) = text :: pushed rest := by
        have hkeep : (!inside || decide (text ≠ [])) = true := by
          cases inside with
          | false => rfl
          | true => simpa using hskip
        simp only [pushed, List.filter_cons, hkeep, if_true, List.map_cons]
      simp only [hpushed, SseHoldBack.pushAll, List.cons_append]
      cases inside with
      | true =>
        have htext : text ≠ [] := by simpa using hskip
        simp only [calls, htext, if_true, if_false, List.map_cons, List.forall_mem_cons,
          List.cons_prefix_cons, List.cons.injEq, true_and]
        exact ⟨hpre, fun hall => heq hall.2⟩
      | false =>
        simp only [calls, Bool.false_eq_true, if_false]
        split
        · next hterm =>
          refine ⟨by simp, fun hall => ?_⟩
          have hno := hall _ (List.mem_cons_self ..)
          rw [hterm] at hno
          cases hno
        · simp only [List.map_cons, List.forall_mem_cons, List.cons_prefix_cons,
            List.cons.injEq, true_and]
          exact ⟨hpre, fun hall => heq hall.2⟩

/-- On a profile that fails closed, a client that stays gets every message of the scanner,
and nothing after the one that ends the stream, if and only if the scanner is quiet on the
chunks that end inside a codepoint. The answers are those of a run over the whole body. -/
theorem scanSseStreaming_delivers_iff (metrics : Metrics) (t : Text) (chunks : List (List UInt8))
    (hclosed : env.failClosed = true) (hconn : ∀ n, env.connected n = true)
    (hbody : chunks.flatten = encode t) (hcap : (encode t).length ≤ env.maxBodyBytes) :
    (Delivered env.codec (env.scanSseStreaming metrics (chunks.map .ok)) ↔
      env.Quiet (.withWindow defaultWindow) (decodeAll [] chunks)) ∧
    ∃ pieces, pieces.flatten = t ∧
      (env.scanSseStreaming metrics (chunks.map .ok)).answers <+:
        (SseHoldBack.run env.codec env.engine defaultWindow env.order pieces).1 ∧
      ((∀ a ∈ (env.scanSseStreaming metrics (chunks.map .ok)).answers, isTerminal a = false) →
        (env.scanSseStreaming metrics (chunks.map .ok)).answers =
          (SseHoldBack.run env.codec env.engine defaultWindow env.order pieces).1) := by
  obtain ⟨htexts, hspoke⟩ := env.streamLoop_calls hclosed hconn (s := .init metrics) rfl
    (.inl rfl) hbody (by rw [hbody]; simpa [StreamState.init] using hcap)
  have hanswers : (env.scanSseStreaming metrics (chunks.map .ok)).answers =
      (env.calls (.withWindow defaultWindow) (decodeAll [] chunks)).map Prod.snd := hspoke.answers
  have hsent : (env.scanSseStreaming metrics (chunks.map .ok)).sent.flatten =
      encode (env.heardText (env.calls (.withWindow defaultWindow) (decodeAll [] chunks))) :=
    hspoke.sent
  have hne := env.calls_ne_release_nil (.withWindow defaultWindow) (decodeAll [] chunks)
  refine ⟨⟨fun hdel => ?_, fun hq => ⟨?_, ?_⟩⟩,
    pushed (decodeAll [] chunks), by rw [flatten_pushed]; exact htexts, ?_⟩
  · have hbytes := hdel.bytes
    rw [hsent, hanswers, List.flatMap_map] at hbytes
    rw [quiet_iff, ← env.heardText_eq_iff hne]
    exact encode_injective hbytes
  · rw [hsent, hanswers, List.flatMap_map]
    rw [quiet_iff, ← env.heardText_eq_iff hne] at hq
    rw [hq]
  · rw [hanswers, ← List.map_dropLast, List.forall_mem_map]
    exact env.calls_last hq
  · rw [hanswers, List.forall_mem_map]
    exact env.calls_run (.withWindow defaultWindow) (decodeAll [] chunks)

/-- A gateway with a small codec whose engine blocks the character `7`. -/
def ofBlocking : StreamEnv where
  codec := contentCodec []
  engine := charEngine '7' .block
  order := ⟨id, List.Perm.refl⟩
  maxBodyBytes := 1024
  failClosed := true
  connected := fun _ => true

/-- A comment line cut inside its `é`, which the scanner has nothing to say to. -/
theorem scanSseStreaming_delivers_comment :
    Delivered ofBlocking.codec (ofBlocking.scanSseStreaming ⟨0, 0, 0, 0, 0, 0, 0⟩
      ([[58, 0xC3], [0xA9, 10]].map .ok)) := by
  have h := (ofBlocking.scanSseStreaming_delivers_iff ⟨0, 0, 0, 0, 0, 0, 0⟩ ":é\n".toList
    [[58, 0xC3], [0xA9, 10]] rfl (fun _ => rfl) (by decide) (by decide)).1
  refine h.mpr ?_
  decide

/-- The line `data: key7` blocks, but its chunk also holds the first byte of an `é`: the
answer is dropped, the scanner has latched, and the client is sent nothing at all. -/
theorem scanSseStreaming_swallows_block :
    ofBlocking.failClosed = true ∧
    ["data: key7\n".toUTF8.toList ++ [0xC3], [0xA9, 10]].flatten =
      encode "data: key7\né\n".toList ∧
    (encode "data: key7\né\n".toList).length ≤ ofBlocking.maxBodyBytes ∧
    (ofBlocking.scanSseStreaming ⟨0, 0, 0, 0, 0, 0, 0⟩
      (["data: key7\n".toUTF8.toList ++ [0xC3], [0xA9, 10]].map .ok)).sent = [] ∧
    ¬ Delivered ofBlocking.codec (ofBlocking.scanSseStreaming ⟨0, 0, 0, 0, 0, 0, 0⟩
      (["data: key7\n".toUTF8.toList ++ [0xC3], [0xA9, 10]].map .ok)) := by
  have hanswers : (ofBlocking.scanSseStreaming ⟨0, 0, 0, 0, 0, 0, 0⟩
      (["data: key7\n".toUTF8.toList ++ [0xC3], [0xA9, 10]].map .ok)).answers =
        [.ok (.blocked ["CHAR"]), .ok .nothing, .ok .nothing] := by decide +kernel
  refine ⟨rfl, by decide +kernel, by decide +kernel, by decide +kernel, fun hdel => ?_⟩
  have hlast := hdel.last (.ok (.blocked ["CHAR"])) (by rw [hanswers]; simp)
  cases hlast

end StreamEnv

end Governance
