import Governance.Redact.ScanOnce

/-!
# What a run of calls reads and releases

The calls of an `SseHoldBack` answer text. A `Trace` says what happened on the way: the lines that
`ingest_line` read, the batches that the redactors of the keys released, and the frames that left the
queue, each with its id. The functions here follow those of the model step by step and pass through
the same states.
-/

namespace Governance

open Utf8Text

/-- A release of the redactor of a key: the text of the batch and the frames it covers. -/
structure Batch where
  key : ContentKey
  text : Text
  frameIds : List ℕ

/-- The first frame of a batch carries its text, the others the empty string. -/
def Batch.writes (b : Batch) : List (ℕ × Text) := releaseWrites b.text b.frameIds

/-- The batches of one result of the redactor of a key. -/
def ChoicePush.batches (key : ContentKey) : ChoicePush → List Batch
  | .release text frameIds => [⟨key, text, frameIds⟩]
  | _ => []

/-- The frames that one result of the redactor of a key covers. -/
def ChoicePush.frameIds : ChoicePush → List ℕ
  | .release _ frameIds => frameIds
  | _ => []

namespace SseHoldBack

variable (codec : JsonCodec) (e : Engine)

/-- The batches of `pushContributions`. -/
def pushBatches (frameId : ℕ) : List (ContentKey × Text) → SseHoldBack → List Batch
  | [], _ => []
  | (key, content) :: rest, h =>
    let choice := (h.choices.get? key).getD default
    match choice.push e h.window frameId content with
    | (.ok .nothing, r) => pushBatches frameId rest (h.setChoice key r)
    | (.ok (.release text frameIds), r) =>
      ⟨key, text, frameIds⟩ ::
        pushBatches frameId rest ((h.setChoice key r).applyRelease key text frameIds)
    | _ => []

/-- The batches of `ingestLine`. -/
def lineBatches (h : SseHoldBack) (line : Text) : List Batch :=
  match classifyLine codec line with
  | .data chunk => pushBatches e h.frameSeq (deltaContents chunk) (h.enqueueData chunk)
  | _ => []

/-- The lines and batches of `pushLoop`. -/
def loopLog : ℕ → SseHoldBack → List Text × List Batch
  | 0, _ => ([], [])
  | fuel + 1, h =>
    match splitLine h.lineBuf with
    | none => ([], [])
    | some (line, rest) =>
      let log := match ingestLine codec e { h with lineBuf := rest } line with
        | (.ok none, h') => loopLog fuel h'
        | _ => ([], [])
      (line :: log.1, lineBatches codec e { h with lineBuf := rest } line ++ log.2)

/-- The batches of `flushChoice`. -/
def choiceBatches (key : ContentKey) : ℕ → SseHoldBack → List Batch
  | 0, _ => []
  | fuel + 1, h =>
    match h.choices.get? key with
    | none => []
    | some choice =>
      match choice.flush e h.window with
      | (.ok (.release text frameIds), r) =>
        ⟨key, text, frameIds⟩ ::
          choiceBatches key fuel ((h.setChoice key r).applyRelease key text frameIds)
      | _ => []

/-- The batches of `flushKeys`. -/
def keysBatches : List ContentKey → SseHoldBack → List Batch
  | [], _ => []
  | key :: rest, h =>
    choiceBatches e key ((h.pendingOf key).length + 1) h ++
      match flushChoice e key ((h.pendingOf key).length + 1) h with
      | (.ok none, h') => keysBatches rest h'
      | _ => []

/-- The frames that `finish` lets leave. -/
def leaving : Except Error (Option (List String)) × SseHoldBack → List (ℕ × Frame)
  | (.ok none, h) =>
    (h.order.takeWhile h.isReady).filterMap fun fid => (h.frames fid).map fun frame => (fid, frame)
  | _ => []

/-- What some calls read and released. -/
structure Trace where
  read : List Text
  batches : List Batch
  left : List (ℕ × Frame)

/-- A trace that goes on with another. -/
def Trace.append (a b : Trace) : Trace := ⟨a.read ++ b.read, a.batches ++ b.batches, a.left ++ b.left⟩

/-- The lines that were released. -/
def Trace.lines (t : Trace) : List Text := t.left.map fun f => f.2.render codec

/-- What the redactor of a key released onto the frames that have left. -/
def Trace.delivered (key : ContentKey) (t : Trace) : Text :=
  (((t.batches.filter fun b => b.key = key).flatMap Batch.writes).filter fun w =>
    w.1 ∈ t.left.map Prod.fst).flatMap Prod.snd

/-- The calls of an `SseHoldBack`. `flush` visits the keys in some order. -/
inductive Call where
  | push (text : Text)
  | flush (order : IterOrder ContentKey)

/-- What a call answers. -/
def Call.answer (h : SseHoldBack) : Call → Except Error SseEmit × SseHoldBack
  | .push text => h.push codec e text
  | .flush order => h.flush codec e order

/-- The trace of a call. -/
def Call.trace (h : SseHoldBack) : Call → Trace
  | .push text =>
    if h.blocked then ⟨[], [], []⟩
    else
      let buf := h.lineBuf ++ text
      let log := loopLog codec e buf.length { h with lineBuf := buf }
      ⟨log.1, log.2, leaving (pushLoop codec e buf.length { h with lineBuf := buf })⟩
  | .flush order =>
    if h.blocked then ⟨[], [], []⟩
    else
      let read := if h.lineBuf = [] then [] else [h.lineBuf]
      let batches := read.flatMap (lineBatches codec e { h with lineBuf := [] })
      match ingestRest codec e h with
      | (.ok none, h') =>
        let keys := order.visit h'.choices.keys
        ⟨read, batches ++ keysBatches e keys h', leaving (flushKeys e keys h')⟩
      | r => ⟨read, batches, leaving r⟩

/-- What some calls answer, and the state they leave. -/
def answers : List Call → SseHoldBack → List (Except Error SseEmit) × SseHoldBack
  | [], h => ([], h)
  | call :: calls, h =>
    let r := call.answer codec e h
    let rs := answers calls r.2
    (r.1 :: rs.1, rs.2)

/-- The trace of some calls. -/
def trace : List Call → SseHoldBack → Trace
  | [], _ => ⟨[], [], []⟩
  | call :: calls, h =>
    (call.trace codec e h).append (trace calls (call.answer codec e h).2)

end SseHoldBack

end Governance
