import Governance.Lib.KeyedMap
import Governance.Redact.HoldBack
import Governance.Redact.Streaming

/-!
# The incremental SSE redactor

`sse/mod.rs`: `ChoiceRedactor`, the hold-back of one (choice, field) key whose releases
are snapped down to whole frames, and `SseHoldBack`, which owns one of them per key and
the queue of frames waiting to leave in arrival order.

Every operation answers its result together with the state it leaves. `flush` visits the
keys of a hash map, so it takes the order of that visit as an argument.
-/

namespace Governance

open Utf8Text
open String (utf8Len)

/-- `sse::ChoicePush`. -/
inductive ChoicePush where
  | nothing
  | release (text : Text) (frameIds : List ℕ)
  | blocked (entities : List String)
  deriving DecidableEq, Repr

/-- `sse::ChoiceRedactor`. A boundary is an end offset within `pending` and a frame id. -/
structure ChoiceRedactor where
  pending : Text
  boundaries : List (ℕ × ℕ)
  redactions : ℕ
  deriving DecidableEq, Repr

instance : Inhabited ChoiceRedactor := ⟨⟨[], [], 0⟩⟩

namespace ChoiceRedactor

/-- The scan over `boundaries` in `ChoiceRedactor::advance`: the last offset of the initial
run of offsets at or below `safe`, or `found` when that run is empty. -/
def lastBoundary (safe : ℕ) : List (ℕ × ℕ) → ℕ → ℕ
  | [], found => found
  | (offset, _) :: rest, found =>
    if offset ≤ safe then lastBoundary safe rest offset else found

/-- The fixed-point loop of `ChoiceRedactor::advance`. The candidate shrinks with every
turn, so a fuel of its first value is never used up (`cutLoop_fuel`). -/
def cutLoop (r : ChoiceRedactor) (spans : List Span) (window : ℕ) : ℕ → ℕ → ℕ
  | 0, _ => 0
  | fuel + 1, candidate =>
    let safe := safePrefix r.pending spans window candidate
    let boundary := lastBoundary safe r.boundaries 0
    if boundary = candidate ∨ boundary = 0 then boundary
    else cutLoop r spans window fuel boundary

/-- The cut `ChoiceRedactor::advance` settles on. -/
def chooseCut (r : ChoiceRedactor) (spans : List Span) (window : ℕ) : ℕ :=
  cutLoop r spans window (utf8Len r.pending) (utf8Len r.pending)

/-- The release half of `ChoiceRedactor::advance`. -/
def releaseHead (e : Engine) (r : ChoiceRedactor) (cut : ℕ) :
    Except Error ChoicePush × ChoiceRedactor :=
  let frameIds := (r.boundaries.takeWhile fun b => b.1 ≤ cut).map Prod.snd
  let head := takeBytes r.pending cut
  let r' : ChoiceRedactor :=
    { r with
      pending := dropBytes r.pending cut
      boundaries := (r.boundaries.dropWhile fun b => b.1 ≤ cut).map fun b => (b.1 - cut, b.2) }
  match e.scan head with
  | .error err => (.error err, r')
  | .ok .clean => (.ok (.release head frameIds), r')
  | .ok (.redacted text count) =>
    (.ok (.release text frameIds), { r' with redactions := r'.redactions + count })
  | .ok (.blocked entities) =>
    (.ok (.blocked entities), { r' with pending := [], boundaries := [] })

/-- `ChoiceRedactor::advance`. -/
def advance (e : Engine) (window : ℕ) (r : ChoiceRedactor) (finalChunk : Bool) :
    Except Error ChoicePush × ChoiceRedactor :=
  if r.pending = [] then (.ok .nothing, r)
  else match e.detect r.pending with
    | .error err => (.error err, r)
    | .ok spans =>
      if blockingEntities spans ≠ [] then
        (.ok (.blocked (blockingEntities spans)), { r with pending := [], boundaries := [] })
      else
        let cut := chooseCut r spans (if finalChunk then 0 else window)
        if cut = 0 then (.ok .nothing, r) else releaseHead e r cut

/-- The state `ChoiceRedactor::push` advances from. -/
def append (r : ChoiceRedactor) (frameId : ℕ) (text : Text) : ChoiceRedactor :=
  { r with
    pending := r.pending ++ text
    boundaries := r.boundaries ++ [(utf8Len (r.pending ++ text), frameId)] }

/-- `ChoiceRedactor::push`. -/
def push (e : Engine) (window : ℕ) (r : ChoiceRedactor) (frameId : ℕ) (text : Text) :
    Except Error ChoicePush × ChoiceRedactor :=
  advance e window (r.append frameId text) false

/-- `ChoiceRedactor::flush`. -/
def flush (e : Engine) (window : ℕ) (r : ChoiceRedactor) :
    Except Error ChoicePush × ChoiceRedactor :=
  advance e window r true

end ChoiceRedactor

/-- `sse::SseEmit`. -/
inductive SseEmit where
  | nothing
  | release (text : Text)
  | blocked (entities : List String)
  deriving DecidableEq, Repr

/-- `SseHoldBack::emit`. -/
def SseEmit.ofText (out : Text) : SseEmit := if out = [] then .nothing else .release out

/-- `sse::Frame`: one queued line. -/
inductive Frame where
  | passthrough (raw : Text)
  | data (chunk : Json)

/-- The output line of a frame. -/
def Frame.render (codec : JsonCodec) : Frame → Text
  | .passthrough raw => raw
  | .data chunk => dataPrefix ++ [' '] ++ codec.toString chunk ++ ['\n']

/-- `sse::SseHoldBack`. -/
@[ext] structure SseHoldBack where
  window : ℕ
  lineBuf : Text
  frameSeq : ℕ
  order : List ℕ
  frames : ℕ → Option Frame
  awaiting : ℕ → Option ℕ
  choices : KeyedMap ContentKey ChoiceRedactor
  opaqueRedactions : ℕ
  blocked : Bool

namespace SseHoldBack

/-- `SseHoldBack::with_window`. -/
def withWindow (window : ℕ) : SseHoldBack where
  window := window
  lineBuf := []
  frameSeq := 0
  order := []
  frames := fun _ => none
  awaiting := fun _ => none
  choices := .empty
  opaqueRedactions := 0
  blocked := false

/-- `SseHoldBack::redactions`. -/
def redactions (h : SseHoldBack) : ℕ :=
  h.choices.sumBy ChoiceRedactor.redactions + h.opaqueRedactions

/-- `SseHoldBack::block`. -/
def block (h : SseHoldBack) : SseHoldBack :=
  { h with
    blocked := true
    order := []
    frames := fun _ => none
    awaiting := fun _ => none
    choices := .empty
    lineBuf := [] }

/-- One turn of `SseHoldBack::apply_release`: rewrites the key's slot of a frame and counts
one resolution of it. -/
def resolveFrame (key : ContentKey) (replacement : Text) (h : SseHoldBack) (fid : ℕ) :
    SseHoldBack :=
  { h with
    frames := match h.frames fid with
      | some (.data chunk) => Function.update h.frames fid
          (some (.data ((setDeltaContent chunk key replacement).getD chunk)))
      | _ => h.frames
    awaiting := match h.awaiting fid with
      | some count => Function.update h.awaiting fid (some (count - 1))
      | none => h.awaiting }

/-- `SseHoldBack::apply_release`: the first frame takes the text, the others are blanked. -/
def applyRelease (h : SseHoldBack) (key : ContentKey) (text : Text) : List ℕ → SseHoldBack
  | [] => h
  | fid :: rest => rest.foldl (resolveFrame key []) (resolveFrame key text h fid)

/-- Whether no resolution of a frame is still awaited. -/
def isReady (h : SseHoldBack) (fid : ℕ) : Bool := (h.awaiting fid).getD 0 = 0

/-- The loop of `SseHoldBack::drain_ready` over the queue. -/
def drainFrom (codec : JsonCodec) : List ℕ → SseHoldBack → Text × SseHoldBack
  | [], h => ([], { h with order := [] })
  | fid :: rest, h =>
    if h.isReady fid then
      let out := ((h.frames fid).map (Frame.render codec)).getD []
      let r := drainFrom codec rest
        { h with
          awaiting := Function.update h.awaiting fid none
          frames := Function.update h.frames fid none }
      (out ++ r.1, r.2)
    else ([], { h with order := fid :: rest })

/-- `SseHoldBack::drain_ready`. -/
def drainReady (codec : JsonCodec) (h : SseHoldBack) : Text × SseHoldBack :=
  drainFrom codec h.order h

/-- Stores a key's redactor after it was advanced. -/
def setChoice (h : SseHoldBack) (key : ContentKey) (r : ChoiceRedactor) : SseHoldBack :=
  { h with choices := h.choices.insert key r }

/-- The loop over a chunk's contributions in `SseHoldBack::ingest_line`. `some entities`
says that the stream must be blocked. -/
def pushContributions (e : Engine) (frameId : ℕ) :
    List (ContentKey × Text) → SseHoldBack → Except Error (Option (List String)) × SseHoldBack
  | [], h => (.ok none, h)
  | (key, content) :: rest, h =>
    let choice := (h.choices.get? key).getD default
    match choice.push e h.window frameId content with
    | (.error err, r) => (.error err, h.setChoice key r)
    | (.ok .nothing, r) => pushContributions e frameId rest (h.setChoice key r)
    | (.ok (.blocked entities), r) => (.ok (some entities), h.setChoice key r)
    | (.ok (.release text frameIds), r) =>
      pushContributions e frameId rest ((h.setChoice key r).applyRelease key text frameIds)

/-- Queues a frame under the next frame id. -/
def enqueue (h : SseHoldBack) (frame : Frame) : SseHoldBack :=
  { h with
    frameSeq := h.frameSeq + 1
    frames := Function.update h.frames h.frameSeq (some frame)
    order := h.order ++ [h.frameSeq] }

/-- `SseHoldBack::ingest_line`. -/
def ingestLine (codec : JsonCodec) (e : Engine) (h : SseHoldBack) (line : Text) :
    Except Error (Option (List String)) × SseHoldBack :=
  match classifyLine codec line with
  | .passthrough => (.ok none, h.enqueue (.passthrough line))
  | .opaqueText =>
    match e.scan line with
    | .error err => (.error err, { h with frameSeq := h.frameSeq + 1 })
    | .ok .clean => (.ok none, h.enqueue (.passthrough line))
    | .ok (.redacted text count) =>
      (.ok none, { h.enqueue (.passthrough text) with
        opaqueRedactions := h.opaqueRedactions + count })
    | .ok (.blocked entities) => (.ok (some entities), { h with frameSeq := h.frameSeq + 1 })
  | .data chunk =>
    let contributions := deltaContents chunk
    let h' := h.enqueue (.data chunk)
    if contributions = [] then (.ok none, h')
    else pushContributions e h.frameSeq contributions
      { h' with awaiting := Function.update h'.awaiting h.frameSeq (some contributions.length) }

/-- The loop of `SseHoldBack::push` over the complete lines of the buffer. Each turn takes
at least one character off it. -/
def pushLoop (codec : JsonCodec) (e : Engine) :
    ℕ → SseHoldBack → Except Error (Option (List String)) × SseHoldBack
  | 0, h => (.ok none, h)
  | fuel + 1, h =>
    match splitLine h.lineBuf with
    | none => (.ok none, h)
    | some (line, rest) =>
      match ingestLine codec e { h with lineBuf := rest } line with
      | (.ok none, h') => pushLoop codec e fuel h'
      | r => r

/-- How `push` and `flush` end: an engine error is passed on, a block latches, and
otherwise the ready frames leave. -/
def finish (codec : JsonCodec) :
    Except Error (Option (List String)) × SseHoldBack → Except Error SseEmit × SseHoldBack
  | (.error err, h) => (.error err, h)
  | (.ok (some entities), h) => (.ok (.blocked entities), h.block)
  | (.ok none, h) =>
    let r := h.drainReady codec
    (.ok (SseEmit.ofText r.1), r.2)

/-- `SseHoldBack::push`. -/
def push (codec : JsonCodec) (e : Engine) (h : SseHoldBack) (text : Text) :
    Except Error SseEmit × SseHoldBack :=
  if h.blocked then (.ok .nothing, h)
  else
    let buf := h.lineBuf ++ text
    finish codec (pushLoop codec e buf.length { h with lineBuf := buf })

/-- The inner loop of `SseHoldBack::flush`: one key is flushed until it has nothing left.
Each release takes at least one character off its text (`flushAll_fuel`). -/
def flushChoice (e : Engine) (key : ContentKey) :
    ℕ → SseHoldBack → Except Error (Option (List String)) × SseHoldBack
  | 0, h => (.ok none, h)
  | fuel + 1, h =>
    match h.choices.get? key with
    | none => (.ok none, h)
    | some choice =>
      match choice.flush e h.window with
      | (.error err, r) => (.error err, h.setChoice key r)
      | (.ok .nothing, r) => (.ok none, h.setChoice key r)
      | (.ok (.blocked entities), r) => (.ok (some entities), h.setChoice key r)
      | (.ok (.release text frameIds), r) =>
        flushChoice e key fuel ((h.setChoice key r).applyRelease key text frameIds)

/-- The text a key still holds back. -/
def pendingOf (h : SseHoldBack) (key : ContentKey) : Text :=
  ((h.choices.get? key).getD default).pending

/-- The outer loop of `SseHoldBack::flush` over the keys. -/
def flushKeys (e : Engine) :
    List ContentKey → SseHoldBack → Except Error (Option (List String)) × SseHoldBack
  | [], h => (.ok none, h)
  | key :: rest, h =>
    match flushChoice e key ((h.pendingOf key).length + 1) h with
    | (.ok none, h') => flushKeys e rest h'
    | r => r

/-- The trailing line of `SseHoldBack::flush`, ingested although nothing terminates it. -/
def ingestRest (codec : JsonCodec) (e : Engine) (h : SseHoldBack) :
    Except Error (Option (List String)) × SseHoldBack :=
  if h.lineBuf = [] then (.ok none, h)
  else ingestLine codec e { h with lineBuf := [] } h.lineBuf

/-- `SseHoldBack::flush`, for one order of iterating over the keys. -/
def flush (codec : JsonCodec) (e : Engine) (order : IterOrder ContentKey) (h : SseHoldBack) :
    Except Error SseEmit × SseHoldBack :=
  if h.blocked then (.ok .nothing, h)
  else match ingestRest codec e h with
    | (.ok none, h') => finish codec (flushKeys e (order.visit h'.choices.keys) h')
    | r => finish codec r

end SseHoldBack

end Governance
