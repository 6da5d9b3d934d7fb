import Governance.Redact.Payload
import Governance.Redact.SlotTexts

/-!
# Whole completion streams

`scan_sse` of `streaming/mod.rs`: the stream is read line by line, the text of each key is put
together over all chunks and scanned once, and the redacted text goes back onto the first chunk that
had the key, with the others blanked.

`Scanned` is what the function holds when it writes its output; `emitted` is one line of output for
each line of the stream. The two hash maps are iterated in orders that are parameters.
-/

namespace Governance

open Utf8Text

/-- `streaming::Line`. -/
inductive SseLine where
  | data (i : ℕ)
  | passthrough (raw : Text)

/-- What the first loop of `scan_sse` collects. -/
structure Reading where
  chunks : List Json
  lines : List SseLine
  report : ScanReport

/-- `coalesced`: the text of each key. -/
def coalesce (chunks : List Json) : KeyedMap ContentKey Text :=
  (chunks.flatMap deltaContents).foldl
    (fun m c => m.insert c.1 ((m.get? c.1).getD [] ++ c.2)) .empty

/-- The innermost turn of `rewrite_deltas`, on a choice and the keys that are `written`. -/
def rewriteKey (redacted : KeyedMap ContentKey Text) (s : Json × List ContentKey)
    (key : ContentKey) : Json × List ContentKey :=
  match redacted.get? key with
  | none => s
  | some replacement =>
    if key ∈ s.2 then
      match setField key.2 [] s.1 with
      | some choice => (choice, s.2)
      | none => s
    else
      match setField key.2 replacement s.1 with
      | some choice => (choice, key :: s.2)
      | none => s

variable (order : IterOrder ContentKey)

/-- The turn of `rewrite_deltas` on one choice. -/
def rewriteChoice (redacted : KeyedMap ContentKey Text) (choice : Json)
    (written : List ContentKey) : Json × List ContentKey :=
  ((order.visit redacted.keys).filter fun key => key.1 = indexOf choice).foldl
    (rewriteKey redacted) (choice, written)

/-- The loop of `rewrite_deltas`. -/
def rewriteChoices (redacted : KeyedMap ContentKey Text) :
    List Json → List ContentKey → List Json × List ContentKey
  | [], written => ([], written)
  | choice :: rest, written =>
    let r := rewriteChoice order redacted choice written
    let rs := rewriteChoices redacted rest r.2
    (r.1 :: rs.1, rs.2)

/-- `rewrite_deltas`. -/
def rewriteDeltas (redacted : KeyedMap ContentKey Text) (chunk : Json)
    (written : List ContentKey) : Json × List ContentKey :=
  match (chunk.get "choices").bind Json.asArray with
  | none => (chunk, written)
  | some choices =>
    let r := rewriteChoices order redacted choices written
    (Json.mapKey "choices" (fun _ => .arr r.1) chunk, r.2)

/-- The loop of `scan_sse` over the chunks. -/
def rewriteChunks (redacted : KeyedMap ContentKey Text) :
    List Json → List ContentKey → List Json
  | [], _ => []
  | chunk :: rest, written =>
    let r := rewriteDeltas order redacted chunk written
    r.1 :: rewriteChunks redacted rest r.2

/-- The state of `scan_sse` before it writes its output. -/
structure Scanned where
  chunks : List Json
  lines : List SseLine
  report : ScanReport

/-- One line of the output. -/
def SseLine.render (codec : JsonCodec) (chunks : List Json) : SseLine → Text
  | .passthrough raw => raw
  | .data i => dataPrefix ++ [' '] ++ (chunks[i]?.map codec.toString).getD [] ++ ['\n']

/-- The lines of the output. -/
def Scanned.emitted (codec : JsonCodec) (s : Scanned) : List Text :=
  s.lines.map (SseLine.render codec s.chunks)

end Governance
