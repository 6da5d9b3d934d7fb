import Governance.Redact.Engine

/-!
# The lines and slots of a completion stream

`streaming/mod.rs`: how one SSE line is classified, which string slots of a chunk carry
redactable text (`deltaContents`) and how one slot is written back (`setDeltaContent`).
-/

namespace Governance

open Utf8Text

/-- `char::is_whitespace`, the Unicode `White_Space` property. -/
def isWhitespace (c : Char) : Bool :=
  let n := c.toNat
  (0x09 ≤ n && n ≤ 0x0D) || n = 0x20 || n = 0x85 || n = 0xA0 || n = 0x1680 ||
    (0x2000 ≤ n && n ≤ 0x200A) || n = 0x2028 || n = 0x2029 || n = 0x202F || n = 0x205F ||
    n = 0x3000

/-- `str::trim`. -/
def trim (t : Text) : Text := (t.dropWhile isWhitespace).rdropWhile isWhitespace

/-- `streaming::DONE`. -/
def doneSentinel : Text := ['[', 'D', 'O', 'N', 'E', ']']

/-- The field name of an SSE data line. -/
def dataPrefix : Text := ['d', 'a', 't', 'a', ':']

/-- `streaming::ContentField`. -/
inductive ContentField where
  | content
  | toolCallArguments (index : ℕ)
  deriving DecidableEq, Repr

/-- `streaming::ContentKey`: a choice index and a field within the choice. -/
abbrev ContentKey := ℕ × ContentField

/-- `streaming::ClassifiedLine`. -/
inductive ClassifiedLine where
  | data (chunk : Json)
  | passthrough
  | opaqueText

/-- `streaming::classify_line`. -/
def classifyLine (codec : JsonCodec) (raw : Text) : ClassifiedLine :=
  let trimmed := raw.rdropWhile fun c => c = '\n' || c = '\r'
  match (trimmed.dropPrefix? dataPrefix).map trim with
  | some p =>
    if p ≠ doneSentinel ∧ p ≠ [] then
      match codec.fromStr p with
      | some chunk => .data chunk
      | none => .opaqueText
    else .passthrough
  | none => .passthrough

/-- The `index` field of a choice or of a tool call, `0` when it carries none. -/
def indexOf (v : Json) : ℕ := ((v.get "index").bind Json.asU64).getD 0

/-- The text of a tool call's `function.arguments`. -/
def callArguments (call : Json) : Option Text :=
  ((call.get "function").bind (Json.get "arguments")).bind Json.asStr

/-- The slots `delta_contents` finds in one choice. -/
def choiceContents (choice : Json) : List (ContentKey × Text) :=
  match choice.get "delta" with
  | none => []
  | some delta =>
    let content := match (delta.get "content").bind Json.asStr with
      | some text => [((indexOf choice, .content), text)]
      | none => []
    let arguments := match (delta.get "tool_calls").bind Json.asArray with
      | some calls => calls.filterMap fun call =>
          (callArguments call).map fun text =>
            ((indexOf choice, .toolCallArguments (indexOf call)), text)
      | none => []
    content ++ arguments

/-- `streaming::delta_contents`. -/
def deltaContents (chunk : Json) : List (ContentKey × Text) :=
  match (chunk.get "choices").bind Json.asArray with
  | none => []
  | some choices => choices.flatMap choiceContents

/-- The write through `streaming::field_slot_mut`, for a slot that holds a string. -/
def setField (field : ContentField) (text : Text) : Json → Option Json :=
  match field with
  | .content => Json.update "delta" (Json.update "content" (Json.setStr text))
  | .toolCallArguments callIndex =>
    Json.update "delta" <| Json.update "tool_calls" <| Json.updateArray <|
      Json.updateFirst (fun call => indexOf call = callIndex)
        (Json.update "function" (Json.update "arguments" (Json.setStr text)))

/-- `streaming::set_delta_content`: `none` where the code answers `false`. -/
def setDeltaContent (chunk : Json) (key : ContentKey) (text : Text) : Option Json :=
  chunk.update "choices" <| Json.updateArray <|
    Json.updateFirst (fun choice => indexOf choice = key.1) (setField key.2 text)

/-! ## Chunks of one choice with a content, for concrete runs -/

/-- The chunk a model streams for a piece of its answer. -/
def contentChunk (text : Text) : Json :=
  .obj [("choices", .arr [.obj [("delta", .obj [("content", .str text)])]])]

/-- The JSON text of that chunk. -/
def contentPayload (text : Text) : Text :=
  "\x7b\"choices\":[\x7b\"delta\":\x7b\"content\":\"".toList ++ text ++ "\"\x7d\x7d]\x7d".toList

/-- The line of that chunk. -/
def contentLine (text : Text) : Text := dataPrefix ++ [' '] ++ contentPayload text ++ ['\n']

/-- A codec for the chunks of some pieces. -/
def contentCodec (texts : List Text) : JsonCodec :=
  .ofTable (texts.map fun text => (contentPayload text, contentChunk text))

end Governance
