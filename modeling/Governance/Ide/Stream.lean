import Governance.Ide.JsonParse
import Governance.Lib.Grouping

/-!
# Reading a streamed response

`ide/vscode/src/stream.ts`: `pumpStream` reports the text of a response as it arrives, collects the
fragments of tool calls by their index, and reports the calls when the stream ends. The wire types
are not checked, so a payload is any JSON value, and `none` stands for `undefined`. A chunk, the end
of the body, a cancellation and a failed read are what the loop can see; where they fall is a
`Delivery`.
-/

namespace Governance

open Sse JsonParse Grouping

namespace ChatStream

/-- What JavaScript makes of numbers, and of values that are appended to a string. -/
structure JsEnv (N : Type) where
  ofNumeral : JsString → N
  zero : N
  /-- `SameValueZero` on numbers. -/
  sameNumber : N → N → Bool
  /-- The text of a value that is no string; `none` is a `TypeError`. -/
  text : Js N → Option JsString

end ChatStream

open ChatStream

variable {N : Type}

namespace Js

/-- A property of a value that is not null. -/
def get (v : Js N) (key : String) : Option (Js N) :=
  match v with
  | .obj fields => (fields.find? fun f => f.1 = ofText key.toList).map (·.2)
  | _ => none

/-- `v?.[0]`. -/
def first : Option (Js N) → Option (Js N)
  | some (.arr items) => items.head?
  | some (.str s) => s.head?.map fun u => .str [u]
  | some v => v.get "0"
  | none => none

/-- `v?.key`. -/
def optional (v : Option (Js N)) (key : String) : Option (Js N) := v.bind fun v => v.get key

/-- `v ?? default`. -/
def coalesce (v : Option (Js N)) (default : Js N) : Js N :=
  match v with
  | none | some .null => default
  | some v => v

def truthy (env : JsEnv N) : Js N → Bool
  | .null => false
  | .bool b => b
  | .num n => !env.sameNumber n env.zero
  | .str s => !s.isEmpty
  | .arr _ | .obj _ => true

/-- `if (v)`: the value where it is truthy. -/
def whenTruthy (env : JsEnv N) (v : Option (Js N)) : Option (Js N) := v.filter (truthy env)

/-- `SameValueZero`, the comparison of map keys. No two objects are the same. -/
def sameValueZero (env : JsEnv N) : Js N → Js N → Bool
  | .null, .null => true
  | .bool a, .bool b => a = b
  | .num a, .num b => env.sameNumber a b
  | .str a, .str b => a = b
  | _, _ => false

/-- The code points of a string. -/
def codePoints : JsString → List JsString
  | a :: b :: rest =>
    if 0xD800 ≤ a ∧ a < 0xDC00 ∧ 0xDC00 ≤ b ∧ b < 0xE000 then [a, b] :: codePoints rest
    else [a] :: codePoints (b :: rest)
  | [a] => [[a]]
  | [] => []

/-- `for (const item of v ?? [])`: nothing but arrays and strings can be iterated. -/
def iterate : Option (Js N) → Option (List (Js N))
  | none | some .null => some []
  | some (.arr items) => some items
  | some (.str s) => some ((codePoints s).map .str)
  | _ => none

end Js

namespace ChatStream

open Js

/-- The parts that are reported. -/
inductive Part (N : Type) where
  | text (value : JsString)
  | toolCall (callId name input : Js N)

structure PendingCall (N : Type) where
  id : Js N
  name : Js N
  args : JsString

def PendingCall.empty : PendingCall N := ⟨.str [], .str [], []⟩

/-- The map of pending calls, in the order of insertion. -/
abbrev Pending (N : Type) := List (Js N × PendingCall N)

/-- What `args += v` appends under `if (v)`. -/
def appended (env : JsEnv N) (v : Option (Js N)) : Option JsString :=
  match whenTruthy env v with
  | none => some []
  | some (.str s) => some s
  | some v => env.text v

/-- The body of the loop over `delta.tool_calls`. -/
def addCall (env : JsEnv N) (pending : Pending N) (call : Js N) : Option (Pending N) :=
  match call with
  | .null => none
  | call =>
    let index := coalesce (call.get "index") (.num env.zero)
    (appended env (optional (call.get "function") "arguments")).map fun more =>
      addTo (sameValueZero env) index .empty
        (fun entry =>
          { id := (whenTruthy env (call.get "id")).getD entry.id
            name := (whenTruthy env (optional (call.get "function") "name")).getD entry.name
            args := entry.args ++ more })
        pending

/-- `chunk.choices?.[0]?.delta` where it is truthy; the outer `none` is a `TypeError`. -/
def deltaOfChunk (env : JsEnv N) : Js N → Option (Option (Js N))
  | .null => none
  | chunk => some (whenTruthy env (optional (first (chunk.get "choices")) "delta"))

/-- The text part of a delta. -/
def contentParts (delta : Js N) : List (Part N) :=
  match delta.get "content" with
  | some (.str s) => if s = [] then [] else [.text s]
  | _ => []

/-- `handlePayload`: what is reported, and the pending calls unless an error is thrown. -/
def handlePayload (env : JsEnv N) (pending : Pending N) (payload : JsString) :
    List (Part N) × Option (Pending N) :=
  match parse env.ofNumeral payload with
  | none => ([], some pending)
  | some chunk =>
    match deltaOfChunk env chunk with
    | none => ([], none)
    | some none => ([], some pending)
    | some (some delta) =>
      (contentParts delta,
        match iterate (delta.get "tool_calls") with
        | none => none
        | some calls => calls.foldlM (addCall env) pending)

/-- What `flush` reports for a call. -/
def reportCall (env : JsEnv N) (call : PendingCall N) : Option (Part N) :=
  match call.name with
  | .str [] => none
  | name =>
    (if call.args = [] then some (.obj []) else parse env.ofNumeral call.args).map
      (.toolCall call.id name)

/-- `flush`. -/
def flush (env : JsEnv N) (pending : Pending N) : List (Part N) :=
  pending.filterMap fun entry => reportCall env entry.2

/-- `[DONE]`. -/
def done : JsString := ofText "[DONE]".toList

/-- Where a read leaves the loop. -/
inductive Status (N : Type) where
  | reading (pending : Pending N)
  | returned
  | threw

/-- The payloads of one read. -/
def handlePayloads (env : JsEnv N) (pending : Pending N) :
    List JsString → List (Part N) × Status N
  | [] => ([], .reading pending)
  | payload :: payloads =>
    if payload = done then (flush env pending, .returned)
    else
      match handlePayload env pending payload with
      | (parts, none) => (parts, .threw)
      | (parts, some pending) =>
        (parts ++ (handlePayloads env pending payloads).1, (handlePayloads env pending payloads).2)

/-- How the reading ends behind the last chunk: the body is at its end, the token is cancelled
before the next read, or that read fails. -/
inductive Ending where
  | closed
  | cancelled
  | failed
  deriving DecidableEq

/-- The chunks that are read. -/
structure Delivery where
  chunks : List (List UInt8)
  ending : Ending

/-- The loop of `pumpStream`: what is reported, and whether it throws. -/
def readLoop (env : JsEnv N) (ending : Ending) (pending : Pending N) (parser : SseParser) :
    List (List UInt8) → List (Part N) × Bool
  | [] =>
    match ending with
    | .failed => ([], true)
    | _ => (flush env pending, false)
  | chunk :: chunks =>
    match handlePayloads env pending (parser.push chunk).1 with
    | (parts, .returned) => (parts, false)
    | (parts, .threw) => (parts, true)
    | (parts, .reading pending) =>
      (parts ++ (readLoop env ending pending (parser.push chunk).2 chunks).1,
        (readLoop env ending pending (parser.push chunk).2 chunks).2)

/-- `pumpStream`. -/
def pumpStream (env : JsEnv N) (d : Delivery) : List (Part N) × Bool :=
  readLoop env d.ending [] .new d.chunks

/-! ## The payloads alone -/

/-- The end of the loop, behind the payloads of all reads. -/
def finish (env : JsEnv N) (ending : Ending) : List (Part N) × Status N → List (Part N) × Bool
  | (parts, .returned) => (parts, false)
  | (parts, .threw) => (parts, true)
  | (parts, .reading pending) =>
    match ending with
    | .failed => (parts, true)
    | _ => (parts ++ flush env pending, false)

theorem handlePayloads_append (env : JsEnv N) (pending : Pending N) (a b : List JsString) :
    handlePayloads env pending (a ++ b) =
      match handlePayloads env pending a with
      | (parts, .reading pending) =>
        (parts ++ (handlePayloads env pending b).1, (handlePayloads env pending b).2)
      | stopped => stopped := by
  induction a generalizing pending with
  | nil => rfl
  | cons payload a ih =>
    rw [List.cons_append, handlePayloads, handlePayloads]
    split_ifs
    · rfl
    · rcases handlePayload env pending payload with ⟨parts, _ | next⟩
      · rfl
      · simp only [ih next]
        rcases handlePayloads env next a with ⟨more, _ | _ | _⟩
        · simp only [List.append_assoc]
        · rfl
        · rfl

/-- The chunks do not matter, only the payloads. -/
theorem readLoop_eq (env : JsEnv N) (ending : Ending) (pending : Pending N) (parser : SseParser)
    (chunks : List (List UInt8)) :
    readLoop env ending pending parser chunks =
      finish env ending (handlePayloads env pending (parser.pushAll chunks).1) := by
  induction chunks generalizing pending parser with
  | nil => cases ending <;> rfl
  | cons chunk chunks ih =>
    rw [readLoop, SseParser.pushAll, handlePayloads_append]
    rcases handlePayloads env pending (parser.push chunk).1 with ⟨parts, next | _ | _⟩
    · simp only [ih]
      rcases handlePayloads env next ((parser.push chunk).2.pushAll chunks).1 with ⟨more, _ | _ | _⟩
      · cases ending <;> simp only [finish, List.append_assoc]
      · rfl
      · rfl
    · rfl
    · rfl

/-- The payloads that a delivery completes. -/
def Delivery.received (d : Delivery) : List JsString := payloadsOf d.chunks.flatten

theorem pumpStream_eq (env : JsEnv N) (d : Delivery) :
    pumpStream env d = finish env d.ending (handlePayloads env [] d.received) := by
  have hpayloads := pushAll_after [] d.chunks
  have hnil : payloadsOf [] = [] := rfl
  rw [List.nil_append, hnil, List.nil_append, after_nil] at hpayloads
  rw [pumpStream, readLoop_eq, Delivery.received, hpayloads]

end ChatStream

end Governance
