import Governance.Ide.Sse
import Governance.Redact.Payload
import Mathlib.Logic.Relation

/-!
# A chat on the wire

`ide/vscode/src/messages.ts`, `tokens.ts` and the request body of `provider.ts`: what the editor
sends of a chat. A chat is a list of `Event`s, and so is the wire. `Tidy` says what the wire may
change: it joins two texts of one speaker, and puts a text before a call of the same message. The
wire is what tidying makes of the chat (`toWireMessages_tidies`), so whatever tidying keeps holds of
both: the words of each speaker, the calls, the answers, that a call comes before its answer, and
the size.

Strings are those that are texts. VS Code's may hold half a surrogate pair, which makes a body that
`serde_json` does not read. Other values are the JSON that `JSON.stringify`, a parameter here, makes
of them.
-/

namespace Governance

open Utf8Text Sse Relation

namespace ChatWire

/-! ## The chat -/

/-- A part of a message. `other` is any other kind of part: its `value` where that is a string, its
`name` and `input` where `name` is a string and there is an `input`, and its `content` where that is
an array. An `input` is `none` where it is undefined. -/
inductive Part where
  | text (value : Text)
  | toolCall (callId name : Text) (input : Option Json)
  | toolResult (callId : Text) (content : List Part)
  | other (value : Option Text) (call : Option (Text × Option Json)) (content : Option (List Part))

/-- The roles of the wire. -/
inductive Role where
  | system
  | user
  | assistant
  | tool
  deriving DecidableEq

/-- `LanguageModelChatRequestMessage`. -/
structure ChatMessage where
  isAssistant : Bool
  content : List Part

structure WireToolCall where
  id : Text
  name : Text
  arguments : Text

structure WireMessage where
  role : Role
  content : Option Text
  toolCallId : Option Text
  toolCalls : Option (List WireToolCall)

/-- `input ?? {}`. -/
def inputOf : Option Json → Json
  | none | some .null => .obj []
  | some input => input

variable (stringify : Json → Text)

/-! ## `toWireMessages` -/

/-- `flush`. What it leaves of the text and of the calls is empty. -/
def flush (out : List WireMessage) (role : Role) (text : List Text)
    (toolCalls : List WireToolCall) : List WireMessage :=
  if text.isEmpty && toolCalls.isEmpty then out
  else out ++ [{
    role := role
    content := if text.isEmpty then none else some text.flatten
    toolCallId := none
    toolCalls := if toolCalls.isEmpty then none else some toolCalls }]

/-- `flattenResult`. -/
def flattenResult (content : List Part) : Text :=
  content.flatMap fun
    | .text value => value
    | _ => []

/-- What the loop over the parts of a message goes on with. -/
structure Draft where
  out : List WireMessage
  text : List Text
  toolCalls : List WireToolCall

/-- The loop's turn for one part. -/
def Draft.push (role : Role) (d : Draft) : Part → Draft
  | .text value => { d with text := d.text ++ [value] }
  | .toolCall callId name input =>
    { d with toolCalls := d.toolCalls ++ [⟨callId, name, stringify (inputOf input)⟩] }
  | .toolResult callId content =>
    ⟨flush d.out role d.text d.toolCalls ++
      [⟨.tool, some (flattenResult content), some callId, none⟩], [], []⟩
  -- images and the like are dropped
  | .other .. => d

/-- The role a message gets. -/
def ChatMessage.role (m : ChatMessage) : Role := if m.isAssistant then .assistant else .user

/-- The loop's turn for one message. -/
def pushMessage (out : List WireMessage) (m : ChatMessage) : List WireMessage :=
  let d := m.content.foldl (Draft.push stringify m.role) ⟨out, [], []⟩
  flush d.out m.role d.text d.toolCalls

/-- `toWireMessages`. -/
def toWireMessages (messages : List ChatMessage) : List WireMessage :=
  messages.foldl (pushMessage stringify) []

/-! ## The request body -/

def Role.text : Role → Text
  | .system => "system".toList
  | .user => "user".toList
  | .assistant => "assistant".toList
  | .tool => "tool".toList

def WireToolCall.toJson (call : WireToolCall) : Json :=
  .obj [("id", .str call.id), ("type", .str "function".toList),
    ("function", .obj [("name", .str call.name), ("arguments", .str call.arguments)])]

def WireMessage.toJson (m : WireMessage) : Json :=
  .obj ([("role", Json.str m.role.text)] ++
    (m.toolCallId.map fun id => ("tool_call_id", Json.str id)).toList ++
    [("content", (m.content.map Json.str).getD .null)] ++
    (m.toolCalls.map fun calls => ("tool_calls", Json.arr (calls.map WireToolCall.toJson))).toList)

/-- `LanguageModelChatTool`. -/
structure ChatTool where
  name : Text
  description : Text
  inputSchema : Option Json

/-- `toWireTools`, of one tool. -/
def ChatTool.toJson (tool : ChatTool) : Json :=
  let parameters := match tool.inputSchema with
    | none | some .null => .obj [("type", .str "object".toList), ("properties", .obj [])]
    | some schema => schema
  .obj [("type", .str "function".toList), ("function", .obj [("name", .str tool.name),
    ("description", .str tool.description), ("parameters", parameters)])]

/-- `toWireToolChoice`. -/
def toWireToolChoice (required : Bool) : Text :=
  if required then "required".toList else "auto".toList

/-- An object after an assignment: a property that is there keeps its place. -/
def setProperty (key : String) (value : Json) : List (String × Json) → List (String × Json)
  | [] => [(key, value)]
  | (k, v) :: rest => if k = key then (k, value) :: rest else (k, v) :: setProperty key value rest

/-- `{ ...base, ...more }`. -/
def spread (base more : List (String × Json)) : List (String × Json) :=
  more.foldl (fun object p => setProperty p.1 p.2 object) base

/-- `pickSupported`. -/
def pickSupported (options : List (String × Json)) (supported : List String) :
    List (String × Json) :=
  options.filter fun p => supported.contains p.1

/-- What `provideLanguageModelChatResponse` makes a body of. -/
structure ChatRequest where
  modelOptionDefaults : List (String × Json)
  modelOptions : List (String × Json)
  supportedParameters : List String
  upstreamId : Text
  messages : List ChatMessage
  tools : List ChatTool
  toolsRequired : Bool

/-- The options that are sent. -/
def ChatRequest.options (r : ChatRequest) : List (String × Json) :=
  pickSupported (spread r.modelOptionDefaults r.modelOptions) r.supportedParameters

/-- The `body` of `provideLanguageModelChatResponse`. -/
def chatBody (r : ChatRequest) : Json :=
  .obj (spread
    (spread r.options
      [("model", .str r.upstreamId),
        ("messages", .arr ((toWireMessages stringify r.messages).map WireMessage.toJson)),
        ("stream", .bool true)])
    (if r.tools.isEmpty then []
      else [("tools", .arr (r.tools.map ChatTool.toJson)),
        ("tool_choice", .str (toWireToolChoice r.toolsRequired))]))

/-! ## `extractText` and `estimateTokens` -/

mutual

/-- What one part adds to the chunks of `extractText`. -/
def partText : Part → Text
  | .text value => value
  | .toolCall _ name input => name ++ stringify (inputOf input)
  | .toolResult _ content => extractText content
  | .other (some value) _ _ => value
  | .other none (some call) _ => call.1 ++ stringify (inputOf call.2)
  | .other none none (some content) => extractText content
  | .other none none none => []

/-- `extractText`, of the content of a message. -/
def extractText : List Part → Text
  | [] => []
  | part :: rest => partText part ++ extractText rest

end

/-- `estimateTokens`: the length over 3.5, rounded up. -/
def estimateTokens (text : JsString) : ℕ := (2 * text.length + 6) / 7

/-- `provideTokenCount`, of a message. -/
def provideTokenCount (m : ChatMessage) : ℕ :=
  estimateTokens (ofText (extractText stringify m.content))

/-! ## Events -/

/-- What a chat consists of. -/
inductive Event where
  | said (role : Role) (text : Text)
  | called (role : Role) (call : WireToolCall)
  | answered (callId : Text) (text : Text)

/-- The events of a part. -/
def Part.events (role : Role) : Part → List Event
  | .text value => [.said role value]
  | .toolCall callId name input => [.called role ⟨callId, name, stringify (inputOf input)⟩]
  | .toolResult callId content => [.answered callId (flattenResult content)]
  | .other .. => []

/-- The events of a chat. -/
def chatEvents (messages : List ChatMessage) : List Event :=
  messages.flatMap fun m => m.content.flatMap (Part.events stringify m.role)

/-- The events of a message on the wire. -/
def WireMessage.events (m : WireMessage) : List Event :=
  let spoken := fun t =>
    if m.role = .tool then Event.answered (m.toolCallId.getD []) t else Event.said m.role t
  m.content.toList.map spoken ++ (m.toolCalls.getD []).map (Event.called m.role)

/-- The events of the wire. -/
def wireEvents (messages : List WireMessage) : List Event := messages.flatMap WireMessage.events

/-- What the wire may change. -/
inductive Tidy : List Event → List Event → Prop where
  | join (before after : List Event) (role : Role) (s t : Text) :
      Tidy (before ++ .said role s :: .said role t :: after)
        (before ++ .said role (s ++ t) :: after)
  | hoist (before after : List Event) (role : Role) (call : WireToolCall) (t : Text) :
      Tidy (before ++ .called role call :: .said role t :: after)
        (before ++ .said role t :: .called role call :: after)

/-- The wire may make the one of the other. -/
abbrev Tidies : List Event → List Event → Prop := ReflTransGen Tidy

theorem Tidy.within {a b : List Event} (h : Tidy a b) (p q : List Event) :
    Tidy (p ++ (a ++ q)) (p ++ (b ++ q)) := by
  cases h with
  | join before after role s t =>
    simpa only [List.append_assoc, List.cons_append] using
      Tidy.join (p ++ before) (after ++ q) role s t
  | hoist before after role call t =>
    simpa only [List.append_assoc, List.cons_append] using
      Tidy.hoist (p ++ before) (after ++ q) role call t

theorem Tidies.within {a b : List Event} (h : Tidies a b) (p q : List Event) :
    Tidies (p ++ (a ++ q)) (p ++ (b ++ q)) :=
  h.lift (fun events => p ++ (events ++ q)) fun _ _ hstep => hstep.within p q

/-- A text moves before all the calls of its message. -/
theorem tidies_hoist (role : Role) (calls : List WireToolCall) (t : Text) :
    Tidies (calls.map (Event.called role) ++ [Event.said role t])
      (Event.said role t :: calls.map (Event.called role)) := by
  induction calls with
  | nil => exact .refl
  | cons call calls ih =>
    have hrest := Tidies.within ih [.called role call] []
    rw [List.append_nil, List.append_nil] at hrest
    exact hrest.tail (.hoist [] (calls.map (.called role)) role call t)

/-- The events of the message that is being drafted. -/
def pendingEvents (role : Role) (text : List Text) (toolCalls : List WireToolCall) : List Event :=
  (if text.isEmpty then [] else [.said role text.flatten]) ++ toolCalls.map (.called role)

theorem wireEvents_append (xs ys : List WireMessage) :
    wireEvents (xs ++ ys) = wireEvents xs ++ wireEvents ys := List.flatMap_append

theorem wireEvents_flush (out : List WireMessage) {role : Role} (hrole : role ≠ .tool)
    (text : List Text) (toolCalls : List WireToolCall) :
    wireEvents (flush out role text toolCalls) =
      wireEvents out ++ pendingEvents role text toolCalls := by
  unfold flush
  cases text with
  | nil =>
    cases toolCalls with
    | nil => exact (List.append_nil _).symm
    | cons call calls => simp [wireEvents, WireMessage.events, pendingEvents, hrole]
  | cons t ts =>
    cases toolCalls <;> simp [wireEvents, WireMessage.events, pendingEvents, hrole]

/-- The events of a draft. -/
def Draft.events (role : Role) (d : Draft) : List Event :=
  wireEvents d.out ++ pendingEvents role d.text d.toolCalls

/-- One part adds its events, tidied. -/
theorem Draft.push_tidies {role : Role} (hrole : role ≠ .tool) (d : Draft) (part : Part) :
    Tidies (d.events role ++ part.events stringify role)
      ((d.push stringify role part).events role) := by
  cases part with
  | text value =>
    -- the text goes before the calls, and to the text that is there
    have hmove := (tidies_hoist role d.toolCalls value).within
      (wireEvents d.out ++ if d.text.isEmpty then [] else [Event.said role d.text.flatten]) []
    simp only [List.append_nil, List.append_assoc] at hmove
    have hstart : d.events role ++ Part.events stringify role (.text value) =
        wireEvents d.out ++ ((if d.text.isEmpty then [] else [Event.said role d.text.flatten]) ++
          (d.toolCalls.map (Event.called role) ++ [Event.said role value])) := by
      simp only [Draft.events, pendingEvents, Part.events, List.append_assoc]
    rw [hstart]
    cases htext : d.text with
    | nil =>
      simpa [htext, Draft.push, Draft.events, pendingEvents] using hmove
    | cons t ts =>
      rw [htext] at hmove
      refine hmove.tail ?_
      simpa [htext, Draft.push, Draft.events, pendingEvents] using
        Tidy.join (wireEvents d.out) (d.toolCalls.map (Event.called role)) role (t ++ ts.flatten)
          value
  | toolCall callId name input =>
    simp only [Draft.push, Draft.events, pendingEvents, Part.events, List.map_append,
      List.append_assoc, List.map_cons, List.map_nil]
    exact .refl
  | toolResult callId content =>
    have hpending : pendingEvents role [] [] = [] := rfl
    simp only [Draft.push, Draft.events, Part.events, wireEvents_append, wireEvents_flush _ hrole,
      hpending, List.append_nil]
    exact .refl
  | other value call content =>
    simp only [Part.events, List.append_nil]
    exact .refl

theorem Draft.pushAll_tidies {role : Role} (hrole : role ≠ .tool) (parts : List Part) (d : Draft) :
    Tidies (d.events role ++ parts.flatMap (Part.events stringify role))
      ((parts.foldl (Draft.push stringify role) d).events role) := by
  induction parts generalizing d with
  | nil =>
    rw [List.flatMap_nil, List.append_nil]
    exact .refl
  | cons part parts ih =>
    rw [List.flatMap_cons, ← List.append_assoc, List.foldl_cons]
    have hpart := (d.push_tidies stringify hrole part).within []
      (parts.flatMap (Part.events stringify role))
    exact hpart.trans (ih _)

theorem ChatMessage.role_ne_tool (m : ChatMessage) : m.role ≠ .tool := by
  unfold ChatMessage.role
  cases m.isAssistant <;> decide

theorem pushMessage_tidies (out : List WireMessage) (m : ChatMessage) :
    Tidies (wireEvents out ++ m.content.flatMap (Part.events stringify m.role))
      (wireEvents (pushMessage stringify out m)) := by
  have hdraft := Draft.pushAll_tidies stringify m.role_ne_tool m.content ⟨out, [], []⟩
  have hempty : Draft.events m.role ⟨out, [], []⟩ = wireEvents out := List.append_nil _
  rw [hempty] at hdraft
  unfold pushMessage
  rw [wireEvents_flush _ m.role_ne_tool]
  exact hdraft

/-- The wire is the chat, tidied. -/
theorem toWireMessages_tidies (messages : List ChatMessage) :
    Tidies (chatEvents stringify messages) (wireEvents (toWireMessages stringify messages)) := by
  suffices hfold : ∀ out, Tidies (wireEvents out ++ chatEvents stringify messages)
      (wireEvents (messages.foldl (pushMessage stringify) out)) from hfold []
  induction messages with
  | nil =>
    intro out
    rw [chatEvents, List.flatMap_nil, List.append_nil]
    exact .refl
  | cons m messages ih =>
    intro out
    rw [chatEvents, List.flatMap_cons, ← List.append_assoc, List.foldl_cons]
    have hmessage := (pushMessage_tidies stringify out m).within []
      (chatEvents stringify messages)
    exact hmessage.trans (ih _)

/-! ## What tidying keeps -/

/-- The calls, with who makes them. -/
def callsOf : List Event → List (Role × WireToolCall)
  | [] => []
  | .called role call :: rest => (role, call) :: callsOf rest
  | _ :: rest => callsOf rest

/-- The answers, with the call they answer. -/
def answersOf : List Event → List (Text × Text)
  | [] => []
  | .answered callId text :: rest => (callId, text) :: answersOf rest
  | _ :: rest => answersOf rest

/-- All that one role says. -/
def wordsOf (role : Role) : List Event → Text
  | [] => []
  | .said r t :: rest => if r = role then t ++ wordsOf role rest else wordsOf role rest
  | _ :: rest => wordsOf role rest

/-- Every answer comes after a call that it answers, some of which were made `before`. -/
def CallsFirst (before : List Text) : List Event → Prop
  | [] => True
  | .said _ _ :: rest => CallsFirst before rest
  | .called _ call :: rest => CallsFirst (call.id :: before) rest
  | .answered callId _ :: rest => callId ∈ before ∧ CallsFirst before rest

/-- The size of an event, in UTF-16 units. -/
def Event.units : Event → ℕ
  | .said _ t => (ofText t).length
  | .called _ call => (ofText call.name).length + (ofText call.arguments).length
  | .answered _ t => (ofText t).length

def unitsOf (events : List Event) : ℕ := (events.map Event.units).sum

/-- What the gateway may scan of an event. -/
def Event.text : Event → Text
  | .said _ t => t
  | .called _ call => call.arguments
  | .answered _ t => t

/-- Every text of the one list is part of a text of the other. -/
def Within (a b : List Event) : Prop := ∀ e ∈ a, ∃ e' ∈ b, e.text <:+: e'.text

theorem Tidies.same {α : Type*} {f : List Event → α} (hf : ∀ a b, Tidy a b → f a = f b)
    {a b : List Event} (h : Tidies a b) : f a = f b := by
  induction h with
  | refl => rfl
  | tail _ hstep ih => exact ih.trans (hf _ _ hstep)

theorem callsOf_append (a b : List Event) : callsOf (a ++ b) = callsOf a ++ callsOf b := by
  induction a with
  | nil => rfl
  | cons e a ih => cases e <;> simp [callsOf, ih]

theorem answersOf_append (a b : List Event) : answersOf (a ++ b) = answersOf a ++ answersOf b := by
  induction a with
  | nil => rfl
  | cons e a ih => cases e <;> simp [answersOf, ih]

theorem wordsOf_append (role : Role) (a b : List Event) :
    wordsOf role (a ++ b) = wordsOf role a ++ wordsOf role b := by
  induction a with
  | nil => rfl
  | cons e a ih =>
    cases e with
    | said r t =>
      simp only [List.cons_append, wordsOf, ih]
      split
      · rw [List.append_assoc]
      · rfl
    | called r call => exact ih
    | answered callId t => exact ih

theorem Tidy.callsOf_eq {a b : List Event} (h : Tidy a b) : callsOf a = callsOf b := by
  cases h <;> simp [callsOf_append, callsOf]

theorem Tidy.answersOf_eq {a b : List Event} (h : Tidy a b) : answersOf a = answersOf b := by
  cases h <;> simp [answersOf_append, answersOf]

theorem Tidy.wordsOf_eq (role : Role) {a b : List Event} (h : Tidy a b) :
    wordsOf role a = wordsOf role b := by
  cases h with
  | join before after r s t =>
    simp only [wordsOf_append, wordsOf]
    split
    · rw [List.append_assoc]
    · rfl
  | hoist before after r call t => simp only [wordsOf_append, wordsOf]

theorem callsFirst_append {x y : List Event}
    (hxy : ∀ before, CallsFirst before x ↔ CallsFirst before y) (p : List Event)
    (before : List Text) : CallsFirst before (p ++ x) ↔ CallsFirst before (p ++ y) := by
  induction p generalizing before with
  | nil => exact hxy before
  | cons e p ih =>
    cases e with
    | said r t => exact ih before
    | called r call => exact ih (call.id :: before)
    | answered callId t => exact and_congr_right fun _ => ih before

theorem Tidy.callsFirst {a b : List Event} (h : Tidy a b) :
    (fun before => CallsFirst before a) = fun before => CallsFirst before b := by
  funext before
  -- neither kind of step moves a call or an answer past the other
  cases h with
  | join p after r s t =>
    have hends : ∀ before, CallsFirst before (.said r s :: .said r t :: after) ↔
        CallsFirst before (.said r (s ++ t) :: after) := fun _ => Iff.rfl
    exact propext (callsFirst_append hends p before)
  | hoist p after r call t =>
    have hends : ∀ before, CallsFirst before (.called r call :: .said r t :: after) ↔
        CallsFirst before (.said r t :: .called r call :: after) := fun _ => Iff.rfl
    exact propext (callsFirst_append hends p before)

theorem Tidy.unitsOf_eq {a b : List Event} (h : Tidy a b) : unitsOf a = unitsOf b := by
  cases h with
  | join before after r s t =>
    simp only [unitsOf, List.map_append, List.map_cons, List.sum_append, List.sum_cons, Event.units,
      ofText, List.flatMap_append, List.length_append]
    omega
  | hoist before after r call t =>
    simp only [unitsOf, List.map_append, List.map_cons, List.sum_append, List.sum_cons]
    omega

theorem Within.refl (a : List Event) : Within a a := fun e he => ⟨e, he, List.infix_refl _⟩

theorem Within.trans {a b c : List Event} (hab : Within a b) (hbc : Within b c) : Within a c := by
  intro e he
  obtain ⟨e', he', hin⟩ := hab e he
  obtain ⟨e'', he'', hin'⟩ := hbc e' he'
  exact ⟨e'', he'', hin.trans hin'⟩

/-- Each text is there once, and nothing else. -/
theorem Tidy.perm_texts {a b : List Event} (h : Tidy a b) :
    ((a.map Event.text).flatten).Perm (b.map Event.text).flatten := by
  cases h with
  | join before after r s t => simp [Event.text]
  | hoist before after r call t =>
    simp only [List.map_append, List.map_cons, List.flatten_append, List.flatten_cons]
    exact (List.perm_append_comm_assoc _ _ _).append_left _

theorem Tidies.perm_texts {a b : List Event} (h : Tidies a b) :
    ((a.map Event.text).flatten).Perm (b.map Event.text).flatten := by
  induction h with
  | refl => exact .refl _
  | tail _ hstep ih => exact ih.trans hstep.perm_texts

theorem Tidy.within_texts {a b : List Event} (h : Tidy a b) : Within a b := by
  intro e he
  cases h with
  | join before after r s t =>
    rw [List.mem_append, List.mem_cons, List.mem_cons] at he
    obtain he | rfl | rfl | he := he
    · exact ⟨e, by simp [he], List.infix_refl _⟩
    · exact ⟨.said r (s ++ t), by simp, (List.prefix_append s t).isInfix⟩
    · exact ⟨.said r (s ++ t), by simp, (List.suffix_append s t).isInfix⟩
    · exact ⟨e, by simp [he], List.infix_refl _⟩
  | hoist before after r call t =>
    refine ⟨e, ?_, List.infix_refl _⟩
    rw [List.mem_append, List.mem_cons, List.mem_cons] at he ⊢
    tauto

theorem Tidies.within_texts {a b : List Event} (h : Tidies a b) : Within a b := by
  induction h with
  | refl => exact Within.refl _
  | tail _ hstep ih => exact ih.trans hstep.within_texts

/-- The one list has every word of each speaker, every call and every answer of the other, each once
and in order; and its answers follow their calls if the other's do. -/
structure Conserved (chat wire : List Event) : Prop where
  words : ∀ role, wordsOf role wire = wordsOf role chat
  calls : callsOf wire = callsOf chat
  answers : answersOf wire = answersOf chat
  callsFirst : CallsFirst [] wire ↔ CallsFirst [] chat

theorem wire_conserves (messages : List ChatMessage) :
    Conserved (chatEvents stringify messages)
      (wireEvents (toWireMessages stringify messages)) := by
  have h := toWireMessages_tidies stringify messages
  constructor
  case words => exact fun role => (h.same fun _ _ hstep => hstep.wordsOf_eq role).symm
  case calls => exact (h.same fun _ _ hstep => hstep.callsOf_eq).symm
  case answers => exact (h.same fun _ _ hstep => hstep.answersOf_eq).symm
  case callsFirst =>
    have hfirst := Tidies.same (fun _ _ hstep => hstep.callsFirst) h
    exact iff_of_eq (congrFun hfirst []).symm

/-! ## What the gateway scans of a chat -/

theorem lookup_entry (key other : String) (value : Json) (rest : List (String × Json)) :
    ((key, value) :: rest).lookup other =
      if other = key then some value else rest.lookup other := by
  rw [List.lookup_cons]
  by_cases h : other = key
  · rw [if_pos h, beq_iff_eq.mpr h]
  · rw [if_neg h, beq_eq_false_iff_ne.mpr h]

theorem lookup_setProperty (key other : String) (value : Json) (object : List (String × Json)) :
    (setProperty key value object).lookup other =
      if other = key then some value else object.lookup other := by
  induction object with
  | nil => exact lookup_entry key other value []
  | cons p rest ih =>
    obtain ⟨k, v⟩ := p
    rw [setProperty]
    split
    · next hk =>
      subst hk
      rw [lookup_entry, lookup_entry]
      split <;> rfl
    · next hk =>
      rw [lookup_entry, lookup_entry, ih]
      by_cases hother : other = key
      · subst hother
        rw [if_neg (Ne.symm hk), if_pos rfl, if_pos rfl]
      · rw [if_neg hother, if_neg hother]

theorem messageTexts_toJson (m : WireMessage) :
    messageTexts m.toJson = m.events.map Event.text := by
  obtain ⟨role, content, toolCallId, toolCalls⟩ := m
  have hcalls : ∀ calls : List WireToolCall,
      itemTexts (keyTexts "function" (keyTexts "arguments" slotText))
        (.arr (calls.map WireToolCall.toJson)) = calls.map WireToolCall.arguments := by
    intro calls
    induction calls with
    | nil => rfl
    | cons call calls ih => exact congrArg (call.arguments :: ·) ih
  have hspoken : ∀ id t, (if role = .tool then Event.answered id t else .said role t).text = t := by
    intro id t
    split <;> rfl
  have hcalled : (toolCalls.getD []).map (Event.text ∘ Event.called role) =
      (toolCalls.getD []).map WireToolCall.arguments := rfl
  unfold messageTexts WireMessage.events
  simp only [List.map_append, List.map_map, hcalled]
  congr 1
  · cases toolCallId <;> cases content <;>
      simp [WireMessage.toJson, keyTexts, Json.get, List.lookup, contentTexts, slotText, Json.asStr,
        hspoken]
  · cases toolCallId <;> cases toolCalls <;>
      simp [WireMessage.toJson, keyTexts, Json.get, List.lookup, hcalls]

theorem keyTexts_obj (key : String) (g : Json → List Text) (entries : List (String × Json)) :
    keyTexts key g (.obj entries) = (entries.lookup key).elim [] g := rfl

/-- The texts of the options that the gateway scans. -/
def ChatRequest.optionTexts (r : ChatRequest) : List Text :=
  keyTexts "input" stringOrArrayTexts (.obj r.options) ++
    keyTexts "prompt" stringOrArrayTexts (.obj r.options)

theorem requestTexts_chatBody (r : ChatRequest) :
    requestTexts (chatBody stringify r) =
      (wireEvents (toWireMessages stringify r.messages)).map Event.text ++ r.optionTexts := by
  -- no property that the spreads set is read, apart from `messages`
  have hlookup : ∀ tools object, (spread object (if r.tools.isEmpty then [] else
      [("tools", tools), ("tool_choice", .str (toWireToolChoice r.toolsRequired))])).lookup
        "messages" = object.lookup "messages" := by
    intro tools object
    split <;> simp [spread, lookup_setProperty]
  have hmessages : keyTexts "messages" (itemTexts messageTexts) (chatBody stringify r) =
      (wireEvents (toWireMessages stringify r.messages)).map Event.text := by
    rw [chatBody, keyTexts_obj, hlookup]
    simp only [spread, List.foldl_cons, List.foldl_nil, lookup_setProperty]
    rw [if_neg (by decide), if_pos trivial, Option.elim_some, wireEvents, List.map_flatMap]
    simp only [itemTexts, Json.asArray, Option.getD_some, List.flatMap_map, messageTexts_toJson]
  have hoption : ∀ key, key ≠ "model" → key ≠ "messages" → key ≠ "stream" → key ≠ "tools" →
      key ≠ "tool_choice" → keyTexts key stringOrArrayTexts (chatBody stringify r) =
        keyTexts key stringOrArrayTexts (.obj r.options) := by
    intro key hmodel hmessages hstream htools hchoice
    rw [chatBody, keyTexts_obj, keyTexts_obj]
    split <;> simp [spread, lookup_setProperty, *]
  unfold requestTexts
  rw [hmessages, hoption "input" (by decide) (by decide) (by decide) (by decide) (by decide),
    hoption "prompt" (by decide) (by decide) (by decide) (by decide) (by decide)]
  rfl

/-- The engine is asked about every text part, the input of every call and every answer of a chat,
each inside a text that the gateway scans, and about no other text but an `input` or a `prompt`
among the options. -/
theorem scanRequest_chatBody (e : Engine) (r : ChatRequest) :
    ∃ texts, (scanRequest e (chatBody stringify r)).map Prod.snd =
        scanTexts e (texts ++ r.optionTexts) .default ∧
      (∀ event ∈ chatEvents stringify r.messages, ∃ t ∈ texts, event.text <:+: t) ∧
      texts.flatten.Perm ((chatEvents stringify r.messages).map Event.text).flatten := by
  have htidies := toWireMessages_tidies stringify r.messages
  refine ⟨(wireEvents (toWireMessages stringify r.messages)).map Event.text, ?_, ?_, ?_⟩
  · rw [scanRequest_report, requestTexts_chatBody]
  · intro event hevent
    obtain ⟨event', hevent', hin⟩ := htidies.within_texts event hevent
    exact ⟨event'.text, List.mem_map_of_mem hevent', hin⟩
  · exact htidies.perm_texts.symm

/-! ## The token estimate -/

theorem unitsOf_append (a b : List Event) : unitsOf (a ++ b) = unitsOf a + unitsOf b := by
  rw [unitsOf, List.map_append, List.sum_append]
  rfl

theorem ofText_length_append (s t : Text) :
    (ofText (s ++ t)).length = (ofText s).length + (ofText t).length := by
  rw [ofText, List.flatMap_append, List.length_append]
  rfl

theorem flattenResult_length_le (content : List Part) :
    (ofText (flattenResult content)).length ≤ (ofText (extractText stringify content)).length := by
  induction content with
  | nil => exact Nat.zero_le _
  | cons part rest ih =>
    rw [extractText, ofText_length_append, flattenResult, List.flatMap_cons, ofText_length_append]
    refine Nat.add_le_add ?_ ih
    cases part with
    | text value =>
      rw [partText]
    | toolCall callId name input => exact Nat.zero_le _
    | toolResult callId nested => exact Nat.zero_le _
    | other value call nested => exact Nat.zero_le _

/-- What is sent of a part is counted. -/
theorem unitsOf_part_le (role : Role) (part : Part) :
    unitsOf (part.events stringify role) ≤ (ofText (partText stringify part)).length := by
  cases part with
  | text value => simp [Part.events, unitsOf, Event.units, partText]
  | toolCall callId name input =>
    simp [Part.events, unitsOf, Event.units, partText, ofText_length_append]
  | toolResult callId content =>
    have hnested := flattenResult_length_le stringify content
    simpa [Part.events, unitsOf, Event.units, partText] using hnested
  | other value call content => exact Nat.zero_le _

theorem unitsOf_content_le (role : Role) (content : List Part) :
    unitsOf (content.flatMap (Part.events stringify role)) ≤
      (ofText (extractText stringify content)).length := by
  induction content with
  | nil => exact Nat.zero_le _
  | cons part rest ih =>
    rw [List.flatMap_cons, unitsOf_append, extractText, ofText_length_append]
    exact Nat.add_le_add (unitsOf_part_le stringify role part) ih

/-- The estimate of a chat, at 3.5 units a token, never falls short of what is sent of it. -/
theorem provideTokenCount_covers (messages : List ChatMessage) :
    2 * unitsOf (wireEvents (toWireMessages stringify messages)) ≤
      7 * (messages.map (provideTokenCount stringify)).sum := by
  have hsame : unitsOf (chatEvents stringify messages) =
      unitsOf (wireEvents (toWireMessages stringify messages)) :=
    (toWireMessages_tidies stringify messages).same fun _ _ hstep => hstep.unitsOf_eq
  rw [← hsame]
  induction messages with
  | nil => exact Nat.zero_le _
  | cons m messages ih =>
    rw [chatEvents, List.flatMap_cons, unitsOf_append, List.map_cons, List.sum_cons]
    have hmessage := unitsOf_content_le stringify m.role m.content
    have hcount : 2 * (ofText (extractText stringify m.content)).length ≤
        7 * provideTokenCount stringify m := by
      unfold provideTokenCount estimateTokens
      omega
    have hrest := ih ((toWireMessages_tidies stringify messages).same fun _ _ hstep =>
      hstep.unitsOf_eq)
    rw [chatEvents] at hrest
    omega

end ChatWire

end Governance
