import Governance.Redact.Payload

/-!
# What the two response paths look at

A choice can arrive whole, and `scan_response` walks it, or in a streamed chunk, and
`delta_contents` extracts from it. `response_covered_iff` compares the two walkers on one
choice, with `message` renamed to `delta`: they cover the same strings exactly when the
choice has no text part in an array `content` and no legacy `text`.
-/

namespace Governance

open Utf8Text

/-- The choice as a streamed chunk carries it: `message` is called `delta`. -/
def renameMessage : Json → Json
  | .obj entries => .obj ((entries.filter fun kv => kv.1 ≠ "delta").map fun kv =>
      if kv.1 = "message" then ("delta", kv.2) else kv)
  | v => v

/-- A body, or a chunk, with one choice. -/
def ofChoice (choice : Json) : Json := .obj [("choices", .arr [choice])]

/-- A choice without the strings only `scan_response` looks at. -/
structure Streamable (choice : Json) : Prop where
  parts : ∀ parts part text, (choice.get "message").bind (Json.get "content") = some (.arr parts) →
    part ∈ parts → part.get "text" ≠ some (.str text)
  text : ∀ text, choice.get "text" ≠ some (.str text)
  texts : ∀ items text, choice.get "text" = some (.arr items) → .str text ∉ items

/-- The texts of the parts of an array `content`. -/
def partTexts : Json → List Text
  | .arr parts => parts.flatMap fun part => (part.get "text").elim [] slotText
  | _ => []

/-- The strings of a choice only `scan_response` looks at. -/
def bufferedOnly (choice : Json) : List Text :=
  keyTexts "message" (keyTexts "content" partTexts) choice ++
    keyTexts "text" stringOrArrayTexts choice

/-- The texts of a message's tool calls. -/
def argumentTexts (message : Json) : List Text :=
  keyTexts "tool_calls" (itemTexts (keyTexts "function" (keyTexts "arguments" slotText))) message

theorem get_renameMessage_delta (choice : Json) :
    (renameMessage choice).get "delta" = choice.get "message" := by
  cases choice with
  | obj entries =>
    simp only [renameMessage, Json.get]
    induction entries with
    | nil => rfl
    | cons kv rest ih =>
      obtain ⟨k, v⟩ := kv
      by_cases hd : k = "delta"
      · have hk : ("message" == k) = false := beq_eq_false_iff_ne.mpr (by rw [hd]; decide)
        rw [List.filter_cons_of_neg (by simp [hd]), List.lookup, hk]
        exact ih
      · rw [List.filter_cons_of_pos (by simp [hd])]
        by_cases hm : k = "message"
        · simp [hm, List.lookup]
        · have hdk : ("delta" == k) = false := beq_eq_false_iff_ne.mpr (Ne.symm hd)
          have hmk : ("message" == k) = false := beq_eq_false_iff_ne.mpr (Ne.symm hm)
          simpa [List.lookup, hm, hdk, hmk] using ih
  | _ => rfl

theorem slotText_eq (v : Json) : slotText v = (v.asStr).toList := rfl

/-- The strings `delta_contents` finds in the arguments of a delta's tool calls. -/
theorem argumentTexts_eq (message : Json) : argumentTexts message =
    (((message.get "tool_calls").bind Json.asArray).getD []).filterMap callArguments := by
  unfold argumentTexts keyTexts itemTexts
  cases message.get "tool_calls" with
  | none => rfl
  | some calls =>
    cases calls with
    | arr items =>
      show items.flatMap _ = items.filterMap callArguments
      rw [List.filterMap_eq_flatMap_toList]
      refine List.flatMap_congr fun call _ => ?_
      cases hf : call.get "function" with
      | none => simp [callArguments, hf]
      | some fn =>
        cases ha : fn.get "arguments" with
        | none => simp [callArguments, hf, ha]
        | some args => simp [callArguments, hf, ha, slotText]
    | _ => rfl

/-- What `delta_contents` extracts from a renamed choice. -/
theorem choiceContents_renameMessage (choice : Json) :
    (choiceContents (renameMessage choice)).map Prod.snd =
      keyTexts "message" (fun m => keyTexts "content" slotText m ++ argumentTexts m) choice := by
  unfold choiceContents
  rw [get_renameMessage_delta, keyTexts]
  cases choice.get "message" with
  | none => rfl
  | some m =>
    simp only [Option.elim_some, argumentTexts_eq, List.map_append]
    congr 1
    · unfold keyTexts
      cases m.get "content" with
      | none => rfl
      | some content => cases content <;> rfl
    · cases (m.get "tool_calls").bind Json.asArray with
      | none => rfl
      | some calls =>
        simp only [Option.getD_some, List.map_filterMap]
        refine List.filterMap_congr fun call _ => ?_
        cases callArguments call <;> rfl

/-- Up to order, the buffered walker covers what the streaming one extracts and the rest. -/
theorem choiceTexts_perm (choice : Json) :
    (choiceTexts choice).Perm
      ((choiceContents (renameMessage choice)).map Prod.snd ++ bufferedOnly choice) := by
  rw [choiceContents_renameMessage, choiceTexts, bufferedOnly, ← List.append_assoc]
  refine List.Perm.append_right _ ?_
  unfold keyTexts
  cases choice.get "message" with
  | none => exact .rfl
  | some m =>
    simp only [Option.elim_some, messageTexts, keyTexts]
    cases m.get "content" with
    | none => simp [argumentTexts, keyTexts]
    | some content =>
      cases content with
      | arr parts =>
        simp only [Option.elim_some, contentTexts, slotText, Json.asStr, partTexts, argumentTexts,
          keyTexts]
        simpa using List.perm_append_comm
      | _ => simp [contentTexts, slotText, Json.asStr, partTexts, argumentTexts, keyTexts]

theorem elim_slotText_eq_nil_iff (v : Option Json) :
    v.elim [] slotText = [] ↔ ∀ text, v ≠ some (.str text) := by
  cases v with
  | none => simp
  | some v => cases v <;> simp [slotText, Json.asStr]

theorem partTexts_eq_nil_iff (content : Json) : partTexts content = [] ↔
    ∀ parts part text, content = .arr parts → part ∈ parts → part.get "text" ≠ some (.str text) := by
  cases content with
  | arr parts =>
    simp only [partTexts, List.flatMap_eq_nil_iff, elim_slotText_eq_nil_iff, Json.arr.injEq]
    constructor
    · rintro h _ part text rfl hpart
      exact h part hpart text
    · intro h part hpart text
      exact h parts part text rfl hpart
  | _ => simp [partTexts]

theorem stringOrArrayTexts_eq_nil_iff (field : Json) : stringOrArrayTexts field = [] ↔
    (∀ text, field ≠ .str text) ∧ ∀ items text, field = .arr items → .str text ∉ items := by
  cases field with
  | arr items =>
    simp only [stringOrArrayTexts, List.flatMap_eq_nil_iff, reduceCtorEq, ne_eq, not_false_eq_true,
      implies_true, true_and, Json.arr.injEq]
    have hslot := fun v => elim_slotText_eq_nil_iff (some v)
    simp only [Option.elim_some, ne_eq, Option.some.injEq] at hslot
    constructor
    · rintro h _ text rfl hmem
      exact (hslot _).mp (h _ hmem) text rfl
    · intro h v hv
      refine (hslot v).mpr fun text hvt => h items text rfl ?_
      rwa [← hvt]
  | _ => simp [stringOrArrayTexts, slotText, Json.asStr]

theorem bufferedOnly_eq_nil_iff (choice : Json) : bufferedOnly choice = [] ↔ Streamable choice := by
  have hmessage : keyTexts "message" (keyTexts "content" partTexts) choice = [] ↔
      ∀ parts part text, (choice.get "message").bind (Json.get "content") = some (.arr parts) →
        part ∈ parts → part.get "text" ≠ some (.str text) := by
    have hcontent : keyTexts "message" (keyTexts "content" partTexts) choice =
        ((choice.get "message").bind (Json.get "content")).elim [] partTexts := by
      unfold keyTexts
      cases choice.get "message" <;> rfl
    rw [hcontent]
    cases (choice.get "message").bind (Json.get "content") with
    | none => simp
    | some content => simp [partTexts_eq_nil_iff]
  have htext : keyTexts "text" stringOrArrayTexts choice = [] ↔
      (∀ text, choice.get "text" ≠ some (.str text)) ∧
        ∀ items text, choice.get "text" = some (.arr items) → .str text ∉ items := by
    unfold keyTexts
    cases choice.get "text" with
    | none => simp
    | some field => simp [stringOrArrayTexts_eq_nil_iff]
  rw [bufferedOnly, List.append_eq_nil_iff, hmessage, htext]
  exact ⟨fun h => ⟨h.1, h.2.1, h.2.2⟩, fun h => ⟨h.parts, h.text, h.texts⟩⟩

/-- `choiceTexts` is what `scan_response` hands to the engine, for every engine. Counted with
multiplicity, so that two slots with one text are two, these strings are all extracted by
`delta_contents` if and only if the choice is `Streamable`. -/
theorem response_covered_iff (choice : Json) :
    (∀ e, (scanResponse e (ofChoice choice)).map Prod.snd =
      scanTexts e (choiceTexts choice) .default) ∧
    ((choiceTexts choice).Subperm
        ((deltaContents (ofChoice (renameMessage choice))).map Prod.snd) ↔
      Streamable choice) := by
  have hdelta : deltaContents (ofChoice (renameMessage choice)) =
      choiceContents (renameMessage choice) := by
    simp [deltaContents, ofChoice, Json.get, Json.asArray]
  refine ⟨fun e => ?_, ?_⟩
  · rw [scanResponse_report]
    simp [responseTexts, keyTexts, itemTexts, ofChoice, Json.get, Json.asArray]
  · rw [hdelta, ← bufferedOnly_eq_nil_iff]
    have hperm := choiceTexts_perm choice
    constructor
    · intro hsub
      have hle := hsub.length_le
      rw [hperm.length_eq, List.length_append] at hle
      exact List.length_eq_zero_iff.mp (by omega)
    · intro hnil
      rw [hnil, List.append_nil] at hperm
      exact hperm.subperm

/-- A choice of a legacy completion: `scan_response` scans its `text`, and nothing extracts
it from a stream. -/
theorem legacy_text_not_covered :
    choiceTexts (.obj [("index", .num (.posInt 0)), ("text", .str ['7'])]) = [['7']] ∧
    ¬ (choiceTexts (.obj [("index", .num (.posInt 0)), ("text", .str ['7'])])).Subperm
      ((deltaContents (ofChoice
        (renameMessage (.obj [("index", .num (.posInt 0)), ("text", .str ['7'])])))).map
          Prod.snd) := by
  have hscanned : choiceTexts (.obj [("index", .num (.posInt 0)), ("text", .str ['7'])]) =
      [['7']] := by decide
  have hextracted : deltaContents (ofChoice
      (renameMessage (.obj [("index", .num (.posInt 0)), ("text", .str ['7'])]))) = [] := by decide
  refine ⟨hscanned, fun hsub => ?_⟩
  have hle := hsub.length_le
  rw [hscanned, hextracted] at hle
  simp at hle

end Governance
