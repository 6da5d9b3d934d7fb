import Governance.Redact.Sse.Conservation

/-!
# The texts of one key

`delta_contents` reads every slot of a key that a chunk has. `field_slot_mut` reaches at most one
of them in a choice: of several tool calls with one index it takes the first, and if that has no
text it gives up. `fieldTexts` lists what is read in one choice, `reaches` says whether the write
finds a slot there, and `fieldTexts_writeField` what is read after a write.
-/

namespace Governance

open Utf8Text

/-- The content of a choice. -/
def contentOf (choice : Json) : Option Text :=
  ((choice.get "delta").bind (Json.get "content")).bind Json.asStr

/-- The tool calls of a choice. -/
def toolCalls (choice : Json) : List Json :=
  (((choice.get "delta").bind (Json.get "tool_calls")).bind Json.asArray).getD []

/-- The texts that tool calls have for an index. -/
def argumentsOf (callIndex : ℕ) (calls : List Json) : List Text :=
  calls.filterMap fun call => if indexOf call = callIndex then callArguments call else none

/-- The texts of one field of a choice. -/
def fieldTexts (field : ContentField) (choice : Json) : List Text :=
  match field with
  | .content => (contentOf choice).toList
  | .toolCallArguments callIndex => argumentsOf callIndex (toolCalls choice)

/-- Whether a write of a field finds a slot in a choice. -/
def reaches (field : ContentField) (choice : Json) : Bool := (setField field [] choice).isSome

/-! ## Reading -/

theorem textsOf_append (key : ContentKey) (a b : List (ContentKey × Text)) :
    textsOf key (a ++ b) = textsOf key a ++ textsOf key b := by
  simp [textsOf]

theorem textsOf_flatMap {α : Type*} (key : ContentKey) (f : α → List (ContentKey × Text))
    (xs : List α) : textsOf key (xs.flatMap f) = xs.flatMap fun x => textsOf key (f x) := by
  induction xs with
  | nil => rfl
  | cons x xs ih => rw [List.flatMap_cons, textsOf_append, ih, List.flatMap_cons]

theorem textsOf_eq_filterMap (key : ContentKey) (cs : List (ContentKey × Text)) :
    textsOf key cs = cs.filterMap fun c => if c.1 = key then some c.2 else none := by
  induction cs with
  | nil => rfl
  | cons c cs ih =>
    rw [SseHoldBack.textsOf_cons, ih]
    by_cases hc : c.1 = key <;> simp [hc]

/-- What `delta_contents` finds among the tool calls of a choice for a key. -/
theorem textsOf_arguments (key : ContentKey) (i : ℕ) (calls : List Json) :
    textsOf key (calls.filterMap fun call => (callArguments call).map fun text =>
      ((i, ContentField.toolCallArguments (indexOf call)), text)) =
    calls.filterMap fun call =>
      if (i, ContentField.toolCallArguments (indexOf call)) = key then callArguments call
      else none := by
  rw [textsOf_eq_filterMap, List.filterMap_filterMap]
  congr 1
  funext call
  cases hc : callArguments call with
  | none => simp
  | some text => simp

/-- What `delta_contents` finds in a choice for a key. -/
theorem textsOf_choiceContents (key : ContentKey) (choice : Json) :
    textsOf key (choiceContents choice) =
      if indexOf choice = key.1 then fieldTexts key.2 choice else [] := by
  obtain ⟨i, field⟩ := key
  unfold choiceContents fieldTexts contentOf toolCalls argumentsOf
  cases hdelta : choice.get "delta" with
  | none => cases field <;> simp [textsOf]
  | some delta =>
    simp only [Option.bind_some, textsOf_append]
    cases hcontent : (delta.get "content").bind Json.asStr <;>
      cases hcalls : (delta.get "tool_calls").bind Json.asArray <;>
      simp only [textsOf_arguments, Option.getD_some, Option.getD_none, Option.toList_some,
        Option.toList_none] <;>
      cases field <;> by_cases hi : indexOf choice = i <;> simp [textsOf, hi]

theorem textsOf_deltaContents (key : ContentKey) (chunk : Json) :
    textsOf key (deltaContents chunk) =
      (((chunk.get "choices").bind Json.asArray).getD []).flatMap fun choice =>
        if indexOf choice = key.1 then fieldTexts key.2 choice else [] := by
  unfold deltaContents
  cases (chunk.get "choices").bind Json.asArray with
  | none => rfl
  | some choices =>
    show textsOf key (choices.flatMap choiceContents) = choices.flatMap _
    rw [textsOf_flatMap]
    congr 1
    funext choice
    exact textsOf_choiceContents key choice

/-! ## Writing -/

section Updates

variable {key : String} {f : Json → Option Json}

theorem isSome_update (v : Json) :
    (v.update key f).isSome = (v.get key).any fun x => (f x).isSome := by
  cases v with
  | obj entries =>
    simp only [Json.update, Json.get, Option.isSome_map]
    induction entries with
    | nil => rfl
    | cons e rest ih =>
      obtain ⟨k, x⟩ := e
      by_cases hk : k = key
      · subst hk
        simp [Json.updateEntry]
      · have hne : (key == k) = false := beq_eq_false_iff_ne.mpr (Ne.symm hk)
        simp [Json.updateEntry, hk, List.lookup, hne, ih]
  | _ => rfl

theorem isSome_updateArray {g : List Json → Option (List Json)} (v : Json) :
    (v.updateArray g).isSome = v.asArray.any fun xs => (g xs).isSome := by
  cases v <;> simp [Json.updateArray, Json.asArray]

theorem isSome_updateFirst {p : Json → Bool} (xs : List Json) :
    (Json.updateFirst p f xs).isSome = (xs.find? p).any fun x => (f x).isSome := by
  induction xs with
  | nil => rfl
  | cons x xs ih =>
    by_cases hx : p x = true
    · simp [Json.updateFirst, hx]
    · simp [Json.updateFirst, hx, ih]

theorem isSome_setStr (text : Text) (v : Json) : (v.setStr text).isSome = v.asStr.isSome := by
  cases v <;> rfl

end Updates

theorem any_eq_isSome_bind {α β : Type*} (o : Option α) (g : α → Option β) :
    (o.any fun x => (g x).isSome) = (o.bind g).isSome := by
  cases o <;> rfl

theorem isSome_bind_getD_find {o : Option (List Json)} (p : Json → Bool) (g : Json → Option Text) :
    (o.bind fun xs => (xs.find? p).bind g).isSome = (((o.getD []).find? p).bind g).isSome := by
  cases o <;> rfl

/-- When a write is made does not depend on what is written. -/
theorem isSome_setField (field : ContentField) (text : Text) (choice : Json) :
    (setField field text choice).isSome = match field with
      | .content => (contentOf choice).isSome
      | .toolCallArguments callIndex =>
        (((toolCalls choice).find? fun call => indexOf call = callIndex).bind
          callArguments).isSome := by
  cases field with
  | content =>
    simp only [setField, isSome_update, isSome_setStr, any_eq_isSome_bind, contentOf]
    rw [Option.bind_assoc]
  | toolCallArguments callIndex =>
    have hargs : ∀ call : Json, (call.get "function").bind (fun function =>
        (function.get "arguments").bind Json.asStr) = callArguments call := by
      intro call
      rw [callArguments, Option.bind_assoc]
    simp only [setField, isSome_update, isSome_updateArray, isSome_updateFirst, isSome_setStr,
      any_eq_isSome_bind, hargs]
    simp only [toolCalls, ← isSome_bind_getD_find, Option.bind_assoc]

theorem isSome_setField_eq_reaches (field : ContentField) (text : Text) (choice : Json) :
    (setField field text choice).isSome = reaches field choice := by
  rw [reaches, isSome_setField, isSome_setField]

/-- The write of a field, if it reaches a slot. -/
theorem setField_eq (field : ContentField) (text : Text) (choice : Json) :
    setField field text choice =
      if reaches field choice then some (writeField field text choice) else none := by
  have hreach := isSome_setField_eq_reaches field text choice
  rw [← orSelf_setField, orSelf]
  cases h : setField field text choice with
  | none =>
    rw [h] at hreach
    rw [if_neg (by simp [← hreach])]
  | some choice' =>
    rw [h] at hreach
    rw [if_pos (by simp [← hreach])]
    rfl

theorem writeField_of_not_reaches {field : ContentField} {choice : Json}
    (h : reaches field choice = false) (text : Text) : writeField field text choice = choice := by
  rw [← orSelf_setField, orSelf, setField_eq, if_neg (by simp [h])]
  rfl

theorem bind_asStr_putStr (text : Text) (o : Option Json) :
    (o.map (Json.putStr text)).bind Json.asStr = (o.bind Json.asStr).map fun _ => text := by
  rcases o with _ | _ | _ | _ | _ | _ | _ <;> rfl

/-- What a write of its arguments leaves of a tool call. -/
theorem callArguments_put (text : Text) (call : Json) :
    callArguments (Json.mapKey "function" (Json.mapKey "arguments" (Json.putStr text)) call) =
      (callArguments call).map fun _ => text := by
  unfold callArguments
  rw [Json.get_mapKey_self]
  cases call.get "function" with
  | none => rfl
  | some function =>
    rw [Option.map_some, Option.bind_some, Option.bind_some, Json.get_mapKey_self,
      bind_asStr_putStr]

/-- The arguments of the calls of an index, after the first of these calls was written to. -/
theorem argumentsOf_mapFirst (callIndex : ℕ) (text : Text) (calls : List Json) :
    argumentsOf callIndex (Json.mapFirst (fun call => indexOf call = callIndex)
        (Json.mapKey "function" (Json.mapKey "arguments" (Json.putStr text))) calls) =
      if ((calls.find? fun call => indexOf call = callIndex).bind callArguments).isSome then
        text :: (argumentsOf callIndex calls).tail
      else argumentsOf callIndex calls := by
  unfold argumentsOf
  induction calls with
  | nil => rfl
  | cons call calls ih =>
    by_cases hcall : indexOf call = callIndex
    · have hindex : indexOf (Json.mapKey "function"
          (Json.mapKey "arguments" (Json.putStr text)) call) = callIndex := by
        rw [indexOf_mapKey (by decide), hcall]
      have hargs := callArguments_put text call
      cases hc : callArguments call with
      | none =>
        rw [hc] at hargs
        simp [Json.mapFirst, hcall, hindex, hargs, hc]
      | some old =>
        rw [hc] at hargs
        simp [Json.mapFirst, hcall, hindex, hargs, hc]
    · simp only [Json.mapFirst, hcall, decide_false, Bool.false_eq_true, if_false,
        List.filterMap_cons, List.find?_cons]
      exact ih

/-- The arguments of the calls of an index, after the first call of another one was written to. -/
theorem argumentsOf_mapFirst_of_ne {callIndex other : ℕ} (hne : callIndex ≠ other) (text : Text)
    (calls : List Json) :
    argumentsOf callIndex (Json.mapFirst (fun call => indexOf call = other)
        (Json.mapKey "function" (Json.mapKey "arguments" (Json.putStr text))) calls) =
      argumentsOf callIndex calls := by
  unfold argumentsOf
  induction calls with
  | nil => rfl
  | cons call calls ih =>
    by_cases hcall : indexOf call = other
    · have hindex : indexOf (Json.mapKey "function"
          (Json.mapKey "arguments" (Json.putStr text)) call) = other := by
        rw [indexOf_mapKey (by decide), hcall]
      simp [Json.mapFirst, hcall, hindex, hne.symm]
    · simp only [Json.mapFirst, hcall, decide_false, Bool.false_eq_true, if_false,
        List.filterMap_cons]
      rw [ih]

theorem contentOf_writeField (field : ContentField) (text : Text) (choice : Json) :
    contentOf (writeField field text choice) =
      if field = .content then (contentOf choice).map fun _ => text else contentOf choice := by
  unfold contentOf
  cases field with
  | content =>
    simp only [writeField, Json.get_mapKey_self, if_true]
    cases choice.get "delta" with
    | none => rfl
    | some delta =>
      rw [Option.map_some, Option.bind_some, Option.bind_some, Json.get_mapKey_self,
        bind_asStr_putStr]
  | toolCallArguments callIndex =>
    simp only [writeField, Json.get_mapKey_self, reduceCtorEq, if_false]
    cases choice.get "delta" with
    | none => rfl
    | some delta =>
      rw [Option.map_some, Option.bind_some, Option.bind_some, Json.get_mapKey (by decide)]

theorem toolCalls_writeField (field : ContentField) (text : Text) (choice : Json) :
    toolCalls (writeField field text choice) = match field with
      | .content => toolCalls choice
      | .toolCallArguments callIndex => Json.mapFirst (fun call => indexOf call = callIndex)
          (Json.mapKey "function" (Json.mapKey "arguments" (Json.putStr text)))
          (toolCalls choice) := by
  unfold toolCalls
  cases field with
  | content =>
    simp only [writeField, Json.get_mapKey_self]
    cases choice.get "delta" with
    | none => rfl
    | some delta =>
      rw [Option.map_some, Option.bind_some, Option.bind_some, Json.get_mapKey (by decide)]
  | toolCallArguments callIndex =>
    simp only [writeField, Json.get_mapKey_self]
    cases choice.get "delta" with
    | none => rfl
    | some delta =>
      rw [Option.map_some, Option.bind_some, Option.bind_some, Json.get_mapKey_self]
      cases delta.get "tool_calls" with
      | none => rfl
      | some v => cases v <;> rfl

/-- The texts of a field after a write to it: the first one is new, if the write reaches it. -/
theorem fieldTexts_writeField (field : ContentField) (text : Text) (choice : Json) :
    fieldTexts field (writeField field text choice) =
      if reaches field choice then text :: (fieldTexts field choice).tail
      else fieldTexts field choice := by
  rw [reaches, isSome_setField]
  cases field with
  | content =>
    simp only [fieldTexts, contentOf_writeField, if_true]
    cases contentOf choice <;> simp
  | toolCallArguments callIndex =>
    simp only [fieldTexts, toolCalls_writeField]
    exact argumentsOf_mapFirst callIndex text (toolCalls choice)

/-- A write to one field does not show in another. -/
theorem fieldTexts_writeField_of_ne {field other : ContentField} (hne : field ≠ other)
    (text : Text) (choice : Json) :
    fieldTexts field (writeField other text choice) = fieldTexts field choice := by
  cases field with
  | content => simp only [fieldTexts, contentOf_writeField, if_neg hne.symm]
  | toolCallArguments callIndex =>
    simp only [fieldTexts, toolCalls_writeField]
    cases other with
    | content => rfl
    | toolCallArguments j =>
      exact argumentsOf_mapFirst_of_ne (fun h => hne (congrArg _ h)) text (toolCalls choice)

theorem find?_mapFirst_of_disjoint {p q : Json → Bool} {f : Json → Json} (hf : ∀ x, p (f x) = p x)
    (hpq : ∀ x, q x = true → p x = false) (xs : List Json) :
    (Json.mapFirst q f xs).find? p = xs.find? p := by
  induction xs with
  | nil => rfl
  | cons x xs ih =>
    by_cases hq : q x = true
    · simp [Json.mapFirst, hq, hf, hpq x hq]
    · simp [Json.mapFirst, hq, List.find?_cons, ih]

/-- A write to another field does not change what is reached. -/
theorem reaches_writeField_of_ne {field other : ContentField} (hne : field ≠ other) (text : Text)
    (choice : Json) : reaches field (writeField other text choice) = reaches field choice := by
  rw [reaches, reaches, isSome_setField, isSome_setField]
  cases field with
  | content => simp only [contentOf_writeField, if_neg hne.symm]
  | toolCallArguments callIndex =>
    simp only [toolCalls_writeField]
    cases other with
    | content => rfl
    | toolCallArguments j =>
      have hij : callIndex ≠ j := fun h => hne (congrArg _ h)
      congr 2
      refine find?_mapFirst_of_disjoint (fun call => ?_) (fun call hcall => ?_) (toolCalls choice)
      · rw [indexOf_mapKey (by decide)]
      · have hj : indexOf call = j := by simpa using hcall
        simpa [hj] using hij.symm

/-- A write that reaches a slot finds its text in front. -/
theorem fieldTexts_of_reaches {field : ContentField} {choice : Json}
    (h : reaches field choice = true) : fieldTexts field choice ≠ [] := by
  rw [reaches, isSome_setField] at h
  cases field with
  | content =>
    obtain ⟨text, htext⟩ := Option.isSome_iff_exists.mp h
    simp [fieldTexts, htext]
  | toolCallArguments callIndex =>
    obtain ⟨text, htext⟩ := Option.isSome_iff_exists.mp h
    obtain ⟨call, hcall, hargs⟩ := Option.bind_eq_some_iff.mp htext
    have hindex : indexOf call = callIndex := by simpa using List.find?_some hcall
    refine List.ne_nil_of_mem (a := text) (List.mem_filterMap.mpr
      ⟨call, List.mem_of_find?_eq_some hcall, ?_⟩)
    rw [if_pos hindex, hargs]

/-! ## Chunks -/

/-- The choices of a chunk, as `delta_contents` and `set_delta_content` see them. -/
theorem choices_writeSlot (key : ContentKey) (text : Text) (chunk : Json) :
    (((writeSlot key text chunk).get "choices").bind Json.asArray).getD [] =
      Json.mapFirst (fun choice => indexOf choice = key.1) (writeField key.2 text)
        (((chunk.get "choices").bind Json.asArray).getD []) := by
  rw [writeSlot_eq, Json.get_mapKey_self]
  cases chunk.get "choices" with
  | none => rfl
  | some v => cases v <;> rfl

/-- Whether `set_delta_content` finds a slot of a key. -/
def keyReached (key : ContentKey) (chunk : Json) : Bool := (setDeltaContent chunk key []).isSome

theorem keyReached_eq (key : ContentKey) (chunk : Json) :
    keyReached key chunk =
      ((((chunk.get "choices").bind Json.asArray).getD []).find? fun choice =>
        indexOf choice = key.1).any (reaches key.2) := by
  simp only [keyReached, setDeltaContent, isSome_update, isSome_updateArray, isSome_updateFirst,
    isSome_setField_eq_reaches]
  cases chunk.get "choices" with
  | none => rfl
  | some v => cases v <;> rfl

theorem find?_mapFirst_self {p : Json → Bool} {f : Json → Json} (hf : ∀ x, p (f x) = p x)
    (xs : List Json) : (Json.mapFirst p f xs).find? p = (xs.find? p).map f := by
  induction xs with
  | nil => rfl
  | cons x xs ih =>
    by_cases hp : p x = true
    · simp [Json.mapFirst, hp, hf]
    · simp [Json.mapFirst, hp, ih]

theorem reaches_writeField_self (field : ContentField) (text : Text) (choice : Json) :
    reaches field (writeField field text choice) = reaches field choice := by
  rw [reaches, reaches, isSome_setField, isSome_setField]
  cases field with
  | content => simp only [contentOf_writeField, if_true, Option.isSome_map]
  | toolCallArguments callIndex =>
    simp only [toolCalls_writeField]
    rw [find?_mapFirst_self fun call => by rw [indexOf_mapKey (by decide)]]
    cases (toolCalls choice).find? fun call => decide (indexOf call = callIndex) with
    | none => rfl
    | some call => simp only [Option.map_some, Option.bind_some, callArguments_put,
        Option.isSome_map]

theorem reaches_writeField (field other : ContentField) (text : Text) (choice : Json) :
    reaches field (writeField other text choice) = reaches field choice := by
  by_cases hne : field = other
  · subst hne
    exact reaches_writeField_self field text choice
  · exact reaches_writeField_of_ne hne text choice

/-- No write changes what is reached. -/
@[simp] theorem keyReached_writeSlot (key other : ContentKey) (text : Text) (chunk : Json) :
    keyReached key (writeSlot other text chunk) = keyReached key chunk := by
  rw [keyReached_eq, keyReached_eq, choices_writeSlot]
  generalize ((chunk.get "choices").bind Json.asArray).getD [] = choices
  by_cases hi : key.1 = other.1
  · rw [hi, find?_mapFirst_self fun choice => by rw [indexOf_writeField], Option.any_map]
    congr 1
    funext choice
    exact reaches_writeField key.2 other.2 text choice
  · rw [find?_mapFirst_of_disjoint (fun choice => by rw [indexOf_writeField])]
    intro choice hchoice
    have hother : indexOf choice = other.1 := by simpa using hchoice
    simpa [hother] using Ne.symm hi

/-- What is read of a key after a write to it: the text that was written, if the write reaches a
slot, and then what it did not reach. -/
theorem textsOf_writeSlot_self (key : ContentKey) (text : Text) (chunk : Json) :
    textsOf key (deltaContents (writeSlot key text chunk)) =
      if keyReached key chunk then text :: (textsOf key (deltaContents chunk)).tail
      else textsOf key (deltaContents chunk) := by
  rw [textsOf_deltaContents, textsOf_deltaContents, choices_writeSlot, keyReached_eq]
  induction ((chunk.get "choices").bind Json.asArray).getD [] with
  | nil => rfl
  | cons choice choices ih =>
    by_cases hi : indexOf choice = key.1
    · simp only [Json.mapFirst, hi, decide_true, if_true, List.flatMap_cons, List.find?_cons,
        Option.any_some, indexOf_writeField, fieldTexts_writeField]
      by_cases hreach : reaches key.2 choice = true
      · have hne := fieldTexts_of_reaches hreach
        simp [hreach, List.tail_append_of_ne_nil hne]
      · simp [hreach]
    · simpa [Json.mapFirst, hi, List.find?_cons] using ih

/-- A write to one key does not show in another. -/
theorem textsOf_writeSlot_of_ne {key other : ContentKey} (hne : key ≠ other) (text : Text)
    (chunk : Json) :
    textsOf key (deltaContents (writeSlot other text chunk)) =
      textsOf key (deltaContents chunk) := by
  rw [textsOf_deltaContents, textsOf_deltaContents, choices_writeSlot]
  induction ((chunk.get "choices").bind Json.asArray).getD [] with
  | nil => rfl
  | cons choice choices ih =>
    by_cases hother : indexOf choice = other.1
    · by_cases hi : indexOf choice = key.1
      · have hfield : key.2 ≠ other.2 := fun h => hne (Prod.ext (hi.symm.trans hother) h)
        simp [Json.mapFirst, hother, fieldTexts_writeField_of_ne hfield]
      · have hne' : other.1 ≠ key.1 := fun h => hi (hother.trans h)
        simp [Json.mapFirst, hother, hne']
    · simp only [Json.mapFirst, hother, decide_false, Bool.false_eq_true, if_false,
        List.flatMap_cons, ih]

/-- A write that finds a slot finds a text. -/
theorem textsOf_ne_nil_of_keyReached {key : ContentKey} {chunk : Json}
    (h : keyReached key chunk = true) : textsOf key (deltaContents chunk) ≠ [] := by
  rw [keyReached_eq] at h
  obtain ⟨choice, hfind, hreach⟩ := (Option.any_eq_true _ _).mp h
  have hi : indexOf choice = key.1 := by simpa using List.find?_some hfind
  obtain ⟨text, htext⟩ := List.exists_mem_of_ne_nil _ (fieldTexts_of_reaches hreach)
  rw [textsOf_deltaContents]
  refine List.ne_nil_of_mem (a := text) (List.mem_flatMap.mpr
    ⟨choice, List.mem_of_find?_eq_some hfind, ?_⟩)
  rw [if_pos hi]
  exact htext

/-- Writes change no number of slots. -/
@[simp] theorem length_textsOf_writeSlot (key other : ContentKey) (text : Text) (chunk : Json) :
    (textsOf key (deltaContents (writeSlot other text chunk))).length =
      (textsOf key (deltaContents chunk)).length := by
  by_cases hne : key = other
  · subst hne
    rw [textsOf_writeSlot_self]
    split
    · rename_i hreach
      have hpos := List.length_pos_iff.mpr (textsOf_ne_nil_of_keyReached hreach)
      rw [List.length_cons, List.length_tail]
      omega
    · rfl
  · rw [textsOf_writeSlot_of_ne hne]

end Governance
