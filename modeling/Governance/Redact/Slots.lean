import Governance.Redact.Streaming

/-!
# Reading, writing and erasing the slots of a chunk

A caller of `set_delta_content` goes on with the chunk it has when the write is refused, so
what counts is `writeSlot`, the write as a total function. It is a nest of total rewrites
(`writeSlot_eq`), and the facts the stream proofs need follow from that form: a write
changes nothing but slots (`eraseSlots_writeSlot`), and writes of different keys commute
(`writeSlot_comm`).

`eraseSlots` blanks every slot `deltaContents` reads. Two chunks with the same erasure
differ in those slots only.
-/

namespace Governance

open Utf8Text

/-- A rewrite that leaves what it refuses as it was. -/
def orSelf {α : Type*} (f : α → Option α) (x : α) : α := (f x).getD x

namespace Json

/-- Rewrites the first entry of `key` by a total function. -/
def mapEntry (key : String) (f : Json → Json) : List (String × Json) → List (String × Json)
  | [] => []
  | (k, v) :: rest => if k = key then (k, f v) :: rest else (k, v) :: mapEntry key f rest

/-- Rewrites the value under `key`, if there is one. -/
def mapKey (key : String) (f : Json → Json) : Json → Json
  | .obj entries => .obj (mapEntry key f entries)
  | v => v

/-- Rewrites the elements of an array. -/
def mapArray (f : List Json → List Json) : Json → Json
  | .arr items => .arr (f items)
  | v => v

/-- Rewrites the first element that satisfies `p`. -/
def mapFirst (p : Json → Bool) (f : Json → Json) : List Json → List Json
  | [] => []
  | x :: xs => if p x then f x :: xs else x :: mapFirst p f xs

/-- Replaces a string, and leaves any other value. -/
def putStr (text : Text) : Json → Json
  | .str _ => .str text
  | v => v

variable {key other : String} {f g : Json → Json} {p q : Json → Bool}

theorem orSelf_setStr (text : Text) : orSelf (setStr text) = putStr text := by
  funext v
  cases v <;> rfl

theorem orSelf_update (f : Json → Option Json) : orSelf (update key f) = mapKey key (orSelf f) := by
  funext v
  cases v with
  | obj entries =>
    have hentries : (updateEntry key f entries).getD entries =
        mapEntry key (orSelf f) entries := by
      induction entries with
      | nil => rfl
      | cons kv rest ih =>
        obtain ⟨k, x⟩ := kv
        by_cases hk : k = key
        · cases hx : f x <;> simp [updateEntry, mapEntry, orSelf, hk, hx]
        · cases hrest : updateEntry key f rest with
          | none => rw [hrest] at ih; simpa [updateEntry, mapEntry, hk, hrest] using ih
          | some rest' => rw [hrest] at ih; simpa [updateEntry, mapEntry, hk, hrest] using ih
    rw [mapKey, ← hentries]
    cases h : updateEntry key f entries <;> simp [orSelf, update, h]
  | _ => rfl

theorem orSelf_updateArray (f : List Json → Option (List Json)) :
    orSelf (updateArray f) = mapArray (orSelf f) := by
  funext v
  cases v with
  | arr items => cases h : f items <;> simp [orSelf, updateArray, mapArray, h]
  | _ => rfl

theorem orSelf_updateFirst (f : Json → Option Json) :
    orSelf (updateFirst p f) = mapFirst p (orSelf f) := by
  funext xs
  induction xs with
  | nil => rfl
  | cons x xs ih =>
    by_cases hx : p x
    · cases h : f x <;> simp [orSelf, updateFirst, mapFirst, hx, h]
    · rw [mapFirst, if_neg hx, ← ih]
      cases h : updateFirst p f xs <;> simp [orSelf, updateFirst, hx, h]

theorem mapKey_mapKey (v : Json) : mapKey key g (mapKey key f v) = mapKey key (g ∘ f) v := by
  cases v with
  | obj entries =>
    simp only [mapKey, obj.injEq]
    induction entries with
    | nil => rfl
    | cons kv rest ih =>
      by_cases hk : kv.1 = key
      · simp [mapEntry, hk]
      · simp [mapEntry, hk, ih]
  | _ => rfl

theorem mapKey_comm (hne : other ≠ key) (v : Json) :
    mapKey key f (mapKey other g v) = mapKey other g (mapKey key f v) := by
  cases v with
  | obj entries =>
    simp only [mapKey, obj.injEq]
    induction entries with
    | nil => rfl
    | cons kv rest ih =>
      obtain ⟨k, x⟩ := kv
      by_cases hk : k = key
      · subst hk
        simp [mapEntry, Ne.symm hne]
      · by_cases ho : k = other
        · subst ho
          simp [mapEntry, hk]
        · simp [mapEntry, hk, ho, ih]
  | _ => rfl

/-- A rewrite under one key does not show under another. -/
theorem get_mapKey (hne : other ≠ key) (v : Json) : (mapKey other f v).get key = v.get key := by
  cases v with
  | obj entries =>
    simp only [mapKey, Json.get]
    induction entries with
    | nil => rfl
    | cons kv rest ih =>
      obtain ⟨k, x⟩ := kv
      by_cases ho : k = other
      · subst ho
        simp [mapEntry, List.lookup, beq_eq_false_iff_ne.mpr (Ne.symm hne)]
      · by_cases hk : key = k
        · simp [mapEntry, ho, List.lookup, hk]
        · simp [mapEntry, ho, List.lookup, beq_eq_false_iff_ne.mpr hk, ih]
  | _ => rfl

theorem get_mapKey_self (name : String) (g : Json → Json) (v : Json) :
    (mapKey name g v).get name = (v.get name).map g := by
  cases v with
  | obj entries =>
    simp only [mapKey, Json.get]
    induction entries with
    | nil => rfl
    | cons kv rest ih =>
      obtain ⟨k, x⟩ := kv
      by_cases hk : k = name
      · simp [mapEntry, hk]
      · have hne : (name == k) = false := beq_eq_false_iff_ne.mpr (Ne.symm hk)
        simp [mapEntry, hk, List.lookup, hne, ih]
  | _ => rfl

theorem mapArray_comm {F G : List Json → List Json} (h : Function.Commute F G) :
    Function.Commute (mapArray F) (mapArray G) := by
  intro v
  cases v with
  | arr items => exact congrArg arr (h items)
  | _ => rfl

/-- Rewrites of one element commute when they keep it the element they look for. -/
theorem mapFirst_comm (hf : ∀ x, p (f x) = p x) (hg : ∀ x, p (g x) = p x)
    (h : Function.Commute f g) : Function.Commute (mapFirst p f) (mapFirst p g) := by
  intro xs
  induction xs with
  | nil => rfl
  | cons x xs ih =>
    by_cases hx : p x
    · simp [mapFirst, hx, hf, hg, h x]
    · simp [mapFirst, hx, ih]

/-- Rewrites of elements that cannot be the same one commute. -/
theorem mapFirst_comm_of_disjoint (hf : ∀ x, q (f x) = q x) (hg : ∀ x, p (g x) = p x)
    (hpq : ∀ x, p x = true → q x = false) : Function.Commute (mapFirst p f) (mapFirst q g) := by
  intro xs
  induction xs with
  | nil => rfl
  | cons x xs ih =>
    by_cases hp : p x
    · simp [mapFirst, hp, hpq x hp, hf]
    · by_cases hq : q x
      · simp [mapFirst, hp, hq, hg]
      · simp [mapFirst, hp, hq, ih]

/-- A rewrite of one element is invisible to a map that cannot see it. -/
theorem map_mapFirst (h : ∀ x, g (f x) = g x) (xs : List Json) :
    (mapFirst p f xs).map g = xs.map g := by
  induction xs with
  | nil => rfl
  | cons x xs ih =>
    by_cases hp : p x
    · simp [mapFirst, hp, h]
    · simp [mapFirst, hp, ih]

end Json

/-! ## The write as a total function -/

/-- A chunk after `set_delta_content`, whatever it answered. -/
def writeSlot (key : ContentKey) (text : Text) (chunk : Json) : Json :=
  orSelf (fun c => setDeltaContent c key text) chunk

/-- A choice after the write of one field. -/
def writeField (field : ContentField) (text : Text) : Json → Json :=
  match field with
  | .content => Json.mapKey "delta" (Json.mapKey "content" (Json.putStr text))
  | .toolCallArguments callIndex =>
    Json.mapKey "delta" <| Json.mapKey "tool_calls" <| Json.mapArray <|
      Json.mapFirst (fun call => indexOf call = callIndex)
        (Json.mapKey "function" (Json.mapKey "arguments" (Json.putStr text)))

theorem orSelf_setField (field : ContentField) (text : Text) :
    orSelf (setField field text) = writeField field text := by
  cases field with
  | content =>
    show orSelf (Json.update _ _) = _
    rw [Json.orSelf_update, Json.orSelf_update, Json.orSelf_setStr]
    rfl
  | toolCallArguments callIndex =>
    show orSelf (Json.update _ _) = _
    rw [Json.orSelf_update, Json.orSelf_update, Json.orSelf_updateArray, Json.orSelf_updateFirst,
      Json.orSelf_update, Json.orSelf_update, Json.orSelf_setStr]
    rfl

theorem writeSlot_eq (key : ContentKey) (text : Text) :
    writeSlot key text = Json.mapKey "choices" (Json.mapArray
      (Json.mapFirst (fun choice => indexOf choice = key.1) (writeField key.2 text))) := by
  show orSelf (Json.update _ _) = _
  rw [Json.orSelf_update, Json.orSelf_updateArray, Json.orSelf_updateFirst, orSelf_setField]

theorem indexOf_mapKey {key : String} (hne : key ≠ "index") (f : Json → Json) (v : Json) :
    indexOf (Json.mapKey key f v) = indexOf v := by
  rw [indexOf, indexOf, Json.get_mapKey hne]

@[simp] theorem indexOf_writeField (field : ContentField) (text : Text) (choice : Json) :
    indexOf (writeField field text choice) = indexOf choice := by
  cases field with
  | content => exact indexOf_mapKey (by decide) _ choice
  | toolCallArguments callIndex => exact indexOf_mapKey (by decide) _ choice

theorem mapKey_comm_self {key : String} {f g : Json → Json} (h : Function.Commute f g) :
    Function.Commute (Json.mapKey key f) (Json.mapKey key g) := by
  intro v
  rw [Json.mapKey_mapKey, Json.mapKey_mapKey]
  congr 1
  funext x
  exact h x

/-- Writes of two fields of one choice commute. -/
theorem writeField_comm {a b : ContentField} (hne : a ≠ b) (s t : Text) :
    Function.Commute (writeField a s) (writeField b t) := by
  cases a with
  | content =>
    cases b with
    | content => exact absurd rfl hne
    | toolCallArguments j => exact mapKey_comm_self (Json.mapKey_comm (by decide))
  | toolCallArguments i =>
    cases b with
    | content => exact mapKey_comm_self (Json.mapKey_comm (by decide))
    | toolCallArguments j =>
      refine mapKey_comm_self (mapKey_comm_self (Json.mapArray_comm ?_))
      have hij : i ≠ j := fun h => hne (h ▸ rfl)
      refine Json.mapFirst_comm_of_disjoint ?_ ?_ ?_
      · intro call
        rw [indexOf_mapKey (by decide)]
      · intro call
        rw [indexOf_mapKey (by decide)]
      · intro call hcall
        have hi : indexOf call = i := by simpa using hcall
        simpa [hi] using hij

/-- Writes of two keys commute. -/
theorem writeSlot_comm {a b : ContentKey} (hne : a ≠ b) (s t : Text) :
    Function.Commute (writeSlot a s) (writeSlot b t) := by
  rw [writeSlot_eq, writeSlot_eq]
  refine mapKey_comm_self (Json.mapArray_comm ?_)
  obtain ⟨i, x⟩ := a
  obtain ⟨j, y⟩ := b
  by_cases hij : i = j
  · subst hij
    have hxy : x ≠ y := fun h => hne (h ▸ rfl)
    exact Json.mapFirst_comm (by simp) (by simp) (writeField_comm hxy s t)
  · refine Json.mapFirst_comm_of_disjoint (by simp) (by simp) fun choice hchoice => ?_
    have hi : indexOf choice = i := by simpa using hchoice
    simpa [hi] using hij

/-! ## Erasing the slots -/

/-- Blanks the slots of one choice. -/
def eraseChoice (choice : Json) : Json :=
  Json.mapKey "delta" (fun delta => Json.mapKey "content" (Json.putStr []) <|
    Json.mapKey "tool_calls" (Json.mapArray (List.map
      (Json.mapKey "function" (Json.mapKey "arguments" (Json.putStr []))))) delta) choice

/-- Blanks every slot `deltaContents` reads. -/
def eraseSlots (chunk : Json) : Json :=
  Json.mapKey "choices" (Json.mapArray (List.map eraseChoice)) chunk

theorem putStr_putStr (s t : Text) : Json.putStr t ∘ Json.putStr s = Json.putStr t := by
  funext v
  cases v <;> rfl

/-- Writing one field of a choice leaves its erasure as it was. -/
theorem eraseChoice_writeField (field : ContentField) (text : Text) (choice : Json) :
    eraseChoice (writeField field text choice) = eraseChoice choice := by
  cases field with
  | content =>
    show Json.mapKey _ _ (Json.mapKey _ _ _) = Json.mapKey _ _ _
    rw [Json.mapKey_mapKey]
    congr 1
    funext delta
    show Json.mapKey "content" _ (Json.mapKey "tool_calls" _ (Json.mapKey "content" _ delta)) = _
    rw [Json.mapKey_comm (by decide), Json.mapKey_mapKey, putStr_putStr]
    exact Json.mapKey_comm (by decide) delta
  | toolCallArguments callIndex =>
    show Json.mapKey _ _ (Json.mapKey _ _ _) = Json.mapKey _ _ _
    rw [Json.mapKey_mapKey]
    congr 1
    funext delta
    show Json.mapKey "content" _ (Json.mapKey "tool_calls" _ (Json.mapKey "tool_calls" _ delta)) = _
    rw [Json.mapKey_mapKey]
    congr 2
    funext calls
    cases calls with
    | arr items =>
      refine congrArg Json.arr (Json.map_mapFirst (fun call => ?_) items)
      rw [Json.mapKey_mapKey]
      congr 1
      funext fn
      show Json.mapKey "arguments" _ (Json.mapKey "arguments" _ fn) = _
      rw [Json.mapKey_mapKey, putStr_putStr]
    | _ => rfl

/-- A write changes nothing but slots `deltaContents` reads. -/
@[simp] theorem eraseSlots_writeSlot (key : ContentKey) (text : Text) (chunk : Json) :
    eraseSlots (writeSlot key text chunk) = eraseSlots chunk := by
  rw [writeSlot_eq, eraseSlots, Json.mapKey_mapKey, eraseSlots]
  congr 1
  funext choices
  cases choices with
  | arr items =>
    exact congrArg Json.arr (Json.map_mapFirst (eraseChoice_writeField key.2 text) items)
  | _ => rfl

end Governance
