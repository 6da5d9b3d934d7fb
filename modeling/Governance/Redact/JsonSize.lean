import Governance.Redact.Slots

/-!
# How large a chunk is

The size of a value counts its nodes and the bytes of its strings and keys. Its slots are part of it
(`slotBytes_le`), and a write adds at most the text that is written (`size_writeSlot_le`).
-/

namespace Governance

open Utf8Text
open String (utf8Len)

namespace Json

mutual

/-- The nodes of a value and the bytes of its strings and keys. -/
def size : Json → ℕ
  | .null => 1
  | .bool _ => 1
  | .num _ => 1
  | .str s => 1 + utf8Len s
  | .arr items => 1 + sizeItems items
  | .obj entries => 1 + sizeEntries entries

/-- The size of some values. -/
def sizeItems : List Json → ℕ
  | [] => 0
  | v :: vs => size v + sizeItems vs

/-- The size of some entries. -/
def sizeEntries : List (String × Json) → ℕ
  | [] => 0
  | (key, v) :: entries => utf8Len key.toList + size v + sizeEntries entries

end

theorem size_pos (v : Json) : 0 < v.size := by
  cases v <;> simp only [size] <;> omega

section Rewrites

variable {key : String} {f : Json → Json} {p : Json → Bool} {d : ℕ}

theorem size_mapKey_le (hf : ∀ v, (f v).size ≤ v.size + d) (v : Json) :
    (mapKey key f v).size ≤ v.size + d := by
  cases v with
  | obj entries =>
    have hentries : sizeEntries (mapEntry key f entries) ≤ sizeEntries entries + d := by
      induction entries with
      | nil => exact Nat.zero_le _
      | cons entry rest ih =>
        obtain ⟨k, v⟩ := entry
        by_cases hk : k = key
        · have := hf v
          simp only [mapEntry, if_pos hk, sizeEntries]
          omega
        · simp only [mapEntry, if_neg hk, sizeEntries]
          omega
    simp only [mapKey, size]
    omega
  | _ => exact Nat.le_add_right _ _

theorem size_mapArray_le {g : List Json → List Json}
    (hg : ∀ xs, sizeItems (g xs) ≤ sizeItems xs + d) (v : Json) :
    (mapArray g v).size ≤ v.size + d := by
  cases v with
  | arr items =>
    have := hg items
    simp only [mapArray, size]
    omega
  | _ => exact Nat.le_add_right _ _

theorem sizeItems_mapFirst_le (hf : ∀ v, (f v).size ≤ v.size + d) (xs : List Json) :
    sizeItems (mapFirst p f xs) ≤ sizeItems xs + d := by
  induction xs with
  | nil => exact Nat.zero_le _
  | cons x xs ih =>
    by_cases hx : p x = true
    · have := hf x
      simp only [mapFirst, hx, if_true, sizeItems]
      omega
    · simp only [mapFirst, hx, Bool.false_eq_true, if_false, sizeItems]
      omega

theorem size_putStr_le (text : Text) (v : Json) : (putStr text v).size ≤ v.size + utf8Len text := by
  cases v with
  | str s =>
    simp only [putStr, size]
    omega
  | _ => exact Nat.le_add_right _ _

end Rewrites

/-- What an object has under a key is smaller. -/
theorem size_le_of_get {key : String} {v x : Json} (h : v.get key = some x) : x.size ≤ v.size := by
  cases v with
  | obj entries =>
    have hentries : x.size ≤ sizeEntries entries := by
      have hlookup : entries.lookup key = some x := h
      clear h
      induction entries with
      | nil => cases hlookup
      | cons entry rest ih =>
        obtain ⟨k, v⟩ := entry
        rw [List.lookup_cons] at hlookup
        simp only [sizeEntries]
        cases hk : key == k with
        | true =>
          rw [hk] at hlookup
          obtain rfl : v = x := by simpa using hlookup
          omega
        | false =>
          rw [hk] at hlookup
          have := ih hlookup
          omega
    simp only [size]
    omega
  | _ => cases h

theorem sizeItems_le_of_asArray {v : Json} {items : List Json} (h : v.asArray = some items) :
    sizeItems items ≤ v.size := by
  cases v with
  | arr xs =>
    obtain rfl : xs = items := by simpa [asArray] using h
    simp only [size]
    omega
  | _ => cases h

theorem utf8Len_lt_of_asStr {v : Json} {text : Text} (h : v.asStr = some text) :
    utf8Len text < v.size := by
  cases v with
  | str s =>
    obtain rfl : s = text := by simpa [asStr] using h
    simp only [size]
    omega
  | _ => cases h

end Json

open Json

/-! ## The slots -/

theorem size_writeField_le (field : ContentField) (text : Text) (choice : Json) :
    (writeField field text choice).size ≤ choice.size + utf8Len text := by
  cases field with
  | content => exact size_mapKey_le (size_mapKey_le (size_putStr_le text)) choice
  | toolCallArguments callIndex =>
    refine size_mapKey_le (size_mapKey_le (size_mapArray_le ?_)) choice
    exact sizeItems_mapFirst_le (size_mapKey_le (size_mapKey_le (size_putStr_le text)))

/-- A write adds the text that is written, at most. -/
theorem size_writeSlot_le (key : ContentKey) (text : Text) (chunk : Json) :
    (writeSlot key text chunk).size ≤ chunk.size + utf8Len text := by
  rw [writeSlot_eq]
  refine size_mapKey_le (size_mapArray_le ?_) chunk
  exact sizeItems_mapFirst_le (size_writeField_le key.2 text)

/-- The bytes of some contributions, and one for each. -/
def slotBytes (cs : List (ContentKey × Text)) : ℕ := (cs.map fun c => 1 + utf8Len c.2).sum

theorem slotBytes_append (a b : List (ContentKey × Text)) :
    slotBytes (a ++ b) = slotBytes a + slotBytes b := by
  simp [slotBytes]

theorem length_le_slotBytes (cs : List (ContentKey × Text)) : cs.length ≤ slotBytes cs := by
  induction cs with
  | nil => exact le_rfl
  | cons c cs ih =>
    simp only [slotBytes, List.map_cons, List.sum_cons, List.length_cons] at ih ⊢
    omega

theorem utf8Len_le_slotBytes {cs : List (ContentKey × Text)} {c : ContentKey × Text}
    (h : c ∈ cs) : utf8Len c.2 ≤ slotBytes cs := by
  have hle := List.single_le_sum (by simp) _ (List.mem_map_of_mem (f := fun c => 1 + utf8Len c.2) h)
  simp only [slotBytes]
  omega

theorem slotBytes_flatMap_le {f : Json → List (ContentKey × Text)} {n : ℕ}
    (hf : ∀ v, slotBytes (f v) ≤ n * v.size) (xs : List Json) :
    slotBytes (xs.flatMap f) ≤ n * sizeItems xs := by
  induction xs with
  | nil => exact Nat.zero_le _
  | cons x xs ih =>
    have := hf x
    rw [List.flatMap_cons, slotBytes_append, sizeItems, Nat.mul_add]
    omega

theorem utf8Len_callArguments_lt {call : Json} {text : Text} (h : callArguments call = some text) :
    utf8Len text < call.size := by
  obtain ⟨args, hargs, htext⟩ := Option.bind_eq_some_iff.mp h
  obtain ⟨function, hfunction, hargs⟩ := Option.bind_eq_some_iff.mp hargs
  have h1 := utf8Len_lt_of_asStr htext
  have h2 := size_le_of_get hargs
  have h3 := size_le_of_get hfunction
  omega

theorem slotBytes_choiceContents_le (choice : Json) :
    slotBytes (choiceContents choice) ≤ 2 * choice.size := by
  unfold choiceContents
  cases hdelta : choice.get "delta" with
  | none => exact Nat.zero_le _
  | some delta =>
    have hle := size_le_of_get hdelta
    simp only [slotBytes_append]
    -- the content is inside the delta, and so are the arguments of its calls
    refine (Nat.add_le_add (b := delta.size) (d := delta.size) ?_ ?_).trans (by omega)
    · cases hc : (delta.get "content").bind Json.asStr with
      | none => exact Nat.zero_le _
      | some text =>
        obtain ⟨v, hv, htext⟩ := Option.bind_eq_some_iff.mp hc
        have h1 := utf8Len_lt_of_asStr htext
        have h2 := size_le_of_get hv
        simp only [slotBytes, List.map_cons, List.map_nil, List.sum_cons, List.sum_nil]
        omega
    · cases hc : (delta.get "tool_calls").bind Json.asArray with
      | none => exact Nat.zero_le _
      | some calls =>
        obtain ⟨v, hv, hitems⟩ := Option.bind_eq_some_iff.mp hc
        have h1 := sizeItems_le_of_asArray hitems
        have h2 := size_le_of_get hv
        refine le_trans ?_ (h1.trans h2)
        show slotBytes (calls.filterMap _) ≤ _
        clear hitems h1 hc
        induction calls with
        | nil => exact Nat.zero_le _
        | cons call calls ih =>
          cases hargs : callArguments call with
          | none =>
            rw [List.filterMap_cons_none (by simp [hargs]), sizeItems]
            omega
          | some text =>
            have hlt := utf8Len_callArguments_lt hargs
            rw [List.filterMap_cons_some (by rw [hargs]; rfl), sizeItems]
            simp only [slotBytes, List.map_cons, List.sum_cons] at ih ⊢
            omega

/-- The slots of a chunk are part of it. -/
theorem slotBytes_le (chunk : Json) : slotBytes (deltaContents chunk) ≤ 2 * chunk.size := by
  unfold deltaContents
  cases hc : (chunk.get "choices").bind Json.asArray with
  | none => exact Nat.zero_le _
  | some choices =>
    obtain ⟨v, hv, hitems⟩ := Option.bind_eq_some_iff.mp hc
    have h1 := sizeItems_le_of_asArray hitems
    have h2 := size_le_of_get hv
    have h3 := slotBytes_flatMap_le slotBytes_choiceContents_le choices
    show slotBytes (choices.flatMap choiceContents) ≤ _
    omega

end Governance
