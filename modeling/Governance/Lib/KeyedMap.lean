import Mathlib

/-!
# Finite maps that are iterated in an arbitrary order

A hash map answers lookups, and iterates over its keys in an order that a program must
not rely on. `KeyedMap` keeps the keys as a list beside the lookup, with the invariant
that the list holds exactly the keys that have a value, each once. `IterOrder` is one
order of iteration: some permutation of whatever keys there are.
-/

universe u v

/-- A lookup together with the list of the keys it answers. -/
@[ext] structure KeyedMap (κ : Type u) (ν : Type v) where
  keys : List κ
  get? : κ → Option ν
  nodup : keys.Nodup
  mem_keys : ∀ k, k ∈ keys ↔ (get? k).isSome

/-- An order in which a map's keys are visited. -/
structure IterOrder (κ : Type u) where
  visit : List κ → List κ
  perm : ∀ keys, (visit keys).Perm keys

namespace KeyedMap

variable {κ : Type u} {ν : Type v} [DecidableEq κ]

/-- The map without keys. -/
def empty : KeyedMap κ ν := ⟨[], fun _ => none, List.nodup_nil, by simp⟩

/-- Sets the value of one key. -/
def insert (m : KeyedMap κ ν) (k : κ) (v : ν) : KeyedMap κ ν where
  keys := if k ∈ m.keys then m.keys else m.keys ++ [k]
  get? := Function.update m.get? k (some v)
  nodup := by
    split
    · exact m.nodup
    · next hk => exact List.nodup_append.mpr ⟨m.nodup, List.nodup_singleton k, by
        intro a ha b hb
        rw [List.mem_singleton.mp hb]
        rintro rfl
        exact hk ha⟩
  mem_keys := by
    intro j
    by_cases hj : j = k
    · subst hj
      split
      · next hk => simpa using hk
      · simp
    · have hm := m.mem_keys j
      split
      · simpa [hj] using hm
      · simpa [hj] using hm

omit [DecidableEq κ] in
@[simp] theorem get?_empty (k : κ) : (empty : KeyedMap κ ν).get? k = none := rfl

omit [DecidableEq κ] in
@[simp] theorem keys_empty : (empty : KeyedMap κ ν).keys = [] := rfl

@[simp] theorem get?_insert_self (m : KeyedMap κ ν) (k : κ) (v : ν) :
    (m.insert k v).get? k = some v := by
  simp [insert]

theorem get?_insert_of_ne (m : KeyedMap κ ν) {j k : κ} (v : ν) (h : j ≠ k) :
    (m.insert k v).get? j = m.get? j := by
  simp [insert, h]

theorem get?_insert (m : KeyedMap κ ν) (j k : κ) (v : ν) :
    (m.insert k v).get? j = if j = k then some v else m.get? j := by
  by_cases h : j = k
  · simp [h]
  · simp [h, get?_insert_of_ne m v h]

/-- A key that was there keeps its place. -/
theorem keys_insert_of_mem (m : KeyedMap κ ν) {k : κ} (v : ν) (h : k ∈ m.keys) :
    (m.insert k v).keys = m.keys := by
  simp [insert, h]

/-- Setting a key to the value it has changes nothing. -/
theorem insert_eq_self (m : KeyedMap κ ν) {k : κ} {v : ν} (h : m.get? k = some v) :
    m.insert k v = m := by
  have hmem : k ∈ m.keys := (m.mem_keys k).mpr (by simp [h])
  refine KeyedMap.ext (keys_insert_of_mem m v hmem) ?_
  show Function.update m.get? k (some v) = m.get?
  rw [← h, Function.update_eq_self]

/-- Of two values set to one key the second stays. -/
theorem insert_insert (m : KeyedMap κ ν) (k : κ) (v w : ν) :
    (m.insert k v).insert k w = m.insert k w := by
  refine KeyedMap.ext ?_ ?_
  · by_cases hk : k ∈ m.keys <;> simp [insert, hk]
  · show Function.update (Function.update m.get? k (some v)) k (some w) = _
    rw [Function.update_idem]
    rfl

/-- Values set to two keys that are there can be set in either order. -/
theorem insert_comm (m : KeyedMap κ ν) {j k : κ} (hne : j ≠ k) (hj : j ∈ m.keys) (hk : k ∈ m.keys)
    (v w : ν) : (m.insert j v).insert k w = (m.insert k w).insert j v := by
  refine KeyedMap.ext ?_ ?_
  · simp [insert, hj, hk]
  · exact Function.update_comm hne (some v) (some w) m.get?

theorem mem_keys_insert (m : KeyedMap κ ν) (j k : κ) (v : ν) :
    j ∈ (m.insert k v).keys ↔ j = k ∨ j ∈ m.keys := by
  rw [mem_keys, mem_keys, get?_insert]
  by_cases h : j = k <;> simp [h]

/-- The sum of a measure over the values. -/
def sumBy (f : ν → ℕ) (m : KeyedMap κ ν) : ℕ :=
  (m.keys.map fun k => (m.get? k).elim 0 f).sum

omit [DecidableEq κ] in
@[simp] theorem sumBy_empty (f : ν → ℕ) : (empty : KeyedMap κ ν).sumBy f = 0 := rfl

/-- Summing over keys that do not include `k` does not see an update of `k`. -/
private theorem sum_map_update (f : ν → ℕ) (g : κ → Option ν) {k : κ} (v : ν) {keys : List κ}
    (hk : k ∉ keys) :
    (keys.map fun j => (Function.update g k (some v) j).elim 0 f).sum =
      (keys.map fun j => (g j).elim 0 f).sum := by
  congr 1
  refine List.map_congr_left fun j hj => ?_
  have hne : j ≠ k := by
    rintro rfl
    exact hk hj
  rw [Function.update_of_ne hne]

/-- Setting one key exchanges its term of the sum. -/
theorem sumBy_insert (f : ν → ℕ) (m : KeyedMap κ ν) (k : κ) (v : ν) :
    (m.insert k v).sumBy f + (m.get? k).elim 0 f = m.sumBy f + f v := by
  by_cases hk : k ∈ m.keys
  · obtain ⟨pre, post, hsplit⟩ := List.append_of_mem hk
    have hnodup := m.nodup
    rw [hsplit, List.nodup_append] at hnodup
    obtain ⟨_, hpost, hdisj⟩ := hnodup
    have hpre : k ∉ pre := fun h => hdisj k h k (by simp) rfl
    have hrest : k ∉ post := (List.nodup_cons.mp hpost).1
    have hkeys : (m.insert k v).keys = pre ++ k :: post := by
      rw [keys_insert_of_mem m v hk, hsplit]
    simp only [sumBy, hkeys, hsplit, List.map_append, List.map_cons, List.sum_append,
      List.sum_cons]
    simp only [insert, Function.update_self, Option.elim_some,
      sum_map_update f m.get? v hpre, sum_map_update f m.get? v hrest]
    omega
  · have hnone : m.get? k = none := by
      have := (m.mem_keys k).not.mp hk
      simpa using this
    simp [sumBy, insert, hk, hnone, sum_map_update f m.get? v hk]

omit [DecidableEq κ] in
/-- A sum that vanishes vanishes at every key. -/
theorem eq_zero_of_sumBy_eq_zero {f : ν → ℕ} {m : KeyedMap κ ν} (h : m.sumBy f = 0)
    {k : κ} {v : ν} (hv : m.get? k = some v) : f v = 0 := by
  have hmem : k ∈ m.keys := (m.mem_keys k).mpr (by simp [hv])
  have hz := List.sum_eq_zero_iff.mp h ((m.get? k).elim 0 f) (List.mem_map_of_mem hmem)
  simpa [hv] using hz

omit [DecidableEq κ] in
/-- A measure that vanishes everywhere has no sum. -/
theorem sumBy_eq_zero {f : ν → ℕ} {m : KeyedMap κ ν}
    (h : ∀ k v, m.get? k = some v → f v = 0) : m.sumBy f = 0 := by
  refine List.sum_eq_zero_iff.mpr fun x hx => ?_
  obtain ⟨k, _, rfl⟩ := List.mem_map.mp hx
  cases hk : m.get? k with
  | none => rfl
  | some v => exact h k v hk

omit [DecidableEq κ] in
/-- A sum bounds each of its terms. -/
theorem le_sumBy (f : ν → ℕ) {m : KeyedMap κ ν} {k : κ} {v : ν} (hv : m.get? k = some v) :
    f v ≤ m.sumBy f := by
  have hmem : k ∈ m.keys := (m.mem_keys k).mpr (by simp [hv])
  have hle := List.single_le_sum (by simp) _
    (List.mem_map_of_mem (f := fun k => (m.get? k).elim 0 f) hmem)
  rw [hv] at hle
  exact hle

omit [DecidableEq κ] in
theorem sumBy_le_sumBy {f g : ν → ℕ} {m : KeyedMap κ ν}
    (h : ∀ k v, m.get? k = some v → f v ≤ g v) : m.sumBy f ≤ m.sumBy g := by
  refine List.sum_le_sum fun k _ => ?_
  cases hk : m.get? k with
  | none => exact le_rfl
  | some v => exact h k v hk

omit [DecidableEq κ] in
theorem sumBy_mul (f : ν → ℕ) (n : ℕ) (m : KeyedMap κ ν) :
    m.sumBy (fun v => f v * n) = m.sumBy f * n := by
  rw [sumBy, sumBy, ← List.sum_map_mul_right]
  congr 1
  refine List.map_congr_left fun k _ => ?_
  cases m.get? k with
  | none => exact (Nat.zero_mul n).symm
  | some v => rfl

omit [DecidableEq κ] in
/-- Sums over the values and over a list may be exchanged. -/
theorem sumBy_sum {ι : Type*} (f : ι → ν → ℕ) (xs : List ι) (m : KeyedMap κ ν) :
    m.sumBy (fun v => (xs.map fun i => f i v).sum) = (xs.map fun i => m.sumBy (f i)).sum := by
  induction xs with
  | nil => exact sumBy_eq_zero fun _ _ _ => rfl
  | cons i xs ih =>
    rw [List.map_cons, List.sum_cons, ← ih, sumBy, sumBy, sumBy, ← List.sum_map_add]
    congr 1
    refine List.map_congr_left fun k _ => ?_
    cases m.get? k <;> rfl

end KeyedMap
