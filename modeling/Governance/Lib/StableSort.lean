import Mathlib

/-!
# Sorting and selecting

Insertion sort is stable, so selecting from a sorted list is sorting the selection. The first
selected element of a sorted list is then the first of the sorted selection.
-/

universe u

namespace StableSort

variable {α : Type u} (r : α → α → Prop) [DecidableRel r]

theorem filter_orderedInsert [IsTrans α r] (p : α → Bool) (a : α) {l : List α}
    (hl : l.Pairwise r) :
    (l.orderedInsert r a).filter p =
      if p a then (l.filter p).orderedInsert r a else l.filter p := by
  induction l with
  | nil =>
    cases hp : p a <;> simp [hp]
  | cons b l ih =>
    rw [List.pairwise_cons] at hl
    by_cases hab : r a b
    · -- Everything behind `b` is behind `a` too, so `a` is inserted in front of what is selected.
      have hfront : ∀ c ∈ (b :: l).filter p, r a c := by
        intro c hc
        rcases List.mem_cons.mp (List.mem_of_mem_filter hc) with rfl | hcl
        · exact hab
        · exact Trans.trans hab (hl.1 c hcl)
      rw [List.orderedInsert_cons_of_le r l hab, List.filter_cons]
      cases hp : p a with
      | false => simp
      | true =>
        rw [if_pos rfl, if_pos rfl]
        cases hsel : (b :: l).filter p with
        | nil => rfl
        | cons c rest =>
          rw [List.orderedInsert_cons_of_le r rest (hfront c (hsel ▸ List.mem_cons_self))]
    · rw [List.orderedInsert_of_not_le r l hab, List.filter_cons, ih hl.2, List.filter_cons]
      cases hpb : p b with
      | false => simp
      | true =>
        cases hpa : p a with
        | false => simp
        | true => simp [List.orderedInsert_of_not_le r _ hab]

theorem filter_insertionSort [IsTrans α r] [Std.Total r] (p : α → Bool) (l : List α) :
    (l.insertionSort r).filter p = (l.filter p).insertionSort r := by
  induction l with
  | nil => rfl
  | cons a l ih =>
    rw [List.insertionSort_cons, filter_orderedInsert r p a (List.pairwise_insertionSort r l), ih,
      List.filter_cons]
    cases p a <;> simp

/-- The first selected element of a sorted list. -/
theorem find?_insertionSort [IsTrans α r] [Std.Total r] (p : α → Bool) (l : List α) :
    (l.insertionSort r).find? p = ((l.filter p).insertionSort r).head? := by
  rw [← filter_insertionSort, List.head?_filter]

/-- The first element of a sorted list is in front of every other. -/
theorem rel_of_head?_insertionSort [IsTrans α r] [Std.Total r] {l : List α} {a : α}
    (h : (l.insertionSort r).head? = some a) : a ∈ l ∧ ∀ b ∈ l, b = a ∨ r a b := by
  obtain ⟨rest, hrest⟩ := List.head?_eq_some_iff.mp h
  have hmem : ∀ b, b ∈ l ↔ b = a ∨ b ∈ rest := by
    intro b
    rw [← List.mem_insertionSort r, hrest, List.mem_cons]
  refine ⟨(hmem a).mpr (.inl rfl), fun b hb => ?_⟩
  have hsorted := List.pairwise_insertionSort r l
  rw [hrest, List.pairwise_cons] at hsorted
  rcases (hmem b).mp hb with rfl | hbrest
  · exact .inl rfl
  · exact .inr (hsorted.1 b hbrest)

end StableSort
