import Mathlib.Data.List.Basic

/-!
# Cutting a list at a separator

What the pieces of `List.splitOn` are when the list is known in parts, and what holds of all of them.
-/

namespace Cutting

variable {α : Type*} [DecidableEq α]

/-- What stands before the first separator goes to the first piece. -/
theorem splitOn_append_of_notMem {a : α} {front back first : List α} {rest : List (List α)}
    (h : a ∉ front) (hback : back.splitOn a = first :: rest) :
    (front ++ back).splitOn a = (front ++ first) :: rest := by
  induction front with
  | nil => exact hback
  | cons x front ih =>
    rw [List.mem_cons, not_or] at h
    rw [List.cons_append, List.splitOn_cons_eq_if_modifyHead, if_neg, ih h.2]
    · rfl
    · simpa using Ne.symm h.1

theorem splitOn_cons_self (a : α) (text : List α) :
    (a :: text).splitOn a = [] :: text.splitOn a := by
  rw [List.splitOn_cons_eq_if_modifyHead, if_pos (by simp)]

/-- What holds of a text and of both sides of every separator in it holds of every piece. -/
theorem forall_mem_splitOn {P : List α → Prop} {a : α}
    (hcut : ∀ front back, P (front ++ a :: back) → P front ∧ P back) {text : List α}
    (h : P text) : ∀ piece ∈ text.splitOn a, P piece := by
  induction hn : text.length using Nat.strongRecOn generalizing text with
  | _ n ih =>
    by_cases ha : a ∈ text
    · obtain ⟨front, back, rfl, hfront⟩ := List.eq_append_cons_of_mem ha
      rw [List.splitOn_append_cons_self, List.splitOn_eq_singleton hfront]
      obtain ⟨hf, hb⟩ := hcut front back h
      refine List.forall_mem_cons.mpr ⟨hf, ih back.length ?_ hb rfl⟩
      simp only [List.length_append, List.length_cons] at hn
      omega
    · rw [List.splitOn_eq_singleton ha]
      simpa using h

theorem notMem_of_splitOn {a c : α} {text : List α} (h : c ∉ text) :
    ∀ piece ∈ text.splitOn a, c ∉ piece := by
  refine forall_mem_splitOn (P := (c ∉ ·)) (fun front back hc => ?_) h
  rw [List.mem_append, List.mem_cons, not_or, not_or] at hc
  exact ⟨hc.1, hc.2.2⟩

omit [DecidableEq α] in
/-- A text with a separator is cut at its last one. -/
theorem exists_last_cut {a : α} {text : List α} (h : a ∈ text) :
    ∃ front last, text = front ++ a :: last ∧ a ∉ last := by
  obtain ⟨back, front, heq, hback⟩ := List.eq_append_cons_of_mem (List.mem_reverse.mpr h)
  refine ⟨front.reverse, back.reverse, ?_, fun hmem => hback (List.mem_reverse.mp hmem)⟩
  rw [← List.reverse_reverse text, heq]
  simp

/-- The pieces of a list joined with separators are those of its elements. -/
theorem splitOn_intercalate {a : α} (texts : List (List α)) (h : texts ≠ []) :
    ([a].intercalate texts).splitOn a = texts.flatMap fun t => t.splitOn a := by
  induction texts with
  | nil => exact absurd rfl h
  | cons t texts ih =>
    cases texts with
    | nil => simp [List.intercalate]
    | cons t' texts =>
      rw [List.intercalate_cons_cons, List.append_assoc, List.singleton_append,
        List.splitOn_append_cons_self, ih (List.cons_ne_nil _ _)]
      rfl

/-- A text is its first piece and the others, each behind a separator. -/
theorem eq_append_flatMap_of_splitOn {a : α} {text first : List α} {rest : List (List α)}
    (h : text.splitOn a = first :: rest) : text = first ++ rest.flatMap (a :: ·) := by
  have hjoined : [a].intercalate (text.splitOn a) = text := List.intercalate_splitOn a
  rw [h] at hjoined
  rw [← hjoined]
  clear h hjoined
  induction rest generalizing first with
  | nil => simp
  | cons second rest ih =>
    rw [List.intercalate_cons_cons, ih, List.flatMap_cons, List.append_assoc, List.singleton_append,
      List.cons_append]

omit [DecidableEq α] in
/-- A search through pieces looks through those of every text in turn. -/
theorem findSome?_flatMap {β γ : Type*} (f : β → List α) (g : α → Option γ) (l : List β) :
    (l.flatMap f).findSome? g = l.findSome? fun b => (f b).findSome? g := by
  induction l with
  | nil => rfl
  | cons b l ih =>
    rw [List.flatMap_cons, List.findSome?_append, ih, List.findSome?_cons]
    cases (f b).findSome? g <;> rfl

omit [DecidableEq α] in
/-- Where one reading of a piece never gives more than another, both give the same in all only if
they do in each. -/
theorem flatMap_eq_flatMap_iff {β : Type*} {f g : α → List β}
    (h : ∀ a, (f a).length ≤ (g a).length) {l : List α} :
    l.flatMap f = l.flatMap g ↔ ∀ a ∈ l, f a = g a := by
  have hle : ∀ l : List α, (l.flatMap f).length ≤ (l.flatMap g).length := by
    intro l
    induction l with
    | nil => exact Nat.le_refl _
    | cons a l ih =>
      rw [List.flatMap_cons, List.flatMap_cons, List.length_append, List.length_append]
      exact Nat.add_le_add (h a) ih
  constructor
  · intro heq
    induction l with
    | nil => exact fun a ha => absurd ha List.not_mem_nil
    | cons a l ih =>
      have hlen := congrArg List.length heq
      rw [List.flatMap_cons, List.flatMap_cons] at heq
      rw [List.flatMap_cons, List.flatMap_cons, List.length_append, List.length_append] at hlen
      have hhead := h a
      have htail := hle l
      obtain ⟨hfirst, hrest⟩ := List.append_inj heq (by omega)
      exact List.forall_mem_cons.2 ⟨hfirst, ih hrest⟩
  · exact List.flatMap_congr

/-- All pieces but the last are closed: what is appended goes on with the last. -/
theorem splitOn_append (a : α) (text : List α) :
    ∃ closed last, a ∉ last ∧
      ∀ more, (text ++ more).splitOn a = closed ++ (last ++ more).splitOn a := by
  by_cases h : a ∈ text
  · obtain ⟨front, last, rfl, hlast⟩ := exists_last_cut h
    refine ⟨front.splitOn a, last, hlast, fun more => ?_⟩
    rw [List.append_assoc, List.cons_append, List.splitOn_append_cons_self]
  · exact ⟨[], text, h, fun more => rfl⟩

end Cutting
