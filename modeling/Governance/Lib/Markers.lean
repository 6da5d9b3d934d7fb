import Mathlib.Data.List.Basic
import Mathlib.Data.List.Infix

/-!
# Texts with markers in them

A marker is a word whose first symbol occurs nowhere else in it. Two occurrences of such words never
overlap, and one that crosses from a text into the next ends in a symbol that the next text starts
with: the occurrences in a text put together from parts are those in the parts (`count_append`).

Two markers with the same first symbol open and close blocks. A begin marker has an end marker of
its own if that is the next marker of the two; `outside` leaves out what stands in such blocks.
-/

/-- A word whose first symbol occurs in it once. -/
structure Marker (α : Type*) where
  head : α
  tail : List α
  once : head ∉ tail

namespace Marker

variable {α : Type*} [DecidableEq α] (m : Marker α)

def word : List α := m.head :: m.tail

/-- Where the first occurrence starts. -/
def find : List α → Option ℕ
  | [] => none
  | c :: t => if m.word <+: c :: t then some 0 else (find t).map (· + 1)

/-- How many occurrences there are. -/
def count : List α → ℕ
  | [] => 0
  | c :: t => (if m.word <+: c :: t then 1 else 0) + count t

/-- A text can follow any other without a marker across the seam. -/
def Apart (t : List α) : Prop := ∀ c ∈ t.head?, c ∉ m.tail

variable {m} {t : List α}

@[simp] theorem find_nil : m.find [] = none := rfl

@[simp] theorem count_nil : m.count [] = 0 := rfl

omit [DecidableEq α] in
theorem word_append (t : List α) : m.word ++ t = m.head :: (m.tail ++ t) := rfl

theorem find_cons (c : α) (t : List α) :
    m.find (c :: t) = if m.word <+: c :: t then some 0 else (m.find t).map (· + 1) := rfl

theorem count_cons (c : α) (t : List α) :
    m.count (c :: t) = (if m.word <+: c :: t then 1 else 0) + m.count t := rfl

omit [DecidableEq α] in
theorem apart_nil : m.Apart [] := by
  intro c hc
  cases hc

omit [DecidableEq α] in
theorem apart_word {m' : Marker α} (h : m'.head = m.head) (t : List α) :
    m.Apart (m'.word ++ t) := by
  intro c hc
  obtain rfl := Option.some.inj hc
  rw [h]
  exact m.once

omit [DecidableEq α] in
/-- A marker that starts in a text ends in it. -/
theorem word_prefix_append {c : α} {a t : List α} (ht : m.Apart t) :
    m.word <+: c :: a ++ t ↔ m.word <+: c :: a := by
  constructor
  · intro h
    rcases List.prefix_or_prefix_of_prefix h (List.prefix_append (c :: a) t) with hshort | hlong
    · exact hshort
    · obtain ⟨rest, hrest⟩ := hlong
      cases rest with
      | nil =>
        rw [List.append_nil] at hrest
        rw [hrest]
      | cons x rest =>
        -- the first symbol behind the seam is one of the tail
        rw [← hrest, List.prefix_append_right_inj] at h
        obtain ⟨more, rfl⟩ := h
        rw [word, List.cons_append, List.cons.injEq] at hrest
        refine absurd ?_ (ht x rfl)
        rw [← hrest.2]
        exact List.mem_append_right _ List.mem_cons_self
  · intro h
    exact h.trans (List.prefix_append _ _)

/-- The occurrences of two parts are those of the whole. -/
theorem count_append (a : List α) (ht : m.Apart t) : m.count (a ++ t) = m.count a + m.count t := by
  induction a with
  | nil => rw [List.nil_append, count_nil, Nat.zero_add]
  | cons c a ih =>
    have hseam := word_prefix_append (c := c) (a := a) ht
    rw [List.cons_append] at hseam
    rw [List.cons_append, count_cons, count_cons, ih, Nat.add_assoc, if_congr hseam rfl rfl]

theorem count_le_append (a t : List α) : m.count a ≤ m.count (a ++ t) := by
  induction a with
  | nil => exact Nat.zero_le _
  | cons c a ih =>
    rw [List.cons_append, count_cons, count_cons]
    have hstays : m.word <+: c :: a → m.word <+: c :: (a ++ t) := by
      intro h
      exact h.trans (List.prefix_append (c :: a) t)
    split
    · next h =>
      rw [if_pos (hstays h)]
      omega
    · omega

/-- No marker starts where its first symbol is missing. -/
theorem count_append_of_notMem {a : List α} (h : m.head ∉ a) (t : List α) :
    m.count (a ++ t) = m.count t := by
  induction a with
  | nil => rfl
  | cons c a ih =>
    rw [List.mem_cons, not_or] at h
    have hne : ¬ m.word <+: c :: (a ++ t) := by
      rintro ⟨rest, hrest⟩
      exact h.1 (List.cons.inj hrest).1
    rw [List.cons_append, count_cons, if_neg hne, Nat.zero_add, ih h.2]

theorem count_word_append (t : List α) : m.count (m.word ++ t) = 1 + m.count t := by
  have hword : m.word <+: m.head :: (m.tail ++ t) := List.prefix_append m.word t
  rw [word_append, count_cons, if_pos hword, count_append_of_notMem m.once]

/-- Another marker of the same length with the same first symbol holds none of this one. -/
theorem count_other_append {m' : Marker α} (hhead : m'.head = m.head)
    (hlen : m'.word.length = m.word.length) (hne : m'.word ≠ m.word) (t : List α) :
    m.count (m'.word ++ t) = m.count t := by
  have hword : ¬ m.word <+: m'.word ++ t := by
    intro h
    have heq := (List.prefix_of_prefix_length_le (List.prefix_append m'.word t) h hlen.le)
    exact hne (heq.eq_of_length hlen)
  have htail : m.head ∉ m'.tail := by
    rw [← hhead]
    exact m'.once
  rw [word_append] at hword ⊢
  rw [count_cons, if_neg hword, Nat.zero_add, count_append_of_notMem htail]

/-! ## The first occurrence -/

theorem find_eq_none : m.find t = none ↔ m.count t = 0 := by
  induction t with
  | nil => simp
  | cons c t ih =>
    rw [find, count_cons]
    split
    · simp
    · rw [Option.map_eq_none_iff, ih, Nat.zero_add]

theorem find_eq_some {i : ℕ} (h : m.find t = some i) :
    ∃ a rest, t = a ++ (m.word ++ rest) ∧ a.length = i ∧ m.count a = 0 := by
  induction t generalizing i with
  | nil => cases h
  | cons c t ih =>
    rw [find] at h
    split at h
    · next hpre =>
      obtain ⟨rest, hrest⟩ := hpre
      obtain rfl := Option.some.inj h
      exact ⟨[], rest, hrest.symm, rfl, rfl⟩
    · next hnot =>
      obtain ⟨j, hj, rfl⟩ := Option.map_eq_some_iff.mp h
      obtain ⟨a, rest, rfl, rfl, hcount⟩ := ih hj
      refine ⟨c :: a, rest, rfl, rfl, ?_⟩
      rw [count_cons, hcount, if_neg]
      intro hpre
      exact hnot (hpre.trans (List.prefix_append (c :: a) _))

theorem find_append {a : List α} (ha : m.count a = 0) (rest : List α) :
    m.find (a ++ (m.word ++ rest)) = some a.length := by
  induction a with
  | nil =>
    have hword : m.word <+: m.head :: (m.tail ++ rest) := List.prefix_append m.word rest
    rw [List.nil_append, word_append, find_cons, if_pos hword]
    rfl
  | cons c a ih =>
    rw [count_cons, Nat.add_eq_zero_iff] at ha
    have hnot : ¬ m.word <+: c :: a ++ (m.word ++ rest) := by
      rw [word_prefix_append (apart_word rfl rest)]
      intro hpre
      rw [if_pos hpre] at ha
      cases ha.1
    rw [List.cons_append] at hnot ⊢
    rw [find_cons, if_neg hnot, ih ha.2]
    rfl

end Marker

/-! ## Blocks -/

/-- Two markers of one length with one first symbol. -/
structure MarkerPair (α : Type*) where
  opening : Marker α
  closing : Marker α
  head_eq : closing.head = opening.head
  length_eq : closing.word.length = opening.word.length
  word_ne : closing.word ≠ opening.word

namespace MarkerPair

variable {α : Type*} [DecidableEq α] (p : MarkerPair α)

/-- What stands behind the end marker that is the next marker. -/
def closeOf : List α → Option (List α)
  | [] => none
  | c :: t =>
    if p.closing.word <+: c :: t then some ((c :: t).drop p.closing.word.length)
    else if p.opening.word <+: c :: t then none
    else closeOf t

theorem length_closeOf_le {t rest : List α} (h : p.closeOf t = some rest) :
    rest.length ≤ t.length := by
  induction t with
  | nil => cases h
  | cons c t ih =>
    rw [closeOf] at h
    split at h
    · rw [← Option.some.inj h, List.length_drop]
      omega
    · split at h
      · cases h
      · have hle := ih h
        rw [List.length_cons]
        omega

/-- A text without the blocks of a begin marker and its own end marker. -/
def outside : List α → List α
  | [] => []
  | c :: t =>
    if p.opening.word <+: c :: t then
      match _hclose : p.closeOf ((c :: t).drop p.opening.word.length) with
      | some rest => outside rest
      | none => c :: outside t
    else c :: outside t
  termination_by t => t.length
  decreasing_by
    · have hle := p.length_closeOf_le _hclose
      simp only [Marker.word, List.length_cons, List.drop_succ_cons, List.length_drop] at hle ⊢
      omega
    · simp
    · simp

theorem opening_count_closing (t : List α) :
    p.opening.count (p.closing.word ++ t) = p.opening.count t :=
  Marker.count_other_append p.head_eq p.length_eq p.word_ne t

theorem closing_count_opening (t : List α) :
    p.closing.count (p.opening.word ++ t) = p.closing.count t :=
  Marker.count_other_append p.head_eq.symm p.length_eq.symm p.word_ne.symm t

/-- A first begin marker ahead of a first end marker ends ahead of it. -/
theorem exists_between {t : List α} {start stop : ℕ} (hstart : p.opening.find t = some start)
    (hstop : p.closing.find t = some stop) (hlt : start < stop) :
    ∃ front mid back,
      t = front ++ (p.opening.word ++ (mid ++ (p.closing.word ++ back))) ∧
      front.length = start ∧ stop = start + p.opening.word.length + mid.length ∧
      p.opening.count front = 0 ∧ p.closing.count front = 0 ∧ p.closing.count mid = 0 := by
  obtain ⟨front, rest, rfl, rfl, hfront⟩ := Marker.find_eq_some hstart
  obtain ⟨a, back, heq, rfl, ha⟩ := Marker.find_eq_some hstop
  obtain ⟨x, rfl⟩ : front <+: a := List.prefix_of_prefix_length_le (List.prefix_append _ _)
    (heq ▸ List.prefix_append a _) hlt.le
  rw [List.append_assoc, List.append_cancel_left_eq] at heq
  by_cases hlen : p.opening.word.length ≤ x.length
  · obtain ⟨mid, rfl⟩ : p.opening.word <+: x := List.prefix_of_prefix_length_le
      (List.prefix_append _ _) (heq ▸ List.prefix_append x _) hlen
    rw [List.append_assoc, List.append_cancel_left_eq] at heq
    rw [Marker.count_append _ (Marker.apart_word p.head_eq.symm mid),
      p.closing_count_opening] at ha
    refine ⟨front, mid, back, by rw [heq], rfl, ?_, hfront, by omega, by omega⟩
    rw [List.length_append, List.length_append, Nat.add_assoc]
  · -- the end marker would start inside the begin marker
    obtain ⟨y, hy⟩ : x <+: p.opening.word := List.prefix_of_prefix_length_le
      (heq ▸ List.prefix_append x _) (List.prefix_append _ rest) (by omega)
    rw [← hy, List.append_assoc, List.append_cancel_left_eq] at heq
    obtain _ | ⟨c, x⟩ := x
    · simp at hlt
    obtain _ | ⟨c', y⟩ := y
    · rw [List.append_nil] at hy
      rw [hy] at hlen
      exact absurd le_rfl hlen
    have htail : p.opening.tail = x ++ c' :: y := (List.cons.inj hy).2.symm
    have hhead : c' = p.opening.head := (List.cons.inj heq).1.trans p.head_eq
    refine absurd ?_ p.opening.once
    rw [htail, ← hhead]
    exact List.mem_append_right _ List.mem_cons_self

variable {p}

theorem closeOf_append {y t : List α} (hopening : p.opening.count y = 0)
    (hclosing : p.closing.count y = 0) (ht : p.opening.Apart t) (ht' : p.closing.Apart t) :
    p.closeOf (y ++ t) = p.closeOf t := by
  induction y with
  | nil => rfl
  | cons c y ih =>
    rw [Marker.count_cons, Nat.add_eq_zero_iff] at hopening hclosing
    have hnot : ¬ p.opening.word <+: c :: y ++ t := by
      rw [Marker.word_prefix_append ht]
      intro hpre
      rw [if_pos hpre] at hopening
      cases hopening.1
    have hnot' : ¬ p.closing.word <+: c :: y ++ t := by
      rw [Marker.word_prefix_append ht']
      intro hpre
      rw [if_pos hpre] at hclosing
      cases hclosing.1
    rw [List.cons_append] at hnot hnot' ⊢
    rw [closeOf, if_neg hnot', if_neg hnot, ih hopening.2 hclosing.2]

theorem closeOf_closing (t : List α) : p.closeOf (p.closing.word ++ t) = some t := by
  have hpre : p.closing.word <+: p.closing.head :: (p.closing.tail ++ t) :=
    List.prefix_append p.closing.word t
  rw [Marker.word_append, closeOf, if_pos hpre, ← Marker.word_append, List.drop_left]

/-- A begin marker ahead of every end marker. -/
theorem closeOf_eq_none {y t : List α} (hclosing : p.closing.count y = 0)
    (hopening : p.opening.count y ≠ 0) (ht' : p.closing.Apart t) : p.closeOf (y ++ t) = none := by
  induction y with
  | nil => exact absurd rfl hopening
  | cons c y ih =>
    rw [Marker.count_cons] at hclosing hopening
    have hnot' : ¬ p.closing.word <+: c :: y ++ t := by
      rw [Marker.word_prefix_append ht']
      intro hpre
      rw [if_pos hpre] at hclosing
      omega
    rw [List.cons_append] at hnot' ⊢
    rw [closeOf, if_neg hnot']
    split
    · rfl
    · next hnot =>
      apply ih (by omega)
      have hshort : ¬ p.opening.word <+: c :: y := by
        intro hpre
        exact hnot (hpre.trans (List.prefix_append (c :: y) t))
      rwa [if_neg hshort, Nat.zero_add] at hopening

theorem outside_cons_of_not {c : α} {t : List α} (h : ¬ p.opening.word <+: c :: t) :
    p.outside (c :: t) = c :: p.outside t := by
  rw [outside, if_neg h]

/-- What stands ahead of the first begin marker is kept. -/
theorem outside_append {a t : List α} (ha : p.opening.count a = 0) (ht : p.opening.Apart t) :
    p.outside (a ++ t) = a ++ p.outside t := by
  induction a with
  | nil => rfl
  | cons c a ih =>
    rw [Marker.count_cons, Nat.add_eq_zero_iff] at ha
    have hnot : ¬ p.opening.word <+: c :: a ++ t := by
      rw [Marker.word_prefix_append ht]
      intro hpre
      rw [if_pos hpre] at ha
      cases ha.1
    rw [List.cons_append] at hnot ⊢
    rw [outside_cons_of_not hnot, ih ha.2, List.cons_append]

theorem outside_eq_self {t : List α} (h : p.opening.count t = 0) : p.outside t = t := by
  have happ := outside_append h (t := []) Marker.apart_nil
  rwa [List.append_nil, outside, List.append_nil] at happ

/-- A block of a begin marker and its own end marker is left out. -/
theorem outside_block {y : List α} (hopening : p.opening.count y = 0)
    (hclosing : p.closing.count y = 0) (t : List α) :
    p.outside (p.opening.word ++ (y ++ (p.closing.word ++ t))) = p.outside t := by
  have hpre : p.opening.word <+:
      p.opening.head :: (p.opening.tail ++ (y ++ (p.closing.word ++ t))) :=
    List.prefix_append p.opening.word _
  have hclose : p.closeOf (y ++ (p.closing.word ++ t)) = some t := by
    rw [closeOf_append hopening hclosing (Marker.apart_word p.head_eq t)
      (Marker.apart_word rfl t), closeOf_closing]
  rw [Marker.word_append, outside, if_pos hpre]
  split
  · next rest hrest =>
    rw [← Marker.word_append, List.drop_left, hclose] at hrest
    rw [Option.some.inj hrest]
  · next hnone =>
    rw [← Marker.word_append, List.drop_left, hclose] at hnone
    cases hnone

/-- A begin marker without an end marker of its own is kept. -/
theorem outside_opening {t : List α} (h : p.closeOf t = none) :
    p.outside (p.opening.word ++ t) = p.opening.word ++ p.outside t := by
  have hpre : p.opening.word <+: p.opening.head :: (p.opening.tail ++ t) :=
    List.prefix_append p.opening.word _
  have htail {a : List α} (ha : p.opening.head ∉ a) : p.outside (a ++ t) = a ++ p.outside t := by
    induction a with
    | nil => rfl
    | cons c a ih =>
      rw [List.mem_cons, not_or] at ha
      have hnot : ¬ p.opening.word <+: c :: (a ++ t) := by
        rintro ⟨rest, hrest⟩
        exact ha.1 (List.cons.inj hrest).1
      rw [List.cons_append, outside_cons_of_not hnot, ih ha.2, List.cons_append]
  rw [Marker.word_append, outside, if_pos hpre]
  split
  · next rest hrest =>
    rw [← Marker.word_append, List.drop_left, h] at hrest
    cases hrest
  · rw [htail p.opening.once, Marker.word_append]

end MarkerPair
