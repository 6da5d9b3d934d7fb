import Mathlib

/-!
# Unicode text addressed by UTF-8 byte offsets

A text is the list of its Unicode scalar values. Lengths, cuts and spans of it are
byte counts of its UTF-8 encoding, and a cut is legal only on a character boundary.

`isCharBoundary`, `takeBytes` and `dropBytes` are the three operations a byte-addressed
string offers. `isCharBoundary_iff` turns a boundary into a split of the list, and the
two `utf8Len_append` lemmas compute both halves of it, so that proofs about byte offsets
become proofs about `++`. The second half of the file splits a text into lines.
-/

namespace Utf8Text

open String (utf8Len)

/-- A text: its Unicode scalar values in order. -/
abbrev Text := List Char

/-- Whether byte offset `n` starts a character of `t`, or is its end. -/
def isCharBoundary : Text → ℕ → Bool
  | _, 0 => true
  | [], _ + 1 => false
  | c :: cs, n + 1 => c.utf8Size ≤ n + 1 && isCharBoundary cs (n + 1 - c.utf8Size)

/-- The text before byte offset `n`: every character that ends at or before `n`. -/
def takeBytes : Text → ℕ → Text
  | [], _ => []
  | c :: cs, n => if c.utf8Size ≤ n then c :: takeBytes cs (n - c.utf8Size) else []

/-- The text from byte offset `n` on: every character `takeBytes` leaves. -/
def dropBytes : Text → ℕ → Text
  | [], _ => []
  | c :: cs, n => if c.utf8Size ≤ n then dropBytes cs (n - c.utf8Size) else c :: cs

/-- The greatest character boundary of `t` at or below `n`. -/
def floorCharBoundary (t : Text) : ℕ → ℕ
  | 0 => 0
  | n + 1 => if isCharBoundary t (n + 1) then n + 1 else floorCharBoundary t n

theorem isCharBoundary_cons_succ (c : Char) (cs : Text) (n : ℕ) :
    isCharBoundary (c :: cs) (n + 1) =
      (decide (c.utf8Size ≤ n + 1) && isCharBoundary cs (n + 1 - c.utf8Size)) := rfl

theorem takeBytes_cons (c : Char) (cs : Text) (n : ℕ) :
    takeBytes (c :: cs) n = if c.utf8Size ≤ n then c :: takeBytes cs (n - c.utf8Size) else [] := rfl

theorem dropBytes_cons (c : Char) (cs : Text) (n : ℕ) :
    dropBytes (c :: cs) n = if c.utf8Size ≤ n then dropBytes cs (n - c.utf8Size) else c :: cs := rfl

theorem floorCharBoundary_succ (t : Text) (n : ℕ) :
    floorCharBoundary t (n + 1) =
      if isCharBoundary t (n + 1) then n + 1 else floorCharBoundary t n := rfl

@[simp] theorem isCharBoundary_zero (t : Text) : isCharBoundary t 0 = true := by
  cases t <;> rfl

/-- The two halves of a cut give the text back. -/
@[simp] theorem takeBytes_append_dropBytes (t : Text) (n : ℕ) :
    takeBytes t n ++ dropBytes t n = t := by
  induction t generalizing n with
  | nil => rfl
  | cons c cs ih =>
    by_cases h : c.utf8Size ≤ n
    · simp [takeBytes_cons, dropBytes_cons, h, ih]
    · simp [takeBytes_cons, dropBytes_cons, h]

@[simp] theorem takeBytes_zero (t : Text) : takeBytes t 0 = [] := by
  cases t with
  | nil => rfl
  | cons c cs => simp [takeBytes_cons, Nat.not_le.mpr (Char.utf8Size_pos c)]

@[simp] theorem dropBytes_zero (t : Text) : dropBytes t 0 = t := by
  simpa using takeBytes_append_dropBytes t 0

/-- Cutting at the byte length of a prefix gives that prefix. -/
@[simp] theorem takeBytes_utf8Len_append (p s : Text) : takeBytes (p ++ s) (utf8Len p) = p := by
  induction p with
  | nil => simp
  | cons c cs ih => simpa [takeBytes_cons] using ih

/-- Cutting at the byte length of a prefix leaves what follows it. -/
@[simp] theorem dropBytes_utf8Len_append (p s : Text) : dropBytes (p ++ s) (utf8Len p) = s := by
  have h := takeBytes_append_dropBytes (p ++ s) (utf8Len p)
  rw [takeBytes_utf8Len_append] at h
  exact List.append_cancel_left h

@[simp] theorem takeBytes_utf8Len (t : Text) : takeBytes t (utf8Len t) = t := by
  simpa using takeBytes_utf8Len_append t []

@[simp] theorem dropBytes_utf8Len (t : Text) : dropBytes t (utf8Len t) = [] := by
  simpa using dropBytes_utf8Len_append t []

theorem isCharBoundary_utf8Len_append (p s : Text) :
    isCharBoundary (p ++ s) (utf8Len p) = true := by
  induction p with
  | nil => simp
  | cons c cs ih =>
    have hpos := Char.utf8Size_pos c
    obtain ⟨m, hm⟩ : ∃ m, utf8Len (c :: cs) = m + 1 :=
      Nat.exists_eq_succ_of_ne_zero (by rw [String.utf8Len_cons]; omega)
    have hrest : m + 1 - c.utf8Size = utf8Len cs := by
      rw [← hm, String.utf8Len_cons]
      omega
    have hle : c.utf8Size ≤ m + 1 := by
      rw [← hm, String.utf8Len_cons]
      omega
    simp [hm, isCharBoundary_cons_succ, hle, hrest, ih]

/-- A boundary is the byte length of a prefix. -/
theorem isCharBoundary_iff {t : Text} {n : ℕ} :
    isCharBoundary t n = true ↔ ∃ p s, t = p ++ s ∧ utf8Len p = n := by
  constructor
  · intro h
    induction t generalizing n with
    | nil =>
      cases n with
      | zero => exact ⟨[], [], rfl, rfl⟩
      | succ n => cases h
    | cons c cs ih =>
      cases n with
      | zero => exact ⟨[], c :: cs, rfl, rfl⟩
      | succ n =>
        simp only [isCharBoundary_cons_succ, Bool.and_eq_true, decide_eq_true_eq] at h
        obtain ⟨p, s, hcs, hp⟩ := ih h.2
        refine ⟨c :: p, s, by rw [hcs]; rfl, ?_⟩
        rw [String.utf8Len_cons, hp]
        omega
  · rintro ⟨p, s, rfl, rfl⟩
    exact isCharBoundary_utf8Len_append p s

@[simp] theorem isCharBoundary_utf8Len (t : Text) : isCharBoundary t (utf8Len t) = true := by
  simpa using isCharBoundary_utf8Len_append t []

theorem le_utf8Len_of_isCharBoundary {t : Text} {n : ℕ} (h : isCharBoundary t n = true) :
    n ≤ utf8Len t := by
  obtain ⟨p, s, rfl, rfl⟩ := isCharBoundary_iff.1 h
  simp

/-- On a boundary, the head of the cut has exactly `n` bytes. -/
theorem utf8Len_takeBytes {t : Text} {n : ℕ} (h : isCharBoundary t n = true) :
    utf8Len (takeBytes t n) = n := by
  obtain ⟨p, s, rfl, rfl⟩ := isCharBoundary_iff.1 h
  simp

theorem utf8Len_dropBytes {t : Text} {n : ℕ} (h : isCharBoundary t n = true) :
    utf8Len (dropBytes t n) = utf8Len t - n := by
  obtain ⟨p, s, rfl, rfl⟩ := isCharBoundary_iff.1 h
  simp

/-- A boundary of a prefix is a boundary of the whole text. -/
theorem isCharBoundary_append_left {p s : Text} {n : ℕ} (h : isCharBoundary p n = true) :
    isCharBoundary (p ++ s) n = true := by
  obtain ⟨a, b, rfl, rfl⟩ := isCharBoundary_iff.1 h
  rw [List.append_assoc]
  exact isCharBoundary_utf8Len_append a (b ++ s)

theorem takeBytes_append_of_boundary {p s : Text} {n : ℕ} (h : isCharBoundary p n = true) :
    takeBytes (p ++ s) n = takeBytes p n := by
  obtain ⟨a, b, rfl, rfl⟩ := isCharBoundary_iff.1 h
  simp [List.append_assoc]

theorem dropBytes_append_of_boundary {p s : Text} {n : ℕ} (h : isCharBoundary p n = true) :
    dropBytes (p ++ s) n = dropBytes p n ++ s := by
  obtain ⟨a, b, rfl, rfl⟩ := isCharBoundary_iff.1 h
  simp [List.append_assoc]

/-- Two prefixes of one text are ordered as their byte lengths are. -/
theorem exists_append_of_utf8Len_le {p s q r : Text} (h : p ++ s = q ++ r)
    (hle : utf8Len p ≤ utf8Len q) : ∃ m, q = p ++ m ∧ s = m ++ r := by
  obtain ⟨m, hq, hs⟩ | ⟨m, hp, hr⟩ := List.append_eq_append_iff.mp h
  · exact ⟨m, hq, hs⟩
  · rw [hp, String.utf8Len_append] at hle
    have hm : m = [] := String.utf8Len_eq_zero.mp (by omega)
    subst hm
    exact ⟨[], by simpa using hp.symm, by simpa using hr.symm⟩

theorem floorCharBoundary_le (t : Text) (n : ℕ) : floorCharBoundary t n ≤ n := by
  induction n with
  | zero => exact le_rfl
  | succ n ih =>
    rw [floorCharBoundary_succ]
    split
    · exact le_rfl
    · omega

theorem isCharBoundary_floorCharBoundary (t : Text) (n : ℕ) :
    isCharBoundary t (floorCharBoundary t n) = true := by
  induction n with
  | zero => exact isCharBoundary_zero t
  | succ n ih =>
    rw [floorCharBoundary_succ]
    split
    · assumption
    · exact ih

theorem floorCharBoundary_of_boundary {t : Text} {n : ℕ} (h : isCharBoundary t n = true) :
    floorCharBoundary t n = n := by
  cases n with
  | zero => rfl
  | succ n => rw [floorCharBoundary_succ, if_pos h]

/-- No boundary lies strictly between the floor of `n` and `n`. -/
theorem le_floorCharBoundary {t : Text} {n b : ℕ} (hb : isCharBoundary t b = true) (hle : b ≤ n) :
    b ≤ floorCharBoundary t n := by
  induction n with
  | zero => omega
  | succ n ih =>
    rw [floorCharBoundary_succ]
    split
    · omega
    · next hnot =>
      have hne : b ≠ n + 1 := by
        rintro rfl
        exact hnot hb
      exact ih (by omega)

/-! ## Lines -/

/-- The first line of a text, with its line feed, and what follows; `none` when no line
of it is complete. -/
def splitLine : Text → Option (Text × Text)
  | [] => none
  | c :: cs =>
    if c = '\n' then some ([c], cs)
    else (splitLine cs).map fun p => (c :: p.1, p.2)

/-- The complete lines of a text, each with its line feed, and the unterminated rest. -/
def completeLines : Text → List Text × Text
  | [] => ([], [])
  | c :: cs =>
    let r := completeLines cs
    if c = '\n' then ([c] :: r.1, r.2)
    else match r.1 with
      | [] => ([], c :: r.2)
      | l :: ls => ((c :: l) :: ls, r.2)

/-- Every line of a text, the last one possibly unterminated but never empty. -/
def linesInclusive (t : Text) : List Text :=
  let r := completeLines t
  if r.2 = [] then r.1 else r.1 ++ [r.2]

theorem splitLine_eq_some {t line rest : Text} (h : splitLine t = some (line, rest)) :
    t = line ++ rest ∧ line ≠ [] ∧
      completeLines t = (line :: (completeLines rest).1, (completeLines rest).2) := by
  induction t generalizing line rest with
  | nil => simp [splitLine] at h
  | cons c cs ih =>
    unfold splitLine at h
    split at h
    · next hc =>
      obtain ⟨rfl, rfl⟩ : [c] = line ∧ cs = rest := by simpa using h
      exact ⟨rfl, by simp, by simp [completeLines, hc]⟩
    · next hc =>
      simp only [Option.map_eq_some_iff] at h
      obtain ⟨⟨l, r⟩, hsplit, heq⟩ := h
      obtain ⟨rfl, rfl⟩ : c :: l = line ∧ r = rest := by simpa using heq
      obtain ⟨hcs, _, hlines⟩ := ih hsplit
      exact ⟨by rw [hcs]; rfl, by simp, by simp [completeLines, hc, hlines]⟩

theorem splitLine_eq_none {t : Text} (h : splitLine t = none) : completeLines t = ([], t) := by
  induction t with
  | nil => rfl
  | cons c cs ih =>
    unfold splitLine at h
    split at h
    · simp at h
    · next hc => simp [completeLines, hc, ih (by simpa using h)]

/-- Appending to a text continues its unterminated line. -/
theorem completeLines_append (a b : Text) :
    completeLines (a ++ b) =
      ((completeLines a).1 ++ (completeLines ((completeLines a).2 ++ b)).1,
        (completeLines ((completeLines a).2 ++ b)).2) := by
  induction a with
  | nil => simp [completeLines]
  | cons c cs ih =>
    by_cases hc : c = '\n'
    · simp [completeLines, hc, ih]
    · cases hl : (completeLines cs).1 with
      | nil => simp [completeLines, hc, hl, ih]
      | cons l ls => simp [completeLines, hc, hl, ih]

/-- The lines of a text and its rest give the text back. -/
theorem completeLines_flatten (t : Text) :
    (completeLines t).1.flatten ++ (completeLines t).2 = t := by
  induction t with
  | nil => rfl
  | cons c cs ih =>
    by_cases hc : c = '\n'
    · simp [completeLines, hc, ih]
    · cases hl : (completeLines cs).1 with
      | nil =>
        rw [hl] at ih
        simpa [completeLines, hc, hl] using ih
      | cons l ls =>
        rw [hl] at ih
        simpa [completeLines, hc, hl] using ih

theorem completeLines_isPrefixOf (t : Text) : (completeLines t).1 <+: linesInclusive t := by
  by_cases h : (completeLines t).2 = []
  · simp [linesInclusive, h]
  · simp [linesInclusive, h]

end Utf8Text
