import Mathlib

/-!
# Files of lines, read by byte offset

A file is a list of bytes; `unlines` writes a list of lines into one, each followed by a
line feed. A reader seeks to an offset, takes a bounded window and keeps the part of it
through the last line feed. `take_unlines` says what such a window of `unlines ls` is: some
whole lines and the start of the next one, so the part kept is `unlines` of a prefix of
`ls`, and `segments_unlines` splits it back into these lines.
-/

namespace ByteLines

abbrev Bytes := List UInt8

/-- The line feed. -/
def lineFeed : UInt8 := 10

/-- The bytes of some lines, each with its line feed. -/
def unlines (ls : List Bytes) : Bytes := ls.flatMap (· ++ [lineFeed])

/-- The pieces between line feeds, as `slice::split` yields them: one more than there are
line feeds. -/
def segments : Bytes → List Bytes
  | [] => [[]]
  | b :: bs =>
    if b = lineFeed then [] :: segments bs
    else match segments bs with
      | [] => [[b]]
      | s :: ss => (b :: s) :: ss

/-- The index of the last line feed. -/
def lastLineFeed : Bytes → Option ℕ
  | [] => none
  | b :: bs =>
    match lastLineFeed bs with
    | some i => some (i + 1)
    | none => if b = lineFeed then some 0 else none

@[simp] theorem unlines_nil : unlines [] = [] := rfl

@[simp] theorem segments_nil : segments [] = [[]] := rfl

@[simp] theorem lastLineFeed_nil : lastLineFeed [] = none := rfl

theorem segments_lineFeed (bs : Bytes) : segments (lineFeed :: bs) = [] :: segments bs := by
  rw [segments, if_pos rfl]

theorem segments_cons {b : UInt8} (hb : b ≠ lineFeed) {s : Bytes} {bs : Bytes} {ss : List Bytes}
    (h : segments bs = s :: ss) : segments (b :: bs) = (b :: s) :: ss := by
  rw [segments, if_neg hb, h]

theorem lastLineFeed_cons_of_some {bs : Bytes} {i : ℕ} (h : lastLineFeed bs = some i) (b : UInt8) :
    lastLineFeed (b :: bs) = some (i + 1) := by
  rw [lastLineFeed, h]

theorem lastLineFeed_cons_of_none {bs : Bytes} (h : lastLineFeed bs = none) (b : UInt8) :
    lastLineFeed (b :: bs) = if b = lineFeed then some 0 else none := by
  rw [lastLineFeed, h]

@[simp] theorem unlines_cons (l : Bytes) (ls : List Bytes) :
    unlines (l :: ls) = l ++ lineFeed :: unlines ls := by
  simp [unlines]

@[simp] theorem unlines_append (ls ls' : List Bytes) :
    unlines (ls ++ ls') = unlines ls ++ unlines ls' := by
  simp [unlines]

theorem segments_ne_nil (bs : Bytes) : segments bs ≠ [] := by
  induction bs with
  | nil => simp
  | cons b bs ih =>
    by_cases hb : b = lineFeed
    · rw [hb, segments_lineFeed]
      exact List.cons_ne_nil _ _
    · obtain ⟨s, ss, hseg⟩ := List.exists_cons_of_ne_nil ih
      rw [segments_cons hb hseg]
      exact List.cons_ne_nil _ _

/-- A line is split off at its line feed. -/
theorem segments_append {l : Bytes} (hl : lineFeed ∉ l) (rest : Bytes) :
    segments (l ++ lineFeed :: rest) = l :: segments rest := by
  induction l with
  | nil => exact segments_lineFeed rest
  | cons b l ih =>
    have hb : b ≠ lineFeed := by
      rintro rfl
      exact hl (by simp)
    exact segments_cons hb (ih fun h => hl (List.mem_cons_of_mem b h))

theorem segments_unlines {ls : List Bytes} (hls : ∀ l ∈ ls, lineFeed ∉ l) :
    segments (unlines ls) = ls ++ [[]] := by
  induction ls with
  | nil => rfl
  | cons l ls ih =>
    rw [unlines_cons, segments_append (hls l (by simp)),
      ih fun l' hl' => hls l' (List.mem_cons_of_mem l hl'), List.cons_append]

theorem lastLineFeed_of_notMem {bs : Bytes} (h : lineFeed ∉ bs) : lastLineFeed bs = none := by
  induction bs with
  | nil => rfl
  | cons b bs ih =>
    have hb : b ≠ lineFeed := by
      rintro rfl
      exact h (by simp)
    rw [lastLineFeed_cons_of_none (ih fun hmem => h (List.mem_cons_of_mem b hmem)), if_neg hb]

theorem lastLineFeed_ne_none {bs : Bytes} (h : lineFeed ∈ bs) : lastLineFeed bs ≠ none := by
  induction bs with
  | nil => cases h
  | cons b bs ih =>
    cases hlast : lastLineFeed bs with
    | some i => simp [lastLineFeed_cons_of_some hlast]
    | none =>
      have hb : b = lineFeed := by
        by_contra hne
        exact ih ((List.mem_cons.mp h).resolve_left fun heq => hne heq.symm) hlast
      simp [lastLineFeed_cons_of_none hlast, hb]

/-- The last line feed of a text of lines is its last byte, and a rest without one does not
move it. -/
theorem lastLineFeed_append {bs rest : Bytes} (hrest : lineFeed ∉ rest) :
    lastLineFeed (bs ++ lineFeed :: rest) = some bs.length := by
  induction bs with
  | nil =>
    rw [List.nil_append, lastLineFeed_cons_of_none (lastLineFeed_of_notMem hrest), if_pos rfl,
      List.length_nil]
  | cons b bs ih => rw [List.cons_append, lastLineFeed_cons_of_some ih, List.length_cons]

theorem lastLineFeed_unlines (l : Bytes) (ls : List Bytes) {rest : Bytes}
    (hrest : lineFeed ∉ rest) :
    lastLineFeed (unlines (l :: ls) ++ rest) = some ((unlines (l :: ls)).length - 1) := by
  obtain ⟨ls', last, hconcat⟩ := (List.eq_nil_or_concat (l :: ls)).resolve_left (by simp)
  have hbytes : unlines (l :: ls) = (unlines ls' ++ last) ++ [lineFeed] := by
    rw [hconcat, List.concat_eq_append, unlines_append, unlines_cons, unlines_nil,
      List.append_assoc]
  rw [hbytes, List.append_assoc, List.singleton_append, lastLineFeed_append hrest]
  simp

/-- A window that reaches past the first line goes on with the lines behind it. -/
theorem take_unlines_of_lt {l : Bytes} {n : ℕ} (hn : l.length < n) (ls : List Bytes) :
    (unlines (l :: ls)).take n =
      l ++ lineFeed :: (unlines ls).take (n - (l.length + 1)) := by
  have hsplit : n - l.length = (n - (l.length + 1)) + 1 := by omega
  rw [unlines_cons, List.take_append, List.take_of_length_le (by omega), hsplit,
    List.take_succ_cons]

/-- A window of some lines: whole lines, and a rest without a line feed. -/
theorem take_unlines {ls : List Bytes} (hls : ∀ l ∈ ls, lineFeed ∉ l) (n : ℕ) :
    ∃ whole rest, whole <+: ls ∧ lineFeed ∉ rest ∧ (unlines ls).take n = unlines whole ++ rest := by
  induction ls generalizing n with
  | nil => exact ⟨[], [], by simp, by simp, by simp⟩
  | cons l ls ih =>
    by_cases hn : n ≤ l.length
    · -- the window ends inside the first line
      refine ⟨[], l.take n, by simp, ?_, ?_⟩
      · intro hmem
        exact hls l (by simp) (List.mem_of_mem_take hmem)
      · rw [unlines_cons, List.take_append_of_le_length hn, unlines_nil, List.nil_append]
    · obtain ⟨whole, rest, hwhole, hrest, htake⟩ :=
        ih (fun l' hl' => hls l' (List.mem_cons_of_mem l hl')) (n - (l.length + 1))
      refine ⟨l :: whole, rest, List.cons_prefix_cons.mpr ⟨rfl, hwhole⟩, hrest, ?_⟩
      rw [take_unlines_of_lt (by omega), htake, unlines_cons, List.append_assoc, List.cons_append]

/-! ## The longest piece without a line feed -/

/-- How many bytes stand behind the last line feed. -/
def openTail (bs : Bytes) : ℕ := (bs.reverse.takeWhile (· ≠ lineFeed)).length

/-- Every piece without a line feed is shorter than `n`. -/
def ShortRuns (n : ℕ) (bs : Bytes) : Prop := ∀ w, w <:+: bs → lineFeed ∉ w → w.length < n

theorem length_le_openTail {bs u : Bytes} (hu : u <:+ bs) (hfeed : lineFeed ∉ u) :
    u.length ≤ openTail bs := by
  obtain ⟨t, rfl⟩ := hu
  have hall : ∀ b ∈ u.reverse, (b ≠ lineFeed : Bool) = true := by
    intro b hb
    rw [decide_eq_true_eq]
    rintro rfl
    exact hfeed (List.mem_reverse.mp hb)
  rw [openTail, List.reverse_append, List.takeWhile_append_of_pos hall, List.length_append,
    List.length_reverse]
  omega

@[simp] theorem openTail_nil : openTail [] = 0 := rfl

@[simp] theorem openTail_concat (bs : Bytes) : openTail (bs ++ [lineFeed]) = 0 := by
  simp [openTail]

namespace ShortRuns

variable {n : ℕ} {bs : Bytes}

theorem nil (hn : 0 < n) : ShortRuns n [] := by
  intro w hw _
  rw [List.infix_nil.mp hw]
  exact hn

theorem of_suffix {bs' : Bytes} (h : ShortRuns n bs) (hsuf : bs' <:+ bs) : ShortRuns n bs' := by
  intro w hw
  exact h w (hw.trans hsuf.isInfix)

theorem append {more : Bytes} (h : ShortRuns n bs) (hmore : ShortRuns n more)
    (hjoin : ∀ v, v <+: more → lineFeed ∉ v → openTail bs + v.length < n) :
    ShortRuns n (bs ++ more) := by
  intro w hw hfeed
  obtain hw | hw | ⟨u, v, rfl, hu, hv⟩ := List.infix_append_iff.mp hw
  · exact h w hw hfeed
  · exact hmore w hw hfeed
  · -- a piece that reaches over the seam: the open tail, and a start of what is appended
    have hle := length_le_openTail hu fun hmem => hfeed (List.mem_append_left _ hmem)
    have hlt := hjoin v hv fun hmem => hfeed (List.mem_append_right _ hmem)
    rw [List.length_append]
    omega

/-- Appending a piece of a line. -/
theorem append_piece {x : Bytes} (h : ShortRuns n bs) (hroom : openTail bs + x.length < n) :
    ShortRuns n (bs ++ x) := by
  refine h.append ?_ ?_
  · intro w hw _
    have hle := hw.length_le
    omega
  · intro v hv _
    have hle := hv.length_le
    omega

/-- Appending a line with its line feed. -/
theorem append_line {x : Bytes} (h : ShortRuns n bs) (hroom : openTail bs + x.length < n) :
    ShortRuns n (bs ++ (x ++ [lineFeed])) := by
  -- a piece of the line that is as long as the line with its line feed has the line feed
  have hpiece : ∀ w, w <:+: x ++ [lineFeed] → lineFeed ∉ w → w.length ≤ x.length := by
    intro w hw hfeed
    have hle := hw.length_le
    rw [List.length_append, List.length_singleton] at hle
    by_contra hlt
    have hall : w = x ++ [lineFeed] := by
      apply hw.eq_of_length
      rw [List.length_append, List.length_singleton]
      omega
    rw [hall] at hfeed
    exact hfeed (by simp)
  refine h.append ?_ ?_
  · intro w hw hfeed
    have hle := hpiece w hw hfeed
    omega
  · intro v hv hfeed
    have hle := hpiece v hv.isInfix hfeed
    omega

/-- A window of `n` bytes has a line feed. -/
theorem lastLineFeed_isSome (h : ShortRuns n bs) (offset : ℕ)
    (hlen : n ≤ ((bs.drop offset).take n).length) :
    lastLineFeed ((bs.drop offset).take n) ≠ none := by
  intro hnone
  have hfeed : lineFeed ∉ (bs.drop offset).take n := by
    intro hmem
    exact absurd hnone (lastLineFeed_ne_none hmem)
  have hinfix : (bs.drop offset).take n <:+: bs :=
    (List.take_prefix _ _).isInfix.trans (List.drop_suffix _ _).isInfix
  have hlt := h _ hinfix hfeed
  omega

end ShortRuns

/-- Seeking to the end of some lines leaves the others. -/
@[simp] theorem drop_unlines_append (before after : List Bytes) :
    (unlines (before ++ after)).drop (unlines before).length = unlines after := by
  rw [unlines_append, List.drop_left]

end ByteLines
