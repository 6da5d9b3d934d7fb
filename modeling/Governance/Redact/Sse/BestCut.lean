import Governance.Redact.Sse.Choice

/-!
# The cut is the best one

The loop of `ChoiceRedactor::advance` alternates two constraints: `safe_prefix` walks back out of
the spans, one pass over them, and the cut snaps down to a frame boundary. `CutsTo` is that loop as
it is written. It ends, and where it ends is the largest frame end that leaves the window free and
lies in no span, however the spans overlap: a frame end that does is never passed over.
-/

namespace Governance

open Utf8Text
open String (utf8Len)

namespace ChoiceRedactor

variable {r : ChoiceRedactor} {spans : List Span} {window : ℕ}

/-- The loop of `advance` from a candidate on: it stops at a boundary that is the candidate or 0,
and goes on from any other. -/
inductive CutsTo (r : ChoiceRedactor) (spans : List Span) (window : ℕ) : ℕ → ℕ → Prop where
  | stop {candidate : ℕ}
      (h : lastBoundary (safePrefix r.pending spans window candidate) r.boundaries 0 = candidate ∨
        lastBoundary (safePrefix r.pending spans window candidate) r.boundaries 0 = 0) :
      CutsTo r spans window candidate
        (lastBoundary (safePrefix r.pending spans window candidate) r.boundaries 0)
  | turn {candidate cut : ℕ}
      (h : ¬ (lastBoundary (safePrefix r.pending spans window candidate) r.boundaries 0 =
          candidate ∨
        lastBoundary (safePrefix r.pending spans window candidate) r.boundaries 0 = 0))
      (hrest : CutsTo r spans window
        (lastBoundary (safePrefix r.pending spans window candidate) r.boundaries 0) cut) :
      CutsTo r spans window candidate cut

/-- A frame ends here, the window behind it is free, and no span lies across it. -/
structure Releasable (r : ChoiceRedactor) (spans : List Span) (window n : ℕ) : Prop where
  frameEnd : n ∈ r.boundaries.map Prod.fst
  window_free : n ≤ utf8Len r.pending - window
  clear : ∀ s ∈ spans, ¬ (s.start < n ∧ n < s.stop)

/-- Boundary offsets do not decrease, lie on character boundaries, and the last one is the length
of the text. -/
structure Framed (r : ChoiceRedactor) : Prop where
  ordered : (r.boundaries.map Prod.fst).Pairwise (· ≤ ·)
  onBoundary : ∀ b ∈ r.boundaries, isCharBoundary r.pending b.1 = true
  last : (r.boundaries.map Prod.fst).getLastD 0 = utf8Len r.pending

/-! ## No releasable end is passed over -/

theorem le_walkBack {n cut : ℕ} (hn : n ≤ cut)
    (hclear : ∀ s ∈ spans, ¬ (s.start < n ∧ n < s.stop)) : n ≤ walkBack spans cut := by
  induction spans generalizing cut with
  | nil => exact hn
  | cons s spans ih =>
    rw [walkBack]
    apply ih
    · split
      · next hs =>
        -- the span lies across the cut and not across `n`, so it starts behind `n`
        simp only [Span.straddles, Bool.and_eq_true, decide_eq_true_eq] at hs
        have hs' := hclear s List.mem_cons_self
        omega
      · exact hn
    · intro s' hs'
      exact hclear s' (List.mem_cons_of_mem s hs')

theorem le_safePrefix {pending : Text} {ceiling n : ℕ} (hbound : isCharBoundary pending n = true)
    (hwindow : n ≤ utf8Len pending - window) (hceiling : n ≤ ceiling)
    (hclear : ∀ s ∈ spans, ¬ (s.start < n ∧ n < s.stop)) :
    n ≤ safePrefix pending spans window ceiling := by
  rw [safePrefix]
  split
  · omega
  · exact le_floorCharBoundary hbound (le_walkBack (by omega) hclear)

theorem le_lastBoundary_found {bs : List (ℕ × ℕ)} {safe found : ℕ}
    (h : ∀ b ∈ bs, found ≤ b.1) (hord : (bs.map Prod.fst).Pairwise (· ≤ ·)) :
    found ≤ lastBoundary safe bs found := by
  induction bs generalizing found with
  | nil => exact le_rfl
  | cons b bs ih =>
    rw [List.map_cons, List.pairwise_cons] at hord
    rw [lastBoundary]
    split
    · have hb : b.1 ≤ lastBoundary safe bs b.1 := by
        apply ih _ hord.2
        intro b' hb'
        exact hord.1 b'.1 (List.mem_map_of_mem hb')
      exact (h b List.mem_cons_self).trans hb
    · exact le_rfl

/-- The scan of the boundaries reaches every one at or below `safe`. -/
theorem le_lastBoundary {bs : List (ℕ × ℕ)} {safe found n : ℕ}
    (hord : (bs.map Prod.fst).Pairwise (· ≤ ·)) (hmem : n ∈ bs.map Prod.fst) (hsafe : n ≤ safe) :
    n ≤ lastBoundary safe bs found := by
  induction bs generalizing found with
  | nil => cases hmem
  | cons b bs ih =>
    rw [List.map_cons, List.pairwise_cons] at hord
    rw [lastBoundary]
    rcases List.mem_cons.mp hmem with rfl | hmem
    · rw [if_pos hsafe]
      apply le_lastBoundary_found _ hord.2
      intro b' hb'
      exact hord.1 b'.1 (List.mem_map_of_mem hb')
    · have hb := hord.1 n hmem
      rw [if_pos (by omega)]
      exact ih hord.2 hmem

theorem lastBoundary_mem (safe : ℕ) (bs : List (ℕ × ℕ)) (found : ℕ) :
    lastBoundary safe bs found = found ∨ lastBoundary safe bs found ∈ bs.map Prod.fst := by
  induction bs generalizing found with
  | nil => exact .inl rfl
  | cons b bs ih =>
    rw [lastBoundary]
    split
    · right
      rcases ih b.1 with hfound | hmem
      · rw [hfound]
        exact List.mem_cons_self
      · exact List.mem_cons_of_mem _ hmem
    · exact .inl rfl

theorem boundary_le_candidate (r : ChoiceRedactor) (spans : List Span) (window candidate : ℕ) :
    lastBoundary (safePrefix r.pending spans window candidate) r.boundaries 0 ≤ candidate :=
  (lastBoundary_le _ _ (Nat.zero_le _)).trans (safePrefix_le_ceiling _ _ _ _)

/-! ## The loop -/

/-- The loop ends where the loop with fuel does. -/
theorem cutsTo_cutLoop {fuel candidate : ℕ} (h : candidate ≤ fuel) :
    r.CutsTo spans window candidate (r.cutLoop spans window fuel candidate) := by
  induction fuel generalizing candidate with
  | zero =>
    obtain rfl : candidate = 0 := by omega
    have hzero := Nat.le_zero.mp (boundary_le_candidate r spans window 0)
    have hstop := CutsTo.stop (.inr hzero)
    rw [hzero] at hstop
    exact hstop
  | succ fuel ih =>
    have hle := boundary_le_candidate r spans window candidate
    simp only [cutLoop]
    split
    · next hstop => exact .stop hstop
    · next hturn => exact .turn hturn (ih (by omega))

theorem CutsTo.unique {candidate cut cut' : ℕ} (h : r.CutsTo spans window candidate cut)
    (h' : r.CutsTo spans window candidate cut') : cut = cut' := by
  induction h with
  | stop hstop =>
    cases h' with
    | stop _ => rfl
    | turn hturn _ => exact absurd hstop hturn
  | turn hturn _ ih =>
    cases h' with
    | stop hstop => exact absurd hstop hturn
    | turn _ hrest => exact ih hrest

/-- What the loop ends at is 0 or releasable. -/
theorem CutsTo.releasable {candidate cut : ℕ} (h : r.CutsTo spans window candidate cut) :
    cut = 0 ∨ r.Releasable spans window cut := by
  induction h with
  | turn _ _ ih => exact ih
  | @stop candidate hstop =>
    by_cases hzero : lastBoundary (safePrefix r.pending spans window candidate) r.boundaries 0 = 0
    · exact .inl hzero
    · right
      have hcand := hstop.resolve_right hzero
      -- the boundary reaches the candidate, so the safe prefix is the candidate itself
      have hle := lastBoundary_le (safePrefix r.pending spans window candidate) r.boundaries
        (Nat.zero_le _)
      have hceil := safePrefix_le_ceiling r.pending spans window candidate
      have hwin := safePrefix_le_window r.pending spans window candidate
      have hsafe : safePrefix r.pending spans window candidate = candidate := by omega
      rw [hcand]
      refine ⟨?_, by omega, ?_⟩
      · rcases lastBoundary_mem (safePrefix r.pending spans window candidate) r.boundaries 0
          with hnone | hmem
        · exact absurd hnone hzero
        · rwa [hcand] at hmem
      · intro s hs hacross
        have hclear := not_straddles_of_safePrefix_eq_ceiling hsafe s hs
        simp only [Span.straddles, Bool.and_eq_false_iff, decide_eq_false_iff_not] at hclear
        omega

/-- A releasable end below the candidate stays below every cut the loop tries. -/
theorem CutsTo.le {candidate cut n : ℕ} (h : r.CutsTo spans window candidate cut)
    (hframed : r.Framed) (hn : r.Releasable spans window n) (hle : n ≤ candidate) : n ≤ cut := by
  have hbound : isCharBoundary r.pending n = true := by
    obtain ⟨b, hb, rfl⟩ := List.mem_map.mp hn.frameEnd
    exact hframed.onBoundary b hb
  have hstep {candidate : ℕ} (hle : n ≤ candidate) :
      n ≤ lastBoundary (safePrefix r.pending spans window candidate) r.boundaries 0 :=
    le_lastBoundary hframed.ordered hn.frameEnd
      (le_safePrefix hbound hn.window_free hle hn.clear)
  induction h with
  | stop _ => exact hstep hle
  | turn _ _ ih => exact ih (hstep hle)

/-- The cut is the largest releasable frame end, or 0. -/
theorem isGreatest_chooseCut (hframed : r.Framed) (spans : List Span) (window : ℕ) :
    IsGreatest (insert 0 {n | r.Releasable spans window n}) (r.chooseCut spans window) := by
  have hcut : r.CutsTo spans window (utf8Len r.pending) (r.chooseCut spans window) :=
    cutsTo_cutLoop le_rfl
  constructor
  · exact hcut.releasable
  · rintro n (rfl | hn)
    · exact Nat.zero_le _
    · have hwindow := hn.window_free
      exact hcut.le hframed hn (by omega)

/-! ## The boundaries over a run -/

theorem le_of_mem_pieceEnds {base : ℕ} {pieces : List (Text × ℕ)} {b : ℕ × ℕ}
    (h : b ∈ pieceEnds base pieces) : base ≤ b.1 := by
  induction pieces generalizing base with
  | nil => cases h
  | cons p pieces ih =>
    obtain ⟨t, fid⟩ := p
    rw [pieceEnds_cons] at h
    rcases List.mem_cons.mp h with rfl | h
    · exact Nat.le_add_right _ _
    · have hle := ih h
      omega

theorem pieceEnds_ordered (base : ℕ) (pieces : List (Text × ℕ)) :
    ((pieceEnds base pieces).map Prod.fst).Pairwise (· ≤ ·) := by
  induction pieces generalizing base with
  | nil => exact List.Pairwise.nil
  | cons p pieces ih =>
    obtain ⟨t, fid⟩ := p
    rw [pieceEnds_cons, List.map_cons, List.pairwise_cons]
    refine ⟨?_, ih _⟩
    intro n hn
    obtain ⟨b, hb, rfl⟩ := List.mem_map.mp hn
    exact le_of_mem_pieceEnds hb

theorem exists_split_of_mem_pieceEnds {base : ℕ} {pieces : List (Text × ℕ)} {b : ℕ × ℕ}
    (h : b ∈ pieceEnds base pieces) :
    ∃ head tail, pieces = head ++ tail ∧ b.1 = base + utf8Len (piecesText head) := by
  induction pieces generalizing base with
  | nil => cases h
  | cons p pieces ih =>
    obtain ⟨t, fid⟩ := p
    rw [pieceEnds_cons] at h
    rcases List.mem_cons.mp h with rfl | h
    · exact ⟨[(t, fid)], pieces, rfl, by rw [piecesText_cons, piecesText_nil, List.append_nil]⟩
    · obtain ⟨head, tail, rfl, hb⟩ := ih h
      refine ⟨(t, fid) :: head, tail, rfl, ?_⟩
      rw [hb, piecesText_cons, String.utf8Len_append]
      omega

theorem getLastD_pieceEnds (base : ℕ) (pieces : List (Text × ℕ)) :
    ((pieceEnds base pieces).map Prod.fst).getLastD base = base + utf8Len (piecesText pieces) := by
  induction pieces generalizing base with
  | nil => rfl
  | cons p pieces ih =>
    obtain ⟨t, fid⟩ := p
    rw [pieceEnds_cons, List.map_cons, List.getLastD_cons, ih, piecesText_cons,
      String.utf8Len_append, Nat.add_assoc]

theorem Holds.framed {pieces : List (Text × ℕ)} (h : r.Holds pieces) : r.Framed := by
  constructor
  · rw [h.boundaries]
    exact pieceEnds_ordered 0 pieces
  · intro b hb
    rw [h.boundaries] at hb
    obtain ⟨head, tail, rfl, hlen⟩ := exists_split_of_mem_pieceEnds hb
    rw [h.pending, hlen, Nat.zero_add, piecesText_append]
    exact isCharBoundary_utf8Len_append _ _
  · rw [h.boundaries, h.pending, getLastD_pieceEnds, Nat.zero_add]

/-- A release at the chosen cut leaves a redactor that holds contributions, whatever the engine
answers. -/
theorem Holds.releaseHead {pieces : List (Text × ℕ)} (h : r.Holds pieces) (e : Engine)
    (spans : List Span) (window : ℕ) (hcut : r.chooseCut spans window ≠ 0) :
    ∃ rest, (r.releaseHead e (r.chooseCut spans window)).2.Holds rest := by
  obtain ⟨head, tail, rfl, hlen, hsplit, -, -⟩ := chooseCut_spec h spans window hcut
  simp only [ChoiceRedactor.releaseHead]
  split
  · exact ⟨tail, h.drop hlen hsplit⟩
  · exact ⟨tail, h.drop hlen hsplit⟩
  · exact ⟨tail, h.drop hlen hsplit⟩
  · exact ⟨[], rfl, rfl⟩

theorem Holds.advance {pieces : List (Text × ℕ)} (h : r.Holds pieces) (e : Engine) (window : ℕ)
    (finalChunk : Bool) : ∃ rest, (r.advance e window finalChunk).2.Holds rest := by
  by_cases hpending : r.pending = []
  · exact ⟨pieces, by simpa [ChoiceRedactor.advance, hpending] using h⟩
  cases hdetect : e.detect r.pending with
  | error err => exact ⟨pieces, by simpa [ChoiceRedactor.advance, hpending, hdetect] using h⟩
  | ok spans =>
    by_cases hblock : blockingEntities spans = []
    case neg =>
      have hadv : (r.advance e window finalChunk).2 = { r with pending := [], boundaries := [] } := by
        simp [ChoiceRedactor.advance, hpending, hdetect, hblock]
      rw [hadv]
      exact ⟨[], rfl, rfl⟩
    by_cases hcut : r.chooseCut spans (if finalChunk then 0 else window) = 0
    · exact ⟨pieces, by
        simpa [ChoiceRedactor.advance, hpending, hdetect, hblock, hcut] using h⟩
    · have hadv : r.advance e window finalChunk =
          r.releaseHead e (r.chooseCut spans (if finalChunk then 0 else window)) := by
        simp [ChoiceRedactor.advance, hpending, hdetect, hblock, hcut]
      rw [hadv]
      exact h.releaseHead e spans _ hcut

/-- What is done to a redactor: a frame's text is appended, or `advance` runs, which may release.
`push` is the one and then the other, and `flush` the other alone. -/
inductive ChoiceOp where
  | append (frameId : ℕ) (text : Text)
  | advance (finalChunk : Bool)

/-- The redactor behind some operations. -/
def runOps (e : Engine) (window : ℕ) (ops : List ChoiceOp) : ChoiceRedactor :=
  ops.foldl (fun r op =>
    match op with
    | .append frameId text => r.append frameId text
    | .advance finalChunk => (r.advance e window finalChunk).2) default

theorem holds_runOps (e : Engine) (window : ℕ) (ops : List ChoiceOp) :
    ∃ pieces, (runOps e window ops).Holds pieces := by
  induction ops using List.reverseRecOn with
  | nil => exact ⟨[], holds_default⟩
  | append_singleton ops op ih =>
    obtain ⟨pieces, h⟩ := ih
    rw [runOps, List.foldl_concat]
    cases op with
    | append frameId text => exact ⟨_, h.append frameId text⟩
    | advance finalChunk => exact h.advance e window finalChunk

/-- The slices and subtractions of a release at `cut` are in range, and what it leaves is framed
again. -/
structure ReleasesSafely (r : ChoiceRedactor) (cut : ℕ) : Prop where
  sliced : isCharBoundary r.pending cut = true
  no_underflow : ∀ b ∈ r.boundaries.dropWhile (fun b => b.1 ≤ cut), cut ≤ b.1
  framed : ∀ e : Engine, (r.releaseHead e cut).2.Framed

theorem Holds.releasesSafely {pieces : List (Text × ℕ)} (h : r.Holds pieces) (spans : List Span)
    (window : ℕ) (hcut : r.chooseCut spans window ≠ 0) :
    r.ReleasesSafely (r.chooseCut spans window) := by
  constructor
  · have hreleasable := (isGreatest_chooseCut h.framed spans window).1.resolve_left hcut
    obtain ⟨b, hb, hoffset⟩ := List.mem_map.mp hreleasable.frameEnd
    rw [← hoffset]
    exact h.framed.onBoundary b hb
  · intro b hb
    rw [h.boundaries, dropWhile_pieceEnds (Nat.zero_le _)] at hb
    obtain ⟨head, tail, -, hlen, hsplit, -, -⟩ := chooseCut_spec h spans window hcut
    rw [Nat.sub_zero, hsplit, hlen, Nat.zero_add] at hb
    exact le_of_mem_pieceEnds hb
  · intro e
    obtain ⟨rest, hrest⟩ := h.releaseHead e spans window hcut
    exact hrest.framed

/-- Behind every sequence of appends and releases the boundaries are framed; the loop of `advance`
ends, for all spans and every window, at the largest frame end that may be released, or at 0; and
a release there slices and subtracts in range. -/
theorem advance_finds_best_cut (e : Engine) (window : ℕ) (ops : List ChoiceOp) :
    (runOps e window ops).Framed ∧
    ∀ (spans : List Span) (effectiveWindow : ℕ),
      (∀ cut, (runOps e window ops).CutsTo spans effectiveWindow
          (utf8Len (runOps e window ops).pending) cut ↔
        cut = (runOps e window ops).chooseCut spans effectiveWindow) ∧
      IsGreatest (insert 0 {n | (runOps e window ops).Releasable spans effectiveWindow n})
        ((runOps e window ops).chooseCut spans effectiveWindow) ∧
      ((runOps e window ops).chooseCut spans effectiveWindow ≠ 0 →
        (runOps e window ops).ReleasesSafely
          ((runOps e window ops).chooseCut spans effectiveWindow)) := by
  obtain ⟨pieces, h⟩ := holds_runOps e window ops
  refine ⟨h.framed, fun spans effectiveWindow => ⟨?_, ?_, ?_⟩⟩
  · intro cut
    have hends : (runOps e window ops).CutsTo spans effectiveWindow
        (utf8Len (runOps e window ops).pending)
        ((runOps e window ops).chooseCut spans effectiveWindow) := cutsTo_cutLoop le_rfl
    constructor
    · intro hcut
      exact hcut.unique hends
    · rintro rfl
      exact hends
  · exact isGreatest_chooseCut h.framed spans effectiveWindow
  · exact h.releasesSafely spans effectiveWindow

end ChoiceRedactor

end Governance
