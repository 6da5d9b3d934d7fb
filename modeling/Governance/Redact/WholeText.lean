import Governance.Redact.Locality
import Governance.Redact.Sse.Flush

/-!
# Streaming redaction and whole texts

A text that is fed piece by piece to a `HoldBack`, or frame by frame to one key of the SSE
redactor, and then flushed, comes out as `Engine::scan` leaves the whole of it: for every bounded
local detector, as long as no span that the profile allows can be cut. `Engine::detect` does not
report allowed spans, so the walk-back does not see them; a cut inside one leaves two halves in
which the analyzer may find something else.
-/

namespace Governance

open Utf8Text
open String (utf8Len)

/-! ## Runs -/

/-- What a stream did until its end or its first block: the text that it released, whether it was
blocked, and the heads that were scanned again. -/
structure StreamRun where
  released : Text
  blocked : Bool
  rescanned : List Text
  deriving DecidableEq

/-- A run after one more call at its beginning. -/
def StreamRun.after (text : Text) (heads : List Text) (run : StreamRun) : StreamRun :=
  ⟨text ++ run.released, run.blocked, heads ++ run.rescanned⟩

namespace HoldBack

/-- The head that a call of `advance` scans again. -/
def rescanned (e : Engine) (h : HoldBack) (finalChunk : Bool) : List Text :=
  if h.pending = [] then []
  else match e.detect h.pending with
    | .error _ => []
    | .ok spans =>
      if blockingEntities spans ≠ [] then []
      else
        let cut := if finalChunk then utf8Len h.pending
          else safePrefix h.pending spans h.window (utf8Len h.pending)
        if cut = 0 then [] else [takeBytes h.pending cut]

/-- The pieces of a text, pushed one after the other, and the flush. The caller stops at a block
or an error. -/
def stream (e : Engine) : HoldBack → List Text → StreamRun
  | h, [] =>
    match h.flush e with
    | (.ok (.release text), _) => ⟨text, false, h.rescanned e true⟩
    | (.ok (.blocked _), _) => ⟨[], true, h.rescanned e true⟩
    | _ => ⟨[], false, h.rescanned e true⟩
  | h, piece :: pieces =>
    let heads := { h with pending := h.pending ++ piece }.rescanned e false
    match h.push e piece with
    | (.ok .nothing, h') => (stream e h' pieces).after [] heads
    | (.ok (.release text), h') => (stream e h' pieces).after text heads
    | (.ok (.blocked _), _) => ⟨[], true, heads⟩
    | (.error _, _) => ⟨[], false, heads⟩

end HoldBack

namespace ChoiceRedactor

/-- The head that a call of `advance` scans again. -/
def rescanned (e : Engine) (window : ℕ) (r : ChoiceRedactor) (finalChunk : Bool) : List Text :=
  if r.pending = [] then []
  else match e.detect r.pending with
    | .error _ => []
    | .ok spans =>
      if blockingEntities spans ≠ [] then []
      else
        let cut := r.chooseCut spans (if finalChunk then 0 else window)
        if cut = 0 then [] else [takeBytes r.pending cut]

/-- The loop of `SseHoldBack::flush` over one key. -/
def flushStream (e : Engine) (window : ℕ) : ℕ → ChoiceRedactor → StreamRun
  | 0, _ => ⟨[], false, []⟩
  | fuel + 1, r =>
    match r.flush e window with
    | (.ok (.release text ids), r') =>
      (flushStream e window fuel r').after ((releaseWrites text ids).flatMap Prod.snd)
        (r.rescanned e window true)
    | (.ok (.blocked _), _) => ⟨[], true, r.rescanned e window true⟩
    | _ => ⟨[], false, r.rescanned e window true⟩

/-- The frames that feed one key, and its flush. What a release writes to the key's slots of its
frames is its released text. -/
def stream (e : Engine) (window : ℕ) : ChoiceRedactor → List (ℕ × Text) → StreamRun
  | r, [] => r.flushStream e window (r.pending.length + 1)
  | r, (fid, text) :: frames =>
    let heads := (r.append fid text).rescanned e window false
    match r.push e window fid text with
    | (.ok .nothing, r') => (stream e window r' frames).after [] heads
    | (.ok (.release text ids), r') =>
      (stream e window r' frames).after ((releaseWrites text ids).flatMap Prod.snd) heads
    | (.ok (.blocked _), _) => ⟨[], true, heads⟩
    | (.error _, _) => ⟨[], false, heads⟩

end ChoiceRedactor

/-- A run gives the whole text as `Engine::scan` does: if it is not blocked, the text has no
blocked span and is released as it is scanned; if the text has one, the run is blocked and has
released what a beginning of the text in front of that span is scanned to; and no head that is
scanned again is blocked. -/
structure StreamRun.GivesWhole (e : Engine) (whole : Text) (run : StreamRun) : Prop where
  clean : run.blocked = false → e.NoBlock whole ∧ e.scanText whole = some run.released
  blocks : ∀ d ∈ e.found whole, e.actionOn d = .block → run.blocked = true ∧
    ∃ done rest, whole = done ++ rest ∧ utf8Len done ≤ d.start ∧
      e.scanText done = some run.released
  rescans : ∀ head ∈ run.rescanned, ∀ entities, e.scan head ≠ .ok (.blocked entities)

/-! ## Runs of a local detector -/

/-- A run from a state in which `done` has been released. -/
structure StreamRun.Continues (e : Engine) (apply : Operator → Text → Text) (whole done : Text)
    (run : StreamRun) : Prop where
  clean : run.blocked = false → e.NoBlock whole ∧
    e.rewrite apply whole = e.rewrite apply done ++ run.released
  blocks : run.blocked = true → ∃ p rest, whole = p ++ rest ∧ e.Reached whole p ∧
    e.rewrite apply p = e.rewrite apply done ++ run.released
  rescans : ∀ head ∈ run.rescanned, e.NoBlock head

namespace StreamRun

variable {e : Engine} {window : ℕ} {apply : Operator → Text → Text} {whole done pending rest head
  tail : Text} {run : StreamRun}

theorem Continues.hold (h : run.Continues e apply whole done) :
    (run.after [] []).Continues e apply whole done := h

theorem Continues.block (hreached : e.Reached whole done) (hwhole : whole = done ++ rest) :
    Continues e apply whole done ⟨[], true, []⟩ where
  clean h := by cases h
  blocks _ := ⟨done, rest, hwhole, hreached, (List.append_nil _).symm⟩
  rescans _ h := (List.not_mem_nil h).elim

/-- Nothing is left: the whole text has been released. -/
theorem Continues.finish (hreached : e.Reached whole whole) (h : e.BoundedLocal window) :
    Continues e apply whole whole ⟨[], false, []⟩ where
  clean _ := ⟨fun d hd => hreached.noBlock d hd (h.inRange whole d hd).2,
    (List.append_nil _).symm⟩
  blocks h := by cases h
  rescans _ h := (List.not_mem_nil h).elim

theorem Continues.release (h : e.BoundedLocal window) (hallow : e.AllowedClear window whole)
    (hreached : e.Reached whole done) (hwhole : whole = done ++ (pending ++ rest))
    (hsafe : e.SafeHead pending head tail)
    (hroom : window ≤ utf8Len tail ∨ tail = [] ∧ rest = [])
    (hrun : run.Continues e apply whole (done ++ head)) :
    (run.after (e.rewrite apply head) [head]).Continues e apply whole done := by
  have hblock := hreached.noBlock_head h hallow hwhole hsafe hroom
  have hrewrite : e.rewrite apply (done ++ head) = e.rewrite apply done ++ e.rewrite apply head :=
    hreached.rewrite_head h hallow hwhole hsafe hroom
  refine ⟨?_, ?_, ?_⟩
  · intro hnot
    obtain ⟨hnoBlock, htext⟩ := hrun.clean hnot
    refine ⟨hnoBlock, ?_⟩
    rw [htext, hrewrite, List.append_assoc]
    rfl
  · intro hblocked
    obtain ⟨p, s, hps, hp, htext⟩ := hrun.blocks hblocked
    refine ⟨p, s, hps, hp, ?_⟩
    rw [htext, hrewrite, List.append_assoc]
    rfl
  · intro head' hmem
    rcases List.mem_append.mp hmem with hhead | htail
    · obtain rfl := List.mem_singleton.mp hhead
      exact hblock
    · exact hrun.rescans head' htail

/-- A run from the beginning of the text. -/
theorem Continues.givesWhole (h : e.BoundedLocal window) (hreplaces : e.ReplacesSpans apply)
    (hrun : run.Continues e apply whole []) : run.GivesWhole e whole := by
  have hnil : e.rewrite apply [] = [] := rfl
  refine ⟨?_, ?_, ?_⟩
  · intro hnot
    obtain ⟨hblock, htext⟩ := hrun.clean hnot
    rw [hnil, List.nil_append] at htext
    exact ⟨hblock, by rw [h.scanText hreplaces hblock, htext]⟩
  · intro d hd haction
    have hblocked : run.blocked = true := by
      by_contra hnot
      exact (hrun.clean (by simpa using hnot)).1 d hd haction
    obtain ⟨p, s, rfl, hp, htext⟩ := hrun.blocks hblocked
    rw [hnil, List.nil_append] at htext
    have hstop : utf8Len p < d.stop := by
      by_contra hle
      exact hp.noBlock d hd (by omega) haction
    refine ⟨hblocked, p, s, rfl, ?_, ?_⟩
    · by_contra hlt
      exact hp.clear d hd ⟨by omega, hstop⟩
    · have hclean : e.NoBlock p := by
        intro d' hd'
        obtain ⟨hfound, hle⟩ := ((h.split p s hp.clear).1 d').mp hd'
        exact hp.noBlock d' hfound hle
      rw [h.scanText hreplaces hclean, htext]
  · intro head hhead entities
    exact h.scan_ne_blocked hreplaces (hrun.rescans head hhead) entities

end StreamRun

/-! ## Where the cut lands among disjoint spans -/

theorem walkBack_eq_or_start (spans : List Span) (cut : ℕ) :
    walkBack spans cut = cut ∨ ∃ s ∈ spans, walkBack spans cut = s.start := by
  induction spans generalizing cut with
  | nil => exact .inl rfl
  | cons s spans ih =>
    rw [walkBack]
    rcases ih (if s.straddles cut then s.start else cut) with heq | ⟨s', hs', heq⟩
    · rw [heq]
      split
      · exact .inr ⟨s, List.mem_cons_self, rfl⟩
      · exact .inl rfl
    · exact .inr ⟨s', List.mem_cons_of_mem _ hs', heq⟩

/-- Among disjoint spans one walk over them is enough. -/
theorem not_straddles_walkBack {spans : List Span} (hpos : ∀ s ∈ spans, s.start < s.stop)
    (hapart : ∀ a ∈ spans, ∀ b ∈ spans, a = b ∨ a.stop ≤ b.start ∨ b.stop ≤ a.start) (cut : ℕ) :
    ∀ s ∈ spans, s.straddles (walkBack spans cut) = false := by
  -- the start of one of the spans is straddled by no other
  have hstart : ∀ a ∈ spans, ∀ b ∈ spans, a.straddles b.start = false := by
    intro a ha b hb
    have hb' := hpos b hb
    have hapart' := hapart a ha b hb
    simp only [Span.straddles, Bool.and_eq_false_iff, decide_eq_false_iff_not]
    rcases hapart' with rfl | h | h <;> omega
  rcases walkBack_eq_or_start spans cut with heq | ⟨b, hb, heq⟩
  · rw [heq]
    exact not_straddles_of_walkBack_eq heq
  · rw [heq]
    exact fun a ha => hstart a ha b hb

theorem not_straddles_safePrefix {pending : Text} {spans : List Span}
    (hpos : ∀ s ∈ spans, s.start < s.stop)
    (hapart : ∀ a ∈ spans, ∀ b ∈ spans, a = b ∨ a.stop ≤ b.start ∨ b.stop ≤ a.start)
    (hstop : ∀ s ∈ spans, isCharBoundary pending s.stop = true) (window ceiling : ℕ) :
    ∀ s ∈ spans, s.straddles (safePrefix pending spans window ceiling) = false := by
  intro s hs
  unfold safePrefix
  dsimp only
  split
  · simp [Span.straddles]
  · have hwalk := not_straddles_walkBack hpos hapart (min (utf8Len pending - window) ceiling) s hs
    generalize walkBack spans (min (utf8Len pending - window) ceiling) = cut at hwalk ⊢
    have hle := floorCharBoundary_le pending cut
    simp only [Span.straddles, Bool.and_eq_false_iff, decide_eq_false_iff_not] at hwalk ⊢
    by_contra hnot
    push Not at hnot
    -- the floor is below the end of the span, so the cut was too
    have hcut : cut < s.stop := by
      by_contra hge
      have := le_floorCharBoundary (hstop s hs) (Nat.le_of_not_lt hge)
      omega
    omega

/-! ## Calls -/

section Calls

variable {e : Engine} {window : ℕ} {apply : Operator → Text → Text} (h : e.BoundedLocal window)
  (hreplaces : e.ReplacesSpans apply)

include h in
/-- What a call learns from `Engine::detect`. -/
theorem Engine.BoundedLocal.detected {pending : Text} {spans : List Span}
    (hdetect : e.detect pending = .ok spans) :
    (∀ d ∈ e.found pending, e.actionOn d ≠ .allow → e.toSpan d ∈ spans) ∧
      ∀ s ∈ spans, ∃ d ∈ e.found pending, e.toSpan d = s := by
  obtain ⟨spans', hdetect', hmem, hof⟩ := h.detect pending
  obtain rfl : spans' = spans := Except.ok.inj (hdetect'.symm.trans hdetect)
  exact ⟨hmem, hof⟩

include h in
theorem Engine.BoundedLocal.noBlock_of_detect {pending : Text} {spans : List Span}
    (hdetect : e.detect pending = .ok spans) (hblock : blockingEntities spans = []) :
    e.NoBlock pending := by
  intro d hd haction
  have hmem := (h.detected hdetect).1 d hd (by rw [haction]; exact Action.noConfusion)
  exact Engine.blockingEntities_eq_nil_iff.1 hblock _ hmem haction

include h in
/-- The spans of `Engine::detect` are disjoint, non-empty and end between characters. -/
theorem Engine.BoundedLocal.spans_apart {pending : Text} {spans : List Span}
    (hdetect : e.detect pending = .ok spans) :
    (∀ s ∈ spans, s.start < s.stop) ∧
      (∀ a ∈ spans, ∀ b ∈ spans, a = b ∨ a.stop ≤ b.start ∨ b.stop ≤ a.start) ∧
      ∀ s ∈ spans, isCharBoundary pending s.stop = true := by
  have hof := (h.detected hdetect).2
  refine ⟨?_, ?_, ?_⟩
  · intro s hs
    obtain ⟨d, hd, rfl⟩ := hof s hs
    exact (h.inRange pending d hd).1
  · intro a ha b hb
    obtain ⟨d, hd, rfl⟩ := hof a ha
    obtain ⟨d', hd', rfl⟩ := hof b hb
    by_cases heq : d = d'
    · exact .inl (by rw [heq])
    · exact .inr (h.apart hd hd' heq)
  · intro s hs
    obtain ⟨d, hd, rfl⟩ := hof s hs
    exact (h.onBoundaries pending d hd).2

include h hreplaces in
/-- What a call of `HoldBack::advance` can do. -/
theorem HoldBack.advance_local (hb : HoldBack) (hwindow : hb.window = window) (finalChunk : Bool) :
    (hb.advance e finalChunk = (.ok .nothing, hb) ∧ hb.rescanned e finalChunk = [] ∧
      (finalChunk = true → hb.pending = [])) ∨
    ((∃ entities hb', hb.advance e finalChunk = (.ok (.blocked entities), hb')) ∧
      hb.rescanned e finalChunk = []) ∨
    ∃ head tail, e.SafeHead hb.pending head tail ∧
      (if finalChunk then tail = [] else window ≤ utf8Len tail) ∧
      hb.rescanned e finalChunk = [head] ∧ (e.NoBlock head → ∃ hb',
        hb.advance e finalChunk = (.ok (.release (e.rewrite apply head)), hb') ∧
        hb'.pending = tail ∧ hb'.window = window) := by
  by_cases hpending : hb.pending = []
  · exact .inl (by simp [HoldBack.advance, HoldBack.rescanned, hpending])
  obtain ⟨spans, hdetect, -⟩ := h.detect hb.pending
  by_cases hblock : blockingEntities spans = []
  case neg =>
    exact .inr (.inl (by simp [HoldBack.advance, HoldBack.rescanned, hpending, hdetect, hblock]))
  have hlen : utf8Len hb.pending ≠ 0 := fun h0 => hpending (String.utf8Len_eq_zero.mp h0)
  set cut := if finalChunk then utf8Len hb.pending
    else safePrefix hb.pending spans hb.window (utf8Len hb.pending) with hcutdef
  have hadvance : hb.advance e finalChunk =
      if cut = 0 then (.ok .nothing, hb) else hb.releaseHead e cut := by
    simp [HoldBack.advance, hpending, hdetect, hblock, hcutdef]
  have hrescanned : hb.rescanned e finalChunk =
      if cut = 0 then [] else [takeBytes hb.pending cut] := by
    simp [HoldBack.rescanned, hpending, hdetect, hblock, hcutdef]
  by_cases hcut : cut = 0
  · refine .inl ⟨by rw [hadvance, if_pos hcut], by rw [hrescanned, if_pos hcut], ?_⟩
    rintro rfl
    exact absurd hcut hlen
  have hboundary : isCharBoundary hb.pending cut = true := by
    rw [hcutdef]
    split
    · exact isCharBoundary_utf8Len _
    · exact isCharBoundary_safePrefix _ _ _ _
  refine .inr (.inr ⟨takeBytes hb.pending cut, dropBytes hb.pending cut, ?_, ?_, ?_, ?_⟩)
  · refine ⟨(takeBytes_append_dropBytes _ _).symm, h.noBlock_of_detect hdetect hblock, ?_⟩
    intro d hd haction
    rw [utf8Len_takeBytes hboundary, hcutdef]
    cases finalChunk with
    | true =>
      rintro ⟨-, hstop⟩
      exact absurd (h.inRange hb.pending d hd).2 (Nat.not_le.mpr hstop)
    | false =>
      obtain ⟨hpos, hapart, hstop⟩ := h.spans_apart hdetect
      have hclear := not_straddles_safePrefix hpos hapart hstop hb.window (utf8Len hb.pending)
        (e.toSpan d) ((h.detected hdetect).1 d hd haction)
      rintro ⟨hlow, hhigh⟩
      simp only [Span.straddles, Engine.toSpan, Bool.and_eq_false_iff] at hclear
      rcases hclear with hnot | hnot
      · exact of_decide_eq_false hnot hlow
      · exact of_decide_eq_false hnot hhigh
  · cases finalChunk with
    | true =>
      rw [if_pos rfl, hcutdef, if_pos rfl]
      exact dropBytes_utf8Len _
    | false =>
      rw [if_neg Bool.false_ne_true]
      have hle := safePrefix_le_window hb.pending spans hb.window (utf8Len hb.pending)
      rw [utf8Len_dropBytes hboundary]
      rw [if_neg Bool.false_ne_true] at hcutdef
      omega
  · rw [hrescanned, if_neg hcut]
  · intro hnoBlock
    have hscan := h.scanText hreplaces hnoBlock
    rw [hadvance, if_neg hcut, HoldBack.releaseHead]
    unfold Engine.scanText at hscan
    split at hscan
    · next hv =>
      rw [← Option.some.inj hscan, hv]
      exact ⟨_, rfl, rfl, hwindow⟩
    · next text count hv =>
      rw [← Option.some.inj hscan, hv]
      exact ⟨_, rfl, rfl, hwindow⟩
    · cases hscan

/-- A head that is neither blocked nor an error is released. -/
theorem ChoiceRedactor.releaseHead_of_scanText {r : ChoiceRedactor} {cut : ℕ} {text : Text}
    (hscan : e.scanText (takeBytes r.pending cut) = some text) :
    ∃ ids, (r.releaseHead e cut).1 = .ok (.release text ids) := by
  unfold Engine.scanText at hscan
  split at hscan
  · next hv =>
    simp only [ChoiceRedactor.releaseHead, hv, ← Option.some.inj hscan]
    exact ⟨_, rfl⟩
  · next hv =>
    simp only [ChoiceRedactor.releaseHead, hv, ← Option.some.inj hscan]
    exact ⟨_, rfl⟩
  · cases hscan

include h hreplaces in
/-- What a call of `ChoiceRedactor::advance` can do. -/
theorem ChoiceRedactor.advance_local {r : ChoiceRedactor} {pieces : List (Text × ℕ)}
    (hholds : r.Holds pieces) (finalChunk : Bool) :
    (r.advance e window finalChunk = (.ok .nothing, r) ∧ r.rescanned e window finalChunk = [] ∧
      (finalChunk = true → r.pending = [])) ∨
    ((∃ entities r', r.advance e window finalChunk = (.ok (.blocked entities), r')) ∧
      r.rescanned e window finalChunk = []) ∨
    ∃ head tail, pieces = head ++ tail ∧ piecesText head ≠ [] ∧
      e.SafeHead r.pending (piecesText head) (piecesText tail) ∧
      (if finalChunk then piecesText tail = [] else window ≤ utf8Len (piecesText tail)) ∧
      r.rescanned e window finalChunk = [piecesText head] ∧
      (e.NoBlock (piecesText head) → ∃ r', r.advance e window finalChunk =
          (.ok (.release (e.rewrite apply (piecesText head)) (head.map Prod.snd)), r') ∧
        r'.Holds tail) := by
  by_cases hpending : r.pending = []
  · exact .inl (by simp [ChoiceRedactor.advance, ChoiceRedactor.rescanned, hpending])
  obtain ⟨spans, hdetect, -⟩ := h.detect r.pending
  by_cases hblock : blockingEntities spans = []
  case neg =>
    refine .inr (.inl ?_)
    simp [ChoiceRedactor.advance, ChoiceRedactor.rescanned, hpending, hdetect, hblock]
  have hlen : utf8Len r.pending ≠ 0 := fun h0 => hpending (String.utf8Len_eq_zero.mp h0)
  set cut := r.chooseCut spans (if finalChunk then 0 else window) with hcutdef
  have hadvance : r.advance e window finalChunk =
      if cut = 0 then (.ok .nothing, r) else r.releaseHead e cut := by
    simp [ChoiceRedactor.advance, hpending, hdetect, hblock, hcutdef]
  have hrescanned : r.rescanned e window finalChunk =
      if cut = 0 then [] else [takeBytes r.pending cut] := by
    simp [ChoiceRedactor.rescanned, hpending, hdetect, hblock, hcutdef]
  have hfinal : finalChunk = true → cut = utf8Len r.pending := by
    rintro rfl
    rw [hcutdef, if_pos rfl]
    refine ChoiceRedactor.chooseCut_zero_window hholds ?_
    intro s hs
    obtain ⟨d, hd, rfl⟩ := (h.detected hdetect).2 s hs
    exact (h.inRange r.pending d hd).2
  by_cases hcut : cut = 0
  · refine .inl ⟨by rw [hadvance, if_pos hcut], by rw [hrescanned, if_pos hcut], ?_⟩
    intro hf
    exact absurd ((hfinal hf).symm.trans hcut) hlen
  obtain ⟨head, tail, rfl, hheadlen, hsplit, hwin, hclear⟩ :=
    ChoiceRedactor.chooseCut_spec hholds spans _ hcut
  rw [← hcutdef] at hheadlen hsplit
  have htext : r.pending = piecesText head ++ piecesText tail := by
    rw [hholds.pending, piecesText_append]
  have hhead : takeBytes r.pending cut = piecesText head := by
    rw [htext, ← hheadlen, takeBytes_utf8Len_append]
  refine .inr (.inr ⟨head, tail, rfl, ?_, ?_, ?_, ?_, ?_⟩)
  · intro hnil
    rw [hnil] at hheadlen
    exact hcut hheadlen.symm
  · refine ⟨htext, h.noBlock_of_detect hdetect hblock, ?_⟩
    intro d hd haction
    have hnot := hclear (e.toSpan d) ((h.detected hdetect).1 d hd haction)
    rintro ⟨hlow, hhigh⟩
    simp only [Span.straddles, Engine.toSpan, Bool.and_eq_false_iff] at hnot
    rcases hnot with hnot | hnot
    · exact of_decide_eq_false hnot hlow
    · exact of_decide_eq_false hnot hhigh
  · cases finalChunk with
    | true =>
      have hall := hfinal rfl
      rw [htext, String.utf8Len_append] at hall
      rw [if_pos rfl]
      exact String.utf8Len_eq_zero.mp (by omega)
    | false =>
      rw [if_neg Bool.false_ne_true] at hwin ⊢
      exact hwin
  · rw [hrescanned, if_neg hcut, hhead]
  · intro hnoBlock
    have hscan := h.scanText hreplaces hnoBlock
    obtain ⟨ids, hids⟩ := ChoiceRedactor.releaseHead_of_scanText (hhead.symm ▸ hscan)
    rw [hadvance, if_neg hcut]
    obtain ⟨err, herr⟩ | ⟨entities, hblocked⟩ | ⟨text, hrel, htext', hholds'⟩ :=
      ChoiceRedactor.releaseHead_cases hholds hheadlen hsplit e
    · cases herr.symm.trans hids
    · cases hblocked.symm.trans hids
    · obtain rfl := Option.some.inj (htext'.symm.trans hscan)
      exact ⟨_, Prod.ext hrel rfl, hholds'⟩

/-! ## Streams -/

variable {whole done : Text} (hallow : e.AllowedClear window whole)

include h hreplaces hallow in
theorem HoldBack.stream_continues {hb : HoldBack} {pieces : List Text} (hwindow : hb.window = window)
    (hreached : e.Reached whole done) (hwhole : whole = done ++ (hb.pending ++ pieces.flatten)) :
    (hb.stream e pieces).Continues e apply whole done := by
  induction pieces generalizing hb done with
  | nil =>
    rw [HoldBack.stream, HoldBack.flush]
    obtain ⟨hadvance, hrescanned, hnil⟩ | ⟨⟨entities, hb', hadvance⟩, hrescanned⟩ |
      ⟨head, tail, hsafe, hroom, hrescanned, hrelease⟩ := hb.advance_local h hreplaces hwindow true
    · rw [hadvance, hrescanned]
      obtain rfl : whole = done := by
        rw [hwhole, hnil rfl]
        simp
      exact .finish hreached h
    · rw [hadvance, hrescanned]
      exact .block hreached hwhole
    · obtain rfl : tail = [] := by simpa using hroom
      have hend : whole = done ++ head := by
        rw [hwhole, hsafe.split]
        simp
      have hroom' : window ≤ utf8Len [] ∨ ([] : Text) = [] ∧ [].flatten = ([] : Text) :=
        .inr ⟨rfl, rfl⟩
      obtain ⟨hb', hadvance, -⟩ := hrelease (hreached.noBlock_head h hallow hwhole hsafe hroom')
      have hnext := hreached.append h hallow hwhole hsafe hroom'
      rw [hadvance, hrescanned]
      rw [← hend] at hnext
      have hrun : StreamRun.Continues e apply whole done
          (.after (e.rewrite apply head) [head] ⟨[], false, []⟩) :=
        .release h hallow hreached hwhole hsafe hroom' (by rw [← hend]; exact .finish hnext h)
      simpa [StreamRun.after] using hrun
  | cons piece pieces ih =>
    rw [HoldBack.stream, HoldBack.push]
    set hb₁ : HoldBack := { hb with pending := hb.pending ++ piece } with hb₁def
    have hwhole' : whole = done ++ (hb₁.pending ++ pieces.flatten) := by
      rw [hwhole, hb₁def, List.flatten_cons]
      simp only [List.append_assoc]
    have hwindow₁ : hb₁.window = window := hwindow
    obtain ⟨hadvance, hrescanned, -⟩ | ⟨⟨entities, hb', hadvance⟩, hrescanned⟩ |
      ⟨head, tail, hsafe, hroom, hrescanned, hrelease⟩ :=
      hb₁.advance_local h hreplaces hwindow₁ false
    · rw [hadvance, hrescanned]
      exact (ih hwindow₁ hreached hwhole').hold
    · rw [hadvance, hrescanned]
      exact .block hreached hwhole'
    · have hroom' : window ≤ utf8Len tail ∨ tail = [] ∧ pieces.flatten = [] :=
        .inl (by simpa using hroom)
      obtain ⟨hb', hadvance, hpending, hwindow'⟩ :=
        hrelease (hreached.noBlock_head h hallow hwhole' hsafe hroom')
      rw [hadvance, hrescanned]
      refine .release h hallow hreached hwhole' hsafe hroom' (ih hwindow' ?_ ?_)
      · exact hreached.append h hallow hwhole' hsafe hroom'
      · rw [hpending, hwhole', hsafe.split]
        simp only [List.append_assoc]

/-- The writes of a release of some text give the text. -/
theorem flatMap_releaseWrites (text : Text) {head : List (Text × ℕ)} (hne : piecesText head ≠ []) :
    (releaseWrites text (head.map Prod.snd)).flatMap Prod.snd = text := by
  cases head with
  | nil => exact absurd rfl hne
  | cons piece rest => simp [releaseWrites]

include h hreplaces hallow in
theorem ChoiceRedactor.flushStream_continues {r : ChoiceRedactor} {pieces : List (Text × ℕ)}
    (hholds : r.Holds pieces) (hreached : e.Reached whole done) (hwhole : whole = done ++ r.pending)
    {fuel : ℕ} (hfuel : r.pending.length < fuel) :
    (r.flushStream e window fuel).Continues e apply whole done := by
  induction fuel generalizing r pieces done with
  | zero => exact absurd hfuel (Nat.not_lt_zero _)
  | succ fuel ih =>
    have hwhole' : whole = done ++ (r.pending ++ []) := by rw [hwhole, List.append_nil]
    rw [ChoiceRedactor.flushStream, ChoiceRedactor.flush]
    obtain ⟨hadvance, hrescanned, hnil⟩ | ⟨⟨entities, r', hadvance⟩, hrescanned⟩ |
      ⟨head, tail, hpieces, hne, hsafe, hroom, hrescanned, hrelease⟩ :=
      ChoiceRedactor.advance_local h hreplaces hholds true
    · rw [hadvance, hrescanned]
      obtain rfl : whole = done := by rw [hwhole, hnil rfl, List.append_nil]
      exact .finish hreached h
    · rw [hadvance, hrescanned]
      exact .block hreached hwhole
    · have htail : piecesText tail = [] := by simpa using hroom
      have hroom' : window ≤ utf8Len (piecesText tail) ∨ piecesText tail = [] ∧ ([] : Text) = [] :=
        .inr ⟨htail, rfl⟩
      obtain ⟨r', hadvance, hholds'⟩ :=
        hrelease (hreached.noBlock_head h hallow hwhole' hsafe hroom')
      rw [hadvance, hrescanned]
      dsimp only
      rw [flatMap_releaseWrites _ hne]
      refine .release h hallow hreached hwhole' hsafe hroom' (ih hholds' ?_ ?_ ?_)
      · exact hreached.append h hallow hwhole' hsafe hroom'
      · rw [hwhole, hsafe.split, hholds'.pending, List.append_assoc]
      · have hpos := List.length_pos_iff.mpr hne
        rw [hsafe.split, List.length_append] at hfuel
        rw [hholds'.pending]
        omega

include h hreplaces hallow in
theorem ChoiceRedactor.stream_continues {r : ChoiceRedactor} {pieces : List (Text × ℕ)}
    {frames : List (ℕ × Text)} (hholds : r.Holds pieces) (hreached : e.Reached whole done)
    (hwhole : whole = done ++ (r.pending ++ frames.flatMap Prod.snd)) :
    (r.stream e window frames).Continues e apply whole done := by
  induction frames generalizing r pieces done with
  | nil =>
    rw [ChoiceRedactor.stream]
    rw [List.flatMap_nil, List.append_nil] at hwhole
    exact ChoiceRedactor.flushStream_continues h hreplaces hallow hholds hreached hwhole
      (Nat.lt_succ_self _)
  | cons frame frames ih =>
    obtain ⟨fid, text⟩ := frame
    rw [ChoiceRedactor.stream, ChoiceRedactor.push]
    have hholds₁ := hholds.append fid text
    set r₁ := r.append fid text with hr₁
    have hwhole' : whole = done ++ (r₁.pending ++ frames.flatMap Prod.snd) := by
      rw [hwhole, hr₁, List.flatMap_cons, ChoiceRedactor.append]
      simp only [List.append_assoc]
    obtain ⟨hadvance, hrescanned, -⟩ | ⟨⟨entities, r', hadvance⟩, hrescanned⟩ |
      ⟨head, tail, hpieces, hne, hsafe, hroom, hrescanned, hrelease⟩ :=
      ChoiceRedactor.advance_local h hreplaces hholds₁ false
    · rw [hadvance, hrescanned]
      exact (ih hholds₁ hreached hwhole').hold
    · rw [hadvance, hrescanned]
      exact .block hreached hwhole'
    · have hroom' : window ≤ utf8Len (piecesText tail) ∨
          piecesText tail = [] ∧ frames.flatMap Prod.snd = [] := .inl (by simpa using hroom)
      obtain ⟨r', hadvance, hholds'⟩ :=
        hrelease (hreached.noBlock_head h hallow hwhole' hsafe hroom')
      rw [hadvance, hrescanned]
      dsimp only
      rw [flatMap_releaseWrites _ hne]
      refine .release h hallow hreached hwhole' hsafe hroom' (ih hholds' ?_ ?_)
      · exact hreached.append h hallow hwhole' hsafe hroom'
      · rw [hwhole', hsafe.split, hholds'.pending]
        simp only [List.append_assoc]

end Calls

/-- Every way of pushing the text to a `HoldBack`, and every way of feeding it to a key in frames,
gives the whole text. -/
def Engine.StreamsWhole (e : Engine) (window : ℕ) (whole : Text) : Prop :=
  (∀ pieces : List Text, pieces.flatten = whole →
    ((HoldBack.withWindow window).stream e pieces).GivesWhole e whole) ∧
  ∀ frames : List (ℕ × Text), frames.flatMap Prod.snd = whole →
    ((default : ChoiceRedactor).stream e window frames).GivesWhole e whole

/-- A text without an allowed span that can be cut comes out of every stream as `Engine::scan`
leaves it. -/
theorem Engine.BoundedLocal.streamsWhole {e : Engine} {window : ℕ}
    {apply : Operator → Text → Text} (hlocal : e.BoundedLocal window)
    (hreplaces : e.ReplacesSpans apply) {whole : Text} (hallow : e.AllowedClear window whole) :
    e.StreamsWhole window whole := by
  constructor
  · rintro pieces rfl
    refine StreamRun.Continues.givesWhole hlocal hreplaces ?_
    exact HoldBack.stream_continues hlocal hreplaces hallow rfl (hlocal.reached_nil _) rfl
  · rintro frames rfl
    refine StreamRun.Continues.givesWhole hlocal hreplaces ?_
    exact ChoiceRedactor.stream_continues hlocal hreplaces hallow ChoiceRedactor.holds_default
      (hlocal.reached_nil _) rfl

/-! ## A profile that allows everything -/

section AllAllowed

variable {e e' : Engine} (hdetect : e.detect = e'.detect) (hscan : e.scan = e'.scan)

include hdetect hscan in
theorem HoldBack.stream_congr (pieces : List Text) (h : HoldBack) :
    h.stream e pieces = h.stream e' pieces := by
  have hadvance : HoldBack.advance e = HoldBack.advance e' := by
    funext h finalChunk
    simp only [HoldBack.advance, HoldBack.releaseHead, hdetect, hscan]
  have hrescanned : HoldBack.rescanned e = HoldBack.rescanned e' := by
    funext h finalChunk
    simp only [HoldBack.rescanned, hdetect]
  induction pieces generalizing h with
  | nil => simp only [HoldBack.stream, HoldBack.flush, hadvance, hrescanned]
  | cons piece pieces ih =>
    simp only [HoldBack.stream, HoldBack.push, hadvance, hrescanned, ih]

include hdetect hscan in
theorem ChoiceRedactor.stream_congr (window : ℕ) (frames : List (ℕ × Text)) (r : ChoiceRedactor) :
    r.stream e window frames = r.stream e' window frames := by
  have hadvance : ChoiceRedactor.advance e = ChoiceRedactor.advance e' := by
    funext window r finalChunk
    simp only [ChoiceRedactor.advance, ChoiceRedactor.releaseHead, hdetect, hscan]
  have hrescanned : ChoiceRedactor.rescanned e = ChoiceRedactor.rescanned e' := by
    funext window r finalChunk
    simp only [ChoiceRedactor.rescanned, hdetect]
  have hflush (fuel : ℕ) (r : ChoiceRedactor) :
      r.flushStream e window fuel = r.flushStream e' window fuel := by
    induction fuel generalizing r with
    | zero => rfl
    | succ fuel ih =>
      simp only [ChoiceRedactor.flushStream, ChoiceRedactor.flush, hadvance, hrescanned, ih]
  induction frames generalizing r with
  | nil => exact hflush _ r
  | cons frame frames ih =>
    obtain ⟨fid, text⟩ := frame
    simp only [ChoiceRedactor.stream, ChoiceRedactor.push, hadvance, hrescanned, ih]

/-- An engine that finds nothing. -/
def Engine.blind (e : Engine) : Engine := { e with analyze := fun _ => .ok [] }

theorem Engine.blind_local (e : Engine) (window : ℕ) : e.blind.BoundedLocal window where
  total _ := ⟨[], rfl⟩
  inRange _ _ hd := (List.not_mem_nil hd).elim
  onBoundaries _ _ hd := (List.not_mem_nil hd).elim
  short _ _ hd := (List.not_mem_nil hd).elim
  disjoint _ := .nil
  ofPrefix _ _ _ hd := (List.not_mem_nil hd).elim
  split _ _ _ := by simp [Engine.found, Engine.blind]

/-- An engine that allows everything does what one does that finds nothing. -/
theorem Engine.BoundedLocal.streamsWhole_of_allowed {window : ℕ} {apply : Operator → Text → Text}
    (hlocal : e.BoundedLocal window) (hreplaces : e.ReplacesSpans apply)
    (hall : ∀ entity, e.profile.actionFor entity = .allow) (whole : Text) :
    e.StreamsWhole window whole := by
  have hdetect : e.detect = e.blind.detect := by
    funext text
    simp [Engine.detect, Engine.blind, hlocal.analyze, Engine.toSpan, hall, List.filter_map,
      Function.comp_def]
  have hscan : e.scan = e.blind.scan := by
    funext text
    simp [Engine.scan, Engine.blind, hlocal.analyze, hall]
  have hnoBlock (text : Text) : e.NoBlock text := by
    intro d _ hblock
    rw [Engine.actionOn, hall] at hblock
    cases hblock
  have hblind : e.blind.StreamsWhole window whole := by
    refine (e.blind_local window).streamsWhole hreplaces ?_
    intro d hd
    exact (List.not_mem_nil hd).elim
  have hgives {run : StreamRun} (hrun : run.GivesWhole e.blind whole) : run.GivesWhole e whole := by
    refine ⟨fun hnot => ⟨hnoBlock whole, ?_⟩, fun d hd hblock => absurd hblock (hnoBlock whole d hd),
      ?_⟩
    · rw [Engine.scanText, hscan]
      exact (hrun.clean hnot).2
    · rw [hscan]
      exact hrun.rescans
  constructor
  · intro pieces hpieces
    rw [HoldBack.stream_congr hdetect hscan]
    exact hgives (hblind.1 pieces hpieces)
  · intro frames hframes
    rw [ChoiceRedactor.stream_congr hdetect hscan]
    exact hgives (hblind.2 frames hframes)

end AllAllowed

/-! ## An allowed pair -/

section Pair

variable (pair lone : String)

/-- The span of an `a`, together with a `b` behind it. -/
def pairAt (rest : Text) (offset : ℕ) : Detection :=
  if rest.head? = some 'b' then ⟨offset, offset + 2, pair⟩ else ⟨offset, offset + 1, lone⟩

/-- The spans of a text whose first byte is at `offset`. -/
def pairDetections : Text → ℕ → List Detection
  | [], _ => []
  | c :: cs, offset =>
    (if c = 'a' then [pairAt pair lone cs offset] else []) ++
      pairDetections cs (offset + c.utf8Size)

/-- An engine that reports each `ab` as one entity type and each other `a` as a second one;
whatever the profile has it rewrite becomes stars. -/
def pairEngine (profile : Profile) : Engine where
  analyze text := .ok (pairDetections pair lone text 0)
  anonymize text ds _ :=
    .ok (replaceSpans (fun _ piece => piece.map fun _ => '*') text ds, ds.length)
  profile := profile
  salt := ""

variable {pair lone}

theorem mem_pairDetections {text : Text} {offset : ℕ} {d : Detection} :
    d ∈ pairDetections pair lone text offset ↔
      ∃ p s, text = p ++ 'a' :: s ∧ d = pairAt pair lone s (offset + utf8Len p) := by
  induction text generalizing offset with
  | nil => simp [pairDetections]
  | cons c cs ih =>
    rw [pairDetections, List.mem_append, ih]
    constructor
    · rintro (hhead | ⟨p, s, rfl, rfl⟩)
      · split at hhead
        · next hc =>
          obtain rfl := List.mem_singleton.mp hhead
          exact ⟨[], cs, by rw [hc]; rfl, rfl⟩
        · exact (List.not_mem_nil hhead).elim
      · refine ⟨c :: p, s, rfl, ?_⟩
        rw [String.utf8Len_cons, Nat.add_assoc, Nat.add_comm c.utf8Size]
    · rintro ⟨p, s, htext, rfl⟩
      cases p with
      | nil =>
        obtain ⟨rfl, rfl⟩ := List.cons.inj htext
        exact .inl (by simp)
      | cons c' p =>
        obtain ⟨rfl, rfl⟩ := List.cons.inj htext
        refine .inr ⟨p, s, rfl, ?_⟩
        rw [String.utf8Len_cons, Nat.add_assoc, Nat.add_comm c.utf8Size]

theorem pairAt_start (s : Text) (offset : ℕ) : (pairAt pair lone s offset).start = offset := by
  unfold pairAt
  split <;> rfl

theorem pairAt_shift (s : Text) (offset n : ℕ) :
    (pairAt pair lone s offset).shift n = pairAt pair lone s (n + offset) := by
  unfold pairAt
  split <;> (simp only [Detection.shift]; congr 1 <;> omega)

/-- The two spans that can begin at an `a`. -/
theorem pairAt_cases (s : Text) (offset : ℕ) :
    (∃ s', s = 'b' :: s' ∧ pairAt pair lone s offset = ⟨offset, offset + 2, pair⟩) ∨
      s.head? ≠ some 'b' ∧ pairAt pair lone s offset = ⟨offset, offset + 1, lone⟩ := by
  by_cases hhead : s.head? = some 'b'
  · obtain ⟨s', rfl⟩ := List.head?_eq_some_iff.mp hhead
    exact .inl ⟨s', rfl, if_pos hhead⟩
  · exact .inr ⟨hhead, if_neg hhead⟩

/-- The spans of a text follow each other. -/
theorem pairwise_pairDetections (text : Text) (offset : ℕ) :
    (pairDetections pair lone text offset).Pairwise
      fun a b => a.stop ≤ b.start ∨ b.stop ≤ a.start := by
  induction text generalizing offset with
  | nil => exact .nil
  | cons c cs ih =>
    rw [pairDetections]
    split
    case isFalse => exact ih _
    case isTrue hc =>
      subst hc
      refine List.pairwise_cons.mpr ⟨?_, ih _⟩
      intro d hd
      obtain ⟨p, s, rfl, rfl⟩ := mem_pairDetections.1 hd
      have hsize : 'a'.utf8Size = 1 := rfl
      left
      rw [pairAt_start]
      obtain ⟨s', heq, hat⟩ | ⟨-, hat⟩ := pairAt_cases 
        (p ++ 'a' :: s) offset
      · rw [hat]
        -- the `b` of the pair is not the `a` of the next span
        cases p with
        | nil => cases heq
        | cons c p =>
          obtain ⟨rfl, -⟩ := List.cons.inj heq
          have hb : 'b'.utf8Size = 1 := rfl
          rw [String.utf8Len_cons]
          dsimp only
          omega
      · rw [hat]
        dsimp only
        omega

variable {profile : Profile}

theorem mem_found_pairEngine {text : Text} {d : Detection} :
    d ∈ (pairEngine pair lone profile).found text ↔
      ∃ p s, text = p ++ 'a' :: s ∧ d = pairAt pair lone s (utf8Len p) := by
  change d ∈ pairDetections pair lone text 0 ↔ _
  rw [mem_pairDetections]
  simp only [Nat.zero_add]

theorem utf8Len_concat_a (p : Text) : utf8Len (p ++ ['a']) = utf8Len p + 1 := by
  rw [String.utf8Len_append]
  rfl

/-- A span ends between characters of the text. -/
theorem isCharBoundary_pairAt (p s : Text) :
    isCharBoundary (p ++ 'a' :: s) (pairAt pair lone s (utf8Len p)).stop = true := by
  obtain ⟨s', rfl, hat⟩ | ⟨-, hat⟩ := pairAt_cases s (utf8Len p)
  · have hsplit : p ++ 'a' :: 'b' :: s' = (p ++ ['a', 'b']) ++ s' := by simp
    have hlen : utf8Len (p ++ ['a', 'b']) = utf8Len p + 2 := by
      rw [String.utf8Len_append]
      rfl
    rw [hat, hsplit, ← hlen]
    exact isCharBoundary_utf8Len_append _ _
  · have hsplit : p ++ 'a' :: s = (p ++ ['a']) ++ s := by simp
    rw [hat, hsplit, ← utf8Len_concat_a]
    exact isCharBoundary_utf8Len_append _ _

/-- A span that ends in a prefix is the one that begins at the same place of the prefix. -/
theorem pairAt_ofPrefix {p s q u : Text} (htext : p ++ s = q ++ 'a' :: u)
    (hstop : (pairAt pair lone u (utf8Len q)).stop ≤ utf8Len p) :
    ∃ m, p = q ++ 'a' :: m ∧ pairAt pair lone m (utf8Len q) = pairAt pair lone u (utf8Len q) := by
  have hlt : utf8Len q + 1 ≤ (pairAt pair lone u (utf8Len q)).stop := by
    obtain ⟨-, -, hat⟩ | ⟨-, hat⟩ := pairAt_cases u (utf8Len q)
    · rw [hat]
      exact Nat.le_succ _
    · rw [hat]
  have hsplit : (q ++ ['a']) ++ u = p ++ s := by
    rw [htext]
    simp
  obtain ⟨m, rfl, rfl⟩ := exists_append_of_utf8Len_le hsplit
    (by rw [utf8Len_concat_a]; omega)
  refine ⟨m, by simp, ?_⟩
  cases m with
  | cons c m => rfl
  | nil =>
    obtain ⟨s', rfl, hat⟩ | ⟨hhead, hat⟩ := pairAt_cases s (utf8Len q)
    · rw [List.nil_append, hat, List.append_nil, utf8Len_concat_a] at hstop
      dsimp only at hstop
      omega
    · rw [List.nil_append, hat]
      rfl

/-- A span of a prefix is the one that begins at the same place of the text, when no span
straddles the end of the prefix. -/
theorem pairAt_of_clear {q m s : Text}
    (hclear : ¬ (pairAt pair lone (m ++ s) (utf8Len q)).straddles (utf8Len (q ++ 'a' :: m))) :
    pairAt pair lone m (utf8Len q) = pairAt pair lone (m ++ s) (utf8Len q) := by
  cases m with
  | cons c m => rfl
  | nil =>
    obtain ⟨s', rfl, hat⟩ | ⟨hhead, hat⟩ := pairAt_cases s (utf8Len q)
    · refine absurd ?_ hclear
      rw [List.nil_append, hat, utf8Len_concat_a]
      exact ⟨Nat.lt_succ_self _, Nat.lt_succ_self _⟩
    · rw [List.nil_append, hat]
      rfl

theorem pairEngine_local {window : ℕ} (hwindow : 2 ≤ window) :
    (pairEngine pair lone profile).BoundedLocal window where
  total text := ⟨_, rfl⟩
  inRange text d hd := by
    obtain ⟨p, s, rfl, rfl⟩ := mem_found_pairEngine.1 hd
    refine ⟨?_, le_utf8Len_of_isCharBoundary (isCharBoundary_pairAt p s)⟩
    obtain ⟨-, -, hat⟩ | ⟨-, hat⟩ := pairAt_cases s (utf8Len p) <;> rw [hat] <;> dsimp only <;>
      omega
  onBoundaries text d hd := by
    obtain ⟨p, s, rfl, rfl⟩ := mem_found_pairEngine.1 hd
    refine ⟨?_, isCharBoundary_pairAt p s⟩
    rw [pairAt_start]
    exact isCharBoundary_utf8Len_append _ _
  short text d hd := by
    obtain ⟨p, s, rfl, rfl⟩ := mem_found_pairEngine.1 hd
    obtain ⟨-, -, hat⟩ | ⟨-, hat⟩ := pairAt_cases s (utf8Len p) <;> rw [hat] <;> dsimp only <;>
      omega
  disjoint text := pairwise_pairDetections text 0
  ofPrefix p s d hd hstop := by
    obtain ⟨q, u, htext, rfl⟩ := mem_found_pairEngine.1 hd
    obtain ⟨m, rfl, hat⟩ := pairAt_ofPrefix htext hstop
    exact mem_found_pairEngine.2 ⟨q, m, rfl, hat.symm⟩
  split p s hclear := by
    refine ⟨fun d => ⟨?_, ?_⟩, fun d => ⟨?_, ?_⟩⟩
    · intro hd
      obtain ⟨q, m, rfl, rfl⟩ := mem_found_pairEngine.1 hd
      have hwhole : pairAt pair lone (m ++ s) (utf8Len q) ∈
          (pairEngine pair lone profile).found (q ++ 'a' :: m ++ s) :=
        mem_found_pairEngine.2 ⟨q, m ++ s, by simp, rfl⟩
      have hsame := pairAt_of_clear (hclear _ hwhole)
      refine ⟨hsame ▸ hwhole, le_utf8Len_of_isCharBoundary (isCharBoundary_pairAt q m)⟩
    · rintro ⟨hd, hstop⟩
      obtain ⟨q, u, htext, rfl⟩ := mem_found_pairEngine.1 hd
      obtain ⟨m, rfl, hat⟩ := pairAt_ofPrefix htext hstop
      exact mem_found_pairEngine.2 ⟨q, m, rfl, hat.symm⟩
    · intro hd
      obtain ⟨q, u, rfl, rfl⟩ := mem_found_pairEngine.1 hd
      refine mem_found_pairEngine.2 ⟨p ++ q, u, by simp, ?_⟩
      rw [pairAt_shift, String.utf8Len_append]
    · intro hd
      obtain ⟨q, u, htext, hat⟩ := mem_found_pairEngine.1 hd
      have hstart : d.start + utf8Len p = utf8Len q := by
        have := congrArg Detection.start hat
        rwa [pairAt_start] at this
      obtain ⟨m, rfl, rfl⟩ := exists_append_of_utf8Len_le htext (by omega)
      refine mem_found_pairEngine.2 ⟨m, u, rfl, ?_⟩
      rw [String.utf8Len_append, ← pairAt_shift] at hat
      exact Detection.shift_injective _ hat

theorem pairEngine_replaces : (pairEngine pair lone profile).ReplacesSpans
    fun _ piece => piece.map fun _ => '*' :=
  fun _ _ _ => ⟨_, rfl⟩

theorem pairDetections_eq_nil {text : Text} (h : 'a' ∉ text) (offset : ℕ) :
    pairDetections pair lone text offset = [] := by
  refine List.eq_nil_iff_forall_not_mem.mpr fun d hd => h ?_
  obtain ⟨p, s, rfl, -⟩ := mem_pairDetections.1 hd
  simp

theorem detect_pairEngine {text : Text} (h : 'a' ∉ text) :
    (pairEngine pair lone profile).detect text = .ok [] := by
  unfold Engine.detect
  split
  · rfl
  · simp [pairEngine, pairDetections_eq_nil h]

theorem scan_pairEngine {text : Text} (h : 'a' ∉ text) :
    (pairEngine pair lone profile).scan text = .ok .clean := by
  unfold Engine.scan
  split
  · rfl
  · simp [pairEngine, pairDetections_eq_nil h]

/-- A rest without an `a` is flushed as it is. -/
theorem flush_pairEngine (pair lone : String) (profile : Profile) {hb : HoldBack}
    (hne : hb.pending ≠ []) (h : 'a' ∉ hb.pending) :
    ∃ hb', hb.flush (pairEngine pair lone profile) = (.ok (.release hb.pending), hb') := by
  have hlen : utf8Len hb.pending ≠ 0 := fun h0 => hne (String.utf8Len_eq_zero.mp h0)
  have hnil : blockingEntities [] = [] := rfl
  simp [HoldBack.flush, HoldBack.advance, HoldBack.releaseHead, hne, hlen, detect_pairEngine h,
    scan_pairEngine h, hnil]

/-- A pair with as much behind it as keeps its `b` in the window. -/
def pairText (k : ℕ) : Text := 'a' :: 'b' :: List.replicate (k + 1) 'x'

theorem notMem_tail_pairText (k : ℕ) : 'a' ∉ 'b' :: List.replicate (k + 1) 'x' := by
  simp [List.mem_replicate]

theorem pairDetections_pairText (k : ℕ) :
    pairDetections pair lone (pairText k) 0 = [⟨0, 2, pair⟩] := by
  rw [pairText, pairDetections, pairDetections_eq_nil (notMem_tail_pairText k)]
  rfl

/-- The pair is allowed, so nothing keeps the cut out of it. -/
theorem detect_pairText (hallow : profile.actionFor pair = .allow) (k : ℕ) :
    (pairEngine pair lone profile).detect (pairText k) = .ok [] := by
  unfold Engine.detect
  rw [if_neg (by simp [pairText])]
  simp [pairEngine, pairDetections_pairText, Engine.toSpan, hallow]

theorem safePrefix_pairText (k : ℕ) :
    safePrefix (pairText k) [] (k + 2) (utf8Len (pairText k)) = 1 := by
  have htail : utf8Len (List.replicate k 'x') = k := by
    induction k with
    | zero => rfl
    | succ k ih =>
      rw [List.replicate_succ, String.utf8Len_cons, ih]
      rfl
  have hlen : utf8Len (pairText k) = k + 3 := by
    simp only [pairText, List.replicate_succ, String.utf8Len_cons, htail]
    rfl
  have hboundary : isCharBoundary (pairText k) 1 = true :=
    isCharBoundary_utf8Len_append ['a'] ('b' :: List.replicate (k + 1) 'x')
  simp [safePrefix, hlen, walkBack, floorCharBoundary_of_boundary hboundary]

/-- The first call releases the `a` on its own. -/
theorem push_pairText (lone : String) (hallow : profile.actionFor pair = .allow) (k : ℕ) :
    HoldBack.push (pairEngine pair lone profile) ⟨k + 2, [], 0, 0⟩ (pairText k) =
        HoldBack.releaseHead (pairEngine pair lone profile) ⟨k + 2, pairText k, 0, 0⟩ 1 ∧
      HoldBack.rescanned (pairEngine pair lone profile) ⟨k + 2, pairText k, 0, 0⟩ false =
        [['a']] := by
  have hne : pairText k ≠ [] := List.cons_ne_nil _ _
  have hhead : takeBytes (pairText k) 1 = ['a'] :=
    takeBytes_utf8Len_append ['a'] ('b' :: List.replicate (k + 1) 'x')
  have hnil : blockingEntities [] = [] := rfl
  constructor
  · simp [HoldBack.push, HoldBack.advance, hne, detect_pairText hallow, hnil,
      safePrefix_pairText]
  · simp [HoldBack.rescanned, hne, detect_pairText hallow, hnil, safePrefix_pairText, hhead]

/-- The first half of an allowed pair is taken for a lone `a`. -/
theorem not_streamsWhole_pairText (hallow : profile.actionFor pair = .allow)
    (hlone : profile.actionFor lone ≠ .allow) (k : ℕ) :
    ¬ (pairEngine pair lone profile).StreamsWhole (k + 2) (pairText k) := by
  intro hstreams
  have hgives := hstreams.1 [pairText k] (by simp)
  obtain ⟨hpush, hheads⟩ := push_pairText lone hallow k
  have hsplit : takeBytes (pairText k) 1 = ['a'] ∧
      dropBytes (pairText k) 1 = 'b' :: List.replicate (k + 1) 'x' :=
    ⟨takeBytes_utf8Len_append ['a'] _, dropBytes_utf8Len_append ['a'] _⟩
  by_cases hblock : profile.actionFor lone = .block
  · -- the head that is scanned again is blocked
    have hscan : (pairEngine pair lone profile).scan ['a'] = .ok (.blocked [lone]) := by
      simp [Engine.scan, pairEngine, pairDetections, pairAt, hblock, sortDedup]
    have hrescanned : ['a'] ∈ ((HoldBack.withWindow (k + 2)).stream (pairEngine pair lone profile)
        [pairText k]).rescanned := by
      simp [HoldBack.stream, HoldBack.withWindow, hpush, HoldBack.releaseHead, hsplit, hscan,
        hheads]
    exact hgives.rescans ['a'] hrescanned [lone] hscan
  · -- the pair is allowed as a whole, but half of it has been rewritten
    have hscan : (pairEngine pair lone profile).scan ['a'] = .ok (.redacted ['*'] 1) := by
      have hsize : 'a'.utf8Size = 1 := rfl
      simp [Engine.scan, pairEngine, pairDetections, pairAt, hblock, hlone, replaceSpans,
        replaceMarked, markAt, takeBytes, hsize]
    have hwhole : (pairEngine pair lone profile).scanText (pairText k) = some (pairText k) := by
      have hclean : (pairEngine pair lone profile).scan (pairText k) = .ok .clean := by
        have hne : pairText k ≠ [] := List.cons_ne_nil _ _
        simp [Engine.scan, pairEngine, pairDetections_pairText, hallow, hne]
      rw [Engine.scanText, hclean]
    have hrun : ∃ heads, (HoldBack.withWindow (k + 2)).stream (pairEngine pair lone profile)
        [pairText k] = ⟨'*' :: 'b' :: List.replicate (k + 1) 'x', false, heads⟩ := by
      let rest : HoldBack := ⟨k + 2, 'b' :: List.replicate (k + 1) 'x', utf8Len ['*'], 1⟩
      have hne : rest.pending ≠ [] := List.cons_ne_nil _ _
      obtain ⟨hb', hflush⟩ := flush_pairEngine pair lone profile hne (notMem_tail_pairText k)
      simp only [HoldBack.stream, HoldBack.withWindow, hpush, HoldBack.releaseHead, hsplit, hscan,
        Nat.zero_add, hflush, StreamRun.after, rest]
      exact ⟨_, rfl⟩
    obtain ⟨heads, hrun⟩ := hrun
    rw [hrun] at hgives
    have heq := hwhole.symm.trans (hgives.clean rfl).2
    simp [pairText] at heq

end Pair

/-! ## Which profiles keep the guarantee -/

/-- For every profile and every window: a bounded local detector with an anonymizer that replaces
spans gives every text whole in which no allowed span can be cut; and the detectors of the profile
give every text whole exactly if no span can be cut, the profile allows nothing, or it allows
everything. -/
theorem streamsWhole_iff (profile : Profile) (window : ℕ) :
    (∀ e : Engine, e.profile = profile → e.BoundedLocal window →
      (∃ apply, e.ReplacesSpans apply) → ∀ whole, e.AllowedClear window whole →
        e.StreamsWhole window whole) ∧
    ((∀ e : Engine, e.profile = profile → e.BoundedLocal window →
      (∃ apply, e.ReplacesSpans apply) → ∀ whole, e.StreamsWhole window whole) ↔
      window ≤ 1 ∨ (∀ entity, profile.actionFor entity ≠ .allow) ∨
        ∀ entity, profile.actionFor entity = .allow) := by
  refine ⟨?_, ?_, ?_⟩
  · rintro e - hlocal ⟨apply, hreplaces⟩ whole hallow
    exact hlocal.streamsWhole hreplaces hallow
  · intro hall
    by_contra hnot
    push Not at hnot
    obtain ⟨hwindow, ⟨pair, hpair⟩, lone, hlone⟩ := hnot
    obtain ⟨k, rfl⟩ := Nat.exists_eq_add_of_le' hwindow
    refine not_streamsWhole_pairText hpair hlone k ?_
    exact hall (pairEngine pair lone profile) rfl (pairEngine_local (by omega))
      ⟨_, pairEngine_replaces⟩ (pairText k)
  · rintro hcond e rfl hlocal ⟨apply, hreplaces⟩ whole
    rcases hcond with hwindow | hnone | hall
    · refine hlocal.streamsWhole hreplaces fun d hd _ cut _ hstraddle => ?_
      have hshort := hlocal.short whole d hd
      obtain ⟨hlow, hhigh⟩ := hstraddle
      omega
    · exact hlocal.streamsWhole hreplaces fun d _ hallow => absurd hallow (hnone d.entity)
    · exact hlocal.streamsWhole_of_allowed hreplaces hall whole

/-- A profile that allows `URL`, blocks `SECRET` and replaces the rest, a window of two bytes and
the text `abx`, whose `ab` is a `URL`: the `a` is released on its own. Where a lone `a` is a
`SECRET` it is blocked when it is scanned again; where it is a `PERSON` it is rewritten. -/
theorem allowed_pair_is_cut :
    let profile : Profile := ⟨.replace, [("SECRET", .block), ("URL", .allow)], true⟩
    let blocking := pairEngine "URL" "SECRET" profile
    let rewriting := pairEngine "URL" "PERSON" profile
    (∀ e ∈ [blocking, rewriting], e.BoundedLocal 2 ∧ (∃ apply, e.ReplacesSpans apply) ∧
      e.scan ['a', 'b', 'x'] = .ok .clean ∧ ¬ e.StreamsWhole 2 ['a', 'b', 'x']) ∧
    (HoldBack.withWindow 2).stream blocking [['a', 'b', 'x']] = ⟨[], true, [['a']]⟩ ∧
    blocking.scan ['a'] = .ok (.blocked ["SECRET"]) ∧
    (HoldBack.withWindow 2).stream rewriting [['a', 'b', 'x']] =
      ⟨['*', 'b', 'x'], false, [['a'], ['b', 'x']]⟩ ∧
    (default : ChoiceRedactor).stream rewriting 2 [(0, ['a']), (1, ['b', 'x'])] =
      ⟨['*', 'b', 'x'], false, [['a'], ['b', 'x']]⟩ := by
  refine ⟨?_, by decide +kernel, by decide +kernel, by decide +kernel, by decide +kernel⟩
  simp only [List.forall_mem_cons, List.not_mem_nil, false_implies, implies_true, and_true]
  constructor
  · exact ⟨pairEngine_local le_rfl, ⟨_, pairEngine_replaces⟩, by decide +kernel,
      not_streamsWhole_pairText (by decide) (by decide) 0⟩
  · exact ⟨pairEngine_local le_rfl, ⟨_, pairEngine_replaces⟩, by decide +kernel,
      not_streamsWhole_pairText (by decide) (by decide) 0⟩

end Governance
