import Governance.Redact.Engine

/-!
# Incremental redaction over a growing text

`holdback.rs`: the cut-selection rule `safePrefix`, shared with the SSE redactor, and the
byte-oriented `HoldBack`. Each operation answers its result together with the state it
leaves, because a caller may go on after an engine error.
-/

namespace Governance

open Utf8Text
open String (utf8Len)

/-- `holdback::DEFAULT_WINDOW`. -/
def defaultWindow : ℕ := 4096

/-- Whether a span starts before the cut and ends after it. -/
def Span.straddles (s : Span) (cut : ℕ) : Bool := s.start < cut && cut < s.stop

/-- The walk-back of `safe_prefix`: a span the cut falls into moves the cut to its start. -/
def walkBack : List Span → ℕ → ℕ
  | [], cut => cut
  | s :: spans, cut => walkBack spans (if s.straddles cut then s.start else cut)

/-- `safe_prefix`: how far into `pending` it is safe to release. -/
def safePrefix (pending : Text) (spans : List Span) (window ceiling : ℕ) : ℕ :=
  let cut := min (utf8Len pending - window) ceiling
  if cut = 0 then 0 else floorCharBoundary pending (walkBack spans cut)

/-- `holdback::Emit`. -/
inductive Emit where
  | nothing
  | release (text : Text)
  | blocked (entities : List String)
  deriving DecidableEq, Repr

/-- `holdback::HoldBack`. -/
structure HoldBack where
  window : ℕ
  pending : Text
  released : ℕ
  redactions : ℕ
  deriving DecidableEq, Repr

namespace HoldBack

/-- `HoldBack::with_window`. -/
def withWindow (window : ℕ) : HoldBack := ⟨window, [], 0, 0⟩

/-- The release half of `HoldBack::advance`: the head of the cut is scanned on its own. -/
def releaseHead (e : Engine) (h : HoldBack) (cut : ℕ) : Except Error Emit × HoldBack :=
  let head := takeBytes h.pending cut
  let h' := { h with pending := dropBytes h.pending cut }
  match e.scan head with
  | .error err => (.error err, h')
  | .ok .clean => (.ok (.release head), { h' with released := h'.released + utf8Len head })
  | .ok (.redacted text count) =>
    (.ok (.release text),
      { h' with redactions := h'.redactions + count, released := h'.released + utf8Len text })
  | .ok (.blocked entities) => (.ok (.blocked entities), { h' with pending := [] })

/-- `HoldBack::advance`. -/
def advance (e : Engine) (h : HoldBack) (finalChunk : Bool) : Except Error Emit × HoldBack :=
  if h.pending = [] then (.ok .nothing, h)
  else match e.detect h.pending with
    | .error err => (.error err, h)
    | .ok spans =>
      if blockingEntities spans ≠ [] then
        (.ok (.blocked (blockingEntities spans)), { h with pending := [] })
      else
        let cut := if finalChunk then utf8Len h.pending
          else safePrefix h.pending spans h.window (utf8Len h.pending)
        if cut = 0 then (.ok .nothing, h) else releaseHead e h cut

/-- `HoldBack::push`. -/
def push (e : Engine) (h : HoldBack) (text : Text) : Except Error Emit × HoldBack :=
  advance e { h with pending := h.pending ++ text } false

/-- `HoldBack::flush`. -/
def flush (e : Engine) (h : HoldBack) : Except Error Emit × HoldBack :=
  advance e h true

end HoldBack

/-! ## Where the cut lands -/

theorem walkBack_le (spans : List Span) (cut : ℕ) : walkBack spans cut ≤ cut := by
  induction spans generalizing cut with
  | nil => exact le_rfl
  | cons s spans ih =>
    have hstep := ih (if s.straddles cut then s.start else cut)
    have hmove : (if s.straddles cut then s.start else cut) ≤ cut := by
      split
      · next h => simp only [Span.straddles, Bool.and_eq_true, decide_eq_true_eq] at h; omega
      · exact le_rfl
    exact le_trans hstep hmove

/-- A cut the walk-back leaves in place is straddled by no span. -/
theorem not_straddles_of_walkBack_eq {spans : List Span} {cut : ℕ}
    (h : walkBack spans cut = cut) : ∀ s ∈ spans, s.straddles cut = false := by
  induction spans with
  | nil => simp
  | cons s spans ih =>
    have hnot : s.straddles cut = false := by
      by_contra hs
      have hs : s.straddles cut = true := by simpa using hs
      have hlt : s.start < cut := by
        simp only [Span.straddles, Bool.and_eq_true, decide_eq_true_eq] at hs
        exact hs.1
      have hle := walkBack_le spans s.start
      simp only [walkBack, hs, if_true] at h
      omega
    simp only [walkBack, hnot, Bool.false_eq_true, if_false] at h
    intro s' hs'
    rcases List.mem_cons.mp hs' with rfl | hmem
    · exact hnot
    · exact ih h s' hmem

/-- A cut no span straddles stays where it is. -/
theorem walkBack_of_not_straddles {spans : List Span} {cut : ℕ}
    (h : ∀ s ∈ spans, s.straddles cut = false) : walkBack spans cut = cut := by
  induction spans with
  | nil => rfl
  | cons s spans ih =>
    have hs : s.straddles cut = false := h s (by simp)
    simp only [walkBack, hs, Bool.false_eq_true, if_false]
    exact ih fun s' hs' => h s' (List.mem_cons_of_mem _ hs')

theorem safePrefix_le_ceiling (pending : Text) (spans : List Span) (window ceiling : ℕ) :
    safePrefix pending spans window ceiling ≤ ceiling := by
  unfold safePrefix
  simp only
  split
  · exact Nat.zero_le _
  · have h1 := floorCharBoundary_le pending (walkBack spans (min (utf8Len pending - window) ceiling))
    have h2 := walkBack_le spans (min (utf8Len pending - window) ceiling)
    omega

theorem safePrefix_le_window (pending : Text) (spans : List Span) (window ceiling : ℕ) :
    safePrefix pending spans window ceiling ≤ utf8Len pending - window := by
  unfold safePrefix
  simp only
  split
  · exact Nat.zero_le _
  · have h1 := floorCharBoundary_le pending (walkBack spans (min (utf8Len pending - window) ceiling))
    have h2 := walkBack_le spans (min (utf8Len pending - window) ceiling)
    omega

theorem isCharBoundary_safePrefix (pending : Text) (spans : List Span) (window ceiling : ℕ) :
    isCharBoundary pending (safePrefix pending spans window ceiling) = true := by
  unfold safePrefix
  simp only
  split
  · simp
  · exact isCharBoundary_floorCharBoundary _ _

/-- A ceiling that `safePrefix` accepts whole is straddled by no span. -/
theorem not_straddles_of_safePrefix_eq_ceiling {pending : Text} {spans : List Span}
    {window ceiling : ℕ} (h : safePrefix pending spans window ceiling = ceiling) :
    ∀ s ∈ spans, s.straddles ceiling = false := by
  by_cases hc : ceiling = 0
  · subst hc
    intro s _
    simp [Span.straddles]
  have hmin : min (utf8Len pending - window) ceiling = ceiling := by
    have := safePrefix_le_window pending spans window ceiling
    omega
  unfold safePrefix at h
  simp only [hmin, hc, if_false] at h
  have h1 := floorCharBoundary_le pending (walkBack spans ceiling)
  have h2 := walkBack_le spans ceiling
  exact not_straddles_of_walkBack_eq (by omega)

/-- With no window, and every span inside the text, the whole text is safe. -/
theorem safePrefix_zero_window {pending : Text} {spans : List Span}
    (h : ∀ s ∈ spans, s.stop ≤ utf8Len pending) :
    safePrefix pending spans 0 (utf8Len pending) = utf8Len pending := by
  have hwalk : walkBack spans (utf8Len pending) = utf8Len pending := by
    apply walkBack_of_not_straddles
    intro s hs
    have := h s hs
    simp only [Span.straddles, Bool.and_eq_false_iff, decide_eq_false_iff_not]
    omega
  unfold safePrefix
  simp only [Nat.sub_zero, min_self, hwalk]
  split
  · omega
  · exact floorCharBoundary_of_boundary (isCharBoundary_utf8Len pending)

end Governance
