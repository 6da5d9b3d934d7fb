import Governance.Redact.Sse

/-!
# One key's hold-back, as a list of contributions

A `ChoiceRedactor` stores a text and the end offsets of the frames that contributed to
it. Abstractly it holds a list of contributions, each a text and the frame it came from:
`Holds r pieces` says that the text is their concatenation and the offsets their ends.
Pushing appends a contribution. A release takes a prefix of them, which `advance_cases`
states once for every later proof.
-/

namespace Governance

open Utf8Text
open String (utf8Len)

/-- The text of some contributions. -/
def piecesText (pieces : List (Text × ℕ)) : Text := pieces.flatMap Prod.fst

/-- The end offsets of some contributions, the first of which starts at `base`. -/
def pieceEnds (base : ℕ) : List (Text × ℕ) → List (ℕ × ℕ)
  | [] => []
  | (t, fid) :: ps => (base + utf8Len t, fid) :: pieceEnds (base + utf8Len t) ps

/-- The longest prefix of some contributions whose text has at most `n` bytes, and the rest. -/
def splitWithin : ℕ → List (Text × ℕ) → List (Text × ℕ) × List (Text × ℕ)
  | _, [] => ([], [])
  | n, (t, fid) :: ps =>
    if utf8Len t ≤ n then
      ((t, fid) :: (splitWithin (n - utf8Len t) ps).1, (splitWithin (n - utf8Len t) ps).2)
    else ([], (t, fid) :: ps)

@[simp] theorem piecesText_nil : piecesText [] = [] := rfl

@[simp] theorem piecesText_cons (t : Text) (fid : ℕ) (ps : List (Text × ℕ)) :
    piecesText ((t, fid) :: ps) = t ++ piecesText ps := rfl

@[simp] theorem piecesText_append (ps qs : List (Text × ℕ)) :
    piecesText (ps ++ qs) = piecesText ps ++ piecesText qs := by
  simp [piecesText]

@[simp] theorem pieceEnds_nil (base : ℕ) : pieceEnds base [] = [] := rfl

theorem pieceEnds_cons (base : ℕ) (t : Text) (fid : ℕ) (ps : List (Text × ℕ)) :
    pieceEnds base ((t, fid) :: ps) =
      (base + utf8Len t, fid) :: pieceEnds (base + utf8Len t) ps := rfl

@[simp] theorem splitWithin_nil (n : ℕ) : splitWithin n [] = ([], []) := rfl

theorem splitWithin_cons_of_le {n : ℕ} {t : Text} (h : utf8Len t ≤ n) (fid : ℕ)
    (ps : List (Text × ℕ)) : splitWithin n ((t, fid) :: ps) =
      ((t, fid) :: (splitWithin (n - utf8Len t) ps).1, (splitWithin (n - utf8Len t) ps).2) :=
  if_pos h

theorem splitWithin_cons_of_lt {n : ℕ} {t : Text} (h : ¬ utf8Len t ≤ n) (fid : ℕ)
    (ps : List (Text × ℕ)) : splitWithin n ((t, fid) :: ps) = ([], (t, fid) :: ps) := if_neg h

@[simp] theorem splitWithin_append (n : ℕ) (ps : List (Text × ℕ)) :
    (splitWithin n ps).1 ++ (splitWithin n ps).2 = ps := by
  induction ps generalizing n with
  | nil => rfl
  | cons p ps ih =>
    obtain ⟨t, fid⟩ := p
    by_cases h : utf8Len t ≤ n
    · simp [splitWithin_cons_of_le h, ih]
    · simp [splitWithin_cons_of_lt h]

theorem utf8Len_splitWithin_le (n : ℕ) (ps : List (Text × ℕ)) :
    utf8Len (piecesText (splitWithin n ps).1) ≤ n := by
  induction ps generalizing n with
  | nil => simp
  | cons p ps ih =>
    obtain ⟨t, fid⟩ := p
    by_cases h : utf8Len t ≤ n
    · have := ih (n - utf8Len t)
      simp only [splitWithin_cons_of_le h, piecesText_cons, String.utf8Len_append]
      omega
    · simp [splitWithin_cons_of_lt h]

theorem splitWithin_of_le {n : ℕ} {ps : List (Text × ℕ)} (h : utf8Len (piecesText ps) ≤ n) :
    splitWithin n ps = (ps, []) := by
  induction ps generalizing n with
  | nil => rfl
  | cons p ps ih =>
    obtain ⟨t, fid⟩ := p
    rw [piecesText_cons, String.utf8Len_append] at h
    have ht : utf8Len t ≤ n := by omega
    simp [splitWithin_cons_of_le ht, ih (n := n - utf8Len t) (by omega)]

@[simp] theorem map_snd_pieceEnds (base : ℕ) (ps : List (Text × ℕ)) :
    (pieceEnds base ps).map Prod.snd = ps.map Prod.snd := by
  induction ps generalizing base with
  | nil => rfl
  | cons p ps ih => exact congrArg (p.2 :: ·) (ih _)

theorem pieceEnds_append (base : ℕ) (ps qs : List (Text × ℕ)) :
    pieceEnds base (ps ++ qs) =
      pieceEnds base ps ++ pieceEnds (base + utf8Len (piecesText ps)) qs := by
  induction ps generalizing base with
  | nil => simp
  | cons p ps ih =>
    obtain ⟨t, fid⟩ := p
    simp [pieceEnds_cons, ih, Nat.add_assoc]

theorem pieceEnds_shift (a b : ℕ) (ps : List (Text × ℕ)) :
    (pieceEnds (a + b) ps).map (fun q => (q.1 - a, q.2)) = pieceEnds b ps := by
  induction ps generalizing b with
  | nil => rfl
  | cons p ps ih =>
    obtain ⟨t, fid⟩ := p
    have hrest := ih (b + utf8Len t)
    rw [← Nat.add_assoc] at hrest
    have hhead : a + b + utf8Len t - a = b + utf8Len t := by omega
    simp [pieceEnds_cons, hrest, hhead]

theorem takeWhile_pieceEnds {base cut : ℕ} (h : base ≤ cut) (ps : List (Text × ℕ)) :
    (pieceEnds base ps).takeWhile (fun q => q.1 ≤ cut) =
      pieceEnds base (splitWithin (cut - base) ps).1 := by
  induction ps generalizing base with
  | nil => rfl
  | cons p ps ih =>
    obtain ⟨t, fid⟩ := p
    by_cases ht : base + utf8Len t ≤ cut
    · have hle : utf8Len t ≤ cut - base := by omega
      have hsub : cut - (base + utf8Len t) = cut - base - utf8Len t := by omega
      simp [pieceEnds_cons, splitWithin_cons_of_le hle, ht, ih ht, hsub]
    · have hle : ¬ utf8Len t ≤ cut - base := by omega
      simp [pieceEnds_cons, splitWithin_cons_of_lt hle, ht]

theorem dropWhile_pieceEnds {base cut : ℕ} (h : base ≤ cut) (ps : List (Text × ℕ)) :
    (pieceEnds base ps).dropWhile (fun q => q.1 ≤ cut) =
      pieceEnds (base + utf8Len (piecesText (splitWithin (cut - base) ps).1))
        (splitWithin (cut - base) ps).2 := by
  have hall := List.takeWhile_append_dropWhile (p := fun q : ℕ × ℕ => decide (q.1 ≤ cut))
    (l := pieceEnds base ps)
  have hsplit := pieceEnds_append base (splitWithin (cut - base) ps).1
    (splitWithin (cut - base) ps).2
  rw [splitWithin_append] at hsplit
  rw [takeWhile_pieceEnds h] at hall
  exact List.append_cancel_left (hall.trans hsplit)

namespace ChoiceRedactor

theorem lastBoundary_pieceEnds {base safe : ℕ} (h : base ≤ safe) (ps : List (Text × ℕ)) :
    lastBoundary safe (pieceEnds base ps) base =
      base + utf8Len (piecesText (splitWithin (safe - base) ps).1) := by
  induction ps generalizing base with
  | nil => simp [lastBoundary]
  | cons p ps ih =>
    obtain ⟨t, fid⟩ := p
    by_cases ht : base + utf8Len t ≤ safe
    · have hle : utf8Len t ≤ safe - base := by omega
      have hsub : safe - (base + utf8Len t) = safe - base - utf8Len t := by omega
      simp [pieceEnds_cons, lastBoundary, splitWithin_cons_of_le hle, ht, ih ht, hsub,
        Nat.add_assoc]
    · have hle : ¬ utf8Len t ≤ safe - base := by omega
      simp [pieceEnds_cons, lastBoundary, splitWithin_cons_of_lt hle, ht]

/-- The redactor holds exactly these contributions. -/
structure Holds (r : ChoiceRedactor) (pieces : List (Text × ℕ)) : Prop where
  pending : r.pending = piecesText pieces
  boundaries : r.boundaries = pieceEnds 0 pieces

theorem holds_default : Holds default [] := ⟨rfl, rfl⟩

theorem Holds.append {r : ChoiceRedactor} {pieces : List (Text × ℕ)} (h : r.Holds pieces)
    (fid : ℕ) (text : Text) : (r.append fid text).Holds (pieces ++ [(text, fid)]) := by
  constructor
  · simp [ChoiceRedactor.append, h.pending]
  · simp [ChoiceRedactor.append, h.pending, h.boundaries, pieceEnds_append, pieceEnds_cons]

/-- What a loop of `advance` settles on: no cut, or a cut at the end of a contribution that
leaves the window free and that no span straddles. -/
theorem cutLoop_spec {r : ChoiceRedactor} {pieces : List (Text × ℕ)} (h : r.Holds pieces)
    (spans : List Span) (window fuel candidate : ℕ) :
    r.cutLoop spans window fuel candidate = 0 ∨
      (utf8Len (piecesText (splitWithin (r.cutLoop spans window fuel candidate) pieces).1) =
          r.cutLoop spans window fuel candidate ∧
        r.cutLoop spans window fuel candidate ≤ utf8Len r.pending - window ∧
        ∀ s ∈ spans, s.straddles (r.cutLoop spans window fuel candidate) = false) := by
  induction fuel generalizing candidate with
  | zero => exact Or.inl rfl
  | succ fuel ih =>
    have hb := lastBoundary_pieceEnds (Nat.zero_le (safePrefix r.pending spans window candidate))
      pieces
    rw [← h.boundaries, Nat.zero_add, Nat.sub_zero] at hb
    simp only [cutLoop]
    split
    · next hstop =>
      by_cases hzero : lastBoundary (safePrefix r.pending spans window candidate) r.boundaries 0 = 0
      · exact Or.inl hzero
      · have hcand := hstop.resolve_right hzero
        -- the boundary reaches the candidate, so the safe prefix is the candidate itself
        have hle := utf8Len_splitWithin_le (safePrefix r.pending spans window candidate) pieces
        have hceil := safePrefix_le_ceiling r.pending spans window candidate
        have hwin := safePrefix_le_window r.pending spans window candidate
        have hsafe : safePrefix r.pending spans window candidate = candidate := by omega
        refine Or.inr ⟨?_, by omega, ?_⟩
        · rw [hsafe] at hb hcand
          rw [hsafe, hcand]
          omega
        · rw [hcand]
          exact not_straddles_of_safePrefix_eq_ceiling hsafe
    · exact ih _

theorem lastBoundary_le (safe : ℕ) (bs : List (ℕ × ℕ)) {found : ℕ} (h : found ≤ safe) :
    lastBoundary safe bs found ≤ safe := by
  induction bs generalizing found with
  | nil => exact h
  | cons b bs ih =>
    rw [lastBoundary]
    split
    · next hb => exact ih hb
    · exact h

/-- More fuel than the candidate does not change where the loop of `advance` ends. -/
theorem cutLoop_fuel (r : ChoiceRedactor) (spans : List Span) (window : ℕ) {fuel candidate : ℕ}
    (h : candidate ≤ fuel) (extra : ℕ) :
    r.cutLoop spans window (fuel + extra) candidate = r.cutLoop spans window fuel candidate := by
  have hle : ∀ c, lastBoundary (safePrefix r.pending spans window c) r.boundaries 0 ≤ c := fun c =>
    (lastBoundary_le _ _ (Nat.zero_le _)).trans (safePrefix_le_ceiling _ _ _ _)
  induction fuel generalizing candidate with
  | zero =>
    obtain rfl : candidate = 0 := by omega
    cases extra with
    | zero => rfl
    | succ extra =>
      have h0 := Nat.le_zero.mp (hle 0)
      simp [cutLoop, h0]
  | succ fuel ih =>
    rw [Nat.succ_add_eq_add_succ, Nat.add_succ]
    simp only [cutLoop]
    split
    · rfl
    · next hstop =>
      have hlt := hle candidate
      exact ih (by omega)

theorem chooseCut_spec {r : ChoiceRedactor} {pieces : List (Text × ℕ)} (h : r.Holds pieces)
    (spans : List Span) (window : ℕ) (hcut : r.chooseCut spans window ≠ 0) :
    ∃ head tail, pieces = head ++ tail ∧
      utf8Len (piecesText head) = r.chooseCut spans window ∧
      (splitWithin (r.chooseCut spans window) pieces) = (head, tail) ∧
      window ≤ utf8Len (piecesText tail) ∧
      ∀ s ∈ spans, s.straddles (utf8Len (piecesText head)) = false := by
  obtain hzero | ⟨hlen, hwin, hclear⟩ :=
    cutLoop_spec h spans window (utf8Len r.pending) (utf8Len r.pending)
  · exact absurd hzero hcut
  rw [← chooseCut] at hlen hwin hclear
  have happ := splitWithin_append (r.chooseCut spans window) pieces
  refine ⟨_, _, happ.symm, hlen, rfl, ?_, ?_⟩
  · have htotal : utf8Len r.pending =
        utf8Len (piecesText (splitWithin (r.chooseCut spans window) pieces).1) +
        utf8Len (piecesText (splitWithin (r.chooseCut spans window) pieces).2) := by
      rw [← String.utf8Len_append, ← piecesText_append, happ, h.pending]
    omega
  · rw [hlen]
    exact hclear

/-- A release of the contributions `head` of `pieces` that leaves `tail` in `r'`. -/
structure Releases (e : Engine) (window : ℕ) (pieces head tail : List (Text × ℕ)) (text : Text)
    (r' : ChoiceRedactor) : Prop where
  split : pieces = head ++ tail
  nonempty : piecesText head ≠ []
  scanned : e.scanText (piecesText head) = some text
  holds : r'.Holds tail
  window_le : window ≤ utf8Len (piecesText tail)
  clear : ∃ spans, e.detect (piecesText pieces) = .ok spans ∧ blockingEntities spans = [] ∧
    ∀ s ∈ spans, s.straddles (utf8Len (piecesText head)) = false

/-- The state `releaseHead` leaves at the end of some contributions. -/
theorem Holds.drop {r : ChoiceRedactor} {head tail : List (Text × ℕ)} {cut redactions : ℕ}
    (h : r.Holds (head ++ tail)) (hlen : utf8Len (piecesText head) = cut)
    (hsplit : splitWithin cut (head ++ tail) = (head, tail)) :
    Holds ⟨dropBytes r.pending cut,
      (r.boundaries.dropWhile fun b => b.1 ≤ cut).map fun b => (b.1 - cut, b.2), redactions⟩
      tail := by
  constructor
  · show dropBytes r.pending cut = piecesText tail
    rw [h.pending, piecesText_append, ← hlen, dropBytes_utf8Len_append]
  · show (r.boundaries.dropWhile fun b => b.1 ≤ cut).map (fun b => (b.1 - cut, b.2)) = _
    rw [h.boundaries, dropWhile_pieceEnds (Nat.zero_le cut), Nat.sub_zero, hsplit, Nat.zero_add,
      hlen]
    exact pieceEnds_shift cut 0 tail

theorem releaseHead_cases {r : ChoiceRedactor} {head tail : List (Text × ℕ)} {cut : ℕ}
    (h : r.Holds (head ++ tail)) (hlen : utf8Len (piecesText head) = cut)
    (hsplit : splitWithin cut (head ++ tail) = (head, tail)) (e : Engine) :
    (∃ err, (r.releaseHead e cut).1 = .error err) ∨
    (∃ entities, (r.releaseHead e cut).1 = .ok (.blocked entities)) ∨
    ∃ text, (r.releaseHead e cut).1 = .ok (.release text (head.map Prod.snd)) ∧
      e.scanText (piecesText head) = some text ∧ (r.releaseHead e cut).2.Holds tail := by
  have hhead : takeBytes r.pending cut = piecesText head := by
    rw [h.pending, piecesText_append, ← hlen, takeBytes_utf8Len_append]
  have hids : (r.boundaries.takeWhile fun b => b.1 ≤ cut).map Prod.snd = head.map Prod.snd := by
    rw [h.boundaries, takeWhile_pieceEnds (Nat.zero_le cut), Nat.sub_zero, hsplit,
      map_snd_pieceEnds]
  simp only [releaseHead, hhead, hids]
  split
  · exact Or.inl ⟨_, rfl⟩
  · next hscan =>
    exact Or.inr (Or.inr ⟨_, rfl, by simp [Engine.scanText, hscan], h.drop hlen hsplit⟩)
  · next text count hscan =>
    exact Or.inr (Or.inr ⟨_, rfl, by simp [Engine.scanText, hscan], h.drop hlen hsplit⟩)
  · exact Or.inr (Or.inl ⟨_, rfl⟩)

/-- What a call of `advance` can do. -/
theorem advance_cases {r : ChoiceRedactor} {pieces : List (Text × ℕ)} (h : r.Holds pieces)
    (e : Engine) (window : ℕ) (finalChunk : Bool) :
    (∃ err, (r.advance e window finalChunk).1 = .error err) ∨
    r.advance e window finalChunk = (.ok .nothing, r) ∨
    (∃ entities, (r.advance e window finalChunk).1 = .ok (.blocked entities)) ∨
    ∃ text head tail,
      (r.advance e window finalChunk).1 = .ok (.release text (head.map Prod.snd)) ∧
      Releases e (if finalChunk then 0 else window) pieces head tail text
        (r.advance e window finalChunk).2 := by
  by_cases hpending : r.pending = []
  · simp [advance, hpending]
  cases hdetect : e.detect r.pending with
  | error err => simp [advance, hpending, hdetect]
  | ok spans =>
    by_cases hblock : blockingEntities spans = []
    case neg => simp [advance, hpending, hdetect, hblock]
    set cut := r.chooseCut spans (if finalChunk then 0 else window) with hcutdef
    by_cases hcut : cut = 0
    · simp [advance, hpending, hdetect, hblock, ← hcutdef, hcut]
    have hadv : r.advance e window finalChunk = r.releaseHead e cut := by
      simp [advance, hpending, hdetect, hblock, ← hcutdef, hcut]
    rw [hadv]
    obtain ⟨head, tail, rfl, hlen, hsplit, hwin, hclear⟩ := chooseCut_spec h spans _ hcut
    have hne : piecesText head ≠ [] := by
      intro hnil
      rw [hnil] at hlen
      exact hcut hlen.symm
    obtain herr | hblocked | ⟨text, hrel, hscan, hholds⟩ := releaseHead_cases h hlen hsplit e
    · exact Or.inl herr
    · exact Or.inr (Or.inr (Or.inl hblocked))
    · refine Or.inr (Or.inr (Or.inr ⟨text, head, tail, hrel, rfl, hne, hscan, hholds, hwin, ?_⟩))
      exact ⟨spans, by rw [← h.pending]; exact hdetect, hblock, hclear⟩

theorem advance_ne_error {e : Engine} (he : e.ErrorFree) (window : ℕ) (r : ChoiceRedactor)
    (finalChunk : Bool) (err : Error) : (r.advance e window finalChunk).1 ≠ .error err := by
  obtain ⟨spans, hdetect⟩ := he.detect r.pending
  have hrelease : ∀ cut, (r.releaseHead e cut).1 ≠ .error err := by
    intro cut
    obtain ⟨v, hv⟩ := he.scan (takeBytes r.pending cut)
    cases v <;> simp [releaseHead, hv]
  unfold advance
  split
  · simp
  simp only [hdetect]
  split
  · simp
  generalize r.chooseCut spans (if finalChunk then 0 else window) = cut
  split
  · simp
  · exact hrelease cut

/-- The results of `advance` that let the stream go on, over the contributions it looked at. -/
inductive Advances (e : Engine) (window : ℕ) (pieces : List (Text × ℕ)) :
    ChoicePush → ChoiceRedactor → Prop
  | hold {r' : ChoiceRedactor} (h : r'.Holds pieces) : Advances e window pieces .nothing r'
  | release {text : Text} {head tail : List (Text × ℕ)} {r' : ChoiceRedactor}
      (h : Releases e window pieces head tail text r') :
      Advances e window pieces (.release text (head.map Prod.snd)) r'

/-- An error-free `advance` blocks the stream or lets it go on. -/
theorem advance_ok {r : ChoiceRedactor} {pieces : List (Text × ℕ)} (h : r.Holds pieces)
    {e : Engine} (he : e.ErrorFree) (window : ℕ) (finalChunk : Bool) :
    (∃ entities, (r.advance e window finalChunk).1 = .ok (.blocked entities)) ∨
    ∃ res r', r.advance e window finalChunk = (.ok res, r') ∧
      Advances e (if finalChunk then 0 else window) pieces res r' := by
  obtain ⟨err, herr⟩ | hnothing | hblocked | ⟨text, head, tail, hrel, hreleases⟩ :=
    advance_cases h e window finalChunk
  · exact absurd herr (advance_ne_error he window r finalChunk err)
  · exact Or.inr ⟨_, _, hnothing, .hold h⟩
  · exact Or.inl hblocked
  · exact Or.inr ⟨_, _, Prod.ext hrel rfl, .release hreleases⟩

/-- With no window, and every span inside the text, the cut is the whole text. -/
theorem chooseCut_zero_window {r : ChoiceRedactor} {pieces : List (Text × ℕ)} (h : r.Holds pieces)
    {spans : List Span} (hspans : ∀ s ∈ spans, s.stop ≤ utf8Len r.pending) :
    r.chooseCut spans 0 = utf8Len r.pending := by
  have hsafe := safePrefix_zero_window hspans
  have hboundary : lastBoundary (utf8Len r.pending) r.boundaries 0 = utf8Len r.pending := by
    rw [h.boundaries, lastBoundary_pieceEnds (Nat.zero_le _), Nat.zero_add, Nat.sub_zero,
      h.pending, splitWithin_of_le le_rfl]
  unfold chooseCut
  cases hlen : utf8Len r.pending with
  | zero => rfl
  | succ n =>
    rw [hlen] at hsafe hboundary
    simp [cutLoop, hsafe, hboundary]

/-- With no window, and every span inside the text, a call of `advance` that neither fails
nor blocks releases everything held. -/
theorem advance_all {r : ChoiceRedactor} {pieces : List (Text × ℕ)} (h : r.Holds pieces)
    {e : Engine} (he : e.ErrorFree) (hrange : e.InRange) {window : ℕ} {finalChunk : Bool}
    (hwindow : (if finalChunk then 0 else window) = 0) (hne : piecesText pieces ≠ []) :
    (∃ entities, (r.advance e window finalChunk).1 = .ok (.blocked entities)) ∨
    ∃ text, (r.advance e window finalChunk).1 = .ok (.release text (pieces.map Prod.snd)) ∧
      e.scanText (piecesText pieces) = some text ∧ (r.advance e window finalChunk).2.Holds [] := by
  have hpending : r.pending ≠ [] := by rwa [h.pending]
  obtain ⟨spans, hdetect⟩ := he.detect r.pending
  by_cases hblock : blockingEntities spans = []
  case neg => simp [advance, hpending, hdetect, hblock]
  have hcut := chooseCut_zero_window h fun s hs => (hrange.detect hdetect hs).2
  have hcut0 : utf8Len r.pending ≠ 0 := fun h0 => hpending (String.utf8Len_eq_zero.mp h0)
  have hadv : r.advance e window finalChunk = r.releaseHead e (utf8Len r.pending) := by
    simp [advance, hpending, hdetect, hblock, hwindow, hcut, hcut0]
  have hlen : utf8Len (piecesText pieces) = utf8Len r.pending := by rw [h.pending]
  have hholds : r.Holds (pieces ++ []) := by simpa using h
  have hcases := releaseHead_cases hholds hlen
    (by rw [List.append_nil]; exact splitWithin_of_le hlen.le) e
  obtain ⟨err, herr⟩ | hblocked | hrel := hcases
  · rw [← hadv] at herr
    exact absurd herr (advance_ne_error he window r finalChunk err)
  · exact Or.inl (by rwa [hadv])
  · exact Or.inr (by rwa [hadv])

end ChoiceRedactor

end Governance
