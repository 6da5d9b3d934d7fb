import Governance.Redact.Sse.Batches

/-!
# How far a key lags behind

In a text without a detected span, what `ChoiceRedactor::advance` releases depends on the lengths of
the contributions only: everything up to the last frame boundary that has the window behind it, unless
that is no text at all (`advance_plain`). So whether a contribution is still held is read off the
texts of its key: `Overtaken` says that enough text of the key came after it
(`Standing.overtaken_iff`).
-/

namespace Governance

open Utf8Text
open String (utf8Len)

/-! ## Cutting contributions -/

/-- A cut that is moved down to a character boundary takes the same contributions. -/
theorem splitWithin_floor (t pre : Text) (x : ℕ) (ps : List (Text × ℕ))
    (ht : t = pre ++ piecesText ps) (hpre : utf8Len pre ≤ floorCharBoundary t x) :
    splitWithin (floorCharBoundary t x - utf8Len pre) ps = splitWithin (x - utf8Len pre) ps := by
  induction ps generalizing pre with
  | nil => rfl
  | cons p ps ih =>
    obtain ⟨u, fid⟩ := p
    have hfloor := floorCharBoundary_le t x
    have ht' : t = (pre ++ u) ++ piecesText ps := by rw [ht, piecesText_cons, List.append_assoc]
    have hlen : utf8Len (pre ++ u) = utf8Len pre + utf8Len u := String.utf8Len_append pre u
    by_cases hu : utf8Len (pre ++ u) ≤ x
    · have hb : isCharBoundary t (utf8Len (pre ++ u)) = true := by
        rw [ht']
        exact isCharBoundary_utf8Len_append _ _
      have hle := le_floorCharBoundary hb hu
      have hih := ih (pre ++ u) ht' hle
      have h1 : utf8Len u ≤ floorCharBoundary t x - utf8Len pre := by omega
      have h2 : utf8Len u ≤ x - utf8Len pre := by omega
      have h3 : floorCharBoundary t x - utf8Len pre - utf8Len u =
          floorCharBoundary t x - utf8Len (pre ++ u) := by omega
      have h4 : x - utf8Len pre - utf8Len u = x - utf8Len (pre ++ u) := by omega
      rw [splitWithin, splitWithin, if_pos h1, if_pos h2, h3, h4, hih]
    · have h1 : ¬ utf8Len u ≤ floorCharBoundary t x - utf8Len pre := by omega
      have h2 : ¬ utf8Len u ≤ x - utf8Len pre := by omega
      rw [splitWithin, splitWithin, if_neg h1, if_neg h2]

/-- More contributions than a cut takes are longer than the cut. -/
theorem lt_utf8Len_of_longer {n : ℕ} {a b : List (Text × ℕ)}
    (h : (splitWithin n (a ++ b)).1.length < a.length) : n < utf8Len (piecesText a) := by
  induction a generalizing n with
  | nil => cases h
  | cons p a ih =>
    obtain ⟨u, fid⟩ := p
    rw [piecesText_cons, String.utf8Len_append]
    by_cases hu : utf8Len u ≤ n
    · rw [List.cons_append, splitWithin, if_pos hu] at h
      have hlt := ih (n := n - utf8Len u) (by simpa using h)
      omega
    · omega

/-- What a cut takes, it takes again at its own length. -/
theorem splitWithin_cut (n : ℕ) (ps : List (Text × ℕ)) :
    splitWithin (utf8Len (piecesText (splitWithin n ps).1)) ps = splitWithin n ps := by
  induction ps generalizing n with
  | nil => rfl
  | cons p ps ih =>
    obtain ⟨u, fid⟩ := p
    by_cases hu : utf8Len u ≤ n
    · have hle : utf8Len u ≤ utf8Len u + utf8Len (piecesText (splitWithin (n - utf8Len u) ps).1) :=
        Nat.le_add_right _ _
      simp only [splitWithin, if_pos hu, piecesText_cons, String.utf8Len_append, if_pos hle,
        Nat.add_sub_cancel_left, ih]
    · have hzero : ¬ utf8Len u ≤ 0 := by omega
      simp [splitWithin, hu, hzero]

/-- What `advance` releases and keeps of some contributions without a span. -/
def holdStep (window : ℕ) (pieces : List (Text × ℕ)) : List (Text × ℕ) × List (Text × ℕ) :=
  let s := splitWithin (utf8Len (piecesText pieces) - window) pieces
  if piecesText s.1 = [] then ([], pieces) else s

@[simp] theorem holdStep_append (window : ℕ) (pieces : List (Text × ℕ)) :
    (holdStep window pieces).1 ++ (holdStep window pieces).2 = pieces := by
  simp only [holdStep]
  split
  · rfl
  · exact splitWithin_append _ _

/-- The result of a release of some contributions as they are. -/
def plainResult (head : List (Text × ℕ)) : ChoicePush :=
  if piecesText head = [] then .nothing else .release (piecesText head) (head.map Prod.snd)

namespace ChoiceRedactor

theorem safePrefix_nil (pending : Text) (window ceiling : ℕ) :
    safePrefix pending [] window ceiling =
      floorCharBoundary pending (min (utf8Len pending - window) ceiling) := by
  simp only [safePrefix, walkBack]
  split
  · rename_i h
    rw [h]
    rfl
  · rfl

/-- The cut in a text without a span. -/
theorem chooseCut_nil {r : ChoiceRedactor} {pieces : List (Text × ℕ)} (h : r.Holds pieces)
    (window : ℕ) : r.chooseCut [] window =
      utf8Len (piecesText (splitWithin (utf8Len r.pending - window) pieces).1) := by
  have hboundary : ∀ x, lastBoundary (floorCharBoundary r.pending x) r.boundaries 0 =
      utf8Len (piecesText (splitWithin x pieces).1) := by
    intro x
    have hlast := lastBoundary_pieceEnds (Nat.zero_le (floorCharBoundary r.pending x)) pieces
    have hfloor := splitWithin_floor r.pending [] x pieces (by rw [h.pending]; rfl) (Nat.zero_le _)
    rw [String.utf8Len_nil, Nat.sub_zero, Nat.sub_zero] at hfloor
    rw [h.boundaries, hlast, Nat.zero_add, Nat.sub_zero, hfloor]
  set cut := utf8Len (piecesText (splitWithin (utf8Len r.pending - window) pieces).1) with hcut
  have hle : cut ≤ utf8Len r.pending - window := utf8Len_splitWithin_le _ _
  have hfirst : lastBoundary (safePrefix r.pending [] window (utf8Len r.pending)) r.boundaries 0 =
      cut := by
    rw [safePrefix_nil, min_eq_left (Nat.sub_le _ _), hboundary]
  -- the second turn looks at the cut itself and keeps it
  have hagain : lastBoundary (safePrefix r.pending [] window cut) r.boundaries 0 = cut := by
    have happ := splitWithin_append (utf8Len r.pending - window) pieces
    have hb : isCharBoundary r.pending cut = true := by
      rw [h.pending]
      nth_rewrite 1 [← happ]
      rw [piecesText_append]
      exact isCharBoundary_utf8Len_append _ _
    rw [safePrefix_nil, min_eq_right hle, hboundary, hcut, splitWithin_cut]
  unfold chooseCut
  cases hlen : utf8Len r.pending with
  | zero => exact (by omega : (0 : ℕ) = cut)
  | succ n =>
    rw [hlen] at hfirst
    simp only [cutLoop, hfirst]
    by_cases hstop : cut = n + 1 ∨ cut = 0
    · rw [if_pos hstop]
    · rw [if_neg hstop]
      cases n with
      | zero => omega
      | succ n => simp [cutLoop, hagain]

/-- A push that meets no span takes its step by the lengths alone. -/
theorem advance_plain {r : ChoiceRedactor} {pieces : List (Text × ℕ)} (h : r.Holds pieces)
    {e : Engine} {window : ℕ} (hdetect : e.detect (piecesText pieces) = .ok [])
    (hscan : e.scan (piecesText (holdStep window pieces).1) = .ok .clean) :
    ∃ r', r.advance e window false = (.ok (plainResult (holdStep window pieces).1), r') ∧
      r'.Holds (holdStep window pieces).2 := by
  have hcut := chooseCut_nil h window
  rw [h.pending] at hcut
  have happ := splitWithin_append (utf8Len (piecesText pieces) - window) pieces
  by_cases hnil : piecesText (splitWithin (utf8Len (piecesText pieces) - window) pieces).1 = []
  · have hstep : holdStep window pieces = ([], pieces) := by simp only [holdStep, if_pos hnil]
    rw [hstep]
    refine ⟨r, ?_, h⟩
    rw [hnil, String.utf8Len_nil] at hcut
    by_cases hpending : r.pending = []
    · simp [advance, hpending, plainResult]
    · rw [← h.pending] at hdetect
      simp [advance, hpending, hdetect, blockingEntities, sortDedup, hcut, plainResult]
  · have hstep : holdStep window pieces =
        splitWithin (utf8Len (piecesText pieces) - window) pieces := by
      simp only [holdStep, if_neg hnil]
    rw [hstep] at hscan ⊢
    set head := (splitWithin (utf8Len (piecesText pieces) - window) pieces).1 with hhead
    set tail := (splitWithin (utf8Len (piecesText pieces) - window) pieces).2 with htail
    have hpos : utf8Len (piecesText head) ≠ 0 := fun h0 => hnil (String.utf8Len_eq_zero.mp h0)
    have hpending : r.pending ≠ [] := by
      rw [h.pending, ← happ, piecesText_append]
      simp [hnil]
    have hwhole : splitWithin (utf8Len (piecesText head)) pieces = (head, tail) := by
      have hsame := splitWithin_cut (utf8Len (piecesText pieces) - window) pieces
      rw [← hhead] at hsame
      rw [hsame]
    rw [← happ] at h hwhole
    have hids : (r.boundaries.takeWhile fun b => b.1 ≤ utf8Len (piecesText head)).map Prod.snd =
        head.map Prod.snd := by
      rw [h.boundaries, takeWhile_pieceEnds (Nat.zero_le _), Nat.sub_zero, hwhole,
        map_snd_pieceEnds]
    have htake : takeBytes r.pending (utf8Len (piecesText head)) = piecesText head := by
      rw [h.pending, piecesText_append, takeBytes_utf8Len_append]
    have hdetect' : e.detect r.pending = .ok [] := by
      rw [h.pending, happ]
      exact hdetect
    have hrelease : r.releaseHead e (utf8Len (piecesText head)) =
        (.ok (.release (piecesText head) (head.map Prod.snd)),
          ⟨dropBytes r.pending (utf8Len (piecesText head)),
            (r.boundaries.dropWhile fun b => b.1 ≤ utf8Len (piecesText head)).map fun b =>
              (b.1 - utf8Len (piecesText head), b.2), r.redactions⟩) := by
      simp only [releaseHead, htake, hscan, hids]
    refine ⟨(r.releaseHead e (utf8Len (piecesText head))).2, ?_, ?_⟩
    · simp [advance, hpending, hdetect', blockingEntities, sortDedup, hcut, hpos, hrelease,
        plainResult, hnil]
    · rw [hrelease]
      exact h.drop rfl hwhole

end ChoiceRedactor

/-! ## What a key still holds -/

/-- A key with these contributions has released the first and holds the second. Without a window
nothing but empty texts is held, and these follow a text that is not empty. With one, a release
leaves the window behind, and no frame boundary that does so is left where there is text before. -/
def Standing (window : ℕ) (released held : List (Text × ℕ)) : Prop :=
  if window = 0 then piecesText held = [] ∧ ∀ p ∈ released.getLast?, p.1 ≠ []
  else (released = [] ∨ (piecesText released ≠ [] ∧ window ≤ utf8Len (piecesText held))) ∧
    ∀ a b, held = a ++ b → a ≠ [] → piecesText (released ++ a) ≠ [] →
      utf8Len (piecesText b) < window

theorem standing_nil (window : ℕ) : Standing window [] [] := by
  by_cases hw : window = 0
  · simp [Standing, hw]
  · simp only [Standing, if_neg hw]
    refine ⟨Or.inl trivial, fun a b hab hne => ?_⟩
    exact absurd (List.append_eq_nil_iff.mp hab.symm).1 hne

theorem piecesText_eq_nil_of_append {a b : List (Text × ℕ)} (h : piecesText (a ++ b) = []) :
    piecesText a = [] ∧ piecesText b = [] := by
  rw [piecesText_append] at h
  exact List.append_eq_nil_iff.mp h

theorem standing_push_zero {released held : List (Text × ℕ)} (h : Standing 0 released held)
    (p : Text × ℕ) :
    Standing 0 (released ++ (holdStep 0 (held ++ [p])).1) (holdStep 0 (held ++ [p])).2 := by
  rw [Standing, if_pos rfl] at h
  obtain ⟨hheld, hlast⟩ := h
  have hall : splitWithin (utf8Len (piecesText (held ++ [p])) - 0) (held ++ [p]) =
      (held ++ [p], []) := splitWithin_of_le (Nat.sub_zero _).ge
  by_cases hp : p.1 = []
  · have hnil : piecesText (held ++ [p]) = [] := by
      rw [piecesText_append, hheld]
      simp [piecesText, hp]
    have hstep : holdStep 0 (held ++ [p]) = ([], held ++ [p]) := by
      simp only [holdStep, hall, if_pos hnil]
    rw [hstep, List.append_nil, Standing, if_pos rfl]
    exact ⟨hnil, hlast⟩
  · have hne : piecesText (held ++ [p]) ≠ [] := by
      intro hnil
      have htext := (piecesText_eq_nil_of_append hnil).2
      exact hp (by simpa [piecesText] using htext)
    have hstep : holdStep 0 (held ++ [p]) = (held ++ [p], []) := by
      simp only [holdStep, hall, if_neg hne]
    rw [hstep, Standing, if_pos rfl]
    refine ⟨rfl, fun q hq => ?_⟩
    rw [← List.append_assoc, List.getLast?_concat] at hq
    obtain rfl : p = q := by simpa using hq
    exact hp

theorem standing_push_pos {window : ℕ} (hw : window ≠ 0) {released held : List (Text × ℕ)}
    (h : Standing window released held) (p : Text × ℕ) :
    Standing window (released ++ (holdStep window (held ++ [p])).1)
      (holdStep window (held ++ [p])).2 := by
  rw [Standing, if_neg hw] at h
  obtain ⟨hbehind, hmax⟩ := h
  set pieces := held ++ [p] with hpieces
  have happ := splitWithin_append (utf8Len (piecesText pieces) - window) pieces
  have hle := utf8Len_splitWithin_le (utf8Len (piecesText pieces) - window) pieces
  set s := splitWithin (utf8Len (piecesText pieces) - window) pieces with hs
  -- what is longer than the cut leaves less than the window behind
  have hlonger : ∀ a b, pieces = a ++ b → s.1.length < a.length →
      utf8Len (piecesText b) < window := by
    intro a b hab hlen
    have hlt : utf8Len (piecesText pieces) - window < utf8Len (piecesText a) := by
      refine lt_utf8Len_of_longer (b := b) ?_
      rw [← hab]
      exact hlen
    have htotal : utf8Len (piecesText pieces) = utf8Len (piecesText a) + utf8Len (piecesText b) := by
      rw [hab, piecesText_append, String.utf8Len_append]
    omega
  by_cases hnil : piecesText s.1 = []
  · have hstep : holdStep window pieces = ([], pieces) := by
      simp only [holdStep, ← hs, if_pos hnil]
    rw [hstep, List.append_nil, Standing, if_neg hw]
    have hbehind' : released = [] ∨
        (piecesText released ≠ [] ∧ window ≤ utf8Len (piecesText pieces)) := by
      refine hbehind.imp_right fun hb => ⟨hb.1, ?_⟩
      rw [hpieces, piecesText_append, String.utf8Len_append]
      omega
    refine ⟨hbehind', fun a b hab hne htext => ?_⟩
    have hab : pieces = a ++ b := hab
    by_cases hlen : s.1.length < a.length
    · exact hlonger a b hab hlen
    · -- a boundary within the empty front: something was released, so it would have been too
      have hpre : a <+: s.1 :=
        List.prefix_of_prefix_length_le ⟨b, hab.symm⟩ ⟨s.2, happ⟩ (by omega)
      obtain ⟨more, hmore⟩ := hpre
      have ha : piecesText a = [] := by
        rw [← hmore] at hnil
        exact (piecesText_eq_nil_of_append hnil).1
      have hrel : piecesText released ≠ [] := by
        rw [piecesText_append, ha, List.append_nil] at htext
        exact htext
      have hwin : window ≤ utf8Len (piecesText held) := by
        rcases hbehind with rfl | hb
        · exact absurd rfl hrel
        · exact hb.2
      rcases List.eq_nil_or_concat' b with rfl | ⟨b', q, rfl⟩
      · rw [piecesText_nil, String.utf8Len_nil]
        exact Nat.pos_of_ne_zero hw
      · rw [hpieces, ← List.append_assoc] at hab
        obtain ⟨hheld, -⟩ := List.append_inj' hab rfl
        have hlt := hmax a b' hheld hne htext
        have hsame : utf8Len (piecesText held) = utf8Len (piecesText b') := by
          rw [hheld, piecesText_append, ha, List.nil_append]
        omega
  · have hstep : holdStep window pieces = s := by
      simp only [holdStep, ← hs, if_neg hnil]
    rw [hstep, Standing, if_neg hw]
    have hpos : utf8Len (piecesText s.1) ≠ 0 := fun h0 => hnil (String.utf8Len_eq_zero.mp h0)
    have htotal : utf8Len (piecesText pieces) =
        utf8Len (piecesText s.1) + utf8Len (piecesText s.2) := by
      nth_rewrite 1 [← happ]
      rw [piecesText_append, String.utf8Len_append]
    refine ⟨Or.inr ⟨fun htext => hnil (piecesText_eq_nil_of_append htext).2, by omega⟩,
      fun a b hab hne _ => ?_⟩
    refine hlonger (s.1 ++ a) b ?_ ?_
    · rw [List.append_assoc, ← hab, happ]
    · have := List.length_pos_iff.mpr hne
      rw [List.length_append]
      omega

/-- A push keeps a key standing. -/
theorem Standing.push {window : ℕ} {released held : List (Text × ℕ)}
    (h : Standing window released held) (p : Text × ℕ) :
    Standing window (released ++ (holdStep window (held ++ [p])).1)
      (holdStep window (held ++ [p])).2 := by
  by_cases hw : window = 0
  · subst hw
    exact standing_push_zero h p
  · exact standing_push_pos hw h p

/-- Enough text of a key came after its texts `before`: without a window any text, at the end of
`before` or after it; with one, the window's bytes behind a place that has text before it. -/
def Overtaken (window : ℕ) (before after : List Text) : Prop :=
  if window = 0 then before.getLast? ≠ some [] ∨ ∃ t ∈ after, t ≠ []
  else ∃ a b, after = a ++ b ∧ (before ++ a).flatten ≠ [] ∧ window ≤ utf8Len b.flatten

theorem piecesText_eq_flatten (ps : List (Text × ℕ)) : piecesText ps = (ps.map Prod.fst).flatten := by
  rw [piecesText, List.flatMap_def]

/-- The contributions up to a place are released when they are overtaken. -/
theorem Standing.overtaken_iff {window : ℕ} {released held before after : List (Text × ℕ)}
    (h : Standing window released held) (hsplit : released ++ held = before ++ after)
    (hne : before ≠ []) :
    Overtaken window (before.map Prod.fst) (after.map Prod.fst) ↔
      before.length ≤ released.length := by
  by_cases hw : window = 0
  · rw [Standing, if_pos hw] at h
    rw [Overtaken, if_pos hw]
    obtain ⟨hheld, hlast⟩ := h
    have hempty : ∀ p ∈ held, p.1 = [] := by
      intro p hp
      rw [piecesText, List.flatMap_eq_nil_iff] at hheld
      exact hheld p hp
    constructor
    · intro hover
      by_contra hlt
      -- the end of `before` and all of `after` are held
      obtain ⟨mid, hmid⟩ : released <+: before :=
        List.prefix_of_prefix_length_le ⟨held, hsplit⟩ ⟨after, rfl⟩ (by omega)
      have hrest : held = mid ++ after := by
        rw [← hmid, List.append_assoc] at hsplit
        exact List.append_cancel_left hsplit
      rcases hover with hlast' | ⟨t, ht, htne⟩
      · refine hlast' ?_
        obtain ⟨init, p, hp⟩ := (List.eq_nil_or_concat' before).resolve_left hne
        have hmem : p ∈ mid := by
          have hmidne : mid ≠ [] := by
            rintro rfl
            rw [List.append_nil] at hmid
            exact hlt (by rw [hmid])
          obtain ⟨minit, q, hq⟩ := (List.eq_nil_or_concat' mid).resolve_left hmidne
          rw [hq, hp, ← List.append_assoc] at hmid
          obtain ⟨-, heq⟩ := List.append_inj' hmid rfl
          rw [hq]
          exact List.mem_append_right _ (by simpa using heq.symm)
        have hpnil := hempty p (by rw [hrest]; exact List.mem_append_left _ hmem)
        simp [hp, hpnil]
      · obtain ⟨p, hp, rfl⟩ := List.mem_map.mp ht
        exact htne (hempty p (by rw [hrest]; exact List.mem_append_right _ hp))
    · intro hle
      obtain ⟨mid, hmid⟩ : before <+: released :=
        List.prefix_of_prefix_length_le ⟨after, rfl⟩ ⟨held, hsplit⟩ hle
      have hrest : after = mid ++ held := by
        rw [← hmid, List.append_assoc] at hsplit
        exact (List.append_cancel_left hsplit).symm
      rcases List.eq_nil_or_concat' mid with rfl | ⟨minit, q, rfl⟩
      · refine Or.inl ?_
        rw [List.append_nil] at hmid
        obtain ⟨init, p, rfl⟩ := (List.eq_nil_or_concat' before).resolve_left hne
        have hp := hlast p (by rw [← hmid]; simp)
        simpa using hp
      · refine Or.inr ⟨q.1, ?_, hlast q (by rw [← hmid, ← List.append_assoc]; simp)⟩
        rw [hrest]
        simp
  · rw [Standing, if_neg hw] at h
    rw [Overtaken, if_neg hw]
    obtain ⟨hbehind, hmax⟩ := h
    constructor
    · rintro ⟨a, b, hab, htext, hwin⟩
      by_contra hlt
      obtain ⟨mid, hmid⟩ : released <+: before :=
        List.prefix_of_prefix_length_le ⟨held, hsplit⟩ ⟨after, rfl⟩ (by omega)
      have hrest : held = mid ++ after := by
        rw [← hmid, List.append_assoc] at hsplit
        exact List.append_cancel_left hsplit
      have hmidne : mid ≠ [] := by
        rintro rfl
        rw [List.append_nil] at hmid
        exact hlt (by rw [hmid])
      -- the split of the texts is a split of the contributions
      obtain ⟨a', b', rfl, rfl, rfl⟩ := List.map_eq_append_iff.mp hab
      have hlt' := hmax (mid ++ a') b' (by rw [hrest, List.append_assoc]) (by simp [hmidne]) ?_
      · rw [piecesText_eq_flatten] at hlt'
        omega
      · rw [← List.append_assoc, hmid, piecesText_eq_flatten, List.map_append]
        exact htext
    · intro hle
      obtain ⟨mid, hmid⟩ : before <+: released :=
        List.prefix_of_prefix_length_le ⟨after, rfl⟩ ⟨held, hsplit⟩ hle
      have hrest : after = mid ++ held := by
        rw [← hmid, List.append_assoc] at hsplit
        exact (List.append_cancel_left hsplit).symm
      rcases hbehind with hnil | ⟨htext, hwin⟩
      · rw [hnil] at hmid
        exact absurd (List.append_eq_nil_iff.mp hmid).1 hne
      · refine ⟨mid.map Prod.fst, held.map Prod.fst, by rw [hrest, List.map_append], ?_, ?_⟩
        · rw [← List.map_append, hmid, ← piecesText_eq_flatten]
          exact htext
        · rw [← piecesText_eq_flatten]
          exact hwin

/-- A key holds less than the window and one more contribution. -/
theorem Standing.utf8Len_held_le {window bound : ℕ} {released held : List (Text × ℕ)}
    (h : Standing window released held) (hbound : ∀ p ∈ held, utf8Len p.1 ≤ bound) :
    utf8Len (piecesText held) ≤ window + bound := by
  by_cases hw : window = 0
  · rw [Standing, if_pos hw] at h
    rw [h.1, String.utf8Len_nil]
    exact Nat.zero_le _
  · rw [Standing, if_neg hw] at h
    have hrest : ∀ a b, held = a ++ b → piecesText a = [] →
        utf8Len (piecesText b) ≤ window + bound := by
      intro a b
      induction b generalizing a with
      | nil => exact fun _ _ => Nat.zero_le _
      | cons p b ih =>
        intro hab ha
        have hsplit : held = (a ++ [p]) ++ b := by rw [hab, List.append_assoc]; rfl
        have hp := hbound p (by rw [hab]; simp)
        rw [piecesText_cons, String.utf8Len_append]
        by_cases hpnil : p.1 = []
        · have hle := ih (a ++ [p]) hsplit (by simp [piecesText, hpnil] at ha ⊢; exact ha)
          rw [hpnil, String.utf8Len_nil]
          omega
        · have hlt := h.2 (a ++ [p]) b hsplit (by simp) (by simp [piecesText, hpnil])
          omega
    exact hrest [] held rfl rfl

end Governance
