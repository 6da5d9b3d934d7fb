import Governance.Redact.Sse.Chunking

/-!
# What becomes of every line

A run that does not block is meant to turn each line of the stream into one output line, in
order. `run_conserves_iff` says exactly when it does: no key may end the stream with
nothing but empty contributions left to resolve (`Stuck`). A redactor with no pending text
returns before it looks at its boundaries, so a frame that only contributed empty text to
such a key waits for good, and every later frame waits behind it.
-/

namespace Governance

open Utf8Text
open String (utf8Len)

/-- The slots a line carries. -/
def lineContributions (codec : JsonCodec) (line : Text) : List (ContentKey × Text) :=
  match classifyLine codec line with
  | .data chunk => deltaContents chunk
  | _ => []

/-- The texts some contributions have for one key. -/
def textsOf (key : ContentKey) (cs : List (ContentKey × Text)) : List Text :=
  (cs.filter fun c => c.1 = key).map Prod.snd

/-- The texts a stream has for one key, in order. -/
def slotTexts (codec : JsonCodec) (key : ContentKey) (lines : List Text) : List Text :=
  textsOf key (lines.flatMap (lineContributions codec))

/-- A key that never resolves its last contributions: with a window, one whose texts were
all empty; without, one whose last text was. -/
def Stuck (window : ℕ) (texts : List Text) : Prop :=
  if window = 0 then texts.getLast? = some [] else texts ≠ [] ∧ ∀ t ∈ texts, t = []

instance (window : ℕ) (texts : List Text) : Decidable (Stuck window texts) :=
  inferInstanceAs (Decidable (if window = 0 then _ else _))

/-- An output line of a line of the stream. -/
def LineOut (codec : JsonCodec) (e : Engine) (line out : Text) : Prop :=
  match classifyLine codec line with
  | .passthrough => out = line
  | .opaqueText => e.scanText line = some out
  | .data chunk => ∃ chunk', eraseSlots chunk' = eraseSlots chunk ∧
      out = (Frame.data chunk').render codec

/-- The frame a line becomes, with its slots blanked. -/
def lineErased (codec : JsonCodec) (e : Engine) (line : Text) : Option Frame :=
  match classifyLine codec line with
  | .passthrough => some (.passthrough line)
  | .opaqueText => (e.scanText line).map .passthrough
  | .data chunk => some (.data (eraseSlots chunk))

/-- Whatever its slots hold, a frame with the erasure of a line renders to an output of it. -/
theorem lineOut_of_erased {codec : JsonCodec} {e : Engine} {line : Text} {frame : Frame}
    (h : lineErased codec e line = some frame.erase) :
    LineOut codec e line (frame.render codec) := by
  unfold lineErased at h
  unfold LineOut
  split
  · next hclass =>
    rw [hclass] at h
    cases frame <;> simp_all [Frame.erase, Frame.render]
  · next hclass =>
    rw [hclass] at h
    obtain ⟨out, hout, hframe⟩ := Option.map_eq_some_iff.mp h
    cases frame <;> simp_all [Frame.erase, Frame.render]
  · next chunk hclass =>
    rw [hclass] at h
    cases frame with
    | passthrough raw => simp [Frame.erase] at h
    | data chunk' =>
      refine ⟨chunk', ?_, rfl⟩
      simpa [Frame.erase] using h.symm

/-! ## What a key holds -/

namespace ChoiceRedactor

/-- What a key that was given `texts` still holds. -/
def Settled (window : ℕ) (texts : List Text) (r : ChoiceRedactor) : Prop :=
  if window = 0 then r.pending = [] ∧ (r.boundaries = [] ↔ texts.getLast? ≠ some [])
  else (r.pending = [] ↔ ∀ t ∈ texts, t = []) ∧
    (r.pending = [] → r.boundaries.length = texts.length)

theorem settled_default (window : ℕ) : Settled window [] default := by
  have hpending : (default : ChoiceRedactor).pending = [] := rfl
  have hboundaries : (default : ChoiceRedactor).boundaries = [] := rfl
  by_cases hw : window = 0 <;> simp [Settled, hw, hpending, hboundaries]

theorem Settled.push {e : Engine} (he : e.ErrorFree) (hrange : e.InRange) {window fid : ℕ}
    {texts : List Text} {r r' : ChoiceRedactor} {pieces : List (Text × ℕ)} {res : ChoicePush}
    {text : Text} (hset : r.Settled window texts) (hholds : r.Holds pieces)
    (hpush : r.push e window fid text = (.ok res, r')) (hnot : ∀ es, res ≠ .blocked es) :
    r'.Settled window (texts ++ [text]) := by
  have happ := hholds.append fid text
  have hadv : (r.append fid text).advance e window false = (.ok res, r') := hpush
  by_cases hw : window = 0
  · -- without a window everything held leaves with the next text that is not empty
    rw [Settled, if_pos hw] at hset ⊢
    by_cases ht : text = []
    · have hnil : (r.append fid text).pending = [] := by simp [append, hset.1, ht]
      have hsame : (r.append fid text).advance e window false =
          (.ok .nothing, r.append fid text) := by
        simp [advance, hnil]
      rw [hsame] at hadv
      obtain rfl : r.append fid text = r' := (Prod.ext_iff.mp hadv).2
      refine ⟨hnil, ?_⟩
      simp [append, ht]
    · have hne : piecesText (pieces ++ [(text, fid)]) ≠ [] := by simp [ht]
      have hwin : (if false = true then 0 else window) = 0 := by simpa using hw
      obtain ⟨es, hes⟩ | ⟨out, _, _, hempty⟩ := advance_all happ he hrange hwin hne
      · rw [hadv] at hes
        exact absurd (by simpa using hes) (hnot es)
      · rw [hadv] at hempty
        refine ⟨hempty.pending, ?_⟩
        have hb : r'.boundaries = [] := hempty.boundaries
        simp [hb, ht]
  · -- with one, a release leaves at least the window, which is not empty
    rw [Settled, if_neg hw] at hset ⊢
    have hall : (∀ t ∈ texts ++ [text], t = []) ↔ (r.append fid text).pending = [] := by
      simp [append, hset.1, or_imp, forall_and]
    obtain ⟨es, hes⟩ | ⟨res', r'', hadv', hadvances⟩ := advance_ok happ he window false
    · rw [hadv] at hes
      exact absurd (by simpa using hes) (hnot es)
    · rw [hadv] at hadv'
      obtain ⟨rfl, rfl⟩ : res = res' ∧ r' = r'' := by simpa using hadv'
      cases hadvances with
      | hold h =>
        have hp : r'.pending = (r.append fid text).pending := by rw [h.pending, happ.pending]
        have hb : r'.boundaries = (r.append fid text).boundaries := by
          rw [h.boundaries, happ.boundaries]
        rw [hall, hp, hb]
        refine ⟨Iff.rfl, fun hnil => ?_⟩
        have hr : r.pending = [] := by
          simp only [append, List.append_eq_nil_iff] at hnil
          exact hnil.1
        simp [append, hset.2 hr]
      | release h =>
        have hpending : r'.pending ≠ [] := by
          intro hnil
          have hlen := h.window_le
          rw [← h.holds.pending, hnil] at hlen
          simp only [Bool.false_eq_true, if_false, String.utf8Len_nil] at hlen
          omega
        have hfull : (r.append fid text).pending ≠ [] := by
          rw [happ.pending, h.split, piecesText_append]
          simp [h.nonempty]
        rw [hall]
        exact ⟨⟨fun hnil => absurd hnil hpending, fun hnil => absurd hnil hfull⟩,
          fun hnil => absurd hnil hpending⟩

/-- What a key has left once it has been flushed. -/
theorem Settled.stuck_iff {window : ℕ} {texts : List Text} {r : ChoiceRedactor}
    (hset : r.Settled window texts) : (r.pending = [] ∧ r.boundaries ≠ []) ↔ Stuck window texts := by
  by_cases hw : window = 0
  · rw [Settled, if_pos hw] at hset
    rw [Stuck, if_pos hw, ne_eq, hset.2]
    simp [hset.1]
  · rw [Settled, if_neg hw] at hset
    rw [Stuck, if_neg hw]
    constructor
    · rintro ⟨hp, hb⟩
      refine ⟨?_, hset.1.mp hp⟩
      rintro rfl
      exact hb (List.length_eq_zero_iff.mp (hset.2 hp))
    · rintro ⟨hne, hall⟩
      have hp := hset.1.mpr hall
      refine ⟨hp, fun hb => hne ?_⟩
      have hlen := hset.2 hp
      rw [hb] at hlen
      exact List.length_eq_zero_iff.mp hlen.symm

/-- A key that does not block is flushed clean, unless it holds nothing but empty text. -/
theorem flushAll_clean {e : Engine} (he : e.ErrorFree) (hrange : e.InRange) (window fuel : ℕ)
    {r : ChoiceRedactor} {pieces : List (Text × ℕ)} (hholds : r.Holds pieces)
    (hnone : (r.flushAll e window (fuel + 1)).1 = .ok none) :
    (r.flushAll e window (fuel + 1)).2.1.boundaries ≠ [] ↔ r.pending = [] ∧ r.boundaries ≠ [] := by
  have hempty : ∀ {q : ChoiceRedactor} (n : ℕ), q.pending = [] →
      q.flushAll e window n = (.ok none, q, []) := by
    intro q n hq
    cases n with
    | zero => rfl
    | succ n => simp [flushAll, flush, advance, hq]
  by_cases hp : r.pending = []
  · rw [hempty _ hp]
    simp [hp]
  · have hne : piecesText pieces ≠ [] := by rwa [← hholds.pending]
    have hwin : (if true = true then 0 else window) = 0 := rfl
    obtain ⟨es, hes⟩ | ⟨out, hout, _, hclean⟩ := advance_all hholds he hrange hwin hne
    · rw [← flush] at hes
      rw [flushAll] at hnone
      split at hnone <;> simp_all
    · rw [← flush] at hout hclean
      obtain ⟨v, r', hvr⟩ : ∃ v r', r.flush e window = (v, r') := ⟨_, _, rfl⟩
      rw [hvr] at hout hclean
      obtain rfl : v = .ok (.release out (pieces.map Prod.snd)) := hout
      have hend : (r.flushAll e window (fuel + 1)).2.1 = r' := by
        simp only [flushAll, hvr]
        rw [hempty fuel hclean.pending]
      rw [hend, hclean.boundaries]
      simp [pieceEnds, hp]

end ChoiceRedactor

namespace SseHoldBack

/-- Every key of `h` is settled with its texts. -/
def KeysSettled (window : ℕ) (texts : ContentKey → List Text) (h : SseHoldBack) : Prop :=
  ∀ key, ((h.choices.get? key).getD default).Settled window (texts key)

theorem textsOf_cons (key key' : ContentKey) (content : Text) (cs : List (ContentKey × Text)) :
    textsOf key ((key', content) :: cs) =
      (if key' = key then [content] else []) ++ textsOf key cs := by
  by_cases h : key' = key <;> simp [textsOf, h]

section Keys

variable {e : Engine} (he : e.ErrorFree) (hrange : e.InRange)
include he hrange

theorem KeysSettled.pushContributions {h : SseHoldBack} {fid : ℕ} {texts : ContentKey → List Text}
    {cs : List (ContentKey × Text)} (hset : h.KeysSettled h.window texts)
    (hacc : h.Accounted fid cs.length) (hnone : (pushContributions e fid cs h).1 = .ok none) :
    (pushContributions e fid cs h).2.KeysSettled h.window
      fun key => texts key ++ textsOf key cs := by
  induction cs generalizing h texts with
  | nil => simpa [SseHoldBack.pushContributions, textsOf] using hset
  | cons c cs ih =>
    obtain ⟨key, content⟩ := c
    obtain ⟨entities, hblocked⟩ | ⟨res, r, hpush, hnot, hacc', _⟩ := hacc.push he key content
    · rw [pushContributions_cons_blocked hblocked] at hnone
      cases hnone
    · rw [pushContributions_cons_ok hpush hnot] at hnone ⊢
      have hwin : (h.settle key res r).window = h.window := (framed_settle h key res r).window
      have hstep : (h.settle key res r).KeysSettled (h.settle key res r).window
          fun key' => texts key' ++ if key = key' then [content] else [] := by
        intro key'
        rw [hwin, settle_choices, KeyedMap.get?_insert]
        by_cases hkey : key' = key
        · subst hkey
          obtain ⟨pieces, hholds, _⟩ := hacc.exists_pieces key'
          simpa using (hset key').push he hrange hholds hpush hnot
        · simpa [hkey, Ne.symm hkey] using hset key'
      have hih := ih hstep hacc' hnone
      rw [hwin] at hih
      intro key'
      show ChoiceRedactor.Settled h.window (texts key' ++ textsOf key' ((key, content) :: cs)) _
      rw [textsOf_cons, ← List.append_assoc]
      exact hih key'

end Keys

/-! ## What the queue holds -/

/-- The queued frames with their slots blanked. -/
def shapes (h : SseHoldBack) : List (Option Frame) :=
  h.order.map fun fid => (h.frames fid).map Frame.erase

theorem shapes_framed {h h' : SseHoldBack} (hf : Framed h h') : h'.shapes = h.shapes := by
  rw [shapes, shapes, hf.order]
  exact List.map_congr_left fun fid _ => hf.erased fid

theorem Undrained.shapes_enqueue {U : SseHoldBack} (hU : U.Undrained) (frame : Frame) :
    (U.enqueue frame).shapes = U.shapes ++ [some frame.erase] := by
  show (U.order ++ [U.frameSeq]).map _ = U.order.map _ ++ _
  rw [List.map_append]
  congr 1
  · refine List.map_congr_left fun fid hfid => ?_
    have hne : fid ≠ U.frameSeq := by
      rw [hU.order, List.mem_range] at hfid
      omega
    simp [SseHoldBack.enqueue, hne]
  · simp [SseHoldBack.enqueue]

/-- What a line that does not block does: it queues one frame of its own erasure, and gives
the slots it carries to their keys. -/
theorem ingestLine_ok {codec : JsonCodec} {e : Engine} {h : SseHoldBack} {line : Text}
    (hnone : (ingestLine codec e h line).1 = .ok none) :
    (∃ frame count, (ingestLine codec e h line).2 =
        { h.enqueue frame with opaqueRedactions := count } ∧
      lineErased codec e line = some frame.erase ∧ lineContributions codec line = []) ∨
    ∃ chunk, lineErased codec e line = some (Frame.data chunk).erase ∧
      lineContributions codec line = deltaContents chunk ∧
      ingestLine codec e h line =
        pushContributions e h.frameSeq (deltaContents chunk) (h.enqueueData chunk) := by
  cases hclass : classifyLine codec line with
  | passthrough =>
    simp only [ingestLine, lineErased, lineContributions, hclass]
    exact Or.inl ⟨.passthrough line, h.opaqueRedactions, rfl, rfl, trivial⟩
  | opaqueText =>
    simp only [ingestLine, lineErased, lineContributions, hclass] at hnone ⊢
    split
    · next err hscan => simp [hscan] at hnone
    · next hscan =>
      refine Or.inl ⟨.passthrough line, h.opaqueRedactions, rfl, ?_, trivial⟩
      simp [Engine.scanText, hscan, Frame.erase]
    · next text count hscan =>
      refine Or.inl ⟨.passthrough text, h.opaqueRedactions + count, rfl, ?_, trivial⟩
      simp [Engine.scanText, hscan, Frame.erase]
    · next es hscan => simp [hscan] at hnone
  | data chunk =>
    simp only [ingestLine, lineErased, lineContributions, hclass]
    split
    · next hnil => exact Or.inl ⟨.data chunk, h.opaqueRedactions, rfl, rfl, hnil⟩
    · exact Or.inr ⟨chunk, rfl, rfl, rfl⟩

section Lines

variable {codec : JsonCodec} {e : Engine} (he : e.ErrorFree) (hrange : e.InRange)
include he hrange

theorem Undrained.ingestLine_conserves {U : SseHoldBack} (hU : U.Undrained)
    {texts : ContentKey → List Text} (hset : U.KeysSettled U.window texts) {line : Text}
    (hnone : (SseHoldBack.ingestLine codec e U line).1 = .ok none) :
    (SseHoldBack.ingestLine codec e U line).2.window = U.window ∧
    (lineErased codec e line).isSome ∧
    (SseHoldBack.ingestLine codec e U line).2.shapes = U.shapes ++ [lineErased codec e line] ∧
    (SseHoldBack.ingestLine codec e U line).2.KeysSettled U.window
      fun key => texts key ++ textsOf key (lineContributions codec line) := by
  obtain ⟨frame, count, hstate, hshape, hnil⟩ | ⟨chunk, hshape, hcs, hpush⟩ := ingestLine_ok hnone
  · rw [hstate, hshape, hnil]
    refine ⟨rfl, rfl, hU.shapes_enqueue frame, fun key => ?_⟩
    show ChoiceRedactor.Settled U.window (texts key ++ []) ((U.choices.get? key).getD default)
    rw [List.append_nil]
    exact hset key
  · rw [hpush] at hnone ⊢
    have hframed := framed_pushContributions e U.frameSeq (deltaContents chunk) (U.enqueueData chunk)
    refine ⟨hframed.window, by rw [hshape]; rfl, ?_, ?_⟩
    · rw [shapes_framed hframed, hshape]
      exact hU.shapes_enqueue (.data chunk)
    · rw [hcs]
      have hset' : (U.enqueueData chunk).KeysSettled (U.enqueueData chunk).window texts := hset
      exact hset'.pushContributions he hrange (hU.enqueueData chunk) hnone

theorem Undrained.ingestAll_conserves {U : SseHoldBack} (hU : U.Undrained)
    {texts : ContentKey → List Text} (hset : U.KeysSettled U.window texts) {lines : List Text}
    (hnone : (SseHoldBack.ingestAll codec e lines U).1 = .ok none) :
    (SseHoldBack.ingestAll codec e lines U).2.window = U.window ∧
    (∀ line ∈ lines, (lineErased codec e line).isSome) ∧
    (SseHoldBack.ingestAll codec e lines U).2.shapes =
      U.shapes ++ lines.map (lineErased codec e) ∧
    (SseHoldBack.ingestAll codec e lines U).2.KeysSettled U.window
      fun key => texts key ++ slotTexts codec key lines := by
  induction lines generalizing U texts with
  | nil => simpa [SseHoldBack.ingestAll, slotTexts, textsOf] using hset
  | cons line lines ih =>
    obtain ⟨es, hes⟩ | ⟨hline, hU', _⟩ := hU.ingestLine he codec line
    · rw [ingestAll_cons_stop lines (by rw [hes]; simp), hes] at hnone
      cases hnone
    rw [ingestAll_cons_ok lines hline] at hnone ⊢
    obtain ⟨hwin, hsome, hshapes, hset'⟩ := hU.ingestLine_conserves he hrange hset hline
    obtain ⟨hwin', hsome', hshapes', hset''⟩ := ih hU' (by rw [hwin]; exact hset') hnone
    refine ⟨hwin'.trans hwin, List.forall_mem_cons.mpr ⟨hsome, hsome'⟩, ?_, fun key => ?_⟩
    · rw [hshapes', hshapes, List.append_assoc]
      rfl
    · have hkey := hset'' key
      rw [hwin] at hkey
      simpa [slotTexts, textsOf, List.filter_append, List.append_assoc] using hkey

end Lines

/-! ## The end of the stream -/

/-- The queue is ready when no key holds a contribution. -/
theorem Undrained.dropWhile_eq_nil_iff {U : SseHoldBack} (hU : U.Undrained) :
    U.order.dropWhile U.isReady = [] ↔
      ∀ key r, U.choices.get? key = some r → r.boundaries = [] := by
  rw [List.dropWhile_eq_nil_iff]
  constructor
  · intro hready key r hr
    by_contra hne
    obtain ⟨b, hb⟩ := List.exists_mem_of_ne_nil _ hne
    have hheld : 0 < r.held b.2 :=
      List.count_pos_iff.mpr (List.mem_map_of_mem hb)
    have hsum : U.choices.sumBy (ChoiceRedactor.held b.2) ≠ 0 := fun h0 => by
      have := KeyedMap.eq_zero_of_sumBy_eq_zero h0 hr
      omega
    have hbal := hU.accounted.balance b.2
    -- a frame some key holds is in the queue and awaits that key
    have hlt : b.2 < U.frameSeq := by
      by_contra hge
      rw [hU.fresh b.2 (by omega)] at hbal
      simp only [Option.getD_none, ite_self, Nat.add_zero] at hbal
      exact hsum hbal.symm
    have hr' := hready b.2 (by rw [hU.order]; exact List.mem_range.mpr hlt)
    have hzero : (U.awaiting b.2).getD 0 = 0 := by simpa [isReady] using hr'
    rw [hzero] at hbal
    simp only [ite_self, Nat.add_zero] at hbal
    exact hsum hbal.symm
  · intro hclean fid _
    have hbal := hU.accounted.balance fid
    have hsum : U.choices.sumBy (ChoiceRedactor.held fid) = 0 :=
      KeyedMap.sumBy_eq_zero fun key r hr => by simp [ChoiceRedactor.held, hclean key r hr]
    rw [hsum] at hbal
    simpa [isReady] using hbal

/-- The output lines of a queue whose frames have the erasures of some lines. -/
theorem forall₂_lineOut {codec : JsonCodec} {e : Engine} {h : SseHoldBack} {lines : List Text}
    {queue : List ℕ} (hshapes : queue.map (fun fid => (h.frames fid).map Frame.erase) =
      lines.map (lineErased codec e)) (hsome : ∀ line ∈ lines, (lineErased codec e line).isSome) :
    List.Forall₂ (LineOut codec e) lines (queue.map (h.renderAt codec)) := by
  induction lines generalizing queue with
  | nil =>
    obtain rfl : queue = [] := by simpa using hshapes
    exact .nil
  | cons line lines ih =>
    cases queue with
    | nil => simp at hshapes
    | cons fid queue =>
      rw [List.map_cons, List.map_cons] at hshapes
      obtain ⟨hhead, htail⟩ := List.cons_eq_cons.mp hshapes
      obtain ⟨hline, hlines⟩ := List.forall_mem_cons.mp hsome
      refine .cons ?_ (ih htail hlines)
      cases hframe : h.frames fid with
      | none =>
        rw [hframe, Option.map_none] at hhead
        rw [← hhead] at hline
        cases hline
      | some frame =>
        rw [hframe, Option.map_some] at hhead
        rw [renderAt, hframe]
        exact lineOut_of_erased hhead.symm

section Run

variable (codec : JsonCodec) {e : Engine} (he : e.ErrorFree) (hrange : e.InRange) (window : ℕ)
include he hrange

/-- The queue of the undrained redactor at the end of a stream that does not block: one
frame for each line, ready if and only if no key is stuck. -/
theorem undrainedEnd_conserves (order : IterOrder ContentKey) (stream : Text)
    (hend : (undrainedEnd codec e window order stream).1 = .ok none) :
    List.Forall₂ (LineOut codec e) (linesInclusive stream)
      ((undrainedEnd codec e window order stream).2.order.map
        ((undrainedEnd codec e window order stream).2.renderAt codec)) ∧
    ((undrainedEnd codec e window order stream).2.order.dropWhile
        (undrainedEnd codec e window order stream).2.isReady = [] ↔
      ∀ key, ¬ Stuck window (slotTexts codec key (linesInclusive stream))) := by
  obtain ⟨es, hes⟩ | ⟨hok, hV, _⟩ :=
    (undrained_withWindow window).ingestAll he codec (linesInclusive stream)
  · rw [undrainedEnd_of_blocked order hes, undrained, hes] at hend
    cases hend
  rw [← undrained] at hok hV
  rw [undrainedEnd_of_ok order hok] at hend ⊢
  have hstart : (withWindow window).KeysSettled (withWindow window).window fun _ => [] :=
    fun _ => ChoiceRedactor.settled_default window
  obtain ⟨hwin, hsome, hshapes, hset⟩ :=
    (undrained_withWindow window).ingestAll_conserves he hrange hstart hok
  rw [← undrained] at hwin hshapes hset
  set V := (undrained codec e window (linesInclusive stream)).2 with hVdef
  set keys := order.visit V.choices.keys with hkeys
  obtain ⟨hW, _⟩ := hV.flushKeys he keys hend
  have hmem : ∀ key, key ∈ keys ↔ key ∈ V.choices.keys := fun key => (order.perm _).mem_iff
  obtain ⟨hin, hout⟩ := flushKeys_get? (fun key hkey => (hmem key).mp hkey)
    ((order.perm _).nodup_iff.mpr V.choices.nodup) hend
  constructor
  · refine forall₂_lineOut ?_ hsome
    have hframed := shapes_framed (framed_flushKeys e keys V)
    rw [hshapes] at hframed
    exact hframed
  · rw [hW.dropWhile_eq_nil_iff]
    -- key by key: what is left after the flush is what is stuck
    have hkey : ∀ key, (∀ r, (flushKeys e keys V).2.choices.get? key = some r → r.boundaries = []) ↔
        ¬ Stuck window (slotTexts codec key (linesInclusive stream)) := by
      intro key
      have hsettled : ((V.choices.get? key).getD default).Settled window
          (slotTexts codec key (linesInclusive stream)) := hset key
      rw [← hsettled.stuck_iff]
      by_cases hk : key ∈ keys
      · obtain ⟨hnone, hget⟩ := hin key hk
        obtain ⟨pieces, hholds, _⟩ := hV.accounted.exists_pieces key
        have hclean := ChoiceRedactor.flushAll_clean he hrange V.window
          (V.pendingOf key).length hholds hnone
        rw [← keyFlush] at hclean
        rw [← hclean, hget]
        simp
      · have hnone : V.choices.get? key = none := by
          have := (V.choices.mem_keys key).not.mp fun h => hk ((hmem key).mpr h)
          simpa using this
        rw [hout key hk, hnone]
        have hboundaries : (default : ChoiceRedactor).boundaries = [] := rfl
        simp [hboundaries]
    exact ⟨fun h key => (hkey key).mp (h key), fun h key => (hkey key).mpr (h key)⟩

/-- A run that does not block turns every line of the stream into one output line, in order
and with an empty queue at its end, if and only if no key is stuck. -/
theorem run_conserves_iff (order : IterOrder ContentKey) (pieces : List Text)
    (hnot : ∀ a ∈ (run codec e window order pieces).1, isBlocked a = false) :
    ((run codec e window order pieces).2.order = [] ∧
      ∃ outs, List.Forall₂ (LineOut codec e) (linesInclusive pieces.flatten) outs ∧
        (run codec e window order pieces).1.flatMap released = outs.flatten) ↔
    ∀ key, ¬ Stuck window (slotTexts codec key (linesInclusive pieces.flatten)) := by
  have hend := (run_not_blocked_iff codec he window order pieces).mp hnot
  obtain ⟨_, _, htext, horder⟩ | ⟨⟨es, hes⟩, _⟩ := run_cases codec he window order pieces
  case inr =>
    rw [hes] at hend
    cases hend
  obtain ⟨houts, hready⟩ := undrainedEnd_conserves codec he hrange window order pieces.flatten hend
  rw [horder, hready]
  refine ⟨fun h => h.1, fun h => ⟨h, _, houts, ?_⟩⟩
  set W := (undrainedEnd codec e window order pieces.flatten).2
  have hall : W.order.takeWhile W.isReady = W.order := by
    have happ := List.takeWhile_append_dropWhile (p := W.isReady) (l := W.order)
    rwa [hready.mpr h, List.append_nil] at happ
  rw [htext, readyText, hall, List.flatMap_def]

end Run

/-- A masked content: its key is not stuck, and its line comes out. -/
theorem run_conserves_masked :
    (run (contentCodec [['7'], ['*']]) (charEngine '7' .mask) 4 ⟨id, fun _ => .rfl⟩
        [contentLine ['7']]).2.order = [] ∧
      ∃ outs, List.Forall₂ (LineOut (contentCodec [['7'], ['*']]) (charEngine '7' .mask))
          (linesInclusive [contentLine ['7']].flatten) outs ∧
        (run (contentCodec [['7'], ['*']]) (charEngine '7' .mask) 4 ⟨id, fun _ => .rfl⟩
          [contentLine ['7']]).1.flatMap released = outs.flatten := by
  refine (run_conserves_iff _ (charEngine_errorFree '7' .mask) (charEngine_inRange '7' .mask) 4
    ⟨id, fun _ => .rfl⟩ [contentLine ['7']] (by decide +kernel)).mpr fun key => ?_
  have hslots : (linesInclusive [contentLine ['7']].flatten).flatMap
      (lineContributions (contentCodec [['7'], ['*']])) = [((0, .content), ['7'])] := by
    decide +kernel
  rw [slotTexts, hslots]
  by_cases hkey : (0, ContentField.content) = key <;> simp [textsOf, Stuck, hkey]

/-- The stream of an empty answer: its only content is empty, and the frame that carries it
keeps the `[DONE]` behind it in the queue for good. -/
theorem run_loses_empty_answer :
    (∀ a ∈ (run (contentCodec [[]]) (charEngine '7' .mask) defaultWindow ⟨id, fun _ => .rfl⟩
      [contentLine [] ++ dataPrefix ++ doneSentinel ++ ['\n']]).1, isBlocked a = false) ∧
    (run (contentCodec [[]]) (charEngine '7' .mask) defaultWindow ⟨id, fun _ => .rfl⟩
      [contentLine [] ++ dataPrefix ++ doneSentinel ++ ['\n']]).1.flatMap released = [] ∧
    ¬ ((run (contentCodec [[]]) (charEngine '7' .mask) defaultWindow ⟨id, fun _ => .rfl⟩
        [contentLine [] ++ dataPrefix ++ doneSentinel ++ ['\n']]).2.order = [] ∧
      ∃ outs, List.Forall₂ (LineOut (contentCodec [[]]) (charEngine '7' .mask))
          (linesInclusive [contentLine [] ++ dataPrefix ++ doneSentinel ++ ['\n']].flatten) outs ∧
        (run (contentCodec [[]]) (charEngine '7' .mask) defaultWindow ⟨id, fun _ => .rfl⟩
          [contentLine [] ++ dataPrefix ++ doneSentinel ++ ['\n']]).1.flatMap released =
            outs.flatten) := by
  have horder : (run (contentCodec [[]]) (charEngine '7' .mask) defaultWindow ⟨id, fun _ => .rfl⟩
      [contentLine [] ++ dataPrefix ++ doneSentinel ++ ['\n']]).2.order = [0, 1] := by
    decide +kernel
  refine ⟨by decide +kernel, by decide +kernel, fun h => ?_⟩
  rw [horder] at h
  cases h.1

end SseHoldBack

end Governance
