import Governance.Redact.JsonSize
import Governance.Redact.Sse.Delivered
import Governance.Redact.Sse.Lag

/-!
# What is held of a stream

Frames leave in the order of their lines, so a line whose key has fallen silent keeps every line behind
it in the queue, however many they are. `Waits` says of a line of the stream that some key has not been
given the window's text since, and the queue starts at the first line that waits. So the memory that a
redactor takes for a set of streams of short lines without a span is bounded if and only if there is a
bound on how far back a line may wait (`held_bounded_iff`).
-/

namespace Governance

open Utf8Text
open String (utf8Len)

/-- The size of a queued frame. -/
def Frame.bytes : Frame → ℕ
  | .passthrough raw => utf8Len raw
  | .data chunk => chunk.size

theorem Frame.bytes_write_le (key : ContentKey) (text : Text) (frame : Frame) :
    (frame.write key text).bytes ≤ frame.bytes + utf8Len text := by
  cases frame with
  | passthrough raw => exact Nat.le_add_right _ _
  | data chunk => exact size_writeSlot_le key text chunk

theorem Frame.bytes_write_pos (key : ContentKey) (text : Text) {frame : Frame}
    (h : 0 < frame.bytes) : 0 < (frame.write key text).bytes := by
  cases frame with
  | passthrough raw => exact h
  | data chunk => exact Json.size_pos _

theorem Frame.bytes_writeAll_pos (κ : ContentKey) (ws : List (ℕ × Text)) {frame : Frame}
    (h : 0 < frame.bytes) : 0 < (frame.writeAll κ ws).bytes := by
  induction ws generalizing frame with
  | nil => exact h
  | cons w ws ih => exact ih (frame.bytes_write_pos κ w.2 h)

theorem Frame.bytes_writeAll_le (κ : ContentKey) {ws : List (ℕ × Text)} {bound : ℕ}
    (hws : ∀ w ∈ ws, utf8Len w.2 ≤ bound) (frame : Frame) :
    (frame.writeAll κ ws).bytes ≤ frame.bytes + ws.length * bound := by
  induction ws generalizing frame with
  | nil => exact Nat.le_add_right _ _
  | cons w ws ih =>
    obtain ⟨hw, hws⟩ := List.forall_mem_cons.mp hws
    have hrest := ih hws (frame.write κ w.2)
    have hone := frame.bytes_write_le κ w.2
    rw [List.length_cons, Nat.succ_mul]
    show ((frame.write κ w.2).writeAll κ ws).bytes ≤ _
    omega

/-- The texts of a release are no longer than the release. -/
theorem utf8Len_le_of_mem_writes {head : List (Text × ℕ)} {w : ℕ × Text}
    (h : w ∈ (plainResult head).writes) : utf8Len w.2 ≤ utf8Len (piecesText head) := by
  unfold plainResult at h
  split at h
  · cases h
  · simp only [ChoicePush.writes] at h
    cases hids : head.map Prod.snd with
    | nil =>
      rw [hids] at h
      cases h
    | cons fid rest =>
      rw [hids] at h
      rcases List.mem_cons.mp h with rfl | hmem
      · exact le_rfl
      · obtain ⟨j, -, rfl⟩ := List.mem_map.mp hmem
        exact Nat.zero_le _

/-- Where nothing is detected, nothing is changed. -/
theorem Engine.scan_of_detect_nil {e : Engine} {text : Text} (h : e.detect text = .ok []) :
    e.scan text = .ok .clean := by
  unfold Engine.detect at h
  unfold Engine.scan
  split
  · rfl
  · rename_i hne
    rw [if_neg hne] at h
    cases hanalyze : e.analyze text with
    | error message => simp [hanalyze] at h
    | ok entities =>
      simp only [hanalyze, Except.ok.injEq] at h
      have hnone : (entities.map e.toSpan).filter (fun s => s.action ≠ .allow) = [] := by
        have hperm := List.perm_insertionSort (fun a b : Span => a.start ≤ b.start)
          ((entities.map e.toSpan).filter fun s => s.action ≠ .allow)
        rw [h] at hperm
        exact hperm.symm.eq_nil
      have hallow : ∀ d ∈ entities, e.profile.actionFor d.entity = .allow := by
        intro d hd
        have hnot := List.filter_eq_nil_iff.mp hnone (e.toSpan d) (List.mem_map_of_mem hd)
        by_contra hne
        exact hnot (decide_eq_true hne)
      have hblock : entities.filter (fun d => e.profile.actionFor d.entity = .block) = [] := by
        rw [List.filter_eq_nil_iff]
        intro d hd
        simp [hallow d hd]
      have htransform : entities.filter (fun d => e.profile.actionFor d.entity ≠ .allow) = [] := by
        rw [List.filter_eq_nil_iff]
        intro d hd
        simp [hallow d hd]
      simp only [hblock, htransform, List.map_nil, ne_eq, not_true_eq_false, if_false, if_true]
      split <;> rfl

namespace ChoiceRedactor

/-- A step without a span, as a step of `advance`. -/
theorem advances_plain {e : Engine} {window : ℕ} {pieces : List (Text × ℕ)} {r' : ChoiceRedactor}
    (hdetect : e.detect (piecesText pieces) = .ok [])
    (hscan : e.scan (piecesText (holdStep window pieces).1) = .ok .clean)
    (h : r'.Holds (holdStep window pieces).2) :
    Advances e window pieces (plainResult (holdStep window pieces).1) r' := by
  have happ := splitWithin_append (utf8Len (piecesText pieces) - window) pieces
  have hle := utf8Len_splitWithin_le (utf8Len (piecesText pieces) - window) pieces
  by_cases hnil : piecesText (splitWithin (utf8Len (piecesText pieces) - window) pieces).1 = []
  · have hstep : holdStep window pieces = ([], pieces) := by simp only [holdStep, if_pos hnil]
    rw [hstep] at h ⊢
    exact .hold h
  · have hstep : holdStep window pieces =
        splitWithin (utf8Len (piecesText pieces) - window) pieces := by
      simp only [holdStep, if_neg hnil]
    rw [hstep] at h hscan ⊢
    have hpos : utf8Len (piecesText
        (splitWithin (utf8Len (piecesText pieces) - window) pieces).1) ≠ 0 :=
      fun h0 => hnil (String.utf8Len_eq_zero.mp h0)
    rw [plainResult, if_neg hnil]
    refine .release ⟨happ.symm, hnil, by rw [Engine.scanText, hscan], h, ?_,
      [], hdetect, rfl, by simp⟩
    have htotal : utf8Len (piecesText pieces) = utf8Len (piecesText
        (splitWithin (utf8Len (piecesText pieces) - window) pieces).1) + utf8Len (piecesText
        (splitWithin (utf8Len (piecesText pieces) - window) pieces).2) := by
      nth_rewrite 1 [← happ]
      rw [piecesText_append, String.utf8Len_append]
    omega

end ChoiceRedactor

namespace SseHoldBack

/-- Everything an `SseHoldBack` holds: the line buffer, the queued frames and the pending texts. -/
def heldBytes (h : SseHoldBack) : ℕ :=
  utf8Len h.lineBuf + (h.order.map fun fid => (h.frames fid).elim 0 Frame.bytes).sum +
    h.choices.sumBy fun r => utf8Len r.pending

/-! ## The invariant -/

/-- The most text a key releases at once, in a stream of lines of at most `m` bytes. -/
def releaseBound (window m : ℕ) : ℕ := window + 2 * m + 2 * m

/-- The most a queued frame can take. -/
def frameBound (window m : ℕ) : ℕ := m + 2 * m * releaseBound window m

/-- The redactor after lines of at most `m` bytes without a span, which gave each key its
contributions `given`. `owed` contributions of the frame `fid₀` have not reached their key yet. -/
structure Steady (window m : ℕ) (given : ContentKey → List (Text × ℕ)) (fid₀ owed : ℕ)
    (h : SseHoldBack) : Prop where
  window_eq : h.window = window
  blocked : h.blocked = false
  accounted : h.Accounted fid₀ owed
  keys : ∀ key, ∃ released held, given key = released ++ held ∧ (h.choice key).Holds held ∧
    Standing window released held
  small : ∀ key, ∀ q ∈ given key, utf8Len q.1 ≤ 2 * m
  queue : h.order <:+ List.range h.frameSeq
  gone : ∀ fid, fid ∉ h.order → (h.awaiting fid).getD 0 = 0
  frames : ∀ fid ∈ h.order, ∃ frame, h.frames fid = some frame ∧ 0 < frame.bytes ∧
    (h.awaiting fid).getD 0 ≤ 2 * m ∧
    frame.bytes + (h.awaiting fid).getD 0 * releaseBound window m ≤ frameBound window m

theorem steady_withWindow (window m : ℕ) :
    Steady window m (fun _ => []) 0 0 (withWindow window) where
  window_eq := rfl
  blocked := rfl
  accounted := (undrained_withWindow window).accounted
  keys := fun key => ⟨[], [], rfl, ChoiceRedactor.holds_default, standing_nil window⟩
  small := by simp
  queue := List.suffix_rfl
  gone := fun _ _ => rfl
  frames := by simp [withWindow]

section Push

variable {e : Engine} {window m : ℕ} {given : ContentKey → List (Text × ℕ)} {fid owed : ℕ}
  {h : SseHoldBack} {κ : ContentKey} {content : Text}

/-- A result writes to a frame no more often than the frame awaits it. -/
theorem Accounted.count_le (hacc : h.Accounted fid (owed + 1)) {pieces : List (Text × ℕ)}
    {res : ChoicePush} {r : ChoiceRedactor}
    (hpieces : ∀ j, (pieces.map Prod.snd).count j =
      (h.choices.get? κ).elim 0 (ChoiceRedactor.held j) + if j = fid then 1 else 0)
    (hadv : ChoiceRedactor.Advances e window pieces res r) (j : ℕ) :
    res.frameIds.count j ≤ (h.awaiting j).getD 0 := by
  have hcount := count_writes_add_held hadv j
  rw [hpieces j, res.map_fst_writes] at hcount
  have hterm : (h.choices.get? κ).elim 0 (ChoiceRedactor.held j) ≤
      h.choices.sumBy (ChoiceRedactor.held j) := by
    cases hκ : h.choices.get? κ with
    | none => exact Nat.zero_le _
    | some r₀ => exact KeyedMap.le_sumBy (ChoiceRedactor.held j) hκ
  have hbal := hacc.balance j
  split at hcount <;> split at hbal <;> omega

/-- A contribution without a span reaches its key. -/
theorem Steady.push (hs : Steady window m given fid (owed + 1) h)
    (hcontent : utf8Len content ≤ 2 * m)
    (hclear : ∀ part, part <:+: piecesText (given κ) ++ content → e.detect part = .ok []) :
    ∃ res r, ((h.choices.get? κ).getD default).push e h.window fid content = (.ok res, r) ∧
      (∀ es, res ≠ .blocked es) ∧
      Steady window m (fun key => given key ++ if κ = key then [(content, fid)] else []) fid owed
        (h.settle κ res r) := by
  obtain ⟨released, held, hgiven, hholds, hstanding⟩ := hs.keys κ
  have happ := hholds.append fid content
  have hplain : ∀ {part}, part <:+: piecesText (held ++ [(content, fid)]) →
      e.detect part = .ok [] := by
    intro part hpart
    refine hclear part (hpart.trans ?_)
    rw [hgiven, piecesText_append, piecesText_append, List.append_assoc]
    simpa [piecesText] using (List.suffix_append (piecesText released) _).isInfix
  have hdetect := hplain (List.infix_refl _)
  have hscan : e.scan (piecesText (holdStep window (held ++ [(content, fid)])).1) =
      .ok .clean := by
    refine Engine.scan_of_detect_nil (hplain ?_)
    nth_rewrite 2 [← holdStep_append window (held ++ [(content, fid)])]
    rw [piecesText_append]
    exact (List.prefix_append _ _).isInfix
  obtain ⟨r, hpush, hholds'⟩ := ChoiceRedactor.advance_plain happ hdetect hscan
  have hadv := ChoiceRedactor.advances_plain hdetect hscan hholds'
  set head := (holdStep window (held ++ [(content, fid)])).1 with hhead
  set tail := (holdStep window (held ++ [(content, fid)])).2 with htail
  have hpieces : ∀ j, ((held ++ [(content, fid)]).map Prod.snd).count j =
      (h.choices.get? κ).elim 0 (ChoiceRedactor.held j) + if j = fid then 1 else 0 := by
    intro j
    have hj := hholds.held j
    have helim : (h.choices.get? κ).elim 0 (ChoiceRedactor.held j) =
        (held.map Prod.snd).count j := by
      rw [← hj, choice]
      cases h.choices.get? κ <;> rfl
    rw [helim, List.map_append, List.count_append]
    by_cases hfid : j = fid
    · simp [hfid]
    · simp [hfid, Ne.symm hfid]
  have hframed := framed_settle h κ (plainResult head) r
  have hawaiting : ∀ j, ((h.settle κ (plainResult head) r).awaiting j).getD 0 =
      (h.awaiting j).getD 0 - (plainResult head).frameIds.count j := by
    intro j
    rw [settle_awaiting, (plainResult head).map_fst_writes]
    cases h.awaiting j <;> simp
  have hlen : utf8Len (piecesText head) ≤ releaseBound window m := by
    have hheld := hstanding.utf8Len_held_le fun q hq =>
      hs.small κ q (by rw [hgiven]; exact List.mem_append_right _ hq)
    have htotal : utf8Len (piecesText head) + utf8Len (piecesText tail) =
        utf8Len (piecesText held) + utf8Len content := by
      rw [← String.utf8Len_append, ← piecesText_append, hhead, htail, holdStep_append,
        piecesText_append, String.utf8Len_append]
      simp [piecesText]
    rw [releaseBound]
    omega
  refine ⟨plainResult head, r, ?_, ?_, ?_, ?_, ?_, ?_, ?_, ?_, ?_, ?_⟩
  · rw [hs.window_eq]
    exact hpush
  · intro es
    unfold plainResult
    split <;> simp
  · rw [hframed.window, hs.window_eq]
  · rw [hframed.blocked, hs.blocked]
  · exact hs.accounted.settle hpieces hadv
  · intro key
    rw [choice_settle]
    by_cases hκ : key = κ
    · subst hκ
      refine ⟨released ++ head, tail, ?_, by rw [if_pos rfl]; exact hholds', ?_⟩
      · rw [if_pos rfl, hgiven, List.append_assoc, List.append_assoc, hhead, htail,
          holdStep_append]
      · exact hstanding.push (content, fid)
    · rw [if_neg hκ, if_neg (Ne.symm hκ), List.append_nil]
      exact hs.keys key
  · intro key q hq
    rcases List.mem_append.mp hq with hq | hq
    · exact hs.small key q hq
    · split at hq
      · obtain rfl : q = (content, fid) := by simpa using hq
        exact hcontent
      · cases hq
  · rw [hframed.order, hframed.frameSeq]
    exact hs.queue
  · intro j hj
    rw [hframed.order] at hj
    rw [hawaiting, hs.gone j hj, Nat.zero_sub]
  · intro j hj
    rw [hframed.order] at hj
    obtain ⟨frame, hframe, hpos, hle, hbound⟩ := hs.frames j hj
    have hcount := hs.accounted.count_le hpieces hadv j
    have hws : ∀ w ∈ (plainResult head).writes.filter (fun w => w.1 = j),
        utf8Len w.2 ≤ releaseBound window m := fun w hw =>
      (utf8Len_le_of_mem_writes (List.mem_filter.mp hw).1).trans hlen
    have hbytes := Frame.bytes_writeAll_le κ hws frame
    rw [(plainResult head).length_writes] at hbytes
    refine ⟨frame.writeAll κ ((plainResult head).writes.filter fun w => w.1 = j), ?_,
      Frame.bytes_writeAll_pos κ _ hpos, ?_, ?_⟩
    · show ((h.setChoice κ r).writeAll κ (plainResult head).writes).frames j = _
      rw [writeAll_frames]
      show (h.frames j).map _ = _
      rw [hframe]
      rfl
    · rw [hawaiting]
      omega
    · rw [hawaiting, Nat.sub_mul]
      have hmul := Nat.mul_le_mul_right (releaseBound window m) hcount
      omega

end Push

/-! ## Lines -/

/-- The contributions that lines have for a key, each with the number of its line. -/
def piecesOf (codec : JsonCodec) (key : ContentKey) (lines : List Text) : List (Text × ℕ) :=
  lines.zipIdx.flatMap fun l => (textsOf key (lineContributions codec l.1)).map fun text => (text, l.2)

theorem piecesOf_concat (codec : JsonCodec) (key : ContentKey) (lines : List Text) (line : Text) :
    piecesOf codec key (lines ++ [line]) = piecesOf codec key lines ++
      (textsOf key (lineContributions codec line)).map fun text => (text, lines.length) := by
  simp [piecesOf, List.zipIdx_append]

theorem map_fst_flatMap_zipIdx (codec : JsonCodec) (key : ContentKey) (lines : List Text) (n : ℕ) :
    ((lines.zipIdx n).flatMap fun l =>
      (textsOf key (lineContributions codec l.1)).map fun text => (text, l.2)).map Prod.fst =
        slotTexts codec key lines := by
  induction lines generalizing n with
  | nil => rfl
  | cons line lines ih =>
    rw [List.zipIdx_cons, List.flatMap_cons, List.map_append, ih, slotTexts_cons, List.map_map]
    congr 1
    exact List.map_id _

theorem map_fst_piecesOf (codec : JsonCodec) (key : ContentKey) (lines : List Text) :
    (piecesOf codec key lines).map Prod.fst = slotTexts codec key lines :=
  map_fst_flatMap_zipIdx codec key lines 0

theorem piecesText_piecesOf (codec : JsonCodec) (key : ContentKey) (lines : List Text) :
    piecesText (piecesOf codec key lines) = (slotTexts codec key lines).flatten := by
  rw [piecesText_eq_flatten, map_fst_piecesOf]

theorem classifyLine_sublist {codec : JsonCodec} {line : Text} {chunk : Json}
    (h : classifyLine codec line = .data chunk) :
    ∃ payload, codec.fromStr payload = some chunk ∧ payload.Sublist line := by
  unfold classifyLine at h
  simp only at h
  split at h
  · rename_i p hp
    split at h
    · split at h
      · rename_i chunk' hchunk
        obtain rfl : chunk' = chunk := by simpa using h
        refine ⟨p, hchunk, ?_⟩
        obtain ⟨rest, hrest, rfl⟩ := Option.map_eq_some_iff.mp hp
        have htrim : (trim rest).Sublist rest :=
          (List.rdropWhile_prefix _ _).sublist.trans (List.dropWhile_sublist _)
        have hdrop : rest.Sublist (line.rdropWhile fun c => c = '\n' || c = '\r') := by
          rw [List.dropPrefix?_eq_some_iff] at hrest
          obtain ⟨pre, hline, -⟩ := hrest
          rw [hline]
          exact List.sublist_append_right _ _
        exact htrim.trans (hdrop.trans (List.rdropWhile_prefix _ _).sublist)
      · cases h
    · cases h
  · cases h

section Lines

variable {codec : JsonCodec} {e : Engine} {window m fid : ℕ}
  {given : ContentKey → List (Text × ℕ)} {h : SseHoldBack}

/-- A frame joins the queue with all its contributions still to be given. -/
theorem Steady.enqueue (hs : Steady window m given 0 0 h) (frame : Frame)
    (awaiting : ℕ → Option ℕ) (count : ℕ) (hpos : 0 < frame.bytes) (hbytes : frame.bytes ≤ m)
    (hother : ∀ fid, fid ≠ h.frameSeq → awaiting fid = h.awaiting fid)
    (hown : (awaiting h.frameSeq).getD 0 ≤ 2 * m) :
    Steady window m given h.frameSeq ((awaiting h.frameSeq).getD 0)
      { h.enqueue frame with awaiting := awaiting, opaqueRedactions := count } := by
  have hnew : h.frameSeq ∉ h.order := fun hmem =>
    absurd (List.mem_range.mp (hs.queue.subset hmem)) (lt_irrefl _)
  refine ⟨hs.window_eq, hs.blocked, ⟨hs.accounted.holds, fun fid => ?_⟩, hs.keys, hs.small, ?_, ?_,
    ?_⟩
  · have hbal := hs.accounted.balance fid
    rw [ite_self, Nat.add_zero] at hbal
    show (awaiting fid).getD 0 = h.choices.sumBy (ChoiceRedactor.held fid) + _
    by_cases hfid : fid = h.frameSeq
    · subst hfid
      rw [if_pos rfl, ← hbal, hs.gone _ hnew, Nat.zero_add]
    · rw [if_neg hfid, hother fid hfid, hbal, Nat.add_zero]
  · show h.order ++ [h.frameSeq] <:+ List.range (h.frameSeq + 1)
    obtain ⟨pre, hpre⟩ := hs.queue
    exact ⟨pre, by rw [← List.append_assoc, hpre, List.range_succ]⟩
  · intro fid hfid
    have hfid : fid ∉ h.order ++ [h.frameSeq] := hfid
    rw [List.mem_append, List.mem_singleton, not_or] at hfid
    show (awaiting fid).getD 0 = 0
    rw [hother fid hfid.2]
    exact hs.gone fid hfid.1
  · intro fid hfid
    have hfid : fid ∈ h.order ++ [h.frameSeq] := hfid
    rw [List.mem_append, List.mem_singleton] at hfid
    by_cases hlast : fid = h.frameSeq
    · subst hlast
      refine ⟨frame, by simp [SseHoldBack.enqueue], hpos, hown, ?_⟩
      have hmul := Nat.mul_le_mul_right (releaseBound window m) hown
      rw [frameBound]
      show _ + (awaiting h.frameSeq).getD 0 * _ ≤ _
      omega
    · obtain ⟨queued, hframe, hrest⟩ := hs.frames fid (hfid.resolve_right hlast)
      refine ⟨queued, ?_, ?_⟩
      · show Function.update h.frames h.frameSeq (some frame) fid = some queued
        rw [Function.update_of_ne hlast, hframe]
      · show _ ∧ (awaiting fid).getD 0 ≤ _ ∧ _ + (awaiting fid).getD 0 * _ ≤ _
        rw [hother fid hlast]
        exact hrest

/-- The account does not depend on the frame that owes nothing. -/
theorem Steady.of_zero (hs : Steady window m given fid 0 h) : Steady window m given 0 0 h :=
  { hs with accounted := hs.accounted.of_zero 0 }

/-- All contributions of a frame reach their keys. -/
theorem Steady.pushContributions {cs : List (ContentKey × Text)}
    (hs : Steady window m given fid cs.length h) (hsmall : ∀ c ∈ cs, utf8Len c.2 ≤ 2 * m)
    (hclear : ∀ key part, part <:+: piecesText (given key) ++ (textsOf key cs).flatten →
      e.detect part = .ok []) :
    (SseHoldBack.pushContributions e fid cs h).1 = .ok none ∧
      Steady window m (fun key => given key ++ (textsOf key cs).map fun text => (text, fid)) fid 0
        (SseHoldBack.pushContributions e fid cs h).2 := by
  induction cs generalizing h given with
  | nil =>
    refine ⟨rfl, ?_⟩
    have hsame : (fun key => given key ++ (textsOf key []).map fun text => (text, fid)) = given := by
      funext key
      exact List.append_nil _
    rw [hsame]
    exact hs
  | cons c cs ih =>
    obtain ⟨κ, content⟩ := c
    obtain ⟨hcontent, hrest⟩ := List.forall_mem_cons.mp hsmall
    obtain ⟨res, r, hpush, hnot, hnext⟩ := hs.push hcontent (κ := κ) (e := e) fun part hpart => by
      refine hclear κ part (hpart.trans ?_)
      rw [textsOf_cons, if_pos rfl, List.singleton_append, List.flatten_cons, ← List.append_assoc]
      exact (List.prefix_append _ _).isInfix
    rw [pushContributions_cons_ok hpush hnot]
    obtain ⟨hnone, hend⟩ := ih hnext hrest fun key part hpart => by
      refine hclear key part ?_
      rw [textsOf_cons]
      by_cases hκ : κ = key
      · rw [if_pos hκ, piecesText_append] at hpart
        rw [if_pos hκ, List.flatten_append]
        simpa [piecesText] using hpart
      · rw [if_neg hκ, List.append_nil] at hpart
        rw [if_neg hκ, List.nil_append]
        exact hpart
    refine ⟨hnone, ?_⟩
    have hsame : (fun key => (given key ++ if κ = key then [(content, fid)] else []) ++
        (textsOf key cs).map fun text => (text, fid)) =
        fun key => given key ++ (textsOf key ((κ, content) :: cs)).map fun text => (text, fid) := by
      funext key
      rw [textsOf_cons, List.map_append, List.append_assoc]
      by_cases hκ : κ = key <;> simp [hκ]
    rw [← hsame]
    exact hend

/-- The redactor after some lines. -/
structure Along (codec : JsonCodec) (window m : ℕ) (lines : List Text) (h : SseHoldBack) : Prop where
  steady : Steady window m (fun key => piecesOf codec key lines) 0 0 h
  seq : h.frameSeq = lines.length

/-- Whatever `serde_json` reads is no larger than its text. -/
def Compact (codec : JsonCodec) : Prop :=
  ∀ payload v, codec.fromStr payload = some v → v.size ≤ utf8Len payload

/-- Lines whose texts contain no span. -/
structure Clear (codec : JsonCodec) (e : Engine) (lines : List Text) : Prop where
  keys : ∀ key part, part <:+: (slotTexts codec key lines).flatten → e.detect part = .ok []
  others : ∀ line ∈ lines, classifyLine codec line = .opaqueText → e.detect line = .ok []

theorem slotTexts_append (codec : JsonCodec) (key : ContentKey) (a b : List Text) :
    slotTexts codec key (a ++ b) = slotTexts codec key a ++ slotTexts codec key b := by
  rw [slotTexts, List.flatMap_append, textsOf_append]
  rfl

theorem Clear.front {a b : List Text} (h : Clear codec e (a ++ b)) : Clear codec e a where
  keys := fun key part hpart => by
    refine h.keys key part (hpart.trans ?_)
    rw [slotTexts_append, List.flatten_append]
    exact (List.prefix_append _ _).isInfix
  others := fun line hline => h.others line (List.mem_append_left _ hline)

variable {lines : List Text} {line : Text}

theorem Along.ingestLine (hsize : Compact codec) (ha : Along codec window m lines h)
    (hpos : 0 < utf8Len line) (hle : utf8Len line ≤ m) (hclear : Clear codec e (lines ++ [line])) :
    (SseHoldBack.ingestLine codec e h line).1 = .ok none ∧
      Along codec window m (lines ++ [line]) (SseHoldBack.ingestLine codec e h line).2 := by
  have hlen : (lines ++ [line]).length = lines.length + 1 := by simp
  have hfresh : (h.awaiting h.frameSeq).getD 0 = 0 := by
    refine ha.steady.gone _ fun hmem => ?_
    exact absurd (List.mem_range.mp (ha.steady.queue.subset hmem)) (lt_irrefl _)
  -- a line without a contribution for any key
  have hquiet : ∀ (frame : Frame) {n : ℕ}, 0 < frame.bytes → frame.bytes ≤ m →
      lineContributions codec line = [] →
      Along codec window m (lines ++ [line]) { h.enqueue frame with opaqueRedactions := n } := by
    intro frame n hframe hbytes hnil
    have hsame : (fun key => piecesOf codec key (lines ++ [line])) =
        fun key => piecesOf codec key lines := by
      funext key
      rw [piecesOf_concat, hnil]
      exact List.append_nil _
    refine ⟨?_, by rw [hlen, ← ha.seq]; rfl⟩
    rw [hsame]
    have hstep := ha.steady.enqueue frame h.awaiting n hframe hbytes (fun _ _ => rfl)
      (by rw [hfresh]; exact Nat.zero_le _)
    rw [hfresh] at hstep
    exact hstep.of_zero
  cases hclass : classifyLine codec line with
  | passthrough =>
    simp only [SseHoldBack.ingestLine, hclass]
    exact ⟨trivial, hquiet (.passthrough line) hpos hle (by rw [lineContributions, hclass])⟩
  | opaqueText =>
    have hscan := Engine.scan_of_detect_nil (hclear.others line (by simp) hclass)
    simp only [SseHoldBack.ingestLine, hclass, hscan]
    exact ⟨trivial, hquiet (.passthrough line) hpos hle (by rw [lineContributions, hclass])⟩
  | data chunk =>
    obtain ⟨payload, hparse, hsub⟩ := classifyLine_sublist hclass
    have hchunk : chunk.size ≤ m :=
      (hsize payload chunk hparse).trans ((String.utf8Len_le_of_sublist hsub).trans hle)
    have hslots := slotBytes_le chunk
    have hcount := length_le_slotBytes (deltaContents chunk)
    simp only [SseHoldBack.ingestLine, hclass]
    split
    · rename_i hnil
      exact ⟨rfl, hquiet (.data chunk) (Json.size_pos chunk) hchunk
        (by rw [lineContributions, hclass]; exact hnil)⟩
    · have hstep := ha.steady.enqueue (.data chunk)
        (Function.update h.awaiting h.frameSeq (some (deltaContents chunk).length))
        h.opaqueRedactions (Json.size_pos chunk) hchunk (fun fid hfid => Function.update_of_ne hfid _ _)
        (by rw [Function.update_self, Option.getD_some]; omega)
      rw [Function.update_self, Option.getD_some] at hstep
      have hcontributions : lineContributions codec line = deltaContents chunk := by
        rw [lineContributions, hclass]
      obtain ⟨hnone, hend⟩ := hstep.pushContributions (e := e) (fun c hc => by
        have := utf8Len_le_slotBytes hc
        omega) fun key part hpart => by
          refine hclear.keys key part ?_
          rw [slotTexts_append, List.flatten_append, ← piecesText_piecesOf]
          simpa [slotTexts, hcontributions] using hpart
      refine ⟨hnone, ?_, ?_⟩
      · have hsame : (fun key => piecesOf codec key (lines ++ [line])) = fun key =>
            piecesOf codec key lines ++
              (textsOf key (deltaContents chunk)).map fun text => (text, h.frameSeq) := by
          funext key
          rw [piecesOf_concat, hcontributions, ha.seq]
        rw [hsame]
        exact hend.of_zero
      · rw [(framed_pushContributions e _ _ _).frameSeq, hlen, ← ha.seq]
        rfl

/-- The invariant does not look at the line buffer. -/
theorem Along.lineBuf (ha : Along codec window m lines h) (buf : Text) :
    Along codec window m lines { h with lineBuf := buf } where
  steady := ⟨ha.steady.window_eq, ha.steady.blocked,
    ⟨ha.steady.accounted.holds, ha.steady.accounted.balance⟩, ha.steady.keys, ha.steady.small,
    ha.steady.queue, ha.steady.gone, ha.steady.frames⟩
  seq := ha.seq

/-- The loop of `push` reads the complete lines of the buffer. -/
theorem Along.pushLoop (hsize : Compact codec) (ha : Along codec window m lines h) {fuel : ℕ}
    (hfuel : h.lineBuf.length ≤ fuel)
    (hlines : ∀ line ∈ (completeLines h.lineBuf).1, utf8Len line ≤ m)
    (hclear : Clear codec e (lines ++ (completeLines h.lineBuf).1)) :
    (SseHoldBack.pushLoop codec e fuel h).1 = .ok none ∧
      Along codec window m (lines ++ (completeLines h.lineBuf).1)
        (SseHoldBack.pushLoop codec e fuel h).2 ∧
      (SseHoldBack.pushLoop codec e fuel h).2.lineBuf = (completeLines h.lineBuf).2 := by
  induction fuel generalizing h lines with
  | zero =>
    have hnil : h.lineBuf = [] := List.length_eq_zero_iff.mp (by omega)
    rw [hnil, completeLines, List.append_nil]
    exact ⟨rfl, ha, hnil⟩
  | succ fuel ih =>
    cases hsplit : splitLine h.lineBuf with
    | none =>
      rw [splitLine_eq_none hsplit, List.append_nil]
      simp only [SseHoldBack.pushLoop, hsplit]
      exact ⟨trivial, ha, trivial⟩
    | some parts =>
      obtain ⟨line, buf⟩ := parts
      obtain ⟨hbuf, hne, hcomplete⟩ := splitLine_eq_some hsplit
      rw [hcomplete] at hlines hclear ⊢
      obtain ⟨hline, hmore⟩ := List.forall_mem_cons.mp hlines
      have happ : lines ++ line :: (completeLines buf).1 =
          (lines ++ [line]) ++ (completeLines buf).1 := by simp
      rw [happ] at hclear ⊢
      have hlinePos : 0 < utf8Len line :=
        Nat.pos_of_ne_zero fun h0 => hne (String.utf8Len_eq_zero.mp h0)
      obtain ⟨hnone, hnext⟩ := (ha.lineBuf buf).ingestLine hsize hlinePos hline hclear.front
      have hsame := (ingestLine_lineBuf codec e { h with lineBuf := buf } line).1
      have hD : SseHoldBack.ingestLine codec e { h with lineBuf := buf } line =
          (.ok none, (SseHoldBack.ingestLine codec e { h with lineBuf := buf } line).2) :=
        Prod.ext hnone rfl
      simp only [SseHoldBack.pushLoop, hsplit]
      rw [hD]
      have hshort : buf.length ≤ fuel := by
        have hpos := List.length_pos_iff.mpr hne
        have hlen := congrArg List.length hbuf
        rw [List.length_append] at hlen
        omega
      have hih := ih hnext (by rw [hsame]; exact hshort) (by rw [hsame]; exact hmore)
        (by rw [hsame]; exact hclear)
      rw [hsame] at hih
      exact hih

end Lines

/-! ## Pushes -/

section Pushes

variable {codec : JsonCodec} {e : Engine} {window m : ℕ} {h : SseHoldBack}

/-- A drain stops at the first frame that awaits a key. -/
theorem Along.drain {lines : List Text} (ha : Along codec window m lines h) :
    Along codec window m lines (h.drainReady codec).2 ∧
      (h.drainReady codec).2.lineBuf = h.lineBuf ∧
      ∀ fid ∈ (h.drainReady codec).2.order.head?, (h.drainReady codec).2.isReady fid = false := by
  have hnodup : h.order.Nodup := ha.steady.queue.sublist.nodup List.nodup_range
  have hsplit : h.order.takeWhile h.isReady ++ h.order.dropWhile h.isReady = h.order :=
    List.takeWhile_append_dropWhile
  have hstays : ∀ fid ∈ h.order.dropWhile h.isReady, fid ∉ h.order.takeWhile h.isReady := by
    intro fid hfid hmem
    rw [← hsplit] at hnodup
    exact (List.nodup_append.mp hnodup).2.2 fid hmem fid hfid rfl
  have hawaiting : ∀ fid, ((h.without (h.order.takeWhile h.isReady)
      (h.order.dropWhile h.isReady)).awaiting fid).getD 0 = (h.awaiting fid).getD 0 := by
    intro fid
    show (if fid ∈ h.order.takeWhile h.isReady then none else h.awaiting fid).getD 0 = _
    split
    · rename_i hmem
      have hready : h.isReady fid = true := List.mem_takeWhile_imp hmem
      have hzero : (h.awaiting fid).getD 0 = 0 := by simpa [isReady] using hready
      rw [hzero]
      rfl
    · rfl
  rw [drainReady_eq codec h hnodup]
  refine ⟨⟨⟨ha.steady.window_eq, ha.steady.blocked, ⟨ha.steady.accounted.holds, fun fid => ?_⟩,
    ha.steady.keys, ha.steady.small, ?_, fun fid hfid => ?_, fun fid hfid => ?_⟩, ha.seq⟩, rfl,
    fun fid hfid => ?_⟩
  · rw [hawaiting]
    exact ha.steady.accounted.balance fid
  · exact (List.dropWhile_suffix _).trans ha.steady.queue
  · rw [hawaiting]
    have hfid : fid ∉ h.order.dropWhile h.isReady := hfid
    by_cases hmem : fid ∈ h.order.takeWhile h.isReady
    · have hready : h.isReady fid = true := List.mem_takeWhile_imp hmem
      simpa [isReady] using hready
    · refine ha.steady.gone fid fun hin => ?_
      rw [← hsplit] at hin
      exact (List.mem_append.mp hin).elim hmem hfid
  · have hfid : fid ∈ h.order.dropWhile h.isReady := hfid
    obtain ⟨frame, hframe, hpos, hrest⟩ := ha.steady.frames fid ((List.dropWhile_suffix _).subset hfid)
    refine ⟨frame, ?_, hpos, ?_⟩
    · show (if fid ∈ h.order.takeWhile h.isReady then none else h.frames fid) = some frame
      rw [if_neg (hstays fid hfid), hframe]
    · rw [hawaiting]
      exact hrest
  · have hhead : fid ∈ (h.order.dropWhile h.isReady).head? := hfid
    have hnot : h.isReady fid = false := by
      have := List.head?_dropWhile_not h.isReady h.order
      rw [Option.mem_def.mp hhead] at this
      simpa using this
    have hsame := hawaiting fid
    simp only [isReady] at hnot ⊢
    rw [hsame]
    exact hnot

/-- The redactor between two pushes, of a stream that has come this far. -/
structure Idle (codec : JsonCodec) (window m : ℕ) (stream : Text) (h : SseHoldBack) : Prop where
  along : Along codec window m (completeLines stream).1 h
  buffered : h.lineBuf = (completeLines stream).2
  front : ∀ fid ∈ h.order.head?, h.isReady fid = false

theorem Idle.push (hsize : Compact codec) {stream text : Text} (hi : Idle codec window m stream h)
    (hlines : ∀ line ∈ (completeLines (stream ++ text)).1, utf8Len line ≤ m)
    (hclear : Clear codec e (completeLines (stream ++ text)).1) :
    Idle codec window m (stream ++ text) (h.push codec e text).2 := by
  have hsplit := completeLines_append stream text
  rw [← hi.buffered] at hsplit
  rw [hsplit] at hlines hclear
  obtain ⟨hnone, ha, hbuf⟩ := (hi.along.lineBuf (h.lineBuf ++ text)).pushLoop hsize
    (le_refl (h.lineBuf ++ text).length)
    (fun line hline => hlines line (List.mem_append_right _ hline)) hclear
  obtain ⟨v, h', hv⟩ : ∃ v h', SseHoldBack.pushLoop codec e (h.lineBuf ++ text).length
      { h with lineBuf := h.lineBuf ++ text } = (v, h') := ⟨_, _, rfl⟩
  have hpush : (h.push codec e text).2 = (h'.drainReady codec).2 := by
    rw [hv] at hnone
    obtain rfl : v = .ok none := hnone
    rw [SseHoldBack.push, if_neg (by simp [hi.along.steady.blocked])]
    show (finish codec (SseHoldBack.pushLoop codec e (h.lineBuf ++ text).length
      { h with lineBuf := h.lineBuf ++ text })).2 = _
    rw [hv]
    rfl
  rw [hv] at ha hbuf
  obtain ⟨hdrain, hsame, hfront⟩ := ha.drain
  rw [hpush]
  refine ⟨?_, ?_, hfront⟩
  · rw [hsplit]
    exact hdrain
  · rw [hsame, hsplit]
    exact hbuf

theorem Idle.pushAll (hsize : Compact codec) (pieces : List Text) {stream : Text}
    (hi : Idle codec window m stream h)
    (hlines : ∀ line ∈ (completeLines (stream ++ pieces.flatten)).1, utf8Len line ≤ m)
    (hclear : Clear codec e (completeLines (stream ++ pieces.flatten)).1) :
    Idle codec window m (stream ++ pieces.flatten) (SseHoldBack.pushAll codec e pieces h).2 := by
  induction pieces generalizing h stream with
  | nil =>
    rw [List.flatten_nil, List.append_nil]
    exact hi
  | cons text pieces ih =>
    rw [List.flatten_cons, ← List.append_assoc] at hlines hclear ⊢
    have hnext := hi.push (e := e) hsize
      (fun line hline => hlines line (by
        rw [completeLines_append]
        exact List.mem_append_left _ hline))
      (by
        rw [completeLines_append] at hclear
        exact hclear.front)
    exact ih hnext hlines hclear

theorem idle_withWindow (codec : JsonCodec) (window m : ℕ) :
    Idle codec window m [] (withWindow window) :=
  ⟨⟨steady_withWindow window m, rfl⟩, rfl, by simp [withWindow]⟩

end Pushes

/-! ## Lines that wait -/

/-- A line waits when it has a contribution of some key that the later texts of the key have not
overtaken. -/
def Waits (codec : JsonCodec) (window : ℕ) (lines : List Text) (i : ℕ) : Prop :=
  ∃ key, (∃ line ∈ lines[i]?, textsOf key (lineContributions codec line) ≠ []) ∧
    ¬ Overtaken window (slotTexts codec key (lines.take (i + 1)))
      (slotTexts codec key (lines.drop (i + 1)))

/-- No line waits for longer than `lag` lines. -/
def KeepsUp (codec : JsonCodec) (window lag : ℕ) (lines : List Text) : Prop :=
  ∀ i, i + lag < lines.length → ¬ Waits codec window lines i

section Waiting

variable {codec : JsonCodec} {e : Engine} {window m : ℕ} {h : SseHoldBack} {lines : List Text}

theorem snd_lt_of_mem_piecesOf {key : ContentKey} {q : Text × ℕ}
    (hq : q ∈ piecesOf codec key lines) : q.2 < lines.length := by
  obtain ⟨l, hl, hmem⟩ := List.mem_flatMap.mp hq
  obtain ⟨text, -, rfl⟩ := List.mem_map.mp hmem
  have := List.snd_lt_add_of_mem_zipIdx hl
  omega

/-- What a key holds of a line, read off the texts of the key. -/
theorem mem_held_iff {key : ContentKey} {released held : List (Text × ℕ)}
    (hsplit : piecesOf codec key lines = released ++ held)
    (hstanding : Standing window released held) {i : ℕ} (hi : i < lines.length) :
    i ∈ held.map Prod.snd ↔ (∃ line ∈ lines[i]?, textsOf key (lineContributions codec line) ≠ []) ∧
      ¬ Overtaken window (slotTexts codec key (lines.take (i + 1)))
        (slotTexts codec key (lines.drop (i + 1))) := by
  set after := ((lines.drop (i + 1)).zipIdx (i + 1)).flatMap fun l =>
    (textsOf key (lineContributions codec l.1)).map fun text => (text, l.2) with hafter
  have htake : lines.take (i + 1) = lines.take i ++ [lines[i]] := by
    rw [List.take_add_one, List.getElem?_eq_getElem hi]
    rfl
  have hlen : (lines.take (i + 1)).length = i + 1 := by
    rw [List.length_take]
    omega
  have hlen' : (lines.take i).length = i := by
    rw [List.length_take]
    omega
  have hbefore : piecesOf codec key (lines.take (i + 1)) = piecesOf codec key (lines.take i) ++
      (textsOf key (lineContributions codec lines[i])).map fun text => (text, i) := by
    rw [htake, piecesOf_concat, hlen']
  have hall : released ++ held = piecesOf codec key (lines.take (i + 1)) ++ after := by
    rw [← hsplit]
    nth_rewrite 1 [← List.take_append_drop (i + 1) lines]
    rw [piecesOf, List.zipIdx_append, List.flatMap_append, hlen, Nat.zero_add]
    rfl
  have hlater : ∀ q ∈ after, i < q.2 := by
    intro q hq
    obtain ⟨l, hl, hmem⟩ := List.mem_flatMap.mp hq
    obtain ⟨text, -, rfl⟩ := List.mem_map.mp hmem
    have := List.le_snd_of_mem_zipIdx hl
    show i < l.2
    omega
  have hline : (∃ line ∈ lines[i]?, textsOf key (lineContributions codec line) ≠ []) ↔
      textsOf key (lineContributions codec lines[i]) ≠ [] := by
    simp [List.getElem?_eq_getElem hi]
  rw [hline]
  by_cases htexts : textsOf key (lineContributions codec lines[i]) = []
  · -- the line has nothing for the key, and the other lines have other numbers
    refine iff_of_false (fun hmem => ?_) (fun hboth => hboth.1 htexts)
    obtain ⟨q, hq, hqi⟩ := List.mem_map.mp hmem
    have hmem' : q ∈ released ++ held := List.mem_append_right _ hq
    rw [hall, hbefore, htexts, List.map_nil, List.append_nil, List.mem_append] at hmem'
    rcases hmem' with hq' | hq'
    · have := snd_lt_of_mem_piecesOf hq'
      omega
    · have := hlater q hq'
      omega
  · have hne : piecesOf codec key (lines.take (i + 1)) ≠ [] := by
      rw [hbefore]
      simp [htexts]
    have hover := hstanding.overtaken_iff hall hne
    rw [map_fst_piecesOf, hafter, map_fst_flatMap_zipIdx] at hover
    rw [hover]
    constructor
    · intro hmem
      refine ⟨htexts, fun hle => ?_⟩
      obtain ⟨mid, hmid⟩ : piecesOf codec key (lines.take (i + 1)) <+: released :=
        List.prefix_of_prefix_length_le ⟨after, rfl⟩ ⟨held, hall⟩ hle
      rw [← hmid, List.append_assoc] at hall
      have hrest := List.append_cancel_left hall
      obtain ⟨q, hq, hqi⟩ := List.mem_map.mp hmem
      have := hlater q (by rw [← hrest]; exact List.mem_append_right _ hq)
      omega
    · rintro ⟨-, hlt⟩
      obtain ⟨mid, hmid⟩ : released <+: piecesOf codec key (lines.take (i + 1)) :=
        List.prefix_of_prefix_length_le ⟨held, hall⟩ ⟨after, rfl⟩ (by omega)
      have hmidne : mid ≠ [] := by
        rintro rfl
        rw [List.append_nil] at hmid
        exact hlt (by rw [hmid])
      have hrest : held = mid ++ after := by
        rw [← hmid, List.append_assoc] at hall
        exact List.append_cancel_left hall
      obtain ⟨mid', q, rfl⟩ := (List.eq_nil_or_concat' mid).resolve_left hmidne
      obtain ⟨texts, text, htext⟩ := (List.eq_nil_or_concat' _).resolve_left htexts
      rw [hbefore, htext, List.map_append, ← List.append_assoc, ← List.append_assoc] at hmid
      obtain ⟨-, hlast⟩ := List.append_inj' hmid rfl
      have hq : q = (text, i) := by simpa using hlast
      rw [hrest, hq]
      simp

theorem held_default (i : ℕ) : (default : ChoiceRedactor).held i = 0 := rfl

/-- A line waits as long as its frame awaits a key. -/
theorem Along.waits_iff (ha : Along codec window m lines h) {i : ℕ} (hi : i < lines.length) :
    Waits codec window lines i ↔ (h.awaiting i).getD 0 ≠ 0 := by
  have hbal := ha.steady.accounted.balance i
  rw [ite_self, Nat.add_zero] at hbal
  have hkey : ∀ key, (h.choice key).held i ≠ 0 ↔
      (∃ line ∈ lines[i]?, textsOf key (lineContributions codec line) ≠ []) ∧
        ¬ Overtaken window (slotTexts codec key (lines.take (i + 1)))
          (slotTexts codec key (lines.drop (i + 1))) := by
    intro key
    obtain ⟨released, held, hsplit, hholds, hstanding⟩ := ha.steady.keys key
    rw [← mem_held_iff hsplit hstanding hi, hholds.held, ne_eq, List.count_eq_zero, not_not]
  rw [hbal]
  constructor
  · rintro ⟨key, hwaits⟩ hzero
    have hne := (hkey key).mpr hwaits
    rw [choice] at hne
    cases hget : h.choices.get? key with
    | none =>
      rw [hget] at hne
      exact hne (held_default i)
    | some r =>
      rw [hget] at hne
      exact hne (KeyedMap.eq_zero_of_sumBy_eq_zero hzero hget)
  · intro hne
    by_contra hnone
    refine hne (KeyedMap.sumBy_eq_zero fun key r hget => ?_)
    by_contra hheld
    refine hnone ⟨key, (hkey key).mp ?_⟩
    rw [choice, hget]
    exact hheld

theorem length_of_append_eq_range {a b : List ℕ} {x n : ℕ} (h : a ++ x :: b = List.range n) :
    a.length = x ∧ n = x + 1 + b.length := by
  have hlen := congrArg List.length h
  rw [List.length_append, List.length_cons, List.length_range] at hlen
  have hget : (a ++ x :: b)[a.length]? = some x := by simp
  rw [h, List.getElem?_range (by omega)] at hget
  have hx : a.length = x := by simpa using hget
  omega

/-- The queue has all lines from any line that waits. -/
theorem Along.length_order_ge (ha : Along codec window m lines h) {i : ℕ} (hi : i < lines.length)
    (hwaits : Waits codec window lines i) : lines.length ≤ i + h.order.length := by
  have hne := (ha.waits_iff hi).mp hwaits
  have hmem : i ∈ h.order := by
    by_contra hnot
    exact hne (ha.steady.gone i hnot)
  obtain ⟨a, b, hab⟩ := List.append_of_mem hmem
  obtain ⟨pre, hpre⟩ := ha.steady.queue
  rw [hab, ← List.append_assoc, ha.seq] at hpre
  have hlen := (length_of_append_eq_range hpre).2
  rw [hab, List.length_append, List.length_cons]
  omega

/-- Between two pushes the queue starts at a line that waits. -/
theorem length_order_le {stream : Text} {lag : ℕ} (hidle : Idle codec window m stream h)
    (hkeeps : KeepsUp codec window lag (completeLines stream).1) : h.order.length ≤ lag := by
  have ha := hidle.along
  cases horder : h.order with
  | nil => exact Nat.zero_le _
  | cons fid rest =>
    have hready : h.isReady fid = false := hidle.front fid (by rw [horder]; rfl)
    obtain ⟨pre, hpre⟩ := ha.steady.queue
    rw [horder, ha.seq] at hpre
    have hlen := (length_of_append_eq_range hpre).2
    have hwaits : Waits codec window (completeLines stream).1 fid := by
      refine (ha.waits_iff (by omega)).mpr ?_
      simpa [isReady] using hready
    by_contra hlong
    rw [List.length_cons] at hlong
    exact hkeeps fid (by omega) hwaits

end Waiting

/-! ## The memory of a stream -/

section Bounds

variable {codec : JsonCodec} {e : Engine} {window m : ℕ} {h : SseHoldBack} {stream : Text}

/-- A stream of lines of at most `m` bytes whose texts contain no span. -/
structure Plain (codec : JsonCodec) (e : Engine) (m : ℕ) (stream : Text) : Prop where
  lines : ∀ line ∈ linesInclusive stream, utf8Len line ≤ m
  clear : Clear codec e (completeLines stream).1

theorem Plain.idle (hplain : Plain codec e m stream) (hsize : Compact codec) (window : ℕ)
    {pieces : List Text} (hpieces : pieces.flatten = stream) :
    Idle codec window m stream (pushAll codec e pieces (withWindow window)).2 := by
  subst hpieces
  have hi := (idle_withWindow codec window m).pushAll (e := e) hsize pieces
  rw [List.nil_append] at hi
  exact hi (fun line hline => hplain.lines line ((completeLines_isPrefixOf _).subset hline))
    hplain.clear

theorem Plain.rest_le (hplain : Plain codec e m stream) : utf8Len (completeLines stream).2 ≤ m := by
  by_cases hnil : (completeLines stream).2 = []
  · rw [hnil]
    exact Nat.zero_le _
  · refine hplain.lines _ ?_
    rw [linesInclusive, if_neg hnil]
    simp

/-- The memory for lines of at most `m` bytes that wait for at most `lag` lines. -/
def memoryBound (window m lag : ℕ) : ℕ :=
  m + lag * frameBound window m + lag * (2 * m) * (window + 2 * m)

/-- What the keys hold, they hold of the queued frames. -/
theorem Idle.pending_le (hi : Idle codec window m stream h) :
    (h.choices.sumBy fun r => utf8Len r.pending) ≤ h.order.length * (2 * m) * (window + 2 * m) := by
  have hs := hi.along.steady
  have hkey : ∀ key r, h.choices.get? key = some r → utf8Len r.pending ≤
      (h.order.map fun fid => r.held fid).sum * (window + 2 * m) := by
    intro key r hget
    obtain ⟨released, held, hsplit, hholds, hstanding⟩ := hs.keys key
    have hr : h.choice key = r := by rw [choice, hget, Option.getD_some]
    rw [hr] at hholds
    have hle := hstanding.utf8Len_held_le fun q hq =>
      hs.small key q (by rw [hsplit]; exact List.mem_append_right _ hq)
    rw [← hholds.pending] at hle
    cases hheld : held with
    | nil =>
      rw [hholds.pending, hheld]
      exact Nat.zero_le _
    | cons q rest =>
      -- the key holds a contribution, whose frame is in the queue
      have hone : 1 ≤ r.held q.2 := by
        rw [hholds.held, hheld]
        simp
      have hin : q.2 ∈ h.order := by
        by_contra hnot
        have hbal := hs.accounted.balance q.2
        have hterm := KeyedMap.le_sumBy (ChoiceRedactor.held q.2) hget
        rw [hs.gone _ hnot] at hbal
        omega
      have hsum := List.single_le_sum (by simp) _
        (List.mem_map_of_mem (f := fun fid => r.held fid) hin)
      have hpos : 1 ≤ (h.order.map fun fid => r.held fid).sum := hone.trans hsum
      have hmul := Nat.mul_le_mul_right (window + 2 * m) hpos
      omega
  have hsum := KeyedMap.sumBy_le_sumBy hkey
  rw [KeyedMap.sumBy_mul, KeyedMap.sumBy_sum] at hsum
  refine hsum.trans (Nat.mul_le_mul_right _ ?_)
  have hframes : ∀ x ∈ h.order.map fun fid => h.choices.sumBy (ChoiceRedactor.held fid),
      x ≤ 2 * m := by
    intro x hx
    obtain ⟨fid, hfid, rfl⟩ := List.mem_map.mp hx
    obtain ⟨_, _, _, hawaiting, _⟩ := hs.frames fid hfid
    have hbal := hs.accounted.balance fid
    rw [ite_self, Nat.add_zero] at hbal
    rw [← hbal]
    exact hawaiting
  have hcard := List.sum_le_card_nsmul _ _ hframes
  rwa [List.length_map, smul_eq_mul] at hcard

/-- The memory is bounded by the lines that the queue keeps. -/
theorem heldBytes_le (hplain : Plain codec e m stream) {lag : ℕ} (hi : Idle codec window m stream h)
    (hkeeps : KeepsUp codec window lag (completeLines stream).1) :
    h.heldBytes ≤ memoryBound window m lag := by
  have hlen := length_order_le hi hkeeps
  have hbuf : utf8Len h.lineBuf ≤ m := by
    rw [hi.buffered]
    exact hplain.rest_le
  have hframes : ∀ x ∈ h.order.map fun fid => (h.frames fid).elim 0 Frame.bytes,
      x ≤ frameBound window m := by
    intro x hx
    obtain ⟨fid, hfid, rfl⟩ := List.mem_map.mp hx
    obtain ⟨frame, hframe, _, _, hbytes⟩ := hi.along.steady.frames fid hfid
    rw [hframe, Option.elim_some]
    omega
  have hqueue := List.sum_le_card_nsmul _ _ hframes
  rw [List.length_map, smul_eq_mul] at hqueue
  have hqueue' := hqueue.trans (Nat.mul_le_mul_right _ hlen)
  have hpending := hi.pending_le.trans
    (Nat.mul_le_mul_right _ (Nat.mul_le_mul_right (2 * m) hlen))
  rw [heldBytes, memoryBound]
  omega

/-- The memory bounds how far back a line waits. -/
theorem keepsUp_of_heldBytes (hi : Idle codec window m stream h) {bound : ℕ}
    (hle : h.heldBytes ≤ bound) : KeepsUp codec window bound (completeLines stream).1 := by
  intro i hlt hwaits
  have hlen := hi.along.length_order_ge (by omega) hwaits
  have hsum := List.length_le_sum_of_one_le
    (h.order.map fun fid => (h.frames fid).elim 0 Frame.bytes) (by
      intro x hx
      obtain ⟨fid, hfid, rfl⟩ := List.mem_map.mp hx
      obtain ⟨frame, hframe, hpos, _⟩ := hi.along.steady.frames fid hfid
      rw [hframe, Option.elim_some]
      exact hpos)
  rw [List.length_map] at hsum
  rw [heldBytes] at hle
  omega

/-- For any set of streams of lines of at most `m` bytes without a span, pushed in any pieces: the
memory is bounded if and only if there is a bound on how far back a line waits. `hsize` is that
`serde_json` builds nothing larger than what it reads. -/
theorem held_bounded_iff (hsize : Compact codec) (window : ℕ) {runs : Set (List Text)}
    (hruns : ∀ pieces ∈ runs, Plain codec e m pieces.flatten) :
    (∃ bound, ∀ pieces ∈ runs,
        (pushAll codec e pieces (withWindow window)).2.heldBytes ≤ bound) ↔
      ∃ lag, ∀ pieces ∈ runs, KeepsUp codec window lag (completeLines pieces.flatten).1 := by
  constructor
  · rintro ⟨bound, hbound⟩
    refine ⟨bound, fun pieces hpieces => ?_⟩
    exact keepsUp_of_heldBytes ((hruns pieces hpieces).idle hsize window rfl) (hbound pieces hpieces)
  · rintro ⟨lag, hlag⟩
    refine ⟨memoryBound window m lag, fun pieces hpieces => ?_⟩
    exact heldBytes_le (hruns pieces hpieces) ((hruns pieces hpieces).idle hsize window rfl)
      (hlag pieces hpieces)

end Bounds

/-! ## A key that falls silent -/

/-- A content and then line feeds, as a server sends them to keep a connection open. -/
def silentPieces (n : ℕ) : List Text := contentLine ['a'] :: List.replicate n ['\n']

theorem completeLines_replicate (n : ℕ) :
    completeLines (List.replicate n ['\n']).flatten = (List.replicate n ['\n'], []) := by
  induction n with
  | zero => rfl
  | succ n ih =>
    rw [List.replicate_succ, List.flatten_cons, List.singleton_append, completeLines, ih]
    rfl

theorem completeLines_silent (n : ℕ) :
    completeLines (silentPieces n).flatten = (silentPieces n, []) := by
  have hfirst : completeLines (contentLine ['a']) = ([contentLine ['a']], []) := by
    decide +kernel
  rw [silentPieces, List.flatten_cons, completeLines_append, hfirst, List.nil_append,
    completeLines_replicate]
  rfl

theorem slotTexts_replicate (key : ContentKey) (n : ℕ) :
    slotTexts (contentCodec [['a']]) key (List.replicate n ['\n']) = [] := by
  have hline : lineContributions (contentCodec [['a']]) ['\n'] = [] := rfl
  induction n with
  | zero => rfl
  | succ n ih =>
    rw [List.replicate_succ, slotTexts_cons, hline, ih]
    rfl

theorem compact_content : Compact (contentCodec [['a']]) := by
  intro payload v hv
  have hlookup : [(contentPayload ['a'], contentChunk ['a'])].lookup payload = some v := hv
  rw [List.lookup_cons] at hlookup
  split at hlookup
  · rename_i heq
    obtain rfl : payload = contentPayload ['a'] := by simpa using heq
    obtain rfl : contentChunk ['a'] = v := by simpa using hlookup
    decide +kernel
  · cases hlookup

theorem plain_silent (n : ℕ) :
    Plain (contentCodec [['a']]) (charEngine '7' .mask) 64 (silentPieces n).flatten := by
  have hslots : ∀ key, (slotTexts (contentCodec [['a']]) key (silentPieces n)).flatten <:+:
      ['a'] := by
    intro key
    have hline : lineContributions (contentCodec [['a']]) (contentLine ['a']) =
        [((0, .content), ['a'])] := rfl
    rw [silentPieces, slotTexts_cons, slotTexts_replicate, List.append_nil, hline, textsOf_cons]
    split
    · exact List.infix_refl _
    · exact (List.nil_prefix).isInfix
  refine ⟨fun line hline => ?_, fun key part hpart => ?_, fun line hline hopaque => ?_⟩
  · rw [linesInclusive, completeLines_silent, if_pos rfl] at hline
    rcases List.mem_cons.mp hline with rfl | hmem
    · decide +kernel
    · rw [List.eq_of_mem_replicate hmem]
      decide
  · rw [completeLines_silent] at hpart
    have hsub := (hpart.trans (hslots key)).sublist
    rcases List.sublist_singleton.mp hsub with rfl | rfl <;> rfl
  · rw [completeLines_silent] at hline
    rcases List.mem_cons.mp hline with rfl | hmem
    · cases hopaque
    · rw [List.eq_of_mem_replicate hmem] at hopaque
      cases hopaque

/-- The first line waits for as long as its key is silent. -/
theorem waits_silent (n : ℕ) : Waits (contentCodec [['a']]) 1 (silentPieces n) 0 := by
  refine ⟨(0, .content), ⟨contentLine ['a'], rfl, by decide +kernel⟩, ?_⟩
  have hdrop : (silentPieces n).drop (0 + 1) = List.replicate n ['\n'] := rfl
  rw [hdrop, slotTexts_replicate, Overtaken, if_neg (by decide)]
  rintro ⟨a, b, hab, -, hwin⟩
  obtain ⟨rfl, rfl⟩ := List.append_eq_nil_iff.mp hab.symm
  cases hwin

/-- Streams of one content and then only line feeds: with a window, neither side holds. -/
theorem held_silent_iff :
    (∃ bound, ∀ pieces ∈ Set.range silentPieces,
        (pushAll (contentCodec [['a']]) (charEngine '7' .mask) pieces
          (withWindow 1)).2.heldBytes ≤ bound) ↔
      ∃ lag, ∀ pieces ∈ Set.range silentPieces,
        KeepsUp (contentCodec [['a']]) 1 lag (completeLines pieces.flatten).1 := by
  refine held_bounded_iff (m := 64) compact_content 1 ?_
  rintro _ ⟨n, rfl⟩
  exact plain_silent n

/-- No function of the window and the line length bounds the memory: one byte of content, held by a
window of one byte, keeps every later line in the queue. -/
theorem silent_key_holds_every_line :
    Compact (contentCodec [['a']]) ∧
      ¬ ∃ B : ℕ → ℕ → ℕ, ∀ window m pieces,
        Plain (contentCodec [['a']]) (charEngine '7' .mask) m pieces.flatten →
          (pushAll (contentCodec [['a']]) (charEngine '7' .mask) pieces
            (withWindow window)).2.heldBytes ≤ B window m := by
  refine ⟨compact_content, ?_⟩
  rintro ⟨B, hB⟩
  have hplain := plain_silent (B 1 64)
  have hkeeps := keepsUp_of_heldBytes (hplain.idle compact_content 1 rfl) (hB 1 64 _ hplain)
  rw [completeLines_silent] at hkeeps
  refine hkeeps 0 ?_ (waits_silent _)
  simp [silentPieces]

end SseHoldBack

end Governance
