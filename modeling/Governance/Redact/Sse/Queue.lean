import Governance.Redact.Slots
import Governance.Redact.Sse.Choice

/-!
# The frame queue

What the operations of an `SseHoldBack` do to its queue, field by field: the writes of a
release (`writeAll`), a drain (`drainReady_eq`), and storing and applying the result of one
key (`settle`).
-/

namespace Governance

open Utf8Text
open String (utf8Len)

theorem takeWhile_congr {α : Type*} {p q : α → Bool} {l : List α} (h : ∀ a ∈ l, p a = q a) :
    l.takeWhile p = l.takeWhile q := by
  induction l with
  | nil => rfl
  | cons a l ih =>
    rw [List.takeWhile_cons, List.takeWhile_cons, h a (by simp),
      ih fun b hb => h b (List.mem_cons_of_mem _ hb)]

theorem dropWhile_congr {α : Type*} {p q : α → Bool} {l : List α} (h : ∀ a ∈ l, p a = q a) :
    l.dropWhile p = l.dropWhile q := by
  induction l with
  | nil => rfl
  | cons a l ih =>
    rw [List.dropWhile_cons, List.dropWhile_cons, h a (by simp),
      ih fun b hb => h b (List.mem_cons_of_mem _ hb)]

/-- How often a key holds a contribution of the frame `fid`. -/
def ChoiceRedactor.held (fid : ℕ) (r : ChoiceRedactor) : ℕ := (r.boundaries.map Prod.snd).count fid

theorem ChoiceRedactor.Holds.held {r : ChoiceRedactor} {pieces : List (Text × ℕ)}
    (h : r.Holds pieces) (fid : ℕ) : r.held fid = (pieces.map Prod.snd).count fid := by
  rw [ChoiceRedactor.held, h.boundaries, map_snd_pieceEnds]

/-- A frame after the write of one slot. -/
def Frame.write (key : ContentKey) (text : Text) : Frame → Frame
  | .passthrough raw => .passthrough raw
  | .data chunk => .data (writeSlot key text chunk)

/-- A frame with its slots blanked. -/
def Frame.erase : Frame → Frame
  | .passthrough raw => .passthrough raw
  | .data chunk => .data (eraseSlots chunk)

@[simp] theorem Frame.erase_write (key : ContentKey) (text : Text) (f : Frame) :
    (f.write key text).erase = f.erase := by
  cases f <;> simp [Frame.write, Frame.erase]

theorem Frame.write_comm {a b : ContentKey} (hne : a ≠ b) (s t : Text) (f : Frame) :
    (f.write a s).write b t = (f.write b t).write a s := by
  cases f with
  | passthrough raw => rfl
  | data chunk => exact congrArg Frame.data (writeSlot_comm hne s t chunk).symm

/-- The writes of one release: the first frame takes the text, the others are blanked. -/
def releaseWrites (text : Text) : List ℕ → List (ℕ × Text)
  | [] => []
  | fid :: rest => (fid, text) :: rest.map fun j => (j, [])

@[simp] theorem map_fst_releaseWrites (text : Text) (ids : List ℕ) :
    (releaseWrites text ids).map Prod.fst = ids := by
  cases ids with
  | nil => rfl
  | cons fid rest => simp [releaseWrites, Function.comp_def]

/-- The writes a result of one key asks for. -/
def ChoicePush.writes : ChoicePush → List (ℕ × Text)
  | .release text ids => releaseWrites text ids
  | _ => []

namespace SseHoldBack

/-- Some resolutions of frames, each a frame and the text of its slot. -/
def writeAll (key : ContentKey) (writes : List (ℕ × Text)) (h : SseHoldBack) : SseHoldBack :=
  writes.foldl (fun h w => resolveFrame key w.2 h w.1) h

theorem applyRelease_eq (h : SseHoldBack) (key : ContentKey) (text : Text) (ids : List ℕ) :
    h.applyRelease key text ids = h.writeAll key (releaseWrites text ids) := by
  cases ids with
  | nil => rfl
  | cons fid rest => simp [applyRelease, writeAll, releaseWrites, List.foldl_map]

@[simp] theorem writeAll_nil (key : ContentKey) (h : SseHoldBack) : h.writeAll key [] = h := rfl

@[simp] theorem writeAll_cons (key : ContentKey) (w : ℕ × Text) (ws : List (ℕ × Text))
    (h : SseHoldBack) :
    h.writeAll key (w :: ws) = (resolveFrame key w.2 h w.1).writeAll key ws := rfl

theorem writeAll_append (key : ContentKey) (ws ws' : List (ℕ × Text)) (h : SseHoldBack) :
    h.writeAll key (ws ++ ws') = (h.writeAll key ws).writeAll key ws' := by
  simp [writeAll]

theorem resolveFrame_frames (key : ContentKey) (text : Text) (h : SseHoldBack) (fid j : ℕ) :
    (resolveFrame key text h fid).frames j =
      if j = fid then (h.frames fid).map (Frame.write key text) else h.frames j := by
  by_cases hj : j = fid
  · subst hj
    cases hf : h.frames j with
    | none => simp [resolveFrame, hf]
    | some f => cases f <;> simp [resolveFrame, hf, Frame.write, writeSlot, orSelf]
  · cases hf : h.frames fid with
    | none => simp [resolveFrame, hf, hj]
    | some f => cases f <;> simp [resolveFrame, hf, hj]

theorem resolveFrame_awaiting (key : ContentKey) (text : Text) (h : SseHoldBack) (fid j : ℕ) :
    (resolveFrame key text h fid).awaiting j =
      if j = fid then (h.awaiting fid).map (· - 1) else h.awaiting j := by
  by_cases hj : j = fid
  · subst hj
    cases hf : h.awaiting j <;> simp [resolveFrame, hf]
  · cases hf : h.awaiting fid <;> simp [resolveFrame, hf, hj]

/-- Writes leave everything but the frames and the counters as it was. -/
theorem writeAll_frame (key : ContentKey) (ws : List (ℕ × Text)) (h : SseHoldBack) :
    h.writeAll key ws =
      { h with frames := (h.writeAll key ws).frames, awaiting := (h.writeAll key ws).awaiting } := by
  induction ws generalizing h with
  | nil => rfl
  | cons w ws ih =>
    rw [writeAll_cons, ih]
    rfl

/-- Each write of a frame counts one resolution of it. -/
theorem writeAll_awaiting (key : ContentKey) (ws : List (ℕ × Text)) (h : SseHoldBack) (fid : ℕ) :
    (h.writeAll key ws).awaiting fid =
      (h.awaiting fid).map (· - (ws.map Prod.fst).count fid) := by
  induction ws generalizing h with
  | nil => simp
  | cons w ws ih =>
    rw [writeAll_cons, ih, resolveFrame_awaiting]
    by_cases hw : fid = w.1
    · subst hw
      cases h.awaiting w.1 with
      | none => simp
      | some count => simp [Nat.sub_sub, Nat.add_comm]
    · simp [hw, Ne.symm hw]

theorem writeAll_frames_of_notMem (key : ContentKey) {ws : List (ℕ × Text)} (h : SseHoldBack)
    {fid : ℕ} (hfid : fid ∉ ws.map Prod.fst) : (h.writeAll key ws).frames fid = h.frames fid := by
  induction ws generalizing h with
  | nil => rfl
  | cons w ws ih =>
    rw [List.map_cons, List.mem_cons, not_or] at hfid
    rw [writeAll_cons, ih _ hfid.2, resolveFrame_frames, if_neg hfid.1]

@[simp] theorem writeAll_frames_erase (key : ContentKey) (ws : List (ℕ × Text)) (h : SseHoldBack)
    (fid : ℕ) : ((h.writeAll key ws).frames fid).map Frame.erase =
      (h.frames fid).map Frame.erase := by
  induction ws generalizing h with
  | nil => rfl
  | cons w ws ih =>
    rw [writeAll_cons, ih, resolveFrame_frames]
    by_cases hw : fid = w.1
    · subst hw
      simp [Function.comp_def]
    · rw [if_neg hw]

theorem resolveFrame_comm {a b : ContentKey} (hne : a ≠ b) (s t : Text) (h : SseHoldBack)
    (i j : ℕ) : resolveFrame a s (resolveFrame b t h j) i =
      resolveFrame b t (resolveFrame a s h i) j := by
  have hframes : (resolveFrame a s (resolveFrame b t h j) i).frames =
      (resolveFrame b t (resolveFrame a s h i) j).frames := by
    funext k
    simp only [resolveFrame_frames]
    by_cases hi : k = i <;> by_cases hj : k = j
    · subst hi
      subst hj
      simp [Function.comp_def, Frame.write_comm hne s t]
    · subst hi
      simp [hj]
    · subst hj
      simp [hi]
    · simp [hi, hj]
  have hawaiting : (resolveFrame a s (resolveFrame b t h j) i).awaiting =
      (resolveFrame b t (resolveFrame a s h i) j).awaiting := by
    funext k
    simp only [resolveFrame_awaiting]
    by_cases hi : k = i <;> by_cases hj : k = j
    · subst hi
      subst hj
      rfl
    · subst hi
      simp [hj]
    · subst hj
      simp [hi]
    · simp [hi, hj]
  exact SseHoldBack.ext rfl rfl rfl rfl hframes hawaiting rfl rfl rfl

/-- The writes of two keys commute. -/
theorem writeAll_comm {a b : ContentKey} (hne : a ≠ b) (ws ws' : List (ℕ × Text))
    (h : SseHoldBack) : (h.writeAll a ws).writeAll b ws' = (h.writeAll b ws').writeAll a ws := by
  have hone : ∀ (w : ℕ × Text) (h : SseHoldBack),
      (resolveFrame a w.2 h w.1).writeAll b ws' = resolveFrame a w.2 (h.writeAll b ws') w.1 := by
    intro w h
    induction ws' generalizing h with
    | nil => rfl
    | cons w' ws' ih =>
      rw [writeAll_cons, writeAll_cons, resolveFrame_comm (Ne.symm hne), ih]
  induction ws generalizing h with
  | nil => rfl
  | cons w ws ih => rw [writeAll_cons, ih, hone, writeAll_cons]

/-! ## Draining -/

/-- The output of a queued frame. -/
def renderAt (codec : JsonCodec) (h : SseHoldBack) (fid : ℕ) : Text :=
  ((h.frames fid).map (Frame.render codec)).getD []

/-- The output of the frames that can leave the queue. -/
def readyText (codec : JsonCodec) (h : SseHoldBack) : Text :=
  (h.order.takeWhile h.isReady).flatMap (h.renderAt codec)

/-- The state once the frames `popped` have left a queue whose rest is `rest`. -/
def without (h : SseHoldBack) (popped rest : List ℕ) : SseHoldBack :=
  { h with
    order := rest
    frames := fun fid => if fid ∈ popped then none else h.frames fid
    awaiting := fun fid => if fid ∈ popped then none else h.awaiting fid }

theorem drainFrom_append (codec : JsonCodec) {popped rest : List ℕ} (h : SseHoldBack)
    (hnodup : (popped ++ rest).Nodup) (hready : ∀ fid ∈ popped, h.isReady fid = true)
    (hrest : ∀ fid ∈ rest.head?, h.isReady fid = false) :
    drainFrom codec (popped ++ rest) h =
      (popped.flatMap (h.renderAt codec), h.without popped rest) := by
  induction popped generalizing h with
  | nil =>
    cases rest with
    | nil => simp [drainFrom, without]
    | cons fid rest =>
      have hfid : h.isReady fid = false := hrest fid rfl
      simp [drainFrom, without, hfid]
  | cons fid popped ih =>
    obtain ⟨hfid, htail⟩ := List.nodup_cons.mp hnodup
    set h' : SseHoldBack := { h with
      awaiting := Function.update h.awaiting fid none
      frames := Function.update h.frames fid none } with hh'
    -- popping `fid` is invisible to the rest of the queue
    have hsame : ∀ j ∈ popped ++ rest, h'.isReady j = h.isReady j ∧
        h'.renderAt codec j = h.renderAt codec j := by
      intro j hj
      have hne : j ≠ fid := fun heq => hfid (heq ▸ hj)
      simp [hh', isReady, renderAt, hne]
    have hrest' : ∀ j ∈ rest.head?, h'.isReady j = false := by
      intro j hj
      have hmem : j ∈ popped ++ rest := List.mem_append_right _ (List.mem_of_mem_head? hj)
      rw [(hsame j hmem).1]
      exact hrest j hj
    have hready' : ∀ j ∈ popped, h'.isReady j = true := by
      intro j hj
      rw [(hsame j (List.mem_append_left _ hj)).1]
      exact hready j (List.mem_cons_of_mem _ hj)
    have hout : popped.flatMap (h'.renderAt codec) = popped.flatMap (h.renderAt codec) :=
      List.flatMap_congr fun j hj => (hsame j (List.mem_append_left _ hj)).2
    have hstate : h'.without popped rest = h.without (fid :: popped) rest := by
      refine SseHoldBack.ext rfl rfl rfl rfl ?_ ?_ rfl rfl rfl
      · funext j
        by_cases hj : j = fid <;> simp [without, hh', hj]
      · funext j
        by_cases hj : j = fid <;> simp [without, hh', hj]
    rw [List.cons_append, drainFrom, if_pos (hready fid (by simp)), ih h' htail hready' hrest',
      hout, hstate]
    rfl

theorem drainReady_eq (codec : JsonCodec) (h : SseHoldBack) (hnodup : h.order.Nodup) :
    h.drainReady codec = (h.readyText codec,
      h.without (h.order.takeWhile h.isReady) (h.order.dropWhile h.isReady)) := by
  have hsplit := List.takeWhile_append_dropWhile (p := h.isReady) (l := h.order)
  have hdrain := drainFrom_append codec h (by rwa [hsplit])
    (fun fid hfid => List.mem_takeWhile_imp hfid) (fun fid hfid => by
      have := List.head?_dropWhile_not h.isReady h.order
      rw [Option.mem_def.mp hfid] at this
      simpa using this)
  rw [hsplit] at hdrain
  exact hdrain

/-! ## Settling a result -/

/-- The state after a key's result was stored and applied. -/
def settle (h : SseHoldBack) (key : ContentKey) (res : ChoicePush) (r : ChoiceRedactor) :
    SseHoldBack := (h.setChoice key r).writeAll key res.writes

/-- Two states that differ in the keys and in the slots of the queued frames, at most. -/
structure Framed (h h' : SseHoldBack) : Prop where
  erased : ∀ fid, (h'.frames fid).map Frame.erase = (h.frames fid).map Frame.erase
  awaiting_none : ∀ fid, h.awaiting fid = none → h'.awaiting fid = none
  window : h'.window = h.window
  lineBuf : h'.lineBuf = h.lineBuf
  frameSeq : h'.frameSeq = h.frameSeq
  order : h'.order = h.order
  blocked : h'.blocked = h.blocked

theorem Framed.refl (h : SseHoldBack) : Framed h h := ⟨fun _ => rfl, fun _ => id, rfl, rfl, rfl, rfl, rfl⟩

theorem Framed.trans {a b c : SseHoldBack} (hab : Framed a b) (hbc : Framed b c) : Framed a c where
  erased := fun fid => (hbc.erased fid).trans (hab.erased fid)
  awaiting_none := fun fid hfid => hbc.awaiting_none fid (hab.awaiting_none fid hfid)
  window := hbc.window.trans hab.window
  lineBuf := hbc.lineBuf.trans hab.lineBuf
  frameSeq := hbc.frameSeq.trans hab.frameSeq
  order := hbc.order.trans hab.order
  blocked := hbc.blocked.trans hab.blocked

theorem framed_setChoice (h : SseHoldBack) (key : ContentKey) (r : ChoiceRedactor) :
    Framed h (h.setChoice key r) := ⟨fun _ => rfl, fun _ => id, rfl, rfl, rfl, rfl, rfl⟩

@[simp] theorem settle_choices (h : SseHoldBack) (key : ContentKey) (res : ChoicePush)
    (r : ChoiceRedactor) : (h.settle key res r).choices = h.choices.insert key r := by
  rw [settle, writeAll_frame]
  rfl

theorem settle_awaiting (h : SseHoldBack) (key : ContentKey) (res : ChoicePush)
    (r : ChoiceRedactor) (fid : ℕ) : (h.settle key res r).awaiting fid =
      (h.awaiting fid).map (· - (res.writes.map Prod.fst).count fid) :=
  writeAll_awaiting key res.writes (h.setChoice key r) fid

theorem framed_settle (h : SseHoldBack) (key : ContentKey) (res : ChoicePush)
    (r : ChoiceRedactor) : Framed h (h.settle key res r) := by
  have hfields : h.settle key res r = { h.setChoice key r with
      frames := (h.settle key res r).frames, awaiting := (h.settle key res r).awaiting } :=
    writeAll_frame key res.writes (h.setChoice key r)
  refine ⟨?_, fun fid hfid => ?_, ?_, ?_, ?_, ?_, ?_⟩
  · exact writeAll_frames_erase key res.writes (h.setChoice key r)
  · rw [settle_awaiting, hfid]
    rfl
  all_goals
    rw [hfields]
    rfl

/-- The step of `pushContributions` on a result that does not block. -/
theorem pushContributions_cons_ok {e : Engine} {h : SseHoldBack} {fid : ℕ} {key : ContentKey}
    {content : Text} {rest : List (ContentKey × Text)} {res : ChoicePush} {r : ChoiceRedactor}
    (hpush : ((h.choices.get? key).getD default).push e h.window fid content = (.ok res, r))
    (hnot : ∀ entities, res ≠ .blocked entities) :
    pushContributions e fid ((key, content) :: rest) h =
      pushContributions e fid rest (h.settle key res r) := by
  cases res with
  | nothing => simp [pushContributions, hpush, settle, ChoicePush.writes]
  | blocked entities => exact absurd rfl (hnot entities)
  | release text ids => simp [pushContributions, hpush, settle, ChoicePush.writes, applyRelease_eq]

theorem pushContributions_cons_blocked {e : Engine} {h : SseHoldBack} {fid : ℕ} {key : ContentKey}
    {content : Text} {es : List String}
    (hpush : (((h.choices.get? key).getD default).push e h.window fid content).1 =
      .ok (.blocked es)) (rest : List (ContentKey × Text)) :
    (pushContributions e fid ((key, content) :: rest) h).1 = .ok (some es) := by
  obtain ⟨v, r, hvr⟩ : ∃ v r, ((h.choices.get? key).getD default).push e h.window fid content =
      (v, r) := ⟨_, _, rfl⟩
  rw [hvr] at hpush
  obtain rfl : v = .ok (.blocked es) := hpush
  simp [pushContributions, hvr]

theorem framed_pushContributions (e : Engine) (fid : ℕ) (cs : List (ContentKey × Text))
    (h : SseHoldBack) : Framed h (pushContributions e fid cs h).2 := by
  induction cs generalizing h with
  | nil => exact Framed.refl h
  | cons c cs ih =>
    obtain ⟨key, content⟩ := c
    rw [pushContributions]
    split
    · exact framed_setChoice h key _
    · exact (framed_setChoice h key _).trans (ih _)
    · exact framed_setChoice h key _
    · next text ids r _ =>
      have hstep := framed_settle h key (.release text ids) r
      rw [settle, ChoicePush.writes, ← applyRelease_eq] at hstep
      exact hstep.trans (ih _)

end SseHoldBack

end Governance
