import Governance.Redact.Sse.Batches

/-!
# The text of a key is delivered once

`apply_release` maps a batch back to the slots of its frames through `set_delta_content`, which finds
one slot of a key in a frame, while `delta_contents` reads them all. When no line has a key in more
than one slot, and that one is the slot `set_delta_content` finds, what the released lines have for
the key is what its redactor released onto them (`delivers_once`).

`Delivers` is the invariant. A frame owes each of its slots until the redactor of the key has written
to the frame, so a frame that awaits nothing has been written to by every slot.
-/

namespace Governance

open Utf8Text

/-! ## Lists of writes -/

/-- What was written to a frame, by key. -/
def writesTo (fid : ℕ) (log : List Batch) : List (ContentKey × Text) :=
  log.flatMap fun b => (b.writes.filter fun w => w.1 = fid).map fun w => (b.key, w.2)

/-- What a key wrote, by frame. -/
def keyWrites (key : ContentKey) (log : List Batch) : List (ℕ × Text) :=
  (log.filter fun b => b.key = key).flatMap Batch.writes

theorem writesTo_append (fid : ℕ) (a b : List Batch) :
    writesTo fid (a ++ b) = writesTo fid a ++ writesTo fid b := by
  simp [writesTo]

theorem keyWrites_append (key : ContentKey) (a b : List Batch) :
    keyWrites key (a ++ b) = keyWrites key a ++ keyWrites key b := by
  simp [keyWrites]

theorem textsOf_map_key (key κ : ContentKey) (ws : List (ℕ × Text)) :
    textsOf key (ws.map fun w => (κ, w.2)) = if κ = key then ws.map Prod.snd else [] := by
  induction ws with
  | nil => simp [textsOf]
  | cons w ws ih =>
    rw [List.map_cons, SseHoldBack.textsOf_cons, ih]
    by_cases hκ : κ = key <;> simp [hκ]

theorem textsOf_writesTo (key : ContentKey) (fid : ℕ) (log : List Batch) :
    textsOf key (writesTo fid log) =
      ((keyWrites key log).filter fun w => w.1 = fid).map Prod.snd := by
  induction log with
  | nil => rfl
  | cons b log ih =>
    rw [← List.singleton_append, writesTo_append, keyWrites_append, textsOf_append, ih,
      List.filter_append, List.map_append]
    congr 1
    simp only [writesTo, List.flatMap_singleton, textsOf_map_key]
    by_cases hb : b.key = key <;> simp [keyWrites, hb]

theorem ChoicePush.writesTo_batches (κ : ContentKey) (fid : ℕ) (res : ChoicePush) :
    writesTo fid (res.batches κ) =
      (res.writes.filter fun w => w.1 = fid).map fun w => (κ, w.2) := by
  cases res with
  | release text ids => exact List.flatMap_singleton ..
  | _ => rfl

theorem ChoicePush.keyWrites_batches (key κ : ContentKey) (res : ChoicePush) :
    keyWrites key (res.batches κ) = if κ = key then res.writes else [] := by
  cases res with
  | release text ids =>
    by_cases hκ : κ = key <;>
      simp [keyWrites, ChoicePush.batches, ChoicePush.writes, Batch.writes, hκ]
  | _ => simp [keyWrites, ChoicePush.batches, ChoicePush.writes]

@[simp] theorem ChoicePush.map_fst_writes (res : ChoicePush) :
    res.writes.map Prod.fst = res.frameIds := by
  cases res with
  | release text ids => exact map_fst_releaseWrites text ids
  | _ => rfl

theorem ChoicePush.length_writes (fid : ℕ) (res : ChoicePush) :
    (res.writes.filter fun w => w.1 = fid).length = res.frameIds.count fid := by
  rw [← res.map_fst_writes, List.count_eq_countP, List.countP_map, List.countP_eq_length_filter]
  rfl

theorem count_map_fst (key : ContentKey) (cs : List (ContentKey × Text)) :
    (cs.map Prod.fst).count key = (textsOf key cs).length := by
  induction cs with
  | nil => rfl
  | cons c cs ih =>
    rw [SseHoldBack.textsOf_cons, List.map_cons, List.count_cons, ih]
    by_cases hc : c.1 = key <;> simp [hc]

/-- With no more texts for any key, and as many in all, there are as many for each. -/
theorem length_textsOf_eq {a b : List (ContentKey × Text)}
    (hle : ∀ κ, (textsOf κ a).length ≤ (textsOf κ b).length) (hlen : b.length ≤ a.length)
    (κ : ContentKey) : (textsOf κ a).length = (textsOf κ b).length := by
  have hsub : (a.map Prod.fst).Subperm (b.map Prod.fst) := by
    refine List.subperm_ext_iff.mpr fun κ _ => ?_
    rw [count_map_fst, count_map_fst]
    exact hle κ
  have hperm := hsub.perm_of_length_le (by simpa using hlen)
  rw [← count_map_fst, ← count_map_fst]
  exact hperm.count_eq κ

theorem length_eq_of_textsOf {a b : List (ContentKey × Text)}
    (h : ∀ κ, (textsOf κ a).length = (textsOf κ b).length) : a.length = b.length := by
  have hperm : (a.map Prod.fst).Perm (b.map Prod.fst) := by
    refine List.perm_iff_count.mpr fun κ => ?_
    rw [count_map_fst, count_map_fst]
    exact h κ
  simpa using hperm.length_eq

/-- The slots a frame has. -/
def Frame.contributions : Frame → List (ContentKey × Text)
  | .passthrough _ => []
  | .data chunk => deltaContents chunk

@[simp] theorem Frame.length_textsOf_write (key κ : ContentKey) (text : Text) (frame : Frame) :
    (textsOf key (frame.write κ text).contributions).length =
      (textsOf key frame.contributions).length := by
  cases frame with
  | passthrough raw => rfl
  | data chunk => exact length_textsOf_writeSlot key κ text chunk

/-- A frame after some writes of a key. -/
def Frame.writeAll (κ : ContentKey) (ws : List (ℕ × Text)) (frame : Frame) : Frame :=
  ws.foldl (fun f w => f.write κ w.2) frame

theorem Frame.length_textsOf_writeAll (key κ : ContentKey) (ws : List (ℕ × Text)) (frame : Frame) :
    (textsOf key (frame.writeAll κ ws).contributions).length =
      (textsOf key frame.contributions).length := by
  induction ws generalizing frame with
  | nil => rfl
  | cons w ws ih => exact (ih (frame.write κ w.2)).trans (frame.length_textsOf_write key κ w.2)

/-- The writes of a release, frame by frame. -/
theorem SseHoldBack.writeAll_frames (κ : ContentKey) (ws : List (ℕ × Text)) (h : SseHoldBack)
    (fid : ℕ) : (h.writeAll κ ws).frames fid =
      (h.frames fid).map (Frame.writeAll κ (ws.filter fun w => w.1 = fid)) := by
  induction ws generalizing h with
  | nil =>
    have hid : Frame.writeAll κ [] = id := rfl
    simp [hid]
  | cons w ws ih =>
    rw [writeAll_cons, ih, resolveFrame_frames]
    by_cases hw : fid = w.1
    · subst hw
      rw [if_pos rfl, Option.map_map, List.filter_cons_of_pos (by simp)]
      rfl
    · simp [hw, Ne.symm hw]

/-- A chunk has one slot of a key at most, and `set_delta_content` finds it. -/
def OneSlot (key : ContentKey) (chunk : Json) : Prop :=
  (textsOf key (deltaContents chunk)).length ≤ 1 ∧
    (textsOf key (deltaContents chunk) ≠ [] → keyReached key chunk = true)

instance (key : ContentKey) (chunk : Json) : Decidable (OneSlot key chunk) :=
  inferInstanceAs (Decidable (_ ∧ _))

theorem OneSlot.writeSlot {key : ContentKey} {chunk : Json} (h : OneSlot key chunk)
    (κ : ContentKey) (text : Text) : OneSlot key (writeSlot κ text chunk) := by
  refine ⟨by simpa using h.1, fun hne => ?_⟩
  rw [keyReached_writeSlot]
  refine h.2 fun hnil => hne ?_
  rw [← List.length_eq_zero_iff, length_textsOf_writeSlot, hnil]
  rfl

/-- The slot of a key has what was written to it. -/
theorem OneSlot.textsOf_writeSlot {key : ContentKey} {chunk : Json} (h : OneSlot key chunk)
    (hpos : 0 < (textsOf key (deltaContents chunk)).length) (text : Text) :
    textsOf key (deltaContents (Governance.writeSlot key text chunk)) = [text] := by
  have hlen := h.1
  have hreach := h.2 (List.length_pos_iff.mp hpos)
  have htail : (textsOf key (deltaContents chunk)).tail = [] := by
    rw [← List.length_eq_zero_iff, List.length_tail]
    omega
  rw [textsOf_writeSlot_self, if_pos hreach, htail]

/-! ## One key -/

/-- The result that the state after an answer goes with: an engine error releases nothing. -/
def resultOf : Except Error ChoicePush → ChoicePush
  | .ok res => res
  | .error _ => .nothing

namespace ChoiceRedactor

theorem releaseHead_frameIds (e : Engine) (r : ChoiceRedactor) (cut : ℕ) :
    ((resultOf (r.releaseHead e cut).1).frameIds ++
      (r.releaseHead e cut).2.boundaries.map Prod.snd).Sublist (r.boundaries.map Prod.snd) := by
  have hdrop : ((r.boundaries.dropWhile fun b => b.1 ≤ cut).map fun b => (b.1 - cut, b.2)).map
      Prod.snd = (r.boundaries.dropWhile fun b => b.1 ≤ cut).map Prod.snd := by
    rw [List.map_map]
    rfl
  have hall : (r.boundaries.takeWhile fun b => b.1 ≤ cut).map Prod.snd ++
      (r.boundaries.dropWhile fun b => b.1 ≤ cut).map Prod.snd = r.boundaries.map Prod.snd := by
    rw [← List.map_append, List.takeWhile_append_dropWhile]
  simp only [releaseHead]
  split
  · show (((r.boundaries.dropWhile fun b => b.1 ≤ cut).map fun b => (b.1 - cut, b.2)).map
      Prod.snd).Sublist _
    rw [hdrop]
    exact (List.dropWhile_sublist _).map _
  · show (_ ++ ((r.boundaries.dropWhile fun b => b.1 ≤ cut).map fun b => (b.1 - cut, b.2)).map
      Prod.snd).Sublist _
    rw [hdrop]
    exact hall ▸ List.Sublist.refl _
  · show (_ ++ ((r.boundaries.dropWhile fun b => b.1 ≤ cut).map fun b => (b.1 - cut, b.2)).map
      Prod.snd).Sublist _
    rw [hdrop]
    exact hall ▸ List.Sublist.refl _
  · exact List.nil_sublist _

/-- A redactor releases the frames it holds from the front, and never one twice. -/
theorem advance_frameIds (e : Engine) (window : ℕ) (r : ChoiceRedactor) (finalChunk : Bool) :
    ((resultOf (r.advance e window finalChunk).1).frameIds ++
      (r.advance e window finalChunk).2.boundaries.map Prod.snd).Sublist
        (r.boundaries.map Prod.snd) := by
  unfold advance
  split
  · exact List.Sublist.refl _
  · split
    · exact List.Sublist.refl _
    · split
      · exact List.nil_sublist _
      · generalize r.chooseCut _ (if finalChunk then 0 else window) = cut
        simp only
        split
        · exact List.Sublist.refl _
        · exact releaseHead_frameIds e r cut

theorem push_frameIds (e : Engine) (window : ℕ) (r : ChoiceRedactor) (fid : ℕ) (text : Text) :
    ((resultOf (r.push e window fid text).1).frameIds ++
      (r.push e window fid text).2.boundaries.map Prod.snd).Sublist
        (r.boundaries.map Prod.snd ++ [fid]) := by
  have happ : (r.append fid text).boundaries.map Prod.snd = r.boundaries.map Prod.snd ++ [fid] := by
    simp [append]
  have h := advance_frameIds e window (r.append fid text) false
  rw [happ] at h
  exact h

end ChoiceRedactor

/-! ## The invariant -/

namespace SseHoldBack

/-- The redactor of a key. -/
def choice (h : SseHoldBack) (key : ContentKey) : ChoiceRedactor := (h.choices.get? key).getD default

theorem choice_settle (h : SseHoldBack) (κ : ContentKey) (res : ChoicePush) (r : ChoiceRedactor)
    (key : ContentKey) :
    (h.settle κ res r).choice key = if key = κ then r else h.choice key := by
  rw [choice, settle_choices, KeyedMap.get?_insert]
  by_cases hκ : key = κ <;> simp [hκ, choice]

/-- A frame has a slot for every write to it, for everything that a key holds of it and for what it
is still to be given, and it awaits the slots that were not written to. -/
structure Owes (log : List Batch) (owed : ContentKey → ℕ) (h : SseHoldBack) (fid : ℕ)
    (frame : Frame) : Prop where
  slots : ∀ κ, (textsOf κ (writesTo fid log)).length + (h.choice κ).held fid + owed κ ≤
    (textsOf κ frame.contributions).length
  awaited : frame.contributions.length ≤ (h.awaiting fid).getD 0 + (writesTo fid log).length

/-- A frame that awaits nothing was written to by every slot, and no key holds it. -/
theorem Owes.ready {log : List Batch} {owed : ContentKey → ℕ} {h : SseHoldBack} {fid : ℕ}
    {frame : Frame} (howes : Owes log owed h fid frame) (hready : h.isReady fid = true)
    (κ : ContentKey) : (textsOf κ (writesTo fid log)).length =
      (textsOf κ frame.contributions).length ∧ (h.choice κ).held fid = 0 := by
  have hzero : (h.awaiting fid).getD 0 = 0 := by simpa [isReady] using hready
  have hle : ∀ κ, (textsOf κ (writesTo fid log)).length ≤
      (textsOf κ frame.contributions).length := by
    intro κ
    have := howes.slots κ
    omega
  have hlen : frame.contributions.length ≤ (writesTo fid log).length := by
    have := howes.awaited
    omega
  have heq := length_textsOf_eq hle hlen κ
  have hslots := howes.slots κ
  exact ⟨heq, by omega⟩

/-- What a queued frame has for the key: nothing it could release on its own, and in its slot what
was written there. -/
def Carries (codec : JsonCodec) (key : ContentKey) (log : List Batch) (fid : ℕ) : Frame → Prop
  | .passthrough raw => (textsOf key (lineContributions codec raw)).flatten = []
  | .data chunk => OneSlot key chunk ∧ (textsOf key (writesTo fid log) = [] ∨
      textsOf key (deltaContents chunk) = textsOf key (writesTo fid log))

/-- The contributions a frame is still to be given. -/
def owing (fid₀ : ℕ) (rest : List (ContentKey × Text)) (fid : ℕ) (κ : ContentKey) : ℕ :=
  if fid = fid₀ then (textsOf κ rest).length else 0

/-- The invariant of a run that has let the frames `left` leave and whose redactors have released
the batches `log`, while the contributions `rest` of the frame `fid₀` are still to be given to their
keys. -/
structure Delivers (codec : JsonCodec) (key : ContentKey) (left : List (ℕ × Frame))
    (log : List Batch) (fid₀ : ℕ) (rest : List (ContentKey × Text)) (h : SseHoldBack) : Prop where
  queue : (left.map Prod.fst ++ h.order).Pairwise (· < ·)
  below : ∀ fid ∈ left.map Prod.fst ++ h.order, fid < h.frameSeq
  fresh : ∀ fid, h.frameSeq ≤ fid → writesTo fid log = [] ∧ ∀ κ, (h.choice κ).held fid = 0
  current : rest = [] ∨ (fid₀ + 1 = h.frameSeq ∧ fid₀ ∈ h.order)
  frames : ∀ fid ∈ h.order, ∃ frame, h.frames fid = some frame ∧
    Owes log (owing fid₀ rest fid) h fid frame ∧ Carries codec key log fid frame
  gone : ∀ fid ∈ left.map Prod.fst, ∀ κ, (h.choice κ).held fid = 0
  sorted : ((keyWrites key log).map Prod.fst ++
    (h.choice key).boundaries.map Prod.snd).Pairwise (· ≤ ·)
  lines : ∀ f ∈ left, (textsOf key (lineContributions codec (f.2.render codec))).flatten =
    (textsOf key (writesTo f.1 log)).flatten

section Settle

variable {codec : JsonCodec} {key κ : ContentKey} {left : List (ℕ × Frame)} {log : List Batch}
  {fid₀ fid : ℕ} {rest rest' : List (ContentKey × Text)} {h : SseHoldBack} {res : ChoicePush}
  {r : ChoiceRedactor} {extra : List ℕ}

theorem textsOf_writesTo_settle (key κ : ContentKey) (fid : ℕ) (log : List Batch)
    (res : ChoicePush) : textsOf key (writesTo fid (log ++ res.batches κ)) =
      textsOf key (writesTo fid log) ++
        if κ = key then (res.writes.filter fun w => w.1 = fid).map Prod.snd else [] := by
  rw [writesTo_append, textsOf_append, res.writesTo_batches, textsOf_map_key]

/-- A frame that a result does not cover gets no new write. -/
theorem writesTo_settle_of_count (hcount : res.frameIds.count fid = 0) :
    writesTo fid (log ++ res.batches κ) = writesTo fid log := by
  have hnil : res.writes.filter (fun w => w.1 = fid) = [] := by
    rw [← List.length_eq_zero_iff, res.length_writes, hcount]
  rw [writesTo_append, res.writesTo_batches, hnil, List.map_nil, List.append_nil]

/-- `κ` was given the frames `extra`, covers those of `res` now and holds the others. -/
def Covers (h : SseHoldBack) (κ : ContentKey) (extra : List ℕ) (res : ChoicePush)
    (r : ChoiceRedactor) : Prop :=
  (res.frameIds ++ r.boundaries.map Prod.snd).Sublist
    ((h.choice κ).boundaries.map Prod.snd ++ extra)

theorem Covers.count_le (hcov : h.Covers κ extra res r) (fid : ℕ) :
    res.frameIds.count fid + r.held fid ≤ (h.choice κ).held fid + extra.count fid := by
  have hle := List.Sublist.count_le fid hcov
  rwa [List.count_append, List.count_append] at hle

theorem Owes.settle {owed owed' : ContentKey → ℕ} {frame : Frame}
    (howes : Owes log owed h fid frame) (hcov : h.Covers κ extra res r)
    (howed : ∀ κ', (if κ' = κ then extra.count fid else 0) + owed' κ' ≤ owed κ') :
    Owes (log ++ res.batches κ) owed' (h.settle κ res r) fid
      (frame.writeAll κ (res.writes.filter fun w => w.1 = fid)) := by
  have hcount := hcov.count_le fid
  constructor
  · intro κ'
    have hslots := howes.slots κ'
    have howed' := howed κ'
    rw [textsOf_writesTo_settle, Frame.length_textsOf_writeAll, choice_settle, List.length_append]
    by_cases hκ : κ' = κ
    · subst hκ
      rw [if_pos rfl] at howed'
      rw [if_pos rfl, if_pos rfl, List.length_map, res.length_writes]
      omega
    · rw [if_neg hκ] at howed'
      rw [if_neg (Ne.symm hκ), if_neg hκ, List.length_nil]
      omega
  · have hawaited := howes.awaited
    have hlen := length_eq_of_textsOf fun κ' =>
      Frame.length_textsOf_writeAll κ' κ (res.writes.filter fun w => w.1 = fid) frame
    have hnew : (writesTo fid (log ++ res.batches κ)).length =
        (writesTo fid log).length + res.frameIds.count fid := by
      rw [writesTo_append, res.writesTo_batches, List.length_append, List.length_map,
        res.length_writes]
    rw [hlen, hnew, settle_awaiting, res.map_fst_writes]
    cases hcase : h.awaiting fid with
    | none =>
      rw [hcase] at hawaited
      simp only [Option.getD_none, Option.map_none] at hawaited ⊢
      omega
    | some count =>
      rw [hcase] at hawaited
      simp only [Option.getD_some, Option.map_some] at hawaited ⊢
      omega

theorem Carries.settle {frame : Frame} (hcarries : Carries codec key log fid frame)
    (hslots : (textsOf key (writesTo fid (log ++ res.batches κ))).length ≤
      (textsOf key frame.contributions).length) :
    Carries codec key (log ++ res.batches κ) fid
      (frame.writeAll κ (res.writes.filter fun w => w.1 = fid)) := by
  rw [textsOf_writesTo_settle, List.length_append] at hslots
  generalize hnew : res.writes.filter (fun w => w.1 = fid) = new at hslots
  cases frame with
  | passthrough raw =>
    have hsame : ∀ ws, Frame.writeAll κ ws (.passthrough raw) = .passthrough raw := by
      intro ws
      induction ws with
      | nil => rfl
      | cons w ws ih => exact ih
    rw [hsame]
    exact hcarries
  | data chunk =>
    obtain ⟨hone, htexts⟩ := hcarries
    by_cases hκ : κ = key
    · subst hκ
      rw [if_pos rfl, List.length_map] at hslots
      have hle := hone.1
      have hchunk : (Frame.data chunk).contributions = deltaContents chunk := rfl
      rw [hchunk] at hslots
      match new, hnew with
      | [], hnew =>
        refine ⟨hone, ?_⟩
        rw [textsOf_writesTo_settle, if_pos rfl, hnew, List.map_nil, List.append_nil]
        exact htexts
      | [w], hnew =>
        -- the one slot takes the one write, and nothing was written before
        have hold : textsOf κ (writesTo fid log) = [] := by
          rw [← List.length_eq_zero_iff]
          simp only [List.length_singleton] at hslots
          omega
        refine ⟨hone.writeSlot κ w.2, Or.inr ?_⟩
        rw [textsOf_writesTo_settle, if_pos rfl, hnew, hold]
        refine hone.textsOf_writeSlot ?_ w.2
        simp only [List.length_singleton] at hslots
        omega
      | _ :: _ :: _, _ =>
        simp only [List.length_cons] at hslots
        omega
    · have hsame : ∀ (ws : List (ℕ × Text)) (c : Json), OneSlot key c →
          ∃ c', Frame.writeAll κ ws (.data c) = .data c' ∧ OneSlot key c' ∧
            textsOf key (deltaContents c') = textsOf key (deltaContents c) := by
        intro ws
        induction ws with
        | nil => exact fun c hc => ⟨c, rfl, hc, rfl⟩
        | cons w ws ih =>
          intro c hc
          obtain ⟨c', hc', hone', htexts'⟩ := ih (writeSlot κ w.2 c) (hc.writeSlot κ w.2)
          exact ⟨c', hc', hone', htexts'.trans (textsOf_writeSlot_of_ne (Ne.symm hκ) w.2 c)⟩
      obtain ⟨c', hc', hone', htexts'⟩ := hsame new chunk hone
      rw [hc']
      refine ⟨hone', ?_⟩
      rw [textsOf_writesTo_settle, if_neg hκ, List.append_nil, htexts']
      exact htexts

/-- Storing and applying the result of a key keeps the invariant. -/
theorem Delivers.settle (hd : Delivers codec key left log fid₀ rest h)
    (hcov : h.Covers κ extra res r)
    (hextra : ∀ fid ∈ extra, fid + 1 = h.frameSeq ∧ fid ∈ h.order)
    (howed : ∀ fid κ', (if κ' = κ then extra.count fid else 0) + owing fid₀ rest' fid κ' ≤
      owing fid₀ rest fid κ')
    (hcurrent : rest' = [] ∨ (fid₀ + 1 = h.frameSeq ∧ fid₀ ∈ h.order)) :
    Delivers codec key left (log ++ res.batches κ) fid₀ rest' (h.settle κ res r) := by
  have hframed := framed_settle h κ res r
  -- a frame that nobody holds and that is not new stays as it was
  have hquiet : ∀ {fid}, (∀ κ, (h.choice κ).held fid = 0) → extra.count fid = 0 →
      writesTo fid (log ++ res.batches κ) = writesTo fid log ∧
        ∀ κ', ((h.settle κ res r).choice κ').held fid = 0 := by
    intro fid hheld hcount
    have hle := hcov.count_le fid
    rw [hheld κ, hcount] at hle
    refine ⟨writesTo_settle_of_count (by omega), fun κ' => ?_⟩
    rw [choice_settle]
    split
    · omega
    · exact hheld κ'
  have hextra_left : ∀ fid ∈ left.map Prod.fst, extra.count fid = 0 := by
    intro fid hfid
    refine List.count_eq_zero.mpr fun hmem => ?_
    have hlt := (List.pairwise_append.mp hd.queue).2.2 fid hfid fid (hextra fid hmem).2
    omega
  refine ⟨?_, ?_, ?_, ?_, ?_, ?_, ?_, ?_⟩
  · rw [hframed.order]
    exact hd.queue
  · rw [hframed.order, hframed.frameSeq]
    exact hd.below
  · intro fid hfid
    rw [hframed.frameSeq] at hfid
    obtain ⟨hwrites, hheld⟩ := hd.fresh fid hfid
    have hcount : extra.count fid = 0 := by
      refine List.count_eq_zero.mpr fun hmem => ?_
      have := (hextra fid hmem).1
      omega
    obtain ⟨hsame, hzero⟩ := hquiet hheld hcount
    exact ⟨hsame.trans hwrites, hzero⟩
  · rw [hframed.frameSeq, hframed.order]
    exact hcurrent
  · intro fid hfid
    rw [hframed.order] at hfid
    obtain ⟨frame, hframe, howes, hcarries⟩ := hd.frames fid hfid
    have howes' := howes.settle hcov (howed fid)
    refine ⟨_, ?_, howes', hcarries.settle ?_⟩
    · show ((h.setChoice κ r).writeAll κ res.writes).frames fid = _
      rw [writeAll_frames]
      show (h.frames fid).map _ = _
      rw [hframe]
      rfl
    · have hslots := howes'.slots key
      rw [Frame.length_textsOf_writeAll] at hslots
      omega
  · intro fid hfid
    exact (hquiet (hd.gone fid hfid) (hextra_left fid hfid)).2
  · rw [keyWrites_append, res.keyWrites_batches, choice_settle]
    by_cases hκ : key = κ
    · subst hκ
      rw [if_pos rfl, if_pos rfl, List.map_append, res.map_fst_writes, List.append_assoc]
      refine List.Pairwise.sublist (hcov.append_left _) ?_
      rw [← List.append_assoc]
      refine List.pairwise_append.mpr ⟨hd.sorted, ?_, fun x hx y hy => ?_⟩
      · refine List.pairwise_of_forall_mem_list fun x hx y hy => ?_
        have h1 := (hextra x hx).1
        have h2 := (hextra y hy).1
        omega
      · -- what was written or is held is older than the frame that is being read
        have hlt : x < h.frameSeq := by
          by_contra hge
          obtain ⟨hwrites, hheld⟩ := hd.fresh x (by omega)
          rcases List.mem_append.mp hx with hx | hx
          · obtain ⟨w, hw, rfl⟩ := List.mem_map.mp hx
            have hmem : w.2 ∈ textsOf key (writesTo w.1 log) := by
              rw [textsOf_writesTo]
              exact List.mem_map_of_mem (List.mem_filter.mpr ⟨hw, by simp⟩)
            rw [hwrites] at hmem
            cases hmem
          · have hpos : 0 < (h.choice key).held x := List.count_pos_iff.mpr hx
            have := hheld key
            omega
        have hy' := (hextra y hy).1
        omega
    · rw [if_neg (Ne.symm hκ), if_neg hκ, List.append_nil]
      exact hd.sorted
  · intro f hf
    have hfid : f.1 ∈ left.map Prod.fst := List.mem_map_of_mem hf
    rw [(hquiet (hd.gone f.1 hfid) (hextra_left f.1 hfid)).1]
    exact hd.lines f hf

end Settle

/-! ## The operations keep the invariant -/

section Operations

variable {codec : JsonCodec} {e : Engine} {key : ContentKey} {left : List (ℕ × Frame)}
  {log : List Batch} {fid₀ : ℕ} {rest : List (ContentKey × Text)} {h : SseHoldBack}

/-- Contributions that are never given to their keys do no harm: their frame stays. -/
theorem Delivers.stop (hd : Delivers codec key left log fid₀ rest h) :
    Delivers codec key left log 0 [] h := by
  refine ⟨hd.queue, hd.below, hd.fresh, Or.inl rfl, fun fid hfid => ?_, hd.gone, hd.sorted, hd.lines⟩
  obtain ⟨frame, hframe, howes, hcarries⟩ := hd.frames fid hfid
  refine ⟨frame, hframe, ⟨fun κ => ?_, howes.awaited⟩, hcarries⟩
  have hslots := howes.slots κ
  have hnone : owing 0 [] fid κ = 0 := by simp [owing, textsOf]
  omega

/-- A frame joins the queue with all its contributions still to be given. -/
theorem Delivers.enqueue (hd : Delivers codec key left log 0 [] h) (frame : Frame)
    (awaiting : ℕ → Option ℕ) {count : ℕ}
    (hawaiting : ∀ fid, fid ≠ h.frameSeq → awaiting fid = h.awaiting fid)
    (hlen : frame.contributions.length ≤ (awaiting h.frameSeq).getD 0)
    (hcarries : Carries codec key [] h.frameSeq frame) :
    Delivers codec key left log h.frameSeq frame.contributions
      { h.enqueue frame with awaiting := awaiting, opaqueRedactions := count } := by
  obtain ⟨hnone, hheld⟩ := hd.fresh h.frameSeq le_rfl
  refine ⟨?_, ?_, ?_, Or.inr ⟨rfl, by simp [SseHoldBack.enqueue]⟩, ?_, hd.gone, hd.sorted, hd.lines⟩
  · show (left.map Prod.fst ++ (h.order ++ [h.frameSeq])).Pairwise (· < ·)
    rw [← List.append_assoc]
    refine List.pairwise_append.mpr ⟨hd.queue, List.pairwise_singleton _ _, ?_⟩
    intro fid hfid new hnew
    have hlt := hd.below fid hfid
    rw [List.mem_singleton] at hnew
    omega
  · show ∀ fid ∈ left.map Prod.fst ++ (h.order ++ [h.frameSeq]), fid < h.frameSeq + 1
    intro fid hfid
    rw [← List.append_assoc, List.mem_append, List.mem_singleton] at hfid
    rcases hfid with hfid | rfl
    · have := hd.below fid hfid
      omega
    · omega
  · intro fid hfid
    have hge : h.frameSeq + 1 ≤ fid := hfid
    exact hd.fresh fid (by omega)
  · intro fid hfid
    have hfid : fid ∈ h.order ++ [h.frameSeq] := hfid
    rw [List.mem_append, List.mem_singleton] at hfid
    by_cases hnew : fid = h.frameSeq
    · subst hnew
      refine ⟨frame, by simp [SseHoldBack.enqueue], ⟨fun κ => ?_, ?_⟩, ?_⟩
      · have hzero := hheld κ
        rw [hnone]
        show 0 + (h.choice κ).held h.frameSeq + owing h.frameSeq _ h.frameSeq κ ≤ _
        rw [hzero, owing, if_pos rfl]
        omega
      · rw [hnone]
        exact hlen
      · cases frame with
        | passthrough raw => exact hcarries
        | data chunk => exact ⟨hcarries.1, Or.inl (by rw [hnone]; rfl)⟩
    · obtain ⟨queued, hframe, howes, hqueued⟩ := hd.frames fid (hfid.resolve_right hnew)
      refine ⟨queued, ?_, ⟨fun κ => ?_, ?_⟩, hqueued⟩
      · show Function.update h.frames h.frameSeq (some frame) fid = some queued
        rw [Function.update_of_ne hnew, hframe]
      · have hslots := howes.slots κ
        have hzero : owing h.frameSeq frame.contributions fid κ = 0 := if_neg hnew
        rw [hzero]
        show _ + (h.choice κ).held fid + 0 ≤ _
        omega
      · show _ ≤ (awaiting fid).getD 0 + _
        rw [hawaiting fid hnew]
        exact howes.awaited

/-- The invariant looks at the queue, at the keys and at which frame ids were taken. -/
theorem Delivers.same (hd : Delivers codec key left log 0 [] h) {h' : SseHoldBack}
    (horder : h'.order = h.order) (hframes : h'.frames = h.frames)
    (hawaiting : h'.awaiting = h.awaiting) (hchoices : h'.choices = h.choices)
    (hseq : h.frameSeq ≤ h'.frameSeq) : Delivers codec key left log 0 [] h' := by
  have hchoice : ∀ κ, h'.choice κ = h.choice κ := fun κ => by rw [choice, choice, hchoices]
  refine ⟨?_, fun fid hfid => ?_, fun fid hfid => ?_, Or.inl rfl, fun fid hfid => ?_,
    fun fid hfid κ => ?_, ?_, hd.lines⟩
  · rw [horder]
    exact hd.queue
  · rw [horder] at hfid
    exact lt_of_lt_of_le (hd.below fid hfid) hseq
  · obtain ⟨hwrites, hheld⟩ := hd.fresh fid (le_trans hseq hfid)
    exact ⟨hwrites, fun κ => by rw [hchoice, hheld]⟩
  · rw [horder] at hfid
    obtain ⟨frame, hframe, howes, hcarries⟩ := hd.frames fid hfid
    refine ⟨frame, by rw [hframes, hframe], ⟨fun κ => ?_, ?_⟩, hcarries⟩
    · rw [hchoice]
      exact howes.slots κ
    · rw [hawaiting]
      exact howes.awaited
  · rw [hchoice]
    exact hd.gone fid hfid κ
  · rw [hchoice]
    exact hd.sorted

theorem Delivers.block (hd : Delivers codec key left log 0 [] h) :
    Delivers codec key left log 0 [] h.block := by
  have hqueue := (List.pairwise_append.mp hd.queue).1
  refine ⟨by simpa [SseHoldBack.block] using hqueue, fun fid hfid => ?_, fun fid hfid => ?_,
    Or.inl rfl, by simp [SseHoldBack.block], fun _ _ _ => rfl, ?_, hd.lines⟩
  · have hleft : fid ∈ left.map Prod.fst := by simpa [SseHoldBack.block] using hfid
    exact hd.below fid (List.mem_append_left _ hleft)
  · exact ⟨(hd.fresh fid hfid).1, fun _ => rfl⟩
  · have hsorted := (List.pairwise_append.mp hd.sorted).1
    have hempty : (h.block.choice key).boundaries = [] := rfl
    simpa [hempty] using hsorted

theorem Delivers.pushContributions {fid : ℕ} {cs : List (ContentKey × Text)}
    (hd : Delivers codec key left log fid cs h) :
    Delivers codec key left (log ++ pushBatches e fid cs h) 0 []
      (SseHoldBack.pushContributions e fid cs h).2 := by
  induction cs generalizing h log with
  | nil =>
    rw [pushBatches, List.append_nil]
    exact hd.stop
  | cons c cs ih =>
    obtain ⟨κ, content⟩ := c
    have hcurrent : fid + 1 = h.frameSeq ∧ fid ∈ h.order := by
      rcases hd.current with hnil | hcurrent
      · cases hnil
      · exact hcurrent
    obtain ⟨v, r, hpush⟩ : ∃ v r, ((h.choices.get? κ).getD default).push e h.window fid content =
        (v, r) := ⟨_, _, rfl⟩
    have hcov : h.Covers κ [fid] (resultOf v) r := by
      have hsub := (h.choice κ).push_frameIds e h.window fid content
      rw [choice, hpush] at hsub
      exact hsub
    have hnext : Delivers codec key left (log ++ (resultOf v).batches κ) fid cs
        (h.settle κ (resultOf v) r) := by
      refine hd.settle hcov (fun f hf => ?_) (fun f κ' => ?_) (Or.inr hcurrent)
      · rw [List.mem_singleton] at hf
        rw [hf]
        exact hcurrent
      · rw [owing, owing, textsOf_cons]
        by_cases hf : f = fid
        · subst hf
          by_cases hκ : κ' = κ
          · simp [hκ, Nat.add_comm]
          · simp [hκ, Ne.symm hκ]
        · simp [hf, Ne.symm hf]
    -- the result decides whether the loop goes on
    cases v with
    | error err =>
      simp only [pushBatches, SseHoldBack.pushContributions, hpush]
      exact hnext.stop
    | ok res =>
      cases res with
      | nothing =>
        simp only [pushBatches, SseHoldBack.pushContributions, hpush]
        have hsame : Delivers codec key left (log ++ []) fid cs (h.setChoice κ r) := hnext
        rw [List.append_nil] at hsame
        exact ih hsame
      | blocked es =>
        simp only [pushBatches, SseHoldBack.pushContributions, hpush]
        exact hnext.stop
      | release text ids =>
        simp only [pushBatches, SseHoldBack.pushContributions, hpush, applyRelease_eq]
        rw [← List.singleton_append, ← List.append_assoc]
        exact ih hnext

/-- A line that `set_delta_content` can address for a key: its chunk has one slot of it at most, and
that is the slot that is found. A line that is not JSON has nothing for the key once it is scanned. -/
def Addressed (codec : JsonCodec) (e : Engine) (key : ContentKey) (line : Text) : Prop :=
  match classifyLine codec line with
  | .data chunk => OneSlot key chunk
  | .passthrough => True
  | .opaqueText => ∀ text ∈ opaqueTexts codec e key line, text = []

theorem Delivers.ingestLine (hd : Delivers codec key left log 0 [] h) {line : Text}
    (hline : Addressed codec e key line) :
    Delivers codec key left (log ++ lineBatches codec e h line) 0 []
      (SseHoldBack.ingestLine codec e h line).2 := by
  have hpass : ∀ {raw : Text} {count : ℕ},
      (textsOf key (lineContributions codec raw)).flatten = [] →
      Delivers codec key left log 0 []
        { h.enqueue (.passthrough raw) with opaqueRedactions := count } := by
    intro raw count hraw
    exact (hd.enqueue (.passthrough raw) h.awaiting (fun _ _ => rfl)
      (Nat.zero_le _) hraw).stop
  cases hclass : classifyLine codec line with
  | passthrough =>
    simp only [SseHoldBack.ingestLine, lineBatches, hclass, List.append_nil]
    refine hpass ?_
    rw [lineContributions, hclass]
    rfl
  | opaqueText =>
    simp only [Addressed, opaqueTexts, hclass] at hline
    simp only [SseHoldBack.ingestLine, lineBatches, hclass, List.append_nil]
    split
    · exact hd.same rfl rfl rfl rfl (Nat.le_succ _)
    · refine hpass ?_
      rw [lineContributions, hclass]
      rfl
    · rename_i text count hscan
      have htext : e.redactedText line = text := by rw [Engine.redactedText, hscan]; rfl
      rw [htext] at hline
      exact hpass (List.flatten_eq_nil_iff.mpr hline)
    · exact hd.same rfl rfl rfl rfl (Nat.le_succ _)
  | data chunk =>
    simp only [Addressed, hclass] at hline
    simp only [SseHoldBack.ingestLine, lineBatches, hclass]
    split
    · rename_i hnil
      rw [hnil, pushBatches, List.append_nil]
      have hlen : (Frame.data chunk).contributions.length ≤ (h.awaiting h.frameSeq).getD 0 := by
        show (deltaContents chunk).length ≤ _
        rw [hnil]
        exact Nat.zero_le _
      exact (hd.enqueue (.data chunk) h.awaiting (fun _ _ => rfl) hlen
        ⟨hline, Or.inl rfl⟩).stop
    · refine Delivers.pushContributions ?_
      refine hd.enqueue (.data chunk) _ (fun fid hfid => ?_) ?_ ⟨hline, Or.inl rfl⟩
      · exact Function.update_of_ne hfid _ _
      · rw [Function.update_self]
        exact le_rfl

theorem Delivers.pushLoop (hd : Delivers codec key left log 0 [] h) (fuel : ℕ)
    (hread : ∀ line ∈ (loopLog codec e fuel h).1, Addressed codec e key line) :
    Delivers codec key left (log ++ (loopLog codec e fuel h).2) 0 []
      (SseHoldBack.pushLoop codec e fuel h).2 := by
  induction fuel generalizing h log with
  | zero =>
    rw [loopLog, List.append_nil]
    exact hd
  | succ fuel ih =>
    cases hsplit : splitLine h.lineBuf with
    | none =>
      simp only [loopLog, SseHoldBack.pushLoop, hsplit, List.append_nil]
      exact hd
    | some parts =>
      obtain ⟨line, buf⟩ := parts
      simp only [loopLog, SseHoldBack.pushLoop, hsplit] at hread ⊢
      obtain ⟨hline, hmore⟩ := List.forall_mem_cons.mp hread
      have hbuf : Delivers codec key left log 0 [] { h with lineBuf := buf } :=
        hd.same rfl rfl rfl rfl le_rfl
      have hnext := hbuf.ingestLine hline
      obtain ⟨v, h', hv⟩ : ∃ v h', SseHoldBack.ingestLine codec e { h with lineBuf := buf } line =
          (v, h') := ⟨_, _, rfl⟩
      simp only [hv] at hmore hnext ⊢
      rw [← List.append_assoc]
      rcases v with err | none | es
      · simpa using hnext
      · exact ih hnext hmore
      · simpa using hnext

theorem Delivers.flushChoice (hd : Delivers codec key left log 0 [] h) (κ : ContentKey)
    (fuel : ℕ) : Delivers codec key left (log ++ choiceBatches e κ fuel h) 0 []
      (SseHoldBack.flushChoice e κ fuel h).2 := by
  induction fuel generalizing h log with
  | zero =>
    rw [choiceBatches, List.append_nil]
    exact hd
  | succ fuel ih =>
    cases hget : h.choices.get? κ with
    | none =>
      simp only [choiceBatches, SseHoldBack.flushChoice, hget, List.append_nil]
      exact hd
    | some choice =>
      obtain ⟨v, r, hflush⟩ : ∃ v r, choice.flush e h.window = (v, r) := ⟨_, _, rfl⟩
      have hcov : h.Covers κ [] (resultOf v) r := by
        have hsub := choice.advance_frameIds e h.window true
        rw [← ChoiceRedactor.flush, hflush] at hsub
        rw [Covers, SseHoldBack.choice, hget, Option.getD_some, List.append_nil]
        exact hsub
      have hnext : Delivers codec key left (log ++ (resultOf v).batches κ) 0 []
          (h.settle κ (resultOf v) r) := by
        refine hd.settle hcov (by simp) (fun f κ' => ?_) (Or.inl rfl)
        simp
      cases v with
      | error err =>
        simp only [choiceBatches, SseHoldBack.flushChoice, hget, hflush]
        exact hnext
      | ok res =>
        cases res with
        | nothing =>
          simp only [choiceBatches, SseHoldBack.flushChoice, hget, hflush]
          exact hnext
        | blocked es =>
          simp only [choiceBatches, SseHoldBack.flushChoice, hget, hflush]
          exact hnext
        | release text ids =>
          simp only [choiceBatches, SseHoldBack.flushChoice, hget, hflush, applyRelease_eq]
          rw [← List.singleton_append, ← List.append_assoc]
          exact ih hnext

theorem Delivers.flushKeys (hd : Delivers codec key left log 0 [] h) (keys : List ContentKey) :
    Delivers codec key left (log ++ keysBatches e keys h) 0 []
      (SseHoldBack.flushKeys e keys h).2 := by
  induction keys generalizing h log with
  | nil =>
    rw [keysBatches, List.append_nil]
    exact hd
  | cons κ keys ih =>
    have hnext := hd.flushChoice (e := e) κ ((h.pendingOf κ).length + 1)
    simp only [keysBatches, SseHoldBack.flushKeys]
    obtain ⟨v, h', hv⟩ : ∃ v h', SseHoldBack.flushChoice e κ ((h.pendingOf κ).length + 1) h =
        (v, h') := ⟨_, _, rfl⟩
    simp only [hv] at hnext ⊢
    rw [← List.append_assoc]
    rcases v with err | none | es
    · simpa using hnext
    · exact ih hnext
    · simpa using hnext

/-- The frames that leave, with their ids. -/
theorem Delivers.map_fst_leaving (hd : Delivers codec key left log 0 [] h) :
    (leaving (.ok none, h)).map Prod.fst = h.order.takeWhile h.isReady := by
  have hsome : ∀ fid ∈ h.order.takeWhile h.isReady, ∃ frame, h.frames fid = some frame :=
    fun fid hfid =>
      let ⟨frame, hframe, _⟩ := hd.frames fid ((List.takeWhile_prefix _).subset hfid)
      ⟨frame, hframe⟩
  show ((h.order.takeWhile h.isReady).filterMap _).map Prod.fst = _
  generalize h.order.takeWhile h.isReady = popped at hsome
  induction popped with
  | nil => rfl
  | cons fid popped ih =>
    obtain ⟨hfid, hpopped⟩ := List.forall_mem_cons.mp hsome
    obtain ⟨frame, hframe⟩ := hfid
    simp [hframe, ih hpopped]

theorem readyText_eq (codec : JsonCodec) (h : SseHoldBack) :
    h.readyText codec = ((leaving (.ok none, h)).map fun f => f.2.render codec).flatten := by
  rw [readyText, leaving]
  induction h.order.takeWhile h.isReady with
  | nil => rfl
  | cons fid popped ih =>
    rw [List.flatMap_cons, ih, renderAt]
    cases hframe : h.frames fid <;> simp [hframe]

/-- A drain lets only frames leave that every slot was written to. -/
theorem Delivers.drain (hd : Delivers codec key left log 0 [] h)
    (hback : ∀ f ∈ leaving (.ok none, h), ∀ chunk, f.2 = .data chunk → ReadsBack codec chunk) :
    Delivers codec key (left ++ leaving (.ok none, h)) log 0 [] (h.drainReady codec).2 := by
  have hnodup : h.order.Nodup :=
    ((List.pairwise_append.mp hd.queue).2.1).imp fun hlt => Nat.ne_of_lt hlt
  have hsplit : h.order.takeWhile h.isReady ++ h.order.dropWhile h.isReady = h.order :=
    List.takeWhile_append_dropWhile
  have hids : (left ++ leaving (.ok none, h)).map Prod.fst ++ h.order.dropWhile h.isReady =
      left.map Prod.fst ++ h.order := by
    rw [List.map_append, hd.map_fst_leaving, List.append_assoc, hsplit]
  rw [drainReady_eq codec h hnodup]
  -- what holds of a frame that leaves
  have hpopped : ∀ fid ∈ h.order.takeWhile h.isReady, ∃ frame, h.frames fid = some frame ∧
      Carries codec key log fid frame ∧ ∀ κ, (textsOf κ (writesTo fid log)).length =
        (textsOf κ frame.contributions).length ∧ (h.choice κ).held fid = 0 := by
    intro fid hfid
    obtain ⟨frame, hframe, howes, hcarries⟩ :=
      hd.frames fid ((List.takeWhile_prefix _).subset hfid)
    exact ⟨frame, hframe, hcarries, howes.ready (List.mem_takeWhile_imp hfid)⟩
  refine ⟨?_, ?_, hd.fresh, Or.inl rfl, ?_, ?_, hd.sorted, ?_⟩
  · show (_ ++ h.order.dropWhile h.isReady).Pairwise (· < ·)
    rw [hids]
    exact hd.queue
  · show ∀ fid ∈ _ ++ h.order.dropWhile h.isReady, fid < h.frameSeq
    rw [hids]
    exact hd.below
  · intro fid hfid
    have hrest : fid ∈ h.order.dropWhile h.isReady := hfid
    have hnot : fid ∉ h.order.takeWhile h.isReady := by
      intro hmem
      rw [← hsplit] at hnodup
      exact (List.nodup_append.mp hnodup).2.2 fid hmem fid hrest rfl
    obtain ⟨frame, hframe, howes, hcarries⟩ :=
      hd.frames fid ((List.dropWhile_suffix _).subset hrest)
    refine ⟨frame, ?_, ⟨howes.slots, ?_⟩, hcarries⟩
    · show (if fid ∈ h.order.takeWhile h.isReady then none else h.frames fid) = some frame
      rw [if_neg hnot, hframe]
    · show _ ≤ (if fid ∈ h.order.takeWhile h.isReady then none else h.awaiting fid).getD 0 + _
      rw [if_neg hnot]
      exact howes.awaited
  · intro fid hfid κ
    rw [List.map_append, List.mem_append, hd.map_fst_leaving] at hfid
    rcases hfid with hfid | hfid
    · exact hd.gone fid hfid κ
    · obtain ⟨_, _, _, hready⟩ := hpopped fid hfid
      exact (hready κ).2
  · intro f hf
    rcases List.mem_append.mp hf with hf | hf
    · exact hd.lines f hf
    · have hread := hback f hf
      obtain ⟨fid, hfid, hpair⟩ := List.mem_filterMap.mp hf
      obtain ⟨frame, hframe, hcarries, hready⟩ := hpopped fid hfid
      rw [hframe, Option.map_some, Option.some.injEq] at hpair
      subst hpair
      cases frame with
      | passthrough raw =>
        have hnone : textsOf key (writesTo fid log) = [] := by
          rw [← List.length_eq_zero_iff, (hready key).1]
          rfl
        rw [hnone]
        exact hcarries
      | data chunk =>
        rw [hread chunk rfl]
        rcases hcarries.2 with hnil | htexts
        · have hlen := (hready key).1
          rw [hnil] at hlen ⊢
          have hempty : textsOf key (deltaContents chunk) = [] :=
            List.length_eq_zero_iff.mp hlen.symm
          rw [hempty]
        · rw [htexts]

/-- How a call ends. -/
theorem Delivers.finish {v : Except Error (Option (List String))}
    (hd : Delivers codec key left log 0 [] h)
    (hback : ∀ f ∈ leaving (v, h), ∀ chunk, f.2 = .data chunk → ReadsBack codec chunk) :
    Delivers codec key (left ++ leaving (v, h)) log 0 [] (SseHoldBack.finish codec (v, h)).2 ∧
      released (SseHoldBack.finish codec (v, h)).1 =
        ((leaving (v, h)).map fun f => f.2.render codec).flatten := by
  match v, hback with
  | .error err, _ =>
    refine ⟨?_, rfl⟩
    rw [leaving, List.append_nil]
    · exact hd
    · simp
  | .ok (some es), _ =>
    refine ⟨?_, rfl⟩
    rw [leaving, List.append_nil]
    · exact hd.block
    · simp
  | .ok none, hback =>
    refine ⟨hd.drain hback, ?_⟩
    have hnodup : h.order.Nodup :=
      ((List.pairwise_append.mp hd.queue).2.1).imp fun hlt => Nat.ne_of_lt hlt
    show released (.ok (SseEmit.ofText (h.drainReady codec).1)) = _
    rw [released_ofText, drainReady_eq codec h hnodup]
    exact readyText_eq codec h

/-- A call keeps the invariant, and answers the lines of the frames it lets leave. -/
theorem Delivers.call (hd : Delivers codec key left log 0 [] h) (call : Call)
    (hread : ∀ line ∈ (call.trace codec e h).read, Addressed codec e key line)
    (hback : ∀ f ∈ (call.trace codec e h).left, ∀ chunk, f.2 = .data chunk →
      ReadsBack codec chunk) :
    Delivers codec key (left ++ (call.trace codec e h).left)
        (log ++ (call.trace codec e h).batches) 0 [] (call.answer codec e h).2 ∧
      released (call.answer codec e h).1 = ((call.trace codec e h).lines codec).flatten := by
  by_cases hblocked : h.blocked = true
  · have htrace : call.trace codec e h = ⟨[], [], []⟩ := by
      cases call <;> simp [Call.trace, hblocked]
    have hanswer : call.answer codec e h = (.ok .nothing, h) := by
      cases call <;> simp [Call.answer, push, flush, hblocked]
    rw [htrace, hanswer, List.append_nil, List.append_nil]
    exact ⟨hd, rfl⟩
  · cases call with
    | push text =>
      simp only [Call.trace, if_neg hblocked] at hread hback ⊢
      simp only [Call.answer, push, if_neg hblocked]
      have hbuf : Delivers codec key left log 0 [] { h with lineBuf := h.lineBuf ++ text } :=
        hd.same rfl rfl rfl rfl le_rfl
      exact (hbuf.pushLoop _ hread).finish hback
    | flush order =>
      -- the rest of the buffer is read as a line of its own
      have hrest : ∀ line ∈ (if h.lineBuf = [] then [] else [h.lineBuf]),
          Addressed codec e key line := by
        intro line hline
        refine hread line ?_
        simp only [Call.trace, if_neg hblocked]
        split <;> exact hline
      have hnext : Delivers codec key left (log ++ (if h.lineBuf = [] then [] else
          [h.lineBuf]).flatMap (lineBatches codec e { h with lineBuf := [] })) 0 []
          (ingestRest codec e h).2 := by
        have hbuf : Delivers codec key left log 0 [] { h with lineBuf := [] } :=
          hd.same rfl rfl rfl rfl le_rfl
        by_cases hnil : h.lineBuf = []
        · simpa [ingestRest, hnil] using hd
        · rw [if_neg hnil, List.flatMap_singleton, ingestRest, if_neg hnil]
          exact hbuf.ingestLine (hrest _ (by simp [hnil]))
      obtain ⟨v, h', hv⟩ : ∃ v h', ingestRest codec e h = (v, h') := ⟨_, _, rfl⟩
      simp only [Call.trace, if_neg hblocked, hv] at hback ⊢
      simp only [Call.answer, flush, if_neg hblocked, hv]
      rw [hv] at hnext
      rcases v with err | none | es
      · exact hnext.finish (v := .error err) hback
      · have hkeys := hnext.flushKeys (e := e) (order.visit h'.choices.keys)
        rw [List.append_assoc] at hkeys
        exact hkeys.finish hback
      · exact hnext.finish (v := .ok (some es)) hback

theorem Delivers.calls (hd : Delivers codec key left log 0 [] h) (calls : List Call)
    (hread : ∀ line ∈ (trace codec e calls h).read, Addressed codec e key line)
    (hback : ∀ f ∈ (trace codec e calls h).left, ∀ chunk, f.2 = .data chunk →
      ReadsBack codec chunk) :
    Delivers codec key (left ++ (trace codec e calls h).left)
        (log ++ (trace codec e calls h).batches) 0 [] (answers codec e calls h).2 ∧
      (answers codec e calls h).1.flatMap released =
        ((trace codec e calls h).lines codec).flatten := by
  induction calls generalizing h left log with
  | nil =>
    simp only [trace, answers, List.append_nil]
    exact ⟨hd, rfl⟩
  | cons call calls ih =>
    simp only [trace, Trace.append, List.mem_append] at hread hback
    obtain ⟨hnext, hout⟩ := hd.call call (fun line hline => hread line (Or.inl hline))
      (fun f hf => hback f (Or.inl hf))
    obtain ⟨hend, houts⟩ := ih hnext (fun line hline => hread line (Or.inr hline))
      (fun f hf => hback f (Or.inr hf))
    refine ⟨?_, ?_⟩
    · rw [List.append_assoc, List.append_assoc] at hend
      exact hend
    · show released _ ++ (answers codec e calls _).1.flatMap released = _
      rw [hout, houts]
      simp [trace, Trace.append, Trace.lines]

end Operations

end SseHoldBack

end Governance
