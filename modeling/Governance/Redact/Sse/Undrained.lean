import Governance.Redact.Sse.Queue

/-!
# The redactor without its drains

A redactor that never drained would hold every frame of the stream, frame `i` for line `i`.
This file compares the redactor of the source with that undrained one.

The queue is in balance with the keys: a frame awaits as many resolutions as the keys hold
contributions of it (`Accounted`). A frame that awaits none is therefore held by no key and
is never rewritten (`Extends`), so it makes no difference when it leaves the queue
(`Drained`). Whatever the drains, the text released so far is the text of the undrained
queue's ready frames.
-/

namespace Governance

open Utf8Text
open String (utf8Len)

namespace SseHoldBack

/-! ## The account of awaited resolutions -/

/-- The queue is in balance with the keys. `owed` contributions of the frame `fid₀` have
not reached their key yet. -/
structure Accounted (h : SseHoldBack) (fid₀ owed : ℕ) : Prop where
  holds : ∀ key r, h.choices.get? key = some r → ∃ pieces, r.Holds pieces
  balance : ∀ fid, (h.awaiting fid).getD 0 =
    h.choices.sumBy (ChoiceRedactor.held fid) + if fid = fid₀ then owed else 0

/-- The contributions of a key, none when the key is new. -/
theorem Accounted.exists_pieces {h : SseHoldBack} {fid₀ owed : ℕ} (hacc : h.Accounted fid₀ owed)
    (key : ContentKey) : ∃ pieces, ((h.choices.get? key).getD default).Holds pieces ∧
      ∀ fid, (pieces.map Prod.snd).count fid =
        (h.choices.get? key).elim 0 (ChoiceRedactor.held fid) := by
  cases hkey : h.choices.get? key with
  | none => exact ⟨[], ChoiceRedactor.holds_default, by simp⟩
  | some r =>
    obtain ⟨pieces, hpieces⟩ := hacc.holds key r hkey
    exact ⟨pieces, hpieces, fun fid => (hpieces.held fid).symm⟩


/-- The writes of a result are of frames the key held a contribution of. -/
theorem mem_of_mem_writes {e : Engine} {window : ℕ} {pieces : List (Text × ℕ)} {res : ChoicePush}
    {r : ChoiceRedactor} (hadv : ChoiceRedactor.Advances e window pieces res r) {fid : ℕ}
    (hfid : fid ∈ res.writes.map Prod.fst) : fid ∈ pieces.map Prod.snd := by
  cases hadv with
  | hold h => simp [ChoicePush.writes] at hfid
  | release h =>
    rw [ChoicePush.writes, map_fst_releaseWrites] at hfid
    rw [h.split, List.map_append]
    exact List.mem_append_left _ hfid

/-- A result neither loses nor invents a contribution: it writes it or still holds it. -/
theorem count_writes_add_held {e : Engine} {window : ℕ} {pieces : List (Text × ℕ)}
    {res : ChoicePush} {r : ChoiceRedactor} (hadv : ChoiceRedactor.Advances e window pieces res r)
    (fid : ℕ) : (res.writes.map Prod.fst).count fid + r.held fid =
      (pieces.map Prod.snd).count fid := by
  cases hadv with
  | hold h => simp [ChoicePush.writes, h.held]
  | release h =>
    rw [ChoicePush.writes, map_fst_releaseWrites, h.holds.held, h.split, List.map_append,
      List.count_append]

section Settle

variable {e : Engine} {window : ℕ} {h : SseHoldBack} {fid₀ owed added : ℕ} {key : ContentKey}
  {pieces : List (Text × ℕ)} {res : ChoicePush} {r : ChoiceRedactor}

/-- Settling a key's result keeps the account, also when the key was just given `added`
contributions of the current frame. -/
theorem Accounted.settle (hacc : h.Accounted fid₀ (owed + added))
    (hpieces : ∀ fid, (pieces.map Prod.snd).count fid =
      (h.choices.get? key).elim 0 (ChoiceRedactor.held fid) + if fid = fid₀ then added else 0)
    (hadv : ChoiceRedactor.Advances e window pieces res r) :
    (h.settle key res r).Accounted fid₀ owed := by
  constructor
  · intro key' r' hr'
    rw [settle_choices, KeyedMap.get?_insert] at hr'
    split at hr'
    · obtain rfl : r = r' := by simpa using hr'
      cases hadv with
      | hold h => exact ⟨_, h⟩
      | release h => exact ⟨_, h.holds⟩
    · exact hacc.holds key' r' hr'
  · intro fid
    have hbal := hacc.balance fid
    have hsum := KeyedMap.sumBy_insert (ChoiceRedactor.held fid) h.choices key r
    have hcount := count_writes_add_held hadv fid
    rw [hpieces fid] at hcount
    rw [settle_awaiting, settle_choices]
    have hsub : ((h.awaiting fid).map (· - (res.writes.map Prod.fst).count fid)).getD 0 =
        (h.awaiting fid).getD 0 - (res.writes.map Prod.fst).count fid := by
      cases h.awaiting fid <;> simp
    rw [hsub]
    split at hbal <;> split at hcount <;> split <;> omega

/-- A ready frame is not among the frames a result writes. -/
theorem Accounted.notMem_writes (hacc : h.Accounted fid₀ (owed + added))
    (hpieces : ∀ fid, (pieces.map Prod.snd).count fid =
      (h.choices.get? key).elim 0 (ChoiceRedactor.held fid) + if fid = fid₀ then added else 0)
    (hadv : ChoiceRedactor.Advances e window pieces res r) {fid : ℕ}
    (hready : h.isReady fid = true) : fid ∉ res.writes.map Prod.fst := by
  intro hmem
  have hpos := List.count_pos_iff.mpr (mem_of_mem_writes hadv hmem)
  have hbal := hacc.balance fid
  rw [show (h.awaiting fid).getD 0 = 0 by simpa [isReady] using hready] at hbal
  have hsum : h.choices.sumBy (ChoiceRedactor.held fid) = 0 := by omega
  have hheld : (h.choices.get? key).elim 0 (ChoiceRedactor.held fid) = 0 := by
    cases hkey : h.choices.get? key with
    | none => rfl
    | some r' => exact KeyedMap.eq_zero_of_sumBy_eq_zero hsum hkey
  rw [hpieces fid, hheld] at hpos
  split at hbal <;> split at hpos <;> omega

end Settle

/-! ## Later states of the undrained redactor -/

/-- `U'` is `U` after more of the stream: what was ready is ready still, and unchanged. -/
structure Extends (U U' : SseHoldBack) : Prop where
  order : U.order <+: U'.order
  kept : ∀ fid ∈ U.order, U.isReady fid = true →
    U'.isReady fid = true ∧ U'.frames fid = U.frames fid

theorem Extends.refl (U : SseHoldBack) : Extends U U := ⟨List.prefix_rfl, fun _ _ h => ⟨h, rfl⟩⟩

theorem Extends.trans {U V W : SseHoldBack} (huv : Extends U V) (hvw : Extends V W) :
    Extends U W where
  order := huv.order.trans hvw.order
  kept := by
    intro fid hfid hready
    obtain ⟨hreadyV, hframeV⟩ := huv.kept fid hfid hready
    obtain ⟨hreadyW, hframeW⟩ := hvw.kept fid (huv.order.subset hfid) hreadyV
    exact ⟨hreadyW, hframeW.trans hframeV⟩

/-- What has been released is never taken back. -/
theorem Extends.readyText_grows {U U' : SseHoldBack} (h : Extends U U') (codec : JsonCodec) :
    U.readyText codec <+: U'.readyText codec := by
  obtain ⟨ext, hext⟩ := h.order
  have hready : ∀ fid ∈ U.order.takeWhile U.isReady, U'.isReady fid = true ∧
      U'.renderAt codec fid = U.renderAt codec fid := by
    intro fid hfid
    obtain ⟨hr, hf⟩ := h.kept fid (List.takeWhile_subset U.isReady hfid)
      (List.mem_takeWhile_imp hfid)
    exact ⟨hr, by rw [renderAt, renderAt, hf]⟩
  have hsplit : U'.order = U.order.takeWhile U.isReady ++
      (U.order.dropWhile U.isReady ++ ext) := by
    rw [← List.append_assoc, List.takeWhile_append_dropWhile, hext]
  rw [readyText, readyText, hsplit,
    List.takeWhile_append_of_pos fun fid hfid => (hready fid hfid).1, List.flatMap_append,
    List.flatMap_congr fun fid hfid => (hready fid hfid).2]
  exact List.prefix_append _ _

/-- The undrained redactor between two lines. -/
structure Undrained (U : SseHoldBack) : Prop where
  accounted : U.Accounted 0 0
  order : U.order = List.range U.frameSeq
  fresh : ∀ fid, U.frameSeq ≤ fid → U.awaiting fid = none

theorem undrained_withWindow (window : ℕ) : (withWindow window).Undrained := by
  refine ⟨⟨?_, ?_⟩, rfl, fun _ _ => rfl⟩
  · intro key r hr
    simp [withWindow] at hr
  · intro fid
    simp [withWindow]

/-! ## One line of the undrained redactor -/

/-- Every ready frame stays ready and unchanged. -/
def Kept (h h' : SseHoldBack) : Prop :=
  ∀ fid, h.isReady fid = true → h'.isReady fid = true ∧ h'.frames fid = h.frames fid

theorem Kept.trans {a b c : SseHoldBack} (hab : Kept a b) (hbc : Kept b c) : Kept a c := by
  intro fid hready
  obtain ⟨hb, hfb⟩ := hab fid hready
  obtain ⟨hc, hfc⟩ := hbc fid hb
  exact ⟨hc, hfc.trans hfb⟩

/-- Settling writes no ready frame. -/
theorem kept_settle {h : SseHoldBack} {key : ContentKey} {res : ChoicePush} {r : ChoiceRedactor}
    (hnot : ∀ fid, h.isReady fid = true → fid ∉ res.writes.map Prod.fst) :
    Kept h (h.settle key res r) := by
  intro fid hready
  constructor
  · have h0 : (h.awaiting fid).getD 0 = 0 := by simpa [isReady] using hready
    have hget := settle_awaiting h key res r fid
    rw [isReady, hget]
    cases hf : h.awaiting fid with
    | none => simp
    | some count =>
      obtain rfl : count = 0 := by simpa [hf] using h0
      simp
  · exact writeAll_frames_of_notMem key (h.setChoice key r) (hnot fid hready)

/-- A push of one contribution the frame still owes. -/
theorem Accounted.push {e : Engine} (he : e.ErrorFree) {h : SseHoldBack} {fid owed : ℕ}
    (hacc : h.Accounted fid (owed + 1)) (key : ContentKey) (content : Text) :
    (∃ entities, (((h.choices.get? key).getD default).push e h.window fid content).1 =
        .ok (.blocked entities)) ∨
    ∃ res r, ((h.choices.get? key).getD default).push e h.window fid content = (.ok res, r) ∧
      (∀ entities, res ≠ .blocked entities) ∧
      (h.settle key res r).Accounted fid owed ∧ Kept h (h.settle key res r) := by
  obtain ⟨pieces, hholds, hcount⟩ := hacc.exists_pieces key
  have hpieces : ∀ j, ((pieces ++ [(content, fid)]).map Prod.snd).count j =
      (h.choices.get? key).elim 0 (ChoiceRedactor.held j) + if j = fid then 1 else 0 := by
    intro j
    rw [← hcount j, List.map_append, List.count_append]
    by_cases hj : j = fid
    · simp [hj]
    · simp [hj, Ne.symm hj]
  obtain hblocked | ⟨res, r, hpush, hadv⟩ :=
    ChoiceRedactor.advance_ok (hholds.append fid content) he h.window false
  · exact Or.inl hblocked
  · refine Or.inr ⟨res, r, hpush, ?_, hacc.settle hpieces hadv, ?_⟩
    · rintro entities rfl
      cases hadv
    · exact kept_settle fun j hready => hacc.notMem_writes hpieces hadv hready

theorem Accounted.pushContributions {e : Engine} (he : e.ErrorFree) {h : SseHoldBack} {fid : ℕ}
    {cs : List (ContentKey × Text)} (hacc : h.Accounted fid cs.length) :
    (∃ entities, (pushContributions e fid cs h).1 = .ok (some entities)) ∨
    ((pushContributions e fid cs h).1 = .ok none ∧
      (pushContributions e fid cs h).2.Accounted fid 0 ∧ Kept h (pushContributions e fid cs h).2) := by
  induction cs generalizing h with
  | nil => exact Or.inr ⟨rfl, hacc, fun fid hready => ⟨hready, rfl⟩⟩
  | cons c cs ih =>
    obtain ⟨key, content⟩ := c
    obtain ⟨entities, hblocked⟩ | ⟨res, r, hpush, hnot, hacc', hkept⟩ := hacc.push he key content
    · exact Or.inl ⟨entities, pushContributions_cons_blocked hblocked cs⟩
    · rw [pushContributions_cons_ok hpush hnot]
      obtain hblocked | ⟨hnone, hacc'', hkept'⟩ := ih hacc'
      · exact Or.inl hblocked
      · exact Or.inr ⟨hnone, hacc'', hkept.trans hkept'⟩

/-- The account does not depend on the frame that owes nothing. -/
theorem Accounted.of_zero {h : SseHoldBack} {fid : ℕ} (hacc : h.Accounted fid 0) (fid' : ℕ) :
    h.Accounted fid' 0 := by
  refine ⟨hacc.holds, fun j => ?_⟩
  have hbal := hacc.balance j
  simpa using hbal

/-- Queueing a frame that awaits nothing. -/
theorem Undrained.enqueue {U : SseHoldBack} (hU : U.Undrained) (frame : Frame) :
    (U.enqueue frame).Undrained ∧ Extends U (U.enqueue frame) := by
  refine ⟨⟨⟨hU.accounted.holds, hU.accounted.balance⟩, ?_, ?_⟩, ?_, ?_⟩
  · show U.order ++ [U.frameSeq] = List.range (U.frameSeq + 1)
    rw [hU.order, List.range_succ]
  · intro fid hfid
    have hle : U.frameSeq + 1 ≤ fid := hfid
    exact hU.fresh fid (by omega)
  · exact List.prefix_append _ _
  · intro fid hfid hready
    refine ⟨hready, ?_⟩
    have hne : fid ≠ U.frameSeq := by
      rw [hU.order, List.mem_range] at hfid
      omega
    simp [SseHoldBack.enqueue, hne]

/-- A data frame is queued with as many resolutions awaited as it has contributions. -/
def enqueueData (h : SseHoldBack) (chunk : Json) : SseHoldBack :=
  { h.enqueue (.data chunk) with
    awaiting := Function.update h.awaiting h.frameSeq (some (deltaContents chunk).length) }

theorem Undrained.enqueueData {U : SseHoldBack} (hU : U.Undrained) (chunk : Json) :
    (U.enqueueData chunk).Accounted U.frameSeq (deltaContents chunk).length := by
  refine ⟨hU.accounted.holds, fun fid => ?_⟩
  have hbal := hU.accounted.balance fid
  by_cases hfid : fid = U.frameSeq
  · subst hfid
    rw [hU.fresh U.frameSeq le_rfl] at hbal
    simp only [Option.getD_none, ite_self, Nat.add_zero] at hbal
    simp [SseHoldBack.enqueueData, SseHoldBack.enqueue, ← hbal]
  · simpa [SseHoldBack.enqueueData, SseHoldBack.enqueue, hfid] using hbal

/-- What the contributions of a data frame leave. -/
theorem Undrained.pushContributions {e : Engine} (he : e.ErrorFree) {U : SseHoldBack}
    (hU : U.Undrained) (chunk : Json) :
    (∃ entities, (pushContributions e U.frameSeq (deltaContents chunk)
      (U.enqueueData chunk)).1 = .ok (some entities)) ∨
    ((pushContributions e U.frameSeq (deltaContents chunk) (U.enqueueData chunk)).1 = .ok none ∧
      (pushContributions e U.frameSeq (deltaContents chunk) (U.enqueueData chunk)).2.Undrained ∧
      Extends U (pushContributions e U.frameSeq (deltaContents chunk) (U.enqueueData chunk)).2) := by
  obtain ⟨hUq, hext⟩ := hU.enqueue (.data chunk)
  obtain hblocked | ⟨hnone, hacc, hkept⟩ := (hU.enqueueData chunk).pushContributions he
  · exact Or.inl hblocked
  have hframed := framed_pushContributions e U.frameSeq (deltaContents chunk) (U.enqueueData chunk)
  refine Or.inr ⟨hnone, ⟨hacc.of_zero 0, ?_, ?_⟩, ?_, ?_⟩
  · rw [hframed.order, hframed.frameSeq]
    exact hUq.order
  · intro fid hfid
    rw [hframed.frameSeq] at hfid
    have hle : U.frameSeq + 1 ≤ fid := hfid
    apply hframed.awaiting_none
    show Function.update U.awaiting U.frameSeq _ fid = none
    rw [Function.update_of_ne (by omega)]
    exact hU.fresh fid (by omega)
  · rw [hframed.order]
    exact hext.order
  · intro fid hfid hready
    have hne : fid ≠ U.frameSeq := by
      rw [hU.order, List.mem_range] at hfid
      omega
    have hready' : (U.enqueueData chunk).isReady fid = true := by
      simpa [isReady, SseHoldBack.enqueueData, hne] using hready
    obtain ⟨hready'', hframe⟩ := hkept fid hready'
    exact ⟨hready'', hframe.trans (hext.kept fid hfid hready).2⟩

/-- One line blocks the stream or keeps the invariant. -/
theorem Undrained.ingestLine {e : Engine} (he : e.ErrorFree) {U : SseHoldBack}
    (hU : U.Undrained) (codec : JsonCodec) (line : Text) :
    (∃ entities, (ingestLine codec e U line).1 = .ok (some entities)) ∨
    ((ingestLine codec e U line).1 = .ok none ∧ (ingestLine codec e U line).2.Undrained ∧
      Extends U (ingestLine codec e U line).2) := by
  unfold SseHoldBack.ingestLine
  split
  · exact Or.inr ⟨rfl, hU.enqueue _⟩
  · obtain ⟨v, hv⟩ := he.scan line
    rw [hv]
    cases v with
    | clean => exact Or.inr ⟨rfl, hU.enqueue _⟩
    | redacted text count =>
      obtain ⟨⟨hacc, horder, hfresh⟩, hext⟩ := hU.enqueue (.passthrough text)
      exact Or.inr ⟨rfl, ⟨⟨hacc.holds, hacc.balance⟩, horder, hfresh⟩, hext.order, hext.kept⟩
    | blocked entities => exact Or.inl ⟨entities, rfl⟩
  · next chunk _ =>
    simp only
    split
    · exact Or.inr ⟨rfl, hU.enqueue _⟩
    · exact hU.pushContributions he chunk

/-- Lines ingested one after the other, up to the first that fails or blocks. -/
def ingestAll (codec : JsonCodec) (e : Engine) :
    List Text → SseHoldBack → Except Error (Option (List String)) × SseHoldBack
  | [], h => (.ok none, h)
  | line :: rest, h =>
    match ingestLine codec e h line with
    | (.ok none, h') => ingestAll codec e rest h'
    | r => r

theorem ingestAll_cons_ok {codec : JsonCodec} {e : Engine} {h : SseHoldBack} {line : Text}
    (rest : List Text) (hline : (ingestLine codec e h line).1 = .ok none) :
    ingestAll codec e (line :: rest) h = ingestAll codec e rest (ingestLine codec e h line).2 := by
  rw [ingestAll]
  split
  · next h' heq => rw [heq]
  · next hnot =>
    have heq : ingestLine codec e h line = (.ok none, (ingestLine codec e h line).2) :=
      Prod.ext hline rfl
    exact absurd heq (hnot _)

theorem ingestAll_cons_stop {codec : JsonCodec} {e : Engine} {h : SseHoldBack} {line : Text}
    (rest : List Text) (hline : (ingestLine codec e h line).1 ≠ .ok none) :
    ingestAll codec e (line :: rest) h = ingestLine codec e h line := by
  rw [ingestAll]
  split
  · next h' heq =>
    rw [heq] at hline
    exact absurd rfl hline
  · rfl

theorem ingestAll_append {codec : JsonCodec} {e : Engine} {h : SseHoldBack} {ls : List Text}
    (ls' : List Text) (hls : (ingestAll codec e ls h).1 = .ok none) :
    ingestAll codec e (ls ++ ls') h = ingestAll codec e ls' (ingestAll codec e ls h).2 := by
  induction ls generalizing h with
  | nil => rfl
  | cons line ls ih =>
    by_cases hline : (ingestLine codec e h line).1 = .ok none
    · rw [ingestAll_cons_ok ls hline] at hls
      rw [List.cons_append, ingestAll_cons_ok _ hline, ingestAll_cons_ok ls hline, ih hls]
    · rw [ingestAll_cons_stop ls hline] at hls
      exact absurd hls hline

theorem ingestAll_append_stop {codec : JsonCodec} {e : Engine} {h : SseHoldBack} {ls : List Text}
    (ls' : List Text) (hls : (ingestAll codec e ls h).1 ≠ .ok none) :
    ingestAll codec e (ls ++ ls') h = ingestAll codec e ls h := by
  induction ls generalizing h with
  | nil => exact absurd rfl hls
  | cons line ls ih =>
    by_cases hline : (ingestLine codec e h line).1 = .ok none
    · rw [ingestAll_cons_ok ls hline] at hls
      rw [List.cons_append, ingestAll_cons_ok _ hline, ingestAll_cons_ok ls hline, ih hls]
    · rw [List.cons_append, ingestAll_cons_stop _ hline, ingestAll_cons_stop ls hline]

theorem Undrained.ingestAll {e : Engine} (he : e.ErrorFree) {U : SseHoldBack}
    (hU : U.Undrained) (codec : JsonCodec) (ls : List Text) :
    (∃ entities, (ingestAll codec e ls U).1 = .ok (some entities)) ∨
    ((ingestAll codec e ls U).1 = .ok none ∧ (ingestAll codec e ls U).2.Undrained ∧
      Extends U (ingestAll codec e ls U).2) := by
  induction ls generalizing U with
  | nil => exact Or.inr ⟨rfl, hU, Extends.refl U⟩
  | cons line ls ih =>
    obtain ⟨entities, hblocked⟩ | ⟨hnone, hU', hext⟩ := hU.ingestLine he codec line
    · left
      rw [ingestAll_cons_stop ls (by rw [hblocked]; simp)]
      exact ⟨entities, hblocked⟩
    · rw [ingestAll_cons_ok ls hnone]
      obtain hblocked | ⟨hnone', hU'', hext'⟩ := ih hU'
      · exact Or.inl hblocked
      · exact Or.inr ⟨hnone', hU'', hext.trans hext'⟩

/-! ## The drained redactor -/

/-- `D` is `U` after the frames `popped` have left its queue. The line buffer, which only
`push` and `flush` look at, may differ. -/
structure Drained (popped : List ℕ) (D U : SseHoldBack) : Prop where
  order : U.order = popped ++ D.order
  frames : ∀ fid, fid ∉ popped → D.frames fid = U.frames fid
  awaiting : ∀ fid, fid ∉ popped → D.awaiting fid = U.awaiting fid
  choices : D.choices = U.choices
  window : D.window = U.window
  frameSeq : D.frameSeq = U.frameSeq
  bound : ∀ fid ∈ popped, fid < U.frameSeq

theorem writeAll_frames_congr (key : ContentKey) (ws : List (ℕ × Text)) {h g : SseHoldBack}
    {fid : ℕ} (hfid : h.frames fid = g.frames fid) :
    (h.writeAll key ws).frames fid = (g.writeAll key ws).frames fid := by
  induction ws generalizing h g with
  | nil => exact hfid
  | cons w ws ih =>
    apply ih
    rw [resolveFrame_frames, resolveFrame_frames]
    by_cases hw : fid = w.1
    · subst hw
      simp [hfid]
    · simp [hw, hfid]

theorem Drained.settle {popped : List ℕ} {D U : SseHoldBack} (hd : Drained popped D U)
    (key : ContentKey) (res : ChoicePush) (r : ChoiceRedactor) :
    Drained popped (D.settle key res r) (U.settle key res r) := by
  have hfD := framed_settle D key res r
  have hfU := framed_settle U key res r
  refine ⟨?_, fun fid hfid => ?_, fun fid hfid => ?_, ?_, ?_, ?_, ?_⟩
  · rw [hfD.order, hfU.order, hd.order]
  · exact writeAll_frames_congr key res.writes (hd.frames fid hfid)
  · rw [settle_awaiting, settle_awaiting, hd.awaiting fid hfid]
  · rw [settle_choices, settle_choices, hd.choices]
  · rw [hfD.window, hfU.window, hd.window]
  · rw [hfD.frameSeq, hfU.frameSeq, hd.frameSeq]
  · rw [hfU.frameSeq]
    exact hd.bound

theorem Drained.pushContributions {popped : List ℕ} {D U : SseHoldBack} (hd : Drained popped D U)
    (e : Engine) (fid : ℕ) (cs : List (ContentKey × Text)) :
    (pushContributions e fid cs D).1 = (pushContributions e fid cs U).1 ∧
      Drained popped (pushContributions e fid cs D).2 (pushContributions e fid cs U).2 := by
  induction cs generalizing D U with
  | nil => exact ⟨rfl, hd⟩
  | cons c cs ih =>
    obtain ⟨key, content⟩ := c
    rw [SseHoldBack.pushContributions, SseHoldBack.pushContributions, hd.choices, hd.window]
    split
    · next err r _ => exact ⟨rfl, hd.settle key .nothing r⟩
    · next r _ => exact ih (hd.settle key .nothing r)
    · next entities r _ => exact ⟨rfl, hd.settle key .nothing r⟩
    · next text ids r _ =>
      rw [applyRelease_eq, applyRelease_eq]
      exact ih (hd.settle key (.release text ids) r)

theorem Drained.enqueue {popped : List ℕ} {D U : SseHoldBack} (hd : Drained popped D U)
    (frame : Frame) : Drained popped (D.enqueue frame) (U.enqueue frame) where
  order := by simp [SseHoldBack.enqueue, hd.order, hd.frameSeq]
  frames := by
    intro fid hfid
    have hframes := hd.frames fid hfid
    by_cases hseq : fid = U.frameSeq
    · simp [SseHoldBack.enqueue, hd.frameSeq, hseq]
    · simp [SseHoldBack.enqueue, hd.frameSeq, hseq, hframes]
  awaiting := hd.awaiting
  choices := hd.choices
  window := hd.window
  frameSeq := congrArg (· + 1) hd.frameSeq
  bound := fun fid hfid => Nat.lt_succ_of_lt (hd.bound fid hfid)

/-- A line meets the drained and the undrained redactor alike. -/
theorem Drained.ingestLine {popped : List ℕ} {D U : SseHoldBack} (hd : Drained popped D U)
    (codec : JsonCodec) (e : Engine) (line : Text) :
    (ingestLine codec e D line).1 = (ingestLine codec e U line).1 ∧
      Drained popped (ingestLine codec e D line).2 (ingestLine codec e U line).2 := by
  have hskip : Drained popped { D with frameSeq := D.frameSeq + 1 }
      { U with frameSeq := U.frameSeq + 1 } :=
    ⟨hd.order, hd.frames, hd.awaiting, hd.choices, hd.window, congrArg (· + 1) hd.frameSeq,
      fun fid hfid => Nat.lt_succ_of_lt (hd.bound fid hfid)⟩
  unfold SseHoldBack.ingestLine
  split
  · exact ⟨rfl, hd.enqueue _⟩
  · split
    · exact ⟨rfl, hskip⟩
    · exact ⟨rfl, hd.enqueue _⟩
    · next text count _ =>
      have hq := hd.enqueue (.passthrough text)
      exact ⟨rfl, hq.order, hq.frames, hq.awaiting, hq.choices, hq.window, hq.frameSeq, hq.bound⟩
    · exact ⟨rfl, hskip⟩
  · next chunk _ =>
    simp only
    have hq := hd.enqueue (.data chunk)
    split
    · exact ⟨rfl, hq⟩
    · rw [hd.frameSeq]
      refine Drained.pushContributions ?_ e U.frameSeq (deltaContents chunk)
      refine ⟨hq.order, hq.frames, fun fid hfid => ?_, hq.choices, hq.window, hq.frameSeq,
        hq.bound⟩
      have hawait := hq.awaiting fid hfid
      by_cases hseq : fid = U.frameSeq
      · simp [hseq]
      · simpa [hseq] using hawait

theorem Drained.ingestAll {popped : List ℕ} {D U : SseHoldBack} (hd : Drained popped D U)
    (codec : JsonCodec) (e : Engine) (ls : List Text) :
    (ingestAll codec e ls D).1 = (ingestAll codec e ls U).1 ∧
      Drained popped (ingestAll codec e ls D).2 (ingestAll codec e ls U).2 := by
  induction ls generalizing D U with
  | nil => exact ⟨rfl, hd⟩
  | cons line ls ih =>
    obtain ⟨hsame, hd'⟩ := hd.ingestLine codec e line
    by_cases hline : (SseHoldBack.ingestLine codec e U line).1 = .ok none
    · rw [ingestAll_cons_ok ls hline, ingestAll_cons_ok ls (hsame.trans hline)]
      exact ih hd'
    · rw [ingestAll_cons_stop ls hline, ingestAll_cons_stop ls (by rwa [hsame])]
      exact ⟨hsame, hd'⟩

end SseHoldBack

end Governance
