import Governance.Redact.Sse.Flush

/-!
# Runs of the redactor

A run feeds a stream to the redactor piece by piece and flushes it. `run_cases` compares
every run with the undrained redactor fed the lines of the whole stream: what a run has
released is the ready text of the undrained queue after some of those lines, and after all
of them, and their flush, when nothing blocks. The pieces no longer occur there, so runs
over two ways of cutting one stream agree.
-/

namespace Governance

open Utf8Text
open String (utf8Len)

/-- The text an answer releases. -/
def released : Except Error SseEmit → Text
  | .ok (.release text) => text
  | _ => []

/-- Whether an answer is `Blocked`. -/
def isBlocked : Except Error SseEmit → Bool
  | .ok (.blocked _) => true
  | _ => false

/-- The text released before the first `Blocked`. -/
def releasedBeforeBlock (answers : List (Except Error SseEmit)) : Text :=
  (answers.takeWhile fun a => !isBlocked a).flatMap released

theorem releasedBeforeBlock_append {answers : List (Except Error SseEmit)}
    {a : Except Error SseEmit} (ha : a ∈ answers) (hab : isBlocked a = true)
    (rest : List (Except Error SseEmit)) :
    releasedBeforeBlock (answers ++ rest) = releasedBeforeBlock answers := by
  rw [releasedBeforeBlock, releasedBeforeBlock]
  congr 1
  induction answers with
  | nil => simp at ha
  | cons x xs ih =>
    by_cases hx : isBlocked x = true
    · simp [hx]
    · have hmem : a ∈ xs := by
        rcases List.mem_cons.mp ha with rfl | hmem
        · exact absurd hab hx
        · exact hmem
      simp [hx, ih hmem]

@[simp] theorem released_ofText (out : Text) : released (.ok (SseEmit.ofText out)) = out := by
  by_cases h : out = [] <;> simp [SseEmit.ofText, h, released]

@[simp] theorem isBlocked_ofText (out : Text) : isBlocked (.ok (SseEmit.ofText out)) = false := by
  by_cases h : out = [] <;> simp [SseEmit.ofText, h, isBlocked]

namespace SseHoldBack

/-- The answers to some pushes, and the state they leave. -/
def pushAll (codec : JsonCodec) (e : Engine) :
    List Text → SseHoldBack → List (Except Error SseEmit) × SseHoldBack
  | [], h => ([], h)
  | text :: rest, h =>
    let r := h.push codec e text
    let rs := pushAll codec e rest r.2
    (r.1 :: rs.1, rs.2)

/-- The answers to a whole run, some pushes and a flush, and the state it leaves. -/
def run (codec : JsonCodec) (e : Engine) (window : ℕ) (order : IterOrder ContentKey)
    (pieces : List Text) : List (Except Error SseEmit) × SseHoldBack :=
  let r := pushAll codec e pieces (withWindow window)
  let f := r.2.flush codec e order
  (r.1 ++ [f.1], f.2)

/-! ## One push -/

/-- `ingestLine` leaves the line buffer and the latch alone. -/
theorem ingestLine_lineBuf (codec : JsonCodec) (e : Engine) (h : SseHoldBack) (line : Text) :
    (ingestLine codec e h line).2.lineBuf = h.lineBuf ∧
      (ingestLine codec e h line).2.blocked = h.blocked := by
  unfold ingestLine
  split
  · exact ⟨rfl, rfl⟩
  · split <;> exact ⟨rfl, rfl⟩
  · simp only
    split
    · exact ⟨rfl, rfl⟩
    · constructor
      · rw [(framed_pushContributions _ _ _ _).lineBuf]
        rfl
      · rw [(framed_pushContributions _ _ _ _).blocked]
        rfl

/-- The loop of `push` ingests the complete lines of the buffer. -/
theorem Drained.pushLoop {popped : List ℕ} {D U : SseHoldBack} (hd : Drained popped D U)
    (codec : JsonCodec) (e : Engine) {fuel : ℕ} (hfuel : D.lineBuf.length ≤ fuel) :
    (pushLoop codec e fuel D).1 =
        (SseHoldBack.ingestAll codec e (completeLines D.lineBuf).1 U).1 ∧
    ((pushLoop codec e fuel D).1 = .ok none →
      Drained popped (pushLoop codec e fuel D).2
        (SseHoldBack.ingestAll codec e (completeLines D.lineBuf).1 U).2 ∧
      (pushLoop codec e fuel D).2.lineBuf = (completeLines D.lineBuf).2 ∧
      (pushLoop codec e fuel D).2.blocked = D.blocked) := by
  induction fuel generalizing D U with
  | zero =>
    have hnil : D.lineBuf = [] := List.length_eq_zero_iff.mp (by omega)
    rw [hnil]
    exact ⟨rfl, fun _ => ⟨hd, hnil, rfl⟩⟩
  | succ fuel ih =>
    cases hsplit : splitLine D.lineBuf with
    | none =>
      rw [splitLine_eq_none hsplit]
      simp only [SseHoldBack.pushLoop, hsplit]
      refine ⟨rfl, fun _ => ⟨hd, ?_⟩⟩
      simp
    | some p =>
      obtain ⟨line, rest⟩ := p
      obtain ⟨hbuf, hne, hlines⟩ := splitLine_eq_some hsplit
      have hd₀ : Drained popped { D with lineBuf := rest } U :=
        ⟨hd.order, hd.frames, hd.awaiting, hd.choices, hd.window, hd.frameSeq, hd.bound⟩
      obtain ⟨hsame, hd'⟩ := hd₀.ingestLine codec e line
      obtain ⟨hrest, hblocked⟩ := ingestLine_lineBuf codec e { D with lineBuf := rest } line
      have hshort : rest.length ≤ fuel := by
        have hpos := List.length_pos_iff.mpr hne
        have hlen := congrArg List.length hbuf
        rw [List.length_append] at hlen
        omega
      rw [hlines]
      simp only [SseHoldBack.pushLoop, hsplit]
      by_cases hline : (SseHoldBack.ingestLine codec e U line).1 = .ok none
      · rw [ingestAll_cons_ok _ hline]
        have hD : SseHoldBack.ingestLine codec e { D with lineBuf := rest } line =
            (.ok none, (SseHoldBack.ingestLine codec e { D with lineBuf := rest } line).2) :=
          Prod.ext (hsame.trans hline) rfl
        have hih := ih hd' (by rw [hrest]; exact hshort)
        rw [hrest, hblocked] at hih
        rw [hD]
        exact hih
      · rw [ingestAll_cons_stop _ hline]
        have hD : (SseHoldBack.ingestLine codec e { D with lineBuf := rest } line).1 ≠ .ok none := by
          rwa [hsame]
        split
        · next h' heq =>
          rw [heq] at hD
          exact absurd rfl hD
        · exact ⟨hsame, fun hnone => absurd hnone hD⟩

/-- The redactor `D` has released the ready text of `U` and holds the rest of its queue. -/
structure Follows (D U : SseHoldBack) : Prop where
  drained : Drained (U.order.takeWhile U.isReady) D U
  blocked : D.blocked = false

/-- A drain releases what has become ready since the last one. -/
theorem finish_follows (codec : JsonCodec) {D U U' : SseHoldBack} (hU' : U'.Undrained)
    (hext : Extends U U') (hd : Drained (U.order.takeWhile U.isReady) D U')
    (hblocked : D.blocked = false) :
    ∃ out, (finish codec (.ok none, D)).1 = .ok (SseEmit.ofText out) ∧
      U.readyText codec ++ out = U'.readyText codec ∧
      Follows (finish codec (.ok none, D)).2 U' ∧
      (finish codec (.ok none, D)).2.lineBuf = D.lineBuf ∧
      (finish codec (.ok none, D)).2.order = U'.order.dropWhile U'.isReady := by
  set popped := U.order.takeWhile U.isReady with hpopped
  have hnodup : (popped ++ D.order).Nodup := by
    rw [← hd.order, hU'.order]
    exact List.nodup_range
  have hdisj : ∀ fid ∈ D.order, fid ∉ popped := by
    intro fid hfid hpop
    exact (List.nodup_append.mp hnodup).2.2 fid hpop fid hfid rfl
  have hkept : ∀ fid ∈ popped, U'.isReady fid = true ∧ U'.renderAt codec fid =
      U.renderAt codec fid := by
    intro fid hfid
    obtain ⟨hready, hframe⟩ := hext.kept fid (List.takeWhile_subset _ hfid)
      (List.mem_takeWhile_imp hfid)
    exact ⟨hready, by rw [renderAt, renderAt, hframe]⟩
  -- on what is left of the queue, `D` and `U'` agree
  have hsame : ∀ fid ∈ D.order, D.isReady fid = U'.isReady fid ∧
      D.renderAt codec fid = U'.renderAt codec fid := by
    intro fid hfid
    have hnot := hdisj fid hfid
    exact ⟨by rw [isReady, isReady, hd.awaiting fid hnot],
      by rw [renderAt, renderAt, hd.frames fid hnot]⟩
  have htake : U'.order.takeWhile U'.isReady = popped ++ D.order.takeWhile D.isReady := by
    rw [hd.order, List.takeWhile_append_of_pos fun fid hfid => (hkept fid hfid).1,
      takeWhile_congr fun fid hfid => ((hsame fid hfid).1).symm]
  have hdrop : U'.order.dropWhile U'.isReady = D.order.dropWhile D.isReady := by
    rw [hd.order, List.dropWhile_append_of_pos fun fid hfid => (hkept fid hfid).1,
      dropWhile_congr fun fid hfid => ((hsame fid hfid).1).symm]
  have hdrain := drainReady_eq codec D (List.nodup_append.mp hnodup).2.1
  refine ⟨D.readyText codec, ?_, ?_, ⟨?_, ?_⟩, ?_, ?_⟩
  · simp [finish, hdrain]
  · rw [readyText, readyText, readyText, htake, ← hpopped, List.flatMap_append,
      List.flatMap_congr fun fid hfid => (hkept fid hfid).2,
      List.flatMap_congr fun fid hfid => (hsame fid (List.takeWhile_subset _ hfid)).2]
  · rw [htake]
    simp only [finish, hdrain]
    refine ⟨?_, ?_, ?_, hd.choices, hd.window, hd.frameSeq, ?_⟩
    · rw [hd.order, List.append_assoc]
      exact congrArg (popped ++ ·) List.takeWhile_append_dropWhile.symm
    · intro fid hfid
      rw [List.mem_append, not_or] at hfid
      rw [← hd.frames fid hfid.1]
      exact if_neg hfid.2
    · intro fid hfid
      rw [List.mem_append, not_or] at hfid
      rw [← hd.awaiting fid hfid.1]
      exact if_neg hfid.2
    · intro fid hfid
      rw [← htake] at hfid
      have hmem := List.takeWhile_subset _ hfid
      rwa [hU'.order, List.mem_range] at hmem
  · simpa [finish, hdrain, without] using hblocked
  · simp [finish, hdrain, without]
  · rw [hdrop]
    simp [finish, hdrain, without]

/-- The undrained redactor after some lines of a stream. -/
def undrained (codec : JsonCodec) (e : Engine) (window : ℕ) (lines : List Text) :
    Except Error (Option (List String)) × SseHoldBack :=
  ingestAll codec e lines (withWindow window)

/-- Where a run stands that has read `read` and not blocked. -/
structure Tracks (codec : JsonCodec) (e : Engine) (window : ℕ) (read : Text) (D : SseHoldBack) :
    Prop where
  ok : (undrained codec e window (completeLines read).1).1 = .ok none
  follows : Follows D (undrained codec e window (completeLines read).1).2
  lineBuf : D.lineBuf = (completeLines read).2

theorem tracks_withWindow (codec : JsonCodec) (e : Engine) (window : ℕ) :
    Tracks codec e window [] (withWindow window) := by
  refine ⟨rfl, ⟨⟨rfl, fun _ _ => rfl, fun _ _ => rfl, rfl, rfl, rfl, ?_⟩, rfl⟩, rfl⟩
  intro fid hfid
  simp [undrained, completeLines, ingestAll, withWindow] at hfid

theorem undrained_spec {e : Engine} (he : e.ErrorFree) (codec : JsonCodec) (window : ℕ)
    {lines : List Text} (hok : (undrained codec e window lines).1 = .ok none) :
    (undrained codec e window lines).2.Undrained := by
  obtain ⟨es, hes⟩ | ⟨_, hU, _⟩ := (undrained_withWindow window).ingestAll he codec lines
  · rw [undrained, hes] at hok
    cases hok
  · exact hU

/-- The undrained redactor only adds to what it held after fewer lines. -/
theorem extends_of_lines {e : Engine} (he : e.ErrorFree) (codec : JsonCodec) (window : ℕ)
    {pre lines : List Text} (hpre : pre <+: lines)
    (hok : (undrained codec e window lines).1 = .ok none)
    (hokpre : (undrained codec e window pre).1 = .ok none) :
    Extends (undrained codec e window pre).2 (undrained codec e window lines).2 := by
  obtain ⟨ext, rfl⟩ := hpre
  have hU := undrained_spec he codec window hokpre
  have happend : undrained codec e window (pre ++ ext) =
      ingestAll codec e ext (undrained codec e window pre).2 := ingestAll_append ext hokpre
  rw [happend] at hok ⊢
  obtain ⟨es, hes⟩ | ⟨_, _, hext⟩ := hU.ingestAll he codec ext
  · rw [hes] at hok
    cases hok
  · exact hext

theorem pushAll_blocked (codec : JsonCodec) (e : Engine) (ps : List Text) {D : SseHoldBack}
    (hb : D.blocked = true) :
    (∀ a ∈ (pushAll codec e ps D).1, a = .ok .nothing) ∧ (pushAll codec e ps D).2 = D := by
  induction ps with
  | nil => simp [pushAll]
  | cons p ps ih => simpa [pushAll, SseHoldBack.push, hb] using ih

section Push

variable {codec : JsonCodec} {e : Engine} {window : ℕ} {read : Text} {D : SseHoldBack}

/-- One push blocks, or releases what its lines have made ready. -/
theorem Tracks.push (he : e.ErrorFree) (h : Tracks codec e window read D) (text : Text) :
    ((∃ es, (undrained codec e window (completeLines (read ++ text)).1).1 = .ok (some es)) ∧
      (∃ es, (D.push codec e text).1 = .ok (.blocked es)) ∧
      (D.push codec e text).2.blocked = true) ∨
    ∃ out, (D.push codec e text).1 = .ok (SseEmit.ofText out) ∧
      Tracks codec e window (read ++ text) (D.push codec e text).2 ∧
      (undrained codec e window (completeLines read).1).2.readyText codec ++ out =
        (undrained codec e window (completeLines (read ++ text)).1).2.readyText codec := by
  obtain ⟨hok, ⟨hdrained, hblocked⟩, hbuf⟩ := h
  set U := (undrained codec e window (completeLines read).1).2 with hU
  set D₀ : SseHoldBack := { D with lineBuf := D.lineBuf ++ text } with hD₀
  have hpush : D.push codec e text =
      finish codec (pushLoop codec e (D.lineBuf ++ text).length D₀) := by
    simp [SseHoldBack.push, hblocked, hD₀]
  have hd₀ : Drained (U.order.takeWhile U.isReady) D₀ U :=
    ⟨hdrained.order, hdrained.frames, hdrained.awaiting, hdrained.choices, hdrained.window,
      hdrained.frameSeq, hdrained.bound⟩
  obtain ⟨hsame, hloop⟩ := hd₀.pushLoop codec e (le_refl (D.lineBuf ++ text).length)
  have hlines : undrained codec e window (completeLines (read ++ text)).1 =
      ingestAll codec e (completeLines D₀.lineBuf).1 U := by
    rw [completeLines_append, undrained, ingestAll_append _ hok, hD₀, hbuf]
    rfl
  have hrest : (completeLines (read ++ text)).2 = (completeLines D₀.lineBuf).2 := by
    rw [completeLines_append, hD₀, hbuf]
  obtain ⟨es, hes⟩ | ⟨hnone, hU', hext⟩ :=
    (undrained_spec he codec window hok).ingestAll he codec (completeLines D₀.lineBuf).1
  · left
    have hres : pushLoop codec e (D.lineBuf ++ text).length D₀ =
        (.ok (some es), (pushLoop codec e (D.lineBuf ++ text).length D₀).2) :=
      Prod.ext (hsame.trans hes) rfl
    rw [hpush, hres]
    exact ⟨⟨es, by rw [hlines]; exact hes⟩, ⟨es, rfl⟩, rfl⟩
  · right
    obtain ⟨hd', hbuf', hblocked'⟩ := hloop (hsame.trans hnone)
    have hres : pushLoop codec e (D.lineBuf ++ text).length D₀ =
        (.ok none, (pushLoop codec e (D.lineBuf ++ text).length D₀).2) :=
      Prod.ext (hsame.trans hnone) rfl
    obtain ⟨out, hout, htext, hfollows, hlineBuf, _⟩ :=
      finish_follows codec hU' hext hd' (hblocked'.trans hblocked)
    rw [hpush, hres]
    refine ⟨out, hout, ⟨?_, ?_, ?_⟩, ?_⟩
    · rw [hlines]
      exact hnone
    · rw [hlines]
      exact hfollows
    · rw [hlineBuf, hbuf', hrest]
    · rw [hlines]
      exact htext

theorem flatMap_released_of_nothing {answers : List (Except Error SseEmit)}
    (h : ∀ a ∈ answers, a = .ok .nothing) : answers.flatMap released = [] := by
  refine List.flatMap_eq_nil_iff.mpr fun a ha => ?_
  rw [h a ha]
  rfl

/-- How some pushes end: the run goes on and has released the ready text, or one of them
blocked after the ready text of some of the lines had been released. -/
theorem Tracks.pushAll (he : e.ErrorFree) (h : Tracks codec e window read D) (ps : List Text) :
    (Tracks codec e window (read ++ ps.flatten) (pushAll codec e ps D).2 ∧
      (∀ a ∈ (pushAll codec e ps D).1, isBlocked a = false) ∧
      (undrained codec e window (completeLines read).1).2.readyText codec ++
          (pushAll codec e ps D).1.flatMap released =
        (undrained codec e window (completeLines (read ++ ps.flatten)).1).2.readyText codec) ∨
    ((∃ es, (undrained codec e window (completeLines (read ++ ps.flatten)).1).1 =
        .ok (some es)) ∧
      (∃ a ∈ (pushAll codec e ps D).1, isBlocked a = true) ∧
      (pushAll codec e ps D).2.blocked = true ∧
      (pushAll codec e ps D).1.flatMap released =
        releasedBeforeBlock (pushAll codec e ps D).1 ∧
      ∃ pre, pre <+: (completeLines (read ++ ps.flatten)).1 ∧
        (undrained codec e window pre).1 = .ok none ∧
        (undrained codec e window (completeLines read).1).2.readyText codec ++
          (pushAll codec e ps D).1.flatMap released =
            (undrained codec e window pre).2.readyText codec) := by
  induction ps generalizing read D with
  | nil =>
    left
    simpa [SseHoldBack.pushAll] using h
  | cons p ps ih =>
    have hflat : read ++ (p :: ps).flatten = (read ++ p) ++ ps.flatten := by simp
    rw [hflat]
    simp only [SseHoldBack.pushAll, List.flatMap_cons]
    obtain ⟨⟨es, hes⟩, ⟨es', hpush⟩, hblocked⟩ | ⟨out, hout, htracks, htext⟩ := h.push he p
    · -- this push blocks, and the later ones answer nothing
      right
      obtain ⟨hnothing, hstate⟩ :=
        pushAll_blocked codec e ps hblocked
      have hnone := flatMap_released_of_nothing hnothing
      have hlines := completeLines_append (read ++ p) ps.flatten
      refine ⟨⟨es, ?_⟩, ⟨_, List.mem_cons_self, by rw [hpush]; rfl⟩, by rw [hstate]; exact hblocked,
        ?_, (completeLines read).1, ?_, h.ok, ?_⟩
      · rw [hlines, undrained, ingestAll_append_stop]
        · exact hes
        · rw [← undrained, hes]
          simp
      · rw [hnone, hpush]
        simp [releasedBeforeBlock, isBlocked, released]
      · rw [hlines]
        refine List.IsPrefix.trans ?_ (List.prefix_append _ _)
        rw [completeLines_append read p]
        exact List.prefix_append _ _
      · rw [hpush, hnone]
        simp [released]
    · obtain ⟨htracks', hnot, htext'⟩ | ⟨hes, ⟨a, ha, hab⟩, hblocked, hbefore, pre, hpre, hpreok, htext'⟩ :=
        ih htracks
      · left
        refine ⟨htracks', ?_, ?_⟩
        · intro a ha
          rcases List.mem_cons.mp ha with rfl | ha
          · rw [hout]
            exact isBlocked_ofText out
          · exact hnot a ha
        · rw [hout, released_ofText, ← List.append_assoc, htext, htext']
      · right
        refine ⟨hes, ⟨a, List.mem_cons_of_mem _ ha, hab⟩, hblocked, ?_, pre, hpre, hpreok, ?_⟩
        · rw [hbefore, hout]
          simp [releasedBeforeBlock]
        · rw [hout, released_ofText, ← List.append_assoc, htext, htext']

/-- The undrained redactor at the end of a stream. -/
def undrainedEnd (codec : JsonCodec) (e : Engine) (window : ℕ) (order : IterOrder ContentKey)
    (stream : Text) : Except Error (Option (List String)) × SseHoldBack :=
  match undrained codec e window (linesInclusive stream) with
  | (.ok none, U) => flushKeys e (order.visit U.choices.keys) U
  | r => r

theorem undrainedEnd_of_ok {stream : Text} (order : IterOrder ContentKey)
    (hok : (undrained codec e window (linesInclusive stream)).1 = .ok none) :
    undrainedEnd codec e window order stream =
      flushKeys e
        (order.visit (undrained codec e window (linesInclusive stream)).2.choices.keys)
        (undrained codec e window (linesInclusive stream)).2 := by
  have heq : undrained codec e window (linesInclusive stream) =
      (.ok none, (undrained codec e window (linesInclusive stream)).2) := Prod.ext hok rfl
  rw [undrainedEnd, heq]

theorem undrainedEnd_of_blocked {stream : Text} (order : IterOrder ContentKey) {es : List String}
    (hes : (undrained codec e window (linesInclusive stream)).1 = .ok (some es)) :
    undrainedEnd codec e window order stream =
      undrained codec e window (linesInclusive stream) := by
  have heq : undrained codec e window (linesInclusive stream) =
      (.ok (some es), (undrained codec e window (linesInclusive stream)).2) := Prod.ext hes rfl
  rw [undrainedEnd, heq]

/-- The trailing line of `flush` is the last of the stream's lines. -/
theorem Drained.ingestRest {popped : List ℕ} {U : SseHoldBack} (hd : Drained popped D U)
    (hok : (undrained codec e window (completeLines read).1).1 = .ok none)
    (hU : U = (undrained codec e window (completeLines read).1).2)
    (hbuf : D.lineBuf = (completeLines read).2) :
    (ingestRest codec e D).1 = (undrained codec e window (linesInclusive read)).1 ∧
      Drained popped (ingestRest codec e D).2
        (undrained codec e window (linesInclusive read)).2 ∧
      (ingestRest codec e D).2.blocked = D.blocked := by
  unfold SseHoldBack.ingestRest linesInclusive
  rw [hbuf]
  by_cases hnil : (completeLines read).2 = []
  · simp only [hnil, if_true]
    rw [hok, ← hU]
    exact ⟨rfl, hd, trivial⟩
  · simp only [hnil, if_false]
    have hd₀ : Drained popped { D with lineBuf := [] } U :=
      ⟨hd.order, hd.frames, hd.awaiting, hd.choices, hd.window, hd.frameSeq, hd.bound⟩
    obtain ⟨hsame, hd'⟩ := hd₀.ingestLine codec e (completeLines read).2
    have hone : undrained codec e window ((completeLines read).1 ++ [(completeLines read).2]) =
        SseHoldBack.ingestLine codec e U (completeLines read).2 := by
      rw [undrained, ingestAll_append _ hok, ← undrained, ← hU]
      by_cases hline : (SseHoldBack.ingestLine codec e U (completeLines read).2).1 = .ok none
      · rw [ingestAll_cons_ok _ hline]
        exact Prod.ext hline.symm rfl
      · exact ingestAll_cons_stop _ hline
    rw [hone]
    exact ⟨hsame, hd', (ingestLine_lineBuf codec e _ _).2⟩

/-- How a flush ends. -/
theorem Tracks.flush (he : e.ErrorFree) (h : Tracks codec e window read D)
    (order : IterOrder ContentKey) :
    ((∃ es, (undrainedEnd codec e window order read).1 = .ok (some es)) ∧
      ∃ es, (D.flush codec e order).1 = .ok (.blocked es)) ∨
    ((undrainedEnd codec e window order read).1 = .ok none ∧
      ∃ out, (D.flush codec e order).1 = .ok (SseEmit.ofText out) ∧
        (undrained codec e window (completeLines read).1).2.readyText codec ++ out =
          (undrainedEnd codec e window order read).2.readyText codec ∧
        (D.flush codec e order).2.order = (undrainedEnd codec e window order read).2.order.dropWhile
          (undrainedEnd codec e window order read).2.isReady) := by
  obtain ⟨hok, ⟨hdrained, hblocked⟩, hbuf⟩ := h
  obtain ⟨hsame, hd, hblocked'⟩ := hdrained.ingestRest hok rfl hbuf
  set lines := linesInclusive read with hlines
  have hpre : (completeLines read).1 <+: lines := completeLines_isPrefixOf read
  obtain ⟨es, hes⟩ | ⟨hnone, hV, _⟩ := (undrained_withWindow window).ingestAll he codec lines
  · -- the trailing line blocks
    rw [← undrained] at hes
    have hrest : SseHoldBack.ingestRest codec e D =
        (.ok (some es), (SseHoldBack.ingestRest codec e D).2) := Prod.ext (hsame.trans hes) rfl
    left
    rw [undrainedEnd_of_blocked order hes]
    refine ⟨⟨es, hes⟩, es, ?_⟩
    simp only [SseHoldBack.flush, hblocked, Bool.false_eq_true, if_false]
    rw [hrest]
    rfl
  rw [← undrained] at hnone hV
  have hext := extends_of_lines he codec window hpre hnone hok
  set V := (undrained codec e window lines).2 with hVdef
  have hrest : SseHoldBack.ingestRest codec e D =
      (.ok none, (SseHoldBack.ingestRest codec e D).2) := Prod.ext (hsame.trans hnone) rfl
  set D' := (SseHoldBack.ingestRest codec e D).2 with hD'
  have hflush : D.flush codec e order =
      finish codec (flushKeys e (order.visit V.choices.keys) D') := by
    simp only [SseHoldBack.flush, hblocked, Bool.false_eq_true, if_false]
    rw [hrest]
    show finish codec (flushKeys e (order.visit D'.choices.keys) D') = _
    rw [hd.choices]
  rw [undrainedEnd_of_ok order hnone, hflush]
  obtain ⟨hsame', hd'⟩ := hd.flushKeys e (order.visit V.choices.keys)
  have hmem : ∀ key ∈ order.visit V.choices.keys, key ∈ V.choices.keys := fun key hkey =>
    (order.perm _).mem_iff.mp hkey
  obtain hok' | ⟨es, hes⟩ := flushKeys_cases he hmem
  · right
    obtain ⟨hW, hextW⟩ := hV.flushKeys he _ hok'
    have hDres : flushKeys e (order.visit V.choices.keys) D' =
        (.ok none, (flushKeys e (order.visit V.choices.keys) D').2) :=
      Prod.ext (hsame'.trans hok') rfl
    have hDblocked : (flushKeys e (order.visit V.choices.keys) D').2.blocked = false := by
      rw [(framed_flushKeys e _ D').blocked, hblocked', hblocked]
    obtain ⟨out, hout, htext, _, _, horder⟩ := finish_follows codec hW (hext.trans hextW) hd' hDblocked
    rw [hDres]
    exact ⟨hok', out, hout, htext, horder⟩
  · left
    have hDres : flushKeys e (order.visit V.choices.keys) D' =
        (.ok (some es), (flushKeys e (order.visit V.choices.keys) D').2) :=
      Prod.ext (hsame'.trans hes) rfl
    rw [hDres]
    exact ⟨⟨es, hes⟩, es, rfl⟩

end Push

/-! ## Whole runs -/

section Run

variable (codec : JsonCodec) {e : Engine} (he : e.ErrorFree) (window : ℕ)
include he

/-- How a run ends. Nothing blocked, and it released the ready text of the undrained queue
at the end of the stream; or a call blocked, and before that it released the ready text of
the queue after some complete lines. -/
theorem run_cases (order : IterOrder ContentKey) (pieces : List Text) :
    ((undrainedEnd codec e window order pieces.flatten).1 = .ok none ∧
      (∀ a ∈ (run codec e window order pieces).1, isBlocked a = false) ∧
      (run codec e window order pieces).1.flatMap released =
        (undrainedEnd codec e window order pieces.flatten).2.readyText codec ∧
      (run codec e window order pieces).2.order =
        (undrainedEnd codec e window order pieces.flatten).2.order.dropWhile
          (undrainedEnd codec e window order pieces.flatten).2.isReady) ∨
    ((∃ es, (undrainedEnd codec e window order pieces.flatten).1 = .ok (some es)) ∧
      (∃ a ∈ (run codec e window order pieces).1, isBlocked a = true) ∧
      ∃ pre, pre <+: (completeLines pieces.flatten).1 ∧
        (undrained codec e window pre).1 = .ok none ∧
        releasedBeforeBlock (run codec e window order pieces).1 =
          (undrained codec e window pre).2.readyText codec) := by
  have hstart : (undrained codec e window (completeLines []).1).2.readyText codec = [] := rfl
  obtain ⟨htracks, hnot, htext⟩ | ⟨⟨es, hes⟩, ⟨a, ha, hab⟩, hblocked, hbefore, pre, hpre, hok, htext⟩ :=
    (tracks_withWindow codec e window).pushAll he pieces
  · rw [hstart] at htext
    simp only [List.nil_append] at htracks htext
    obtain ⟨hend, es, hflush⟩ | ⟨hend, out, hflush, hout, horder⟩ := htracks.flush he order
    · right
      refine ⟨hend, ⟨.ok (.blocked es), ?_, rfl⟩, (completeLines pieces.flatten).1,
        List.prefix_rfl, htracks.ok, ?_⟩
      · rw [← hflush]
        exact List.mem_append_right _ (List.mem_singleton_self _)
      have hpushes : ∀ a ∈ (pushAll codec e pieces (withWindow window)).1,
          (!isBlocked a) = true := fun a ha => by rw [hnot a ha]; rfl
      rw [releasedBeforeBlock, run, List.takeWhile_append_of_pos hpushes, ← htext, hflush]
      simp [isBlocked]
    · left
      refine ⟨hend, ?_, ?_, horder⟩
      · intro a ha
        rcases List.mem_append.mp ha with ha | ha
        · exact hnot a ha
        · rw [List.mem_singleton.mp ha, hflush]
          exact isBlocked_ofText out
      · simp only [run, List.flatMap_append, List.flatMap_singleton]
        rw [hflush, released_ofText, htext, hout]
  · right
    rw [hstart] at htext
    simp only [List.nil_append] at hes hpre htext
    refine ⟨?_, ⟨a, List.mem_append_left _ ha, hab⟩, pre, hpre, hok, ?_⟩
    · have hlines : (undrained codec e window (linesInclusive pieces.flatten)).1 =
          .ok (some es) := by
        obtain ⟨ext, hext⟩ := completeLines_isPrefixOf pieces.flatten
        rw [← hext, undrained, ingestAll_append_stop _ (by rw [← undrained, hes]; simp)]
        exact hes
      rw [undrainedEnd_of_blocked order hlines]
      exact ⟨es, hlines⟩
    · rw [← htext, hbefore]
      exact releasedBeforeBlock_append ha hab _

/-- The flush order shows neither in whether the stream blocks nor in the queue it leaves. -/
theorem undrainedEnd_order (o₁ o₂ : IterOrder ContentKey) (stream : Text) :
    SameEnd (undrainedEnd codec e window o₁ stream) (undrainedEnd codec e window o₂ stream) := by
  obtain ⟨es, hes⟩ | ⟨hok, hU, _⟩ :=
    (undrained_withWindow window).ingestAll he codec (linesInclusive stream)
  · rw [undrainedEnd_of_blocked o₁ hes, undrainedEnd_of_blocked o₂ hes]
    exact Or.inr ⟨⟨es, hes⟩, es, hes⟩
  · rw [undrainedEnd_of_ok o₁ hok, undrainedEnd_of_ok o₂ hok]
    set U := (undrained codec e window (linesInclusive stream)).2
    have hperm : (o₁.visit U.choices.keys).Perm (o₂.visit U.choices.keys) :=
      (o₁.perm _).trans (o₂.perm _).symm
    exact flushKeys_perm he hperm ((o₁.perm _).nodup_iff.mpr U.choices.nodup)
      fun key hkey => (o₁.perm _).mem_iff.mp hkey

theorem run_not_blocked_iff (order : IterOrder ContentKey) (pieces : List Text) :
    (∀ a ∈ (run codec e window order pieces).1, isBlocked a = false) ↔
      (undrainedEnd codec e window order pieces.flatten).1 = .ok none := by
  obtain ⟨hend, hnot, _⟩ | ⟨⟨es, hes⟩, ⟨a, ha, hab⟩, _⟩ := run_cases codec he window order pieces
  · exact ⟨fun _ => hend, fun _ => hnot⟩
  · constructor
    · intro h
      rw [h a ha] at hab
      cases hab
    · intro h
      rw [hes] at h
      cases h

/-- Redaction does not depend on how the transport cuts the stream, nor on the order in
which the flush visits the keys. -/
theorem run_chunking_independent (o₁ o₂ : IterOrder ContentKey) {ps qs : List Text}
    (hsame : ps.flatten = qs.flatten) :
    ((∃ a ∈ (run codec e window o₁ ps).1, isBlocked a = true) ↔
      ∃ a ∈ (run codec e window o₂ qs).1, isBlocked a = true) ∧
    ((∀ a ∈ (run codec e window o₁ ps).1, isBlocked a = false) →
      (∀ a ∈ (run codec e window o₂ qs).1, isBlocked a = false) →
      (run codec e window o₁ ps).1.flatMap released =
        (run codec e window o₂ qs).1.flatMap released) ∧
    ((∃ a ∈ (run codec e window o₁ ps).1, isBlocked a = true) →
      (∃ a ∈ (run codec e window o₂ qs).1, isBlocked a = true) →
      releasedBeforeBlock (run codec e window o₁ ps).1 <+:
          releasedBeforeBlock (run codec e window o₂ qs).1 ∨
        releasedBeforeBlock (run codec e window o₂ qs).1 <+:
          releasedBeforeBlock (run codec e window o₁ ps).1) := by
  have hend := undrainedEnd_order codec he window o₁ o₂ ps.flatten
  have hq := run_cases codec he window o₂ qs
  rw [← hsame] at hq
  obtain ⟨_, hnot₁, hout₁, _⟩ | ⟨⟨es, hes⟩, hb₁, pre₁, hpre₁, hok₁, hout₁⟩ :=
    run_cases codec he window o₁ ps
  · -- the first run does not block, so both end in one queue
    obtain ⟨heq, _⟩ | ⟨⟨es, hes⟩, _⟩ := hend
    · obtain ⟨_, hnot₂, hout₂, _⟩ | ⟨⟨es, hes⟩, _⟩ := hq
      · have hnone : ∀ {answers : List (Except Error SseEmit)},
            (∀ a ∈ answers, isBlocked a = false) → ¬ ∃ a ∈ answers, isBlocked a = true := by
          rintro answers hall ⟨a, ha, hab⟩
          rw [hall a ha] at hab
          cases hab
        refine ⟨⟨fun h => absurd h (hnone hnot₁), fun h => absurd h (hnone hnot₂)⟩, ?_, ?_⟩
        · intro _ _
          rw [hout₁, hout₂, heq]
        · intro h _
          exact absurd h (hnone hnot₁)
      · simp_all
    · simp_all
  · -- the first run blocks, and so does the second
    obtain ⟨heq, hnone⟩ | ⟨_, hes₂⟩ := hend
    · rw [hes] at hnone
      cases hnone
    obtain ⟨hnone, _⟩ | ⟨_, hb₂, pre₂, hpre₂, hok₂, hout₂⟩ := hq
    · obtain ⟨es₂, hes₂⟩ := hes₂
      rw [hes₂] at hnone
      cases hnone
    refine ⟨⟨fun _ => hb₂, fun _ => hb₁⟩, ?_, ?_⟩
    · intro hnot _
      obtain ⟨a, ha, hab⟩ := hb₁
      rw [hnot a ha] at hab
      cases hab
    · intro _ _
      rw [hout₁, hout₂]
      obtain hle | hle := List.prefix_or_prefix_of_prefix hpre₁ hpre₂
      · exact Or.inl ((extends_of_lines he codec window hle hok₂ hok₁).readyText_grows codec)
      · exact Or.inr ((extends_of_lines he codec window hle hok₁ hok₂).readyText_grows codec)

end Run

/-- A masked character, in a stream cut once and in one cut inside its data line. -/
theorem run_chunking_independent_masked :
    (run (contentCodec [['7'], ['*']]) (charEngine '7' .mask) 4 ⟨id, fun _ => .rfl⟩
      [contentLine ['7']]).1.flatMap released = contentLine ['*'] ∧
    (run (contentCodec [['7'], ['*']]) (charEngine '7' .mask) 4 ⟨List.reverse, List.reverse_perm⟩
      [(contentLine ['7']).take 9, (contentLine ['7']).drop 9]).1.flatMap released =
        contentLine ['*'] := by
  have h := run_chunking_independent (contentCodec [['7'], ['*']])
    (charEngine_errorFree '7' .mask) 4 ⟨id, fun _ => .rfl⟩ ⟨List.reverse, List.reverse_perm⟩
    (show [contentLine ['7']].flatten =
      [(contentLine ['7']).take 9, (contentLine ['7']).drop 9].flatten by simp)
  have hone : (run (contentCodec [['7'], ['*']]) (charEngine '7' .mask) 4 ⟨id, fun _ => .rfl⟩
      [contentLine ['7']]).1.flatMap released = contentLine ['*'] := by decide +kernel
  exact ⟨hone, (h.2.1 (by decide +kernel) (by decide +kernel)).symm.trans hone⟩

end SseHoldBack

end Governance
