import Governance.CopilotPush.Rotation

/-!
# What a reclaim destroys

A reclaim truncates the file at the path when its size is the shared offset. That offset was
measured against the file the sweep has read; when another file has taken its place meanwhile and
happens to have this size, its records are destroyed before anybody has read them. As long as no
reclaim meets such a file, it destroys settled records only (`reclaim_conserves`). Where the next
sweep starts does not depend on it: a file of another generation is read from its first byte.
-/

namespace Governance

open Utf8Text ByteLines

namespace Push

/-! ## The promise -/

/-- The record is settled for both signals, and counted with what the transform lost. -/
def Resolved (r : Reader) (moment : Moment) (generation : ℕ) (line : Line) : Prop :=
  (∀ signal, Settled r moment.log moment.disk.ledger generation signal line) ∧
    Counted.untranslated generation line ∈ moment.disk.ledger

/-- Where a sweep starts to read. -/
def resumeAt (digest : Bytes → String) (c : Checkpoint) (f : SpoolFile) : ℕ :=
  if (Identity.restart digest c.spool f c.offset).isSome then 0 else c.offset

/-- Every record that starts before the offset is resolved, and none is cut by it. -/
def ResolvedBefore (r : Reader) (moment : Moment) (f : SpoolFile) (offset : ℕ) : Prop :=
  Boundary f.bytes offset ∧ ∀ line, IsRecord f.bytes line → line.offset < offset →
    Resolved r moment f.generation line

/-- A truncation destroys resolved records only. -/
def DestroysResolved (r : Reader) (w : World) : Act → Prop
  | .reclaim => ∀ c f, w.Truncates c f → ResolvedBefore r w.now f f.bytes.length
  | _ => True

/-- The next sweep starts at or before the first record that is not resolved. -/
def ResumesInTime (r : Reader) (w : World) : Prop :=
  ∀ f, w.now.disk.spool = some f →
    ResolvedBefore r w.now f (resumeAt r.digest (w.now.disk.checkpoint.getD .default) f)

/-- The condition: the file that a reclaim truncates is of the generation that the offset was
measured against. -/
def NotReplaced (w : World) : Act → Prop
  | .reclaim => ∀ c f, w.Truncates c f → f.generation = w.now.disk.measured
  | _ => True

/-- What a checkpoint covers is resolved before its shared offset. -/
theorem Covers.resolvedBefore {r : Reader} {moment : Moment} {f : SpoolFile} {c : Checkpoint}
    (h : Covers r moment.log moment.disk.ledger f c) : ResolvedBefore r moment f c.offset := by
  refine ⟨h.boundary_offset, fun line hrecord hlt => ⟨fun signal => ?_, h.counted line hrecord hlt⟩⟩
  refine h.settled signal line hrecord (hlt.trans_le ?_)
  rw [h.shared]
  cases signal with
  | metrics => exact min_le_left _ _
  | logs => exact min_le_right _ _

/-! ## The invariant -/

namespace World

structure Invariant (r : Reader) (w : World) : Prop where
  file : ∀ f, w.now.disk.spool = some f → f ∈ w.seen
  fresh : ∀ f ∈ w.seen, f.generation < w.now.disk.files
  anchored : Anchored r w.seen w.now.disk.spool (w.now.disk.checkpoint.getD .default)
    w.now.disk.ledger w.now.disk.measured w.now.log
  todo : ∀ todo offered, w.phase = .sweeping todo offered → ∀ moment ∈ todo,
    Anchored r w.seen w.now.disk.spool (moment.disk.checkpoint.getD .default) moment.disk.ledger
      moment.disk.measured moment.log
  offered : ∀ todo c, w.phase = .sweeping todo (some c) →
    (todo.getLast?.getD w.now).disk.checkpoint.getD .default = c
  named : ∀ c measured, w.phase = .named c measured → c.AtStart

variable {r : Reader} {w : World}

/-- A world that is at rest has no moment to come and no checkpoint to answer for. -/
theorem invariant_idle (hphase : w.phase = .idle)
    (hfile : ∀ f, w.now.disk.spool = some f → f ∈ w.seen)
    (hfresh : ∀ f ∈ w.seen, f.generation < w.now.disk.files)
    (hanchored : Anchored r w.seen w.now.disk.spool (w.now.disk.checkpoint.getD .default)
      w.now.disk.ledger w.now.disk.measured w.now.log) : Invariant r w := by
  refine ⟨hfile, hfresh, hanchored, ?_, ?_, ?_⟩
  · intro todo offered hsweeping
    rw [hphase] at hsweeping
    cases hsweeping
  · intro todo c hsweeping
    rw [hphase] at hsweeping
    cases hsweeping
  · intro c measured hnamed
    rw [hphase] at hnamed
    cases hnamed

theorem invariant_start : Invariant r start := by
  refine invariant_idle rfl ?_ ?_ (.inl ⟨rfl, fun signal => by cases signal <;> rfl⟩)
  · intro f hf
    cases hf
  · intro f hf
    cases hf

/-- Files are only added to those that there have been. -/
theorem seen_subset_step (r : Reader) (w : World) (act : Act) : w.seen ⊆ (step r w act).seen := by
  cases act with
  | append more =>
    simp only [step]
    split
    · exact List.Subset.refl _
    · exact List.subset_append_left _ _
  | replace inode device bytes => exact List.subset_append_left _ _
  | sweep conditions dryRun carried =>
    simp only [step]
    split <;> exact List.Subset.refl _
  | proceed =>
    simp only [step]
    split <;> exact List.Subset.refl _
  | reclaim =>
    simp only [step]
    split
    · split
      · split
        · exact List.subset_append_left _ _
        · exact List.Subset.refl _
      · exact List.Subset.refl _
    · exact List.Subset.refl _
    · exact List.Subset.refl _
  | name =>
    simp only [step]
    split <;> exact List.Subset.refl _
  | store ok =>
    simp only [step]
    split
    · split <;> exact List.Subset.refl _
    · exact List.Subset.refl _
  | crash => exact List.Subset.refl _

theorem seen_subset_run (r : Reader) (w : World) (acts : List Act) :
    w.seen ⊆ (run r w acts).seen := by
  induction acts generalizing w with
  | nil => exact List.Subset.refl _
  | cons act acts ih => exact List.Subset.trans (seen_subset_step r w act) (ih (step r w act))

/-- Another phase that has nothing to do. -/
theorem Invariant.withPhase (h : Invariant r w) {phase : Phase}
    (hsweeping : ∀ todo offered, phase ≠ .sweeping todo offered)
    (hnamed : ∀ c measured, phase = .named c measured → c.AtStart) :
    Invariant r { w with phase := phase } :=
  ⟨h.file, h.fresh, h.anchored, fun todo offered hphase => absurd hphase (hsweeping todo offered),
    fun todo _ hphase => absurd hphase (hsweeping todo _), hnamed⟩

/-- Another file of a generation there has not been. -/
theorem Invariant.renew (h : Invariant r w) {f : SpoolFile}
    (hgeneration : f.generation = w.now.disk.files) :
    Invariant r (w.withFile { w.now.disk with
      spool := some f
      files := w.now.disk.files + 1 }) := by
  have hfresh : ∀ f' ∈ w.seen, f'.generation < f.generation := by
    rw [hgeneration]
    exact h.fresh
  have hanchored : ∀ {c : Checkpoint} {ledger : List Counted} {measured : ℕ}
      {log : List PushEvent}, Anchored r w.seen w.now.disk.spool c ledger measured log →
      Anchored r (w.seen ++ [f]) (some f) c ledger measured log :=
    fun hc => (hc.renew hfresh).mono (List.subset_append_left _ _) (List.Subset.refl _)
  refine ⟨?_, ?_, hanchored h.anchored, ?_, ?_, h.named⟩
  · intro f' hf'
    cases hf'
    exact List.mem_append_right _ (List.mem_singleton_self _)
  · intro f' hf'
    show f'.generation < w.now.disk.files + 1
    obtain hf' | hf' := List.mem_append.mp hf'
    · exact (h.fresh f' hf').trans (Nat.lt_succ_self _)
    · obtain rfl := List.mem_singleton.mp hf'
      omega
  · intro todo offered hphase moment hmem
    exact hanchored (h.todo todo offered hphase moment hmem)
  · intro todo c hphase
    have hoffered := h.offered todo c hphase
    cases hlast : todo.getLast? with
    | none =>
      rw [hlast] at hoffered
      exact hoffered
    | some moment =>
      rw [hlast] at hoffered
      exact hoffered

theorem Invariant.append (h : Invariant r w) {f : SpoolFile} (hf : w.now.disk.spool = some f)
    (more : Bytes) :
    Invariant r (w.withFile { w.now.disk with spool := some (f.append more) }) := by
  have hanchored : ∀ {c : Checkpoint} {ledger : List Counted} {measured : ℕ}
      {log : List PushEvent}, Anchored r w.seen w.now.disk.spool c ledger measured log →
      Anchored r (w.seen ++ [f.append more]) (some (f.append more)) c ledger measured log := by
    intro c ledger measured log hc
    rw [hf] at hc
    exact (hc.append more).mono (List.subset_append_left _ _) (List.Subset.refl _)
  refine ⟨?_, ?_, hanchored h.anchored, ?_, ?_, h.named⟩
  · intro f' hf'
    cases hf'
    exact List.mem_append_right _ (List.mem_singleton_self _)
  · intro f' hf'
    obtain hf' | hf' := List.mem_append.mp hf'
    · exact h.fresh f' hf'
    · obtain rfl := List.mem_singleton.mp hf'
      exact h.fresh f (h.file f hf)
  · intro todo offered hphase moment hmem
    exact hanchored (h.todo todo offered hphase moment hmem)
  · intro todo c hphase
    rw [← h.offered todo c hphase]
    cases todo.getLast? <;> rfl

/-- A sweep reads the file and has its moments before it. -/
theorem Invariant.sweep (h : Invariant r w) (hapart : ToldApart r.digest w.seen)
    (conditions : Conditions) (dryRun : Bool) (carried : ℕ) :
    Invariant r (step r w (.sweep conditions dryRun carried)) := by
  simp only [step]
  split
  · obtain ⟨hsynced, hstored, htrail⟩ := passOnce_spec ⟨r, conditions⟩ dryRun carried h.file hapart
      h.anchored
    generalize passOnce ⟨r, conditions⟩ dryRun carried w.now = pass at hsynced hstored htrail
    refine ⟨h.file, h.fresh, h.anchored, ?_, ?_, ?_⟩
    · intro todo offered hphase moment hmem
      cases hphase
      exact htrail moment (List.mem_of_mem_tail hmem)
    · intro todo c hphase
      injection hphase with htodo hc
      split at hc
      · next hpass =>
        cases hc
        subst htodo
        obtain ⟨rest, hrest⟩ := hsynced.opened
        have hlast := hsynced.latest
        rw [← hrest, List.singleton_append, List.getLast?_cons] at hlast
        rw [hstored hpass, hsynced.stored, ← hrest, List.singleton_append, List.tail_cons,
          Option.some.inj hlast]
      · cases hc
    · intro c measured hnamed
      cases hnamed
  · exact h

/-- The next moment of a sweep. -/
theorem Invariant.proceed (h : Invariant r w) : Invariant r (step r w .proceed) := by
  simp only [step]
  split
  · next moment todo offered hphase =>
    refine ⟨h.file, h.fresh, h.todo _ _ hphase moment (List.mem_cons_self ..), ?_, ?_, ?_⟩
    · intro todo' offered' hphase' moment' hmem
      cases hphase'
      exact h.todo _ _ hphase moment' (List.mem_cons_of_mem _ hmem)
    · intro todo' c hphase'
      injection hphase' with htodo hc
      subst htodo hc
      have hoffered := h.offered _ _ hphase
      rw [List.getLast?_cons] at hoffered
      cases hlast : todo.getLast? with
      | none =>
        rw [hlast] at hoffered
        exact hoffered
      | some moment' =>
        rw [hlast] at hoffered
        exact hoffered
    · intro c measured hnamed
      cases hnamed
  · exact h

/-- The sweep is over. -/
theorem Invariant.rest (h : Invariant r w) : Invariant r { w with phase := .idle } :=
  invariant_idle rfl h.file h.fresh h.anchored

theorem Invariant.reclaim (h : Invariant r w) : Invariant r (step r w .reclaim) := by
  simp only [step]
  split
  · split
    · split
      · refine (h.renew rfl).withPhase ?_ ?_
        · intro todo offered hsweeping
          cases hsweeping
        · intro c measured hnamed
          cases hnamed
      · exact h.rest
    · exact h.rest
  · exact h.rest
  · exact h

theorem atStart_reclaimed (c : Checkpoint) (digest : Bytes → String) (disk : PushDisk) :
    (c.reclaimed digest disk).AtStart :=
  ⟨rfl, fun signal => by cases signal <;> rfl⟩

theorem Invariant.name (h : Invariant r w) : Invariant r (step r w .name) := by
  simp only [step]
  split
  · next c hphase =>
    refine h.withPhase ?_ ?_
    · intro todo offered hsweeping
      cases hsweeping
    · intro c' measured hnamed
      cases hnamed
      exact atStart_reclaimed c _ _
  · exact h

theorem Invariant.store (h : Invariant r w) (ok : Bool) : Invariant r (step r w (.store ok)) := by
  simp only [step]
  split
  · next c measured hphase =>
    cases ok with
    | true => exact invariant_idle rfl h.file h.fresh (.inl (h.named c measured hphase))
    | false => exact h.rest
  · exact h

theorem Invariant.step (h : Invariant r w) (hapart : ToldApart r.digest w.seen) (act : Act) :
    Invariant r (World.step r w act) := by
  cases act with
  | append more =>
    simp only [World.step]
    split
    · exact h
    · next f hf => exact h.append hf more
  | replace inode device bytes => exact h.renew rfl
  | sweep conditions dryRun carried => exact h.sweep hapart conditions dryRun carried
  | proceed => exact h.proceed
  | reclaim => exact h.reclaim
  | name => exact h.name
  | store ok => exact h.store ok
  | crash =>
    exact invariant_idle rfl h.file h.fresh
      (h.anchored.mono (List.Subset.refl _) (List.subset_append_left _ _))

/-! ## What follows -/

/-- The next sweep is in time. -/
theorem Invariant.resumes (h : Invariant r w) (hapart : ToldApart r.digest w.seen) :
    ResumesInTime r w := by
  intro f hf
  have hanchored := h.anchored
  rw [hf] at hanchored
  rw [resumeAt]
  cases hrestart : Identity.restart r.digest (w.now.disk.checkpoint.getD .default).spool f
      (w.now.disk.checkpoint.getD .default).offset with
  | some why => exact ⟨boundary_zero _, fun line _ hlt => absurd hlt (Nat.not_lt_zero _)⟩
  | none =>
    exact (hanchored.covers hapart (h.file f hf) hrestart).resolvedBefore

/-- A reclaim that meets the file its offset was measured against destroys resolved records. -/
theorem Invariant.destroys (h : Invariant r w) {act : Act} (hsafe : NotReplaced w act) :
    DestroysResolved r w act := by
  cases act with
  | reclaim =>
    intro c f htruncates
    obtain ⟨hphase, hf, habove, hsize⟩ := htruncates
    have hc : w.now.disk.checkpoint.getD .default = c := h.offered _ c hphase
    have hanchored := h.anchored
    rw [hf, hc] at hanchored
    obtain hstart | ⟨f₀, -, -, -, -, hcovers⟩ := hanchored
    · have := hstart.1
      omega
    · have hmeasured := hsafe c f ⟨hphase, hf, habove, hsize⟩
      rw [hsize]
      exact (hcovers f rfl hmeasured).2.resolvedBefore
  | append => trivial
  | replace => trivial
  | sweep => trivial
  | proceed => trivial
  | name => trivial
  | store => trivial
  | crash => trivial

end World

/-- The files of a run are told apart at each of its steps. -/
theorem World.Invariant.run {r : Reader} {w : World} (h : World.Invariant r w) {acts : List Act}
    (hapart : ToldApart r.digest (World.run r w acts).seen)
    (hsafe : Runs.Always (World.step r) NotReplaced w acts) :
    Runs.Always (World.step r) (DestroysResolved r) w acts ∧
      World.Invariant r (World.run r w acts) := by
  induction acts generalizing w with
  | nil => exact ⟨trivial, h⟩
  | cons act acts ih =>
    have hbefore : ToldApart r.digest w.seen := by
      have hsubset := World.seen_subset_run r w (act :: acts)
      exact fun f hf f' hf' => hapart f (hsubset hf) f' (hsubset hf')
    obtain ⟨hrest, hend⟩ := ih (h.step hbefore act) hapart hsafe.2
    exact ⟨⟨h.destroys hsafe.1, hrest⟩, hend⟩

/-- Every reclaim of a run destroys resolved records only, and the next sweep starts in time, if
files of different generations are told apart and no reclaim meets a file that took the place of
the one its offset was measured against. -/
theorem reclaim_conserves (r : Reader) (acts : List Act)
    (hapart : ToldApart r.digest (World.run r .start acts).seen)
    (hsafe : Runs.Always (World.step r) NotReplaced .start acts) :
    Runs.Always (World.step r) (DestroysResolved r) .start acts ∧
      ResumesInTime r (World.run r .start acts) := by
  obtain ⟨hdestroys, hend⟩ := (World.invariant_start).run hapart hsafe
  exact ⟨hdestroys, hend.resumes hapart⟩

/-! ## A sweep over one line -/

/-- Every line is a metric record of which nothing is lost, and a head is its own digest. -/
def verbatim : Reader :=
  ⟨fun bs => .ofList (bs.map fun b => Char.ofNat b.toNat), fun _ => some .metrics, fun _ => 0⟩

/-- The collector accepts everything and every store succeeds. -/
def smooth : Conditions := ⟨0, fun _ => 0, fun _ => .accepted, fun _ => true⟩

/-- A file of one line is read as a whole. -/
theorem drain_line (digest : Bytes → String) {f : SpoolFile} {t : Text}
    (hbytes : f.bytes = lineBytes [t]) (ht : IsLine t) (hfits : (encode t).length < maxRead) :
    drain digest (some f) 0 none = .ok ⟨[⟨0, t⟩], f.bytes.length, none, false, f.bytes.length,
      some (.of digest f)⟩ := by
  have hlen : f.bytes.length = (encode t).length + 1 := by simp [hbytes]
  have htake : f.bytes.take maxRead = lineBytes [t] := by
    rw [List.take_of_length_le (by omega), hbytes]
  have hlast : lastLineFeed (lineBytes [t]) = some (encode t).length := by
    have h := lastLineFeed_unlines (encode t) [] (List.not_mem_nil (a := lineFeed))
    simpa [lineBytes] using h
  have hcollect : collectLines 0 (segments (lineBytes [t])) = [⟨0, t⟩] := by
    rw [collectLines_lineBytes (by simpa using ht), List.map_cons, List.cons_append,
      collectLines_cons ht]
    simp [collectLines, fromUtf8Lossy, lossyLoop, Utf8Text.trim]
  have hwhole : (lineBytes [t]).take ((encode t).length + 1) = lineBytes [t] :=
    List.take_of_length_le (by simp)
  simp only [drain, Identity.restart, Nat.not_lt_zero, if_false, Option.isSome_none,
    Bool.false_eq_true, List.drop_zero, htake, hlast, hwhole, hcollect, hlen, Nat.zero_add]

section OneLine

variable (f : SpoolFile) (t : Text)

/-- What is stored when the line has been offered as a metric. -/
def metricsDone : Checkpoint :=
  ⟨0, some (.of verbatim.digest f), some f.bytes.length, none, none, 0, 0, none, none, ⟨[]⟩⟩

/-- What is stored when it has been offered as a log record too. -/
def bothDone : Checkpoint :=
  { metricsDone f with offset := f.bytes.length, logsOffset := some f.bytes.length }

/-- What is stored at the end. -/
def allDone : Checkpoint := { bothDone f with lastPushUnix := some 0, lastPushRecords := 1 }

def lineEvents : List PushEvent :=
  [.posted f.generation .metrics [⟨0, t⟩] .accepted, .stored f.generation (metricsDone f),
    .stored f.generation (bothDone f), .stored f.generation (allDone f)]

/-- The moments of the sweep, by the number of events before them. -/
def lineMoment : ℕ → Moment
  | 0 => ⟨⟨some f, none, [], 0, 1⟩, []⟩
  | 1 => ⟨⟨some f, none, [], 0, 1⟩, (lineEvents f t).take 1⟩
  | 2 => ⟨⟨some f, some (metricsDone f), [], f.generation, 1⟩, (lineEvents f t).take 2⟩
  | 3 => ⟨⟨some f, some (bothDone f), [.untranslated f.generation ⟨0, t⟩], f.generation, 1⟩,
      (lineEvents f t).take 3⟩
  | _ => ⟨⟨some f, some (allDone f), [.untranslated f.generation ⟨0, t⟩], f.generation, 1⟩,
      lineEvents f t⟩

def lineJournal (c : Checkpoint) (charged : ℕ) : Journal :=
  ⟨[⟨0, t⟩], c, c, some (.of verbatim.digest f), charged, 0⟩

/-- The sweep before its two signals. -/
def lineStart : Machine :=
  .start (lineMoment f t 0) (.new [⟨0, t⟩] .default (some (.of verbatim.digest f)) false)

/-- The sweep between its two signals. -/
def metricsOffered : Machine :=
  ⟨lineMoment f t 2, lineJournal f t (metricsDone f) 0, 1, 1, [],
    [lineMoment f t 0, lineMoment f t 1, lineMoment f t 2], [],
    [⟨metricsDone f, true, false, 0, [], 0⟩]⟩

/-- The sweep behind both. -/
def bothOffered : Machine :=
  ⟨lineMoment f t 3, lineJournal f t (bothDone f) 1, 1, 2, [.untranslated f.generation ⟨0, t⟩],
    [lineMoment f t 0, lineMoment f t 1, lineMoment f t 2, lineMoment f t 3], [],
    [⟨metricsDone f, true, false, 0, [], 0⟩, ⟨bothDone f, true, false, 0, [], f.bytes.length⟩]⟩

variable {f t}

theorem offerSignal_metrics (hpos : 0 < f.bytes.length) :
    offerSignal ⟨verbatim, smooth⟩ .metrics f.bytes.length (lineStart f t) =
      (⟨1, 1, 0, 0, false, 1, false, some 1, 0⟩, metricsOffered f t) := by
  simp [hpos, offerSignal, pendingFor, lineStart, Machine.start, Journal.new, Checkpoint.default,
    Checkpoint.signalOffset, exportSignal, exportLoop, commit, Progress.default, advancedTo,
    Machine.advance, Machine.charge, Machine.fresh, Machine.newly, Checkpoint.raise, Machine.lossOf,
    Checkpoint.recordDiscards, Machine.commit, maxRequests, build, verbatim, Machine.post, smooth,
    Machine.reach, Machine.generation, PushDisk.generation, Checkpoint.advance, Machine.store,
    lineMoment, lineEvents, lineJournal, metricsDone, metricsOffered]

theorem offerSignal_logs (hpos : 0 < f.bytes.length) :
    offerSignal ⟨verbatim, smooth⟩ .logs f.bytes.length (metricsOffered f t) =
      (⟨1, 0, 0, 0, false, 0, false, some 1, 0⟩, bothOffered f t) := by
  simp [hpos, offerSignal, pendingFor, Checkpoint.signalOffset, exportSignal, exportLoop, commit,
    Progress.default, advancedTo, Machine.advance, Machine.charge, Machine.fresh, Machine.newly,
    Checkpoint.raise, Machine.lossOf, Checkpoint.recordDiscards, Machine.commit, maxRequests, build,
    verbatim, smooth, Machine.reach, Machine.generation, PushDisk.generation, Checkpoint.advance,
    Machine.store, lineMoment, lineEvents, lineJournal, metricsDone, bothDone, metricsOffered,
    bothOffered]

/-- A sweep over one line. -/
theorem passOnce_line (hbytes : f.bytes = lineBytes [t]) (ht : IsLine t)
    (hfits : (encode t).length < maxRead) :
    (passOnce ⟨verbatim, smooth⟩ false 0 (lineMoment f t 0)).1 = true ∧
      (passOnce ⟨verbatim, smooth⟩ false 0 (lineMoment f t 0)).2.journal.state = allDone f ∧
      (passOnce ⟨verbatim, smooth⟩ false 0 (lineMoment f t 0)).2.trail.tail =
        [lineMoment f t 1, lineMoment f t 2, lineMoment f t 3, lineMoment f t 4] := by
  have hpos : 0 < f.bytes.length := by simp [hbytes]
  have hprune : (lineStart f t).withQuarantine
      ((lineStart f t).journal.state.quarantine.prune smooth.now) = lineStart f t := rfl
  have hboth : both ⟨verbatim, smooth⟩ f.bytes.length (lineStart f t) =
      (⟨1, false, false⟩, bothOffered f t) := by
    simp only [both]
    rw [hprune, offerSignal_metrics hpos]
    simp only [offerSignal_logs hpos, Nat.add_zero, Bool.or_false]
  have hpass : passOnce ⟨verbatim, smooth⟩ false 0 (lineMoment f t 0) =
      ((bothOffered f t).finished 1 false 0).commit ⟨verbatim, smooth⟩ false 0 := by
    have hdrain : drain verbatim.digest (lineMoment f t 0).disk.spool
        ((lineMoment f t 0).disk.checkpoint.getD .default).offset
        ((lineMoment f t 0).disk.checkpoint.getD .default).spool = _ :=
      drain_line verbatim.digest hbytes ht hfits
    have hstart : Machine.start (lineMoment f t 0)
        (.new [⟨0, t⟩] ((lineMoment f t 0).disk.checkpoint.getD .default)
          (some (.of verbatim.digest f)) (none : Option Restart).isSome) = lineStart f t := rfl
    simp only [passOnce, hdrain, Bool.false_eq_true, if_false, List.cons_ne_nil, hstart, hboth]
    rfl
  rw [hpass]
  refine ⟨?_, ?_, ?_⟩ <;>
    simp [Machine.finished, Machine.commit, Machine.store, bothOffered, lineJournal, bothDone,
      metricsDone, allDone, smooth, Machine.reach, lineMoment, lineEvents, Machine.generation,
      PushDisk.generation]

/-- A file is created, and a sweep delivers its only line; the reclaim is still to come. -/
def deliverLine (t : Text) : List Act :=
  [.replace (some 1) (some 0) (lineBytes [t]), .sweep smooth false 0, .proceed, .proceed, .proceed,
    .proceed]

/-- The file that `deliverLine` creates. -/
def lineFile (t : Text) : SpoolFile := ⟨some 1, some 0, lineBytes [t], 0⟩

/-- The world in which the line has been delivered. -/
def lineDelivered (t : Text) : World :=
  ⟨lineMoment (lineFile t) t 4, .sweeping [] (some (allDone (lineFile t))), [lineFile t]⟩

theorem run_deliverLine (ht : IsLine t) (hfits : (encode t).length < maxRead) :
    World.run verbatim .start (deliverLine t) = lineDelivered t := by
  obtain ⟨hoffers, hstate, htrail⟩ := passOnce_line (f := lineFile t) rfl ht hfits
  have hsweep : World.step verbatim ⟨lineMoment (lineFile t) t 0, .idle, [lineFile t]⟩
      (.sweep smooth false 0) = ⟨lineMoment (lineFile t) t 0,
        .sweeping [lineMoment (lineFile t) t 1, lineMoment (lineFile t) t 2,
          lineMoment (lineFile t) t 3, lineMoment (lineFile t) t 4]
          (some (allDone (lineFile t))), [lineFile t]⟩ := by
    simp only [World.step, hoffers, hstate, htrail, if_true]
  have hcreated : World.step verbatim .start (.replace (some 1) (some 0) (lineBytes [t])) =
      ⟨lineMoment (lineFile t) t 0, .idle, [lineFile t]⟩ := rfl
  simp only [World.run, deliverLine, List.foldl_cons, hcreated, hsweep]
  rfl

/-! ## A file that takes the place of another -/

variable {t' : Text}

/-- The file that takes its place. -/
def usurper (t' : Text) : SpoolFile := ⟨some 2, some 0, lineBytes [t'], 1⟩

/-- Another file is in place before the reclaim. -/
def usurped (t t' : Text) : World :=
  World.step verbatim (lineDelivered t) (.replace (some 2) (some 0) (lineBytes [t']))

theorem usurped_truncates (habove : reclaimAbove < (lineBytes [t]).length)
    (hsize : (lineBytes [t']).length = (lineBytes [t]).length) :
    (usurped t t').Truncates (allDone (lineFile t)) (usurper t') :=
  ⟨rfl, rfl, habove, hsize⟩

theorem usurped_unread (ht' : IsLine t') :
    ¬ ResolvedBefore verbatim (usurped t t').now (usurper t') (lineBytes [t']).length := by
  intro h
  have hpos : 0 < (lineBytes [t']).length := by simp
  have hrecord : IsRecord (usurper t').bytes ⟨0, t'⟩ := by
    refine ⟨[], encode t', [], ?_, .inl rfl, ht'.notMem_encode, ?_, ht'.nonempty⟩
    · rw [usurper, lineBytes_cons, lineBytes_nil, List.nil_append]
    · simp [ht'.trimmed]
  have hsettled := (h.2 _ hrecord hpos).1 .metrics rfl
  simp [usurped, lineDelivered, World.step, World.withFile, lineMoment, lineEvents, lineFile,
    usurper] at hsettled

/-- The ids tell the two apart. -/
theorem usurped_toldApart (habove : reclaimAbove < (lineBytes [t]).length)
    (hsize : (lineBytes [t']).length = (lineBytes [t]).length) :
    ToldApart verbatim.digest (World.step verbatim (usurped t t') .reclaim).seen := by
  have hseen : (World.step verbatim (usurped t t') .reclaim).seen =
      [lineFile t, usurper t', ⟨some 2, some 0, [], 2⟩] := by
    show (if reclaimAbove < (lineBytes [t]).length ∧
        (lineBytes [t']).length = (lineBytes [t]).length
      then { (usurped t t').withFile ((usurped t t').now.disk.truncate (usurper t')) with
        phase := Phase.emptied (allDone (lineFile t)) }
      else { usurped t t' with phase := .idle }).seen = _
    rw [if_pos ⟨habove, hsize⟩]
    rfl
  rw [hseen]
  intro f hf f' hf' hne hgeneration
  rw [Bool.eq_false_iff, Ne, Identity.same_iff]
  rintro ⟨hlen, hinode, -⟩
  simp only [List.mem_cons, List.not_mem_nil, or_false] at hf hf'
  obtain rfl | rfl | rfl := hf
  · obtain rfl | rfl | rfl := hf'
    · exact hgeneration rfl
    · simp [Identity.of, Identity.read, Identity.agree, lineFile, usurper] at hinode
    · simp [Identity.of, Identity.read, Identity.agree, lineFile] at hinode
  · obtain rfl | rfl | rfl := hf'
    · simp [Identity.of, Identity.read, Identity.agree, lineFile, usurper] at hinode
    · exact hgeneration rfl
    · simp [Identity.of, Identity.read, usurper, headBytes] at hlen
  · exact hne rfl

/-! ## A file that grows again under its old ids -/

/-- The reclaim truncates the delivered file, the sweep is killed before it stores the checkpoint,
and the file grows again. -/
def regrown (t : Text) (more : Bytes) : List Act :=
  deliverLine t ++ [Act.reclaim, Act.crash, Act.append more]

/-- A first byte tells two files apart. -/
theorem same_eq_false_of_head {f f' : SpoolFile} {b b' : UInt8} {x y : Bytes}
    (hf : f.bytes = b :: x) (hf' : f'.bytes = b' :: y)
    (hne : Char.ofNat b.toNat ≠ Char.ofNat b'.toNat) :
    Identity.same verbatim.digest (.of verbatim.digest f) f' = false := by
  have hlen : (Identity.of verbatim.digest f).headLen = min headBytes f.bytes.length := by
    simp [Identity.of, Identity.read]
  obtain ⟨k, hk⟩ : ∃ k, min headBytes f.bytes.length = k + 1 := by
    refine ⟨min headBytes f.bytes.length - 1, ?_⟩
    rw [hf, List.length_cons, headBytes]
    omega
  rw [Bool.eq_false_iff, Ne, Identity.same_iff, hlen, hk]
  rintro ⟨-, -, -, hhead⟩
  have hdigest : verbatim.digest (f'.bytes.take (k + 1)) =
      verbatim.digest (f.bytes.take (k + 1)) := by
    rw [hhead, Identity.of, Identity.read, hk]
  rw [hf, hf', List.take_succ_cons, List.take_succ_cons] at hdigest
  have hchars := String.ofList_injective hdigest
  rw [List.map_cons, List.map_cons] at hchars
  exact hne (List.cons.inj hchars).1.symm

theorem run_regrown {more : Bytes} (ht : IsLine t) (hfits : (encode t).length < maxRead)
    (habove : reclaimAbove < (lineBytes [t]).length) :
    (World.run verbatim .start (regrown t more)).seen =
      [lineFile t, ⟨some 1, some 0, [], 1⟩, ⟨some 1, some 0, more, 1⟩] := by
  have hrun : World.run verbatim .start (regrown t more) =
      World.run verbatim (lineDelivered t) [.reclaim, .crash, .append more] := by
    have hline := run_deliverLine ht hfits
    rw [World.run] at hline
    rw [World.run, regrown, List.foldl_append, hline, World.run]
  have hreclaim : World.step verbatim (lineDelivered t) .reclaim =
      { (lineDelivered t).withFile ((lineDelivered t).now.disk.truncate (lineFile t)) with
        phase := .emptied (allDone (lineFile t)) } := if_pos ⟨habove, rfl⟩
  rw [hrun]
  show (World.run verbatim (World.step verbatim (lineDelivered t) .reclaim)
    [.crash, .append more]).seen = _
  rw [hreclaim]
  rfl

theorem regrown_toldApart {more x y : Bytes} {b b' : UInt8} (ht : IsLine t)
    (hfits : (encode t).length < maxRead) (habove : reclaimAbove < (lineBytes [t]).length)
    (hx : lineBytes [t] = b :: x) (hy : more = b' :: y)
    (hne : Char.ofNat b.toNat ≠ Char.ofNat b'.toNat) :
    ToldApart verbatim.digest (World.run verbatim .start (regrown t more)).seen := by
  rw [run_regrown ht hfits habove]
  intro f hf f' hf' hfne hgeneration
  simp only [List.mem_cons, List.not_mem_nil, or_false] at hf hf'
  obtain rfl | rfl | rfl := hf
  · obtain rfl | rfl | rfl := hf'
    · exact absurd rfl hgeneration
    · rw [Bool.eq_false_iff, Ne, Identity.same_iff]
      rintro ⟨hlen, -⟩
      simp [Identity.of, Identity.read, lineFile, headBytes] at hlen
    · exact same_eq_false_of_head hx hy hne
  · exact absurd rfl hfne
  · obtain rfl | rfl | rfl := hf'
    · exact same_eq_false_of_head hy hx hne.symm
    · exact absurd rfl hgeneration
    · exact absurd rfl hgeneration

theorem regrown_notReplaced {more : Bytes} (ht : IsLine t) (hfits : (encode t).length < maxRead) :
    Runs.Always (World.step verbatim) NotReplaced .start (regrown t more) := by
  refine ⟨trivial, trivial, trivial, trivial, trivial, trivial, ?_, trivial, trivial, trivial⟩
  show NotReplaced (World.run verbatim .start (deliverLine t)) .reclaim
  rw [run_deliverLine ht hfits]
  rintro c f ⟨-, hf, -⟩
  obtain rfl : lineFile t = f := Option.some.inj hf
  rfl

end OneLine

/-- A line of some times the same character. -/
def repeated (c : Char) (n : ℕ) : Text := c :: List.replicate n c ++ [c]

theorem isLine_repeated {c : Char} (hc : isWhiteSpace c = false) (n : ℕ) :
    IsLine (repeated c n) := by
  refine ⟨?_, trim_eq_self hc hc, by simp [repeated]⟩
  intro hmem
  have hfeed : '\n' = c := by
    simp only [repeated, List.cons_append, List.mem_cons, List.mem_append,
      List.mem_replicate] at hmem
    grind
  rw [← hfeed] at hc
  revert hc
  decide

theorem lineBytes_repeated {c : Char} {b : UInt8} (hb : String.utf8EncodeChar c = [b]) (n : ℕ) :
    lineBytes [repeated c n] = b :: (List.replicate n b ++ [b, lineFeed]) := by
  simp [encode, repeated, List.flatMap_replicate, hb]

theorem length_lineBytes_repeated {c : Char} {b : UInt8} (hb : String.utf8EncodeChar c = [b])
    (n : ℕ) : (lineBytes [repeated c n]).length = n + 3 := by
  rw [lineBytes_repeated hb]
  simp

/-- It fits into the window and is more than a reclaim leaves. -/
theorem fits_repeated {c : Char} {b : UInt8} (hb : String.utf8EncodeChar c = [b]) {n : ℕ}
    (hn : n = 1100000) :
    (encode (repeated c n)).length < maxRead ∧
      reclaimAbove < (lineBytes [repeated c n]).length := by
  have hlen := length_lineBytes_repeated hb n
  refine ⟨?_, ?_⟩
  · rw [lineBytes_cons, List.length_append, List.length_cons] at hlen
    rw [maxRead]
    omega
  · rw [hlen, reclaimAbove]
    omega

/-- Killed between the truncation and the store, and grown beyond the old offset. -/
theorem reclaim_conserves_regrown :
    ToldApart verbatim.digest (World.run verbatim .start (regrown (repeated 'a' 1100000)
        (lineBytes [repeated 'b' 1100000, ['b']]))).seen ∧
      Runs.Always (World.step verbatim) (DestroysResolved verbatim) .start
        (regrown (repeated 'a' 1100000) (lineBytes [repeated 'b' 1100000, ['b']])) ∧
      ResumesInTime verbatim (World.run verbatim .start (regrown (repeated 'a' 1100000)
        (lineBytes [repeated 'b' 1100000, ['b']]))) := by
  obtain ⟨n, hn⟩ : ∃ n, n = 1100000 := ⟨_, rfl⟩
  rw [← hn]
  have hline : IsLine (repeated 'a' n) := isLine_repeated (by decide) n
  obtain ⟨hfits, habove⟩ := fits_repeated (show String.utf8EncodeChar 'a' = [97] from rfl) hn
  have hmore : lineBytes [repeated 'b' n, ['b']] =
      98 :: (List.replicate n 98 ++ [98, lineFeed] ++ lineBytes [['b']]) := by
    have happend := lineBytes_append [repeated 'b' n] [['b']]
    rw [lineBytes_repeated (show String.utf8EncodeChar 'b' = [98] from rfl)] at happend
    exact happend
  have hapart := regrown_toldApart hline hfits habove
    (lineBytes_repeated (show String.utf8EncodeChar 'a' = [97] from rfl) n) hmore (by decide)
  exact ⟨hapart, reclaim_conserves verbatim _ hapart (regrown_notReplaced hline hfits)⟩

/-- Another file of the same size takes the place of the delivered one before the reclaim. -/
def takenOver (t t' : Text) : List Act :=
  deliverLine t ++ [Act.replace (some 2) (some 0) (lineBytes [t']), Act.reclaim]

theorem run_takenOver {t : Text} (t' : Text) (ht : IsLine t) (hfits : (encode t).length < maxRead) :
    World.run verbatim .start (takenOver t t') = World.step verbatim (usurped t t') .reclaim := by
  have hrun := run_deliverLine ht hfits
  rw [World.run] at hrun
  rw [World.run, takenOver, List.foldl_append, hrun]
  rfl

/-- A reclaim destroys a record that nobody has read. -/
theorem takenOver_destroys_unread :
    ToldApart verbatim.digest
        (World.run verbatim .start (takenOver (repeated 'a' 1100000) (repeated 'b' 1100000))).seen ∧
      ¬ Runs.Always (World.step verbatim) (DestroysResolved verbatim) .start
        (takenOver (repeated 'a' 1100000) (repeated 'b' 1100000)) := by
  obtain ⟨n, hn⟩ : ∃ n, n = 1100000 := ⟨_, rfl⟩
  rw [← hn]
  have hline : IsLine (repeated 'a' n) := isLine_repeated (by decide) n
  obtain ⟨hfits, habove⟩ := fits_repeated (show String.utf8EncodeChar 'a' = [97] from rfl) hn
  have hsize : (lineBytes [repeated 'b' n]).length = (lineBytes [repeated 'a' n]).length := by
    rw [length_lineBytes_repeated (show String.utf8EncodeChar 'a' = [97] from rfl),
      length_lineBytes_repeated (show String.utf8EncodeChar 'b' = [98] from rfl)]
  constructor
  · rw [run_takenOver _ hline hfits]
    exact usurped_toldApart habove hsize
  · intro halways
    have hdestroys := Runs.always_iff_split.1 halways
      (deliverLine (repeated 'a' n) ++
        [Act.replace (some 2) (some 0) (lineBytes [repeated 'b' n])])
      .reclaim [] rfl
    have hrun := run_deliverLine hline hfits
    rw [World.run] at hrun
    rw [List.foldl_append, hrun] at hdestroys
    exact usurped_unread (isLine_repeated (by decide) n)
      (hdestroys _ _ (usurped_truncates habove hsize))

end Push

end Governance
