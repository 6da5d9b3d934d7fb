import Governance.Otel.Drain
import Governance.Spool.Steps

/-!
# One walk of the lookahead

`drain/lookahead.rs`: a walk looks behind the record at the head for one that the collector
takes. It moves by `peek_next`, which answers nothing at a line that cannot be decoded, where
`next` would skip the line. So a walk gets past a run of refused records exactly if no such line
lies between them, and holds everything where it meets one.

`walk` runs the consumer of `Drain` from the head being eligible to the end of the walk.
-/

namespace Governance

open Utf8Text ByteLines

/-- The next `n` lines behind an offset, read one after the other as `next` would: a record, or
`none` for a line that cannot be decoded. -/
def DurableSpool.linesBehind (env : SpoolEnv) (s : DurableSpool) : ℕ → ℕ → List (Option Pending)
  | 0, _ => []
  | n + 1, offset =>
    match s.peekAt env offset with
    | .ok (.decoded p, _) => some p :: s.linesBehind env n p.boundary
    | .ok (.undecodable boundary, _) => none :: s.linesBehind env n boundary
    | _ => []

namespace Drainer

/-- The answer that a step of a walk gets, from those of the collector to its probes. The mint
succeeds. -/
def reply (answer : ℕ → ProbeOutcome) : Phase → ProbeOutcome
  | .probing _ jumped _ => answer jumped.length
  | _ => .accepted

variable (env : SpoolEnv) (now : ℕ) (answer : ℕ → ProbeOutcome)

/-- The consumer, until it is idle. -/
def stepUntilIdle : ℕ → Drainer → Drainer
  | 0, d => d
  | fuel + 1, d =>
    match d.phase with
    | .idle => d
    | phase => stepUntilIdle fuel (d.consume env now (reply answer phase))

/-- `lookahead::walk` for the record at the head: the mint, two steps for each probe and one for
the commit. -/
def walk (s : DurableSpool) (p : Pending) (log : List Observation) : Drainer :=
  stepUntilIdle env now answer (2 * maxLookahead + 2) ⟨s, .eligible p, log⟩

/-- The attempts of a walk that were refused. -/
def refusals (jumped : List Pending) : List Observation := jumped.map fun p => .attempt p .refused

/-- A walk over `jumped` that takes `probe` and commits behind it. -/
structure Passes (s : DurableSpool) (p : Pending) (log : List Observation) (jumped : List Pending)
    (probe : Pending) (d : Drainer) : Prop where
  spool : d.spool = s.discardConfirmed p (jumped.length + 1) probe now
  phase : d.phase = .idle
  log : d.log = log ++ refusals jumped ++
    [Observation.attempt probe .accepted, Observation.discarded p jumped probe]
  lost : d.spool.checkpoint.discardedTotal = s.checkpoint.discardedTotal + (jumped.length + 1)
  stored : d.spool.disk.checkpoint = some d.spool.checkpoint
  /-- The next read starts behind the probe, or the file ended there and was emptied. -/
  reached : (d.spool.checkpoint.offset = probe.boundary ∧ d.spool.disk.spool = s.disk.spool) ∨
    ∃ f f', s.disk.spool = some f ∧ f.bytes.length = probe.boundary ∧
      d.spool.disk.spool = some f' ∧ f'.bytes = [] ∧ d.spool.checkpoint.offset = 0

/-- A walk that held: what it tried was refused, and the spool is as it was. -/
structure Holds (s : DurableSpool) (log : List Observation) (tried : List Pending) (d : Drainer) :
    Prop where
  spool : d.spool = s
  phase : d.phase = .idle
  log : d.log = log ++ refusals tried

variable {env now answer} {s : DurableSpool} {p : Pending} {log : List Observation}

theorem stepUntilIdle_idle (fuel : ℕ) (s : DurableSpool) (log : List Observation) :
    stepUntilIdle env now answer fuel ⟨s, .idle, log⟩ = ⟨s, .idle, log⟩ := by
  cases fuel <;> rfl

/-- One probe of a walk: the record behind the cursor is offered. -/
theorem walking_step {fuel : ℕ} {jumped : List Pending} {probe : Pending}
    (hfew : jumped.length < maxLookahead)
    (hpeek : s.peekNext env (cursor p jumped) = .ok (some probe)) :
    stepUntilIdle env now answer (fuel + 2) ⟨s, .walking p jumped, log⟩ =
      stepUntilIdle env now answer fuel (match answer jumped.length with
        | .accepted => ⟨s, .confirmed p jumped probe, log ++ [Observation.attempt probe .accepted]⟩
        | .refused =>
          ⟨s, .walking p (jumped ++ [probe]), log ++ [Observation.attempt probe .refused]⟩
        | .unknown => ⟨s, .idle, log ++ [Observation.attempt probe .unknown]⟩) := by
  have hstep : (⟨s, .walking p jumped, log⟩ : Drainer).consume env now .accepted =
      ⟨s, .probing p jumped probe, log⟩ := by
    simp only [consume, if_neg (Nat.ne_of_lt hfew), hpeek]
  show stepUntilIdle env now answer (fuel + 1)
    ((⟨s, .walking p jumped, log⟩ : Drainer).consume env now .accepted) = _
  rw [hstep]
  show stepUntilIdle env now answer fuel
    ((⟨s, .probing p jumped probe, log⟩ : Drainer).consume env now (answer jumped.length)) = _
  cases answer jumped.length <;> rfl

/-- A walk that finds no record behind the cursor. -/
theorem walking_nothing {fuel : ℕ} {jumped : List Pending}
    (hpeek : s.peekNext env (cursor p jumped) = .ok none) :
    stepUntilIdle env now answer (fuel + 1) ⟨s, .walking p jumped, log⟩ = ⟨s, .idle, log⟩ := by
  have hstep : (⟨s, .walking p jumped, log⟩ : Drainer).consume env now .accepted =
      ⟨s, .idle, log⟩ := by
    simp only [consume, hpeek]
    split <;> rfl
  show stepUntilIdle env now answer fuel
    ((⟨s, .walking p jumped, log⟩ : Drainer).consume env now .accepted) = _
  rw [hstep, stepUntilIdle_idle]

theorem cursor_concat (p probe : Pending) (jumped : List Pending) :
    cursor p (jumped ++ [probe]) = probe := by
  simp [cursor]

/-- What `peek_next` sees of the lines behind a record. -/
theorem peekNext_of_linesBehind {n : ℕ} {after : Pending} {line : Option Pending}
    {lines : List (Option Pending)} (h : s.linesBehind env n after.boundary = line :: lines) :
    s.peekNext env after = .ok line ∧
      ∀ q, line = some q → lines = s.linesBehind env (n - 1) q.boundary := by
  cases n with
  | zero => cases h
  | succ n =>
    rw [DurableSpool.linesBehind] at h
    unfold DurableSpool.peekNext
    split at h
    · next p _ hpeek =>
      obtain ⟨rfl, rfl⟩ := List.cons.inj h
      rw [hpeek]
      refine ⟨rfl, ?_⟩
      rintro q hq
      obtain rfl := Option.some.inj hq
      rfl
    · next boundary _ hpeek =>
      obtain ⟨rfl, rfl⟩ := List.cons.inj h
      rw [hpeek]
      exact ⟨rfl, by nofun⟩
    · cases h

/-- A walk goes over the records that are refused, two steps for each. -/
theorem walking_run {n : ℕ} {jumped tried : List Pending} {lines : List (Option Pending)}
    (fuel : ℕ)
    (hlines : s.linesBehind env n (cursor p jumped).boundary = tried.map some ++ lines)
    (hrefused : ∀ i < jumped.length + tried.length, answer i = .refused)
    (hfew : jumped.length + tried.length ≤ maxLookahead) :
    stepUntilIdle env now answer (fuel + 2 * tried.length) ⟨s, .walking p jumped, log⟩ =
        stepUntilIdle env now answer fuel
          ⟨s, .walking p (jumped ++ tried), log ++ refusals tried⟩ ∧
      ∃ n', s.linesBehind env n' (cursor p (jumped ++ tried)).boundary = lines := by
  induction tried generalizing n jumped log with
  | nil =>
    rw [List.append_nil, refusals, List.map_nil, List.append_nil]
    exact ⟨rfl, n, hlines⟩
  | cons first tried ih =>
    obtain ⟨hpeek, hbehind⟩ := peekNext_of_linesBehind hlines
    have hanswer : answer jumped.length = .refused := hrefused _ (by simp)
    rw [List.length_cons] at hrefused hfew
    have hlen : (jumped ++ [first]).length + tried.length = jumped.length + (tried.length + 1) := by
      rw [List.length_append, List.length_singleton]
      omega
    have hrest : s.linesBehind env (n - 1) (cursor p (jumped ++ [first])).boundary =
        tried.map some ++ lines := by
      rw [cursor_concat]
      exact (hbehind first rfl).symm
    obtain ⟨hrun, hnext⟩ : stepUntilIdle env now answer (fuel + 2 * tried.length)
        ⟨s, .walking p (jumped ++ [first]), log ++ [.attempt first .refused]⟩ = _ ∧ _ :=
      ih hrest (by rwa [hlen]) (by rwa [hlen])
    rw [List.length_cons, show fuel + 2 * (tried.length + 1) = fuel + 2 * tried.length + 2 by omega,
      walking_step (by omega) hpeek, hanswer]
    simp only
    rw [hrun]
    refine ⟨?_, ?_⟩
    · simp [refusals]
    · simpa using hnext

/-- What a commit behind a probe leaves, in memory and on disk. -/
theorem passes_of_discard (jumped : List Pending) (probe : Pending) :
    Passes now s p log jumped probe ⟨s.discardConfirmed p (jumped.length + 1) probe now, .idle,
      log ++ refusals jumped ++
        [Observation.attempt probe .accepted, Observation.discarded p jumped probe]⟩ := by
  have hcommit : ∀ forgot : DurableSpool,
      forgot.checkpoint.discardedTotal = s.checkpoint.discardedTotal → forgot.disk = s.disk →
      let s' := forgot.commitPast probe.boundary (jumped.length + 1) now
      s'.checkpoint.discardedTotal = s.checkpoint.discardedTotal + (jumped.length + 1) ∧
      s'.disk.checkpoint = some s'.checkpoint ∧
      ((s'.checkpoint.offset = probe.boundary ∧ s'.disk.spool = s.disk.spool) ∨
        ∃ f f', s.disk.spool = some f ∧ f.bytes.length = probe.boundary ∧
          s'.disk.spool = some f' ∧ f'.bytes = [] ∧ s'.checkpoint.offset = 0) := by
    intro forgot htotal hdisk
    have hcommitted : (forgot.committed probe.boundary (jumped.length + 1) now).discardedTotal =
        s.checkpoint.discardedTotal + (jumped.length + 1) := by
      rw [← htotal]
      simp [DurableSpool.committed, Checkpoint.recordDiscard]
    by_cases hreclaim : ∃ f, forgot.disk.spool = some f ∧ reclaimAbove < probe.boundary ∧
        f.bytes.length = probe.boundary
    · obtain ⟨f, hf, habove, hsize⟩ := hreclaim
      rw [DurableSpool.commitPast_reclaims _ now hf habove hsize]
      rw [hdisk] at hf
      exact ⟨hcommitted, rfl, .inr ⟨f, _, hf, hsize, rfl, rfl, rfl⟩⟩
    · rw [DurableSpool.commitPast_keeps]
      · refine ⟨hcommitted, rfl, .inl ⟨DurableSpool.committed_offset .., ?_⟩⟩
        show forgot.disk.spool = s.disk.spool
        rw [hdisk]
      · intro f hf habove hsize
        exact hreclaim ⟨f, hf, habove, hsize⟩
  obtain ⟨hlost, hstored, hreached⟩ := hcommit { s with checkpoint := { s.checkpoint with
    quarantine := s.checkpoint.quarantine.forget (p.signal.display ++ ":" ++ p.key) } } rfl rfl
  exact ⟨rfl, rfl, rfl, hlost, hstored, hreached⟩

/-- The lines up to the first that cannot be decoded. -/
theorem eq_map_some_or_torn (lines : List (Option Pending)) :
    lines = (lines.filterMap id).map some ∨
      ∃ (tried : List Pending) (rest : _), lines = tried.map some ++ none :: rest := by
  induction lines with
  | nil => exact .inl rfl
  | cons line lines ih =>
    cases line with
    | none => exact .inr ⟨[], lines, rfl⟩
    | some q =>
      obtain h | ⟨tried, rest, rfl⟩ := ih
      · left
        simpa using h
      · exact .inr ⟨q :: tried, rest, rfl⟩

/-- The first step of a walk: the mint. -/
theorem stepUntilIdle_eligible (fuel : ℕ) :
    stepUntilIdle env now answer (fuel + 1) ⟨s, .eligible p, log⟩ =
      stepUntilIdle env now answer fuel ⟨s, .walking p [], log⟩ := rfl

/-- A walk over an unbroken run of refused records to one that is accepted. -/
theorem walk_unbroken {n : ℕ} {jumped : List Pending} {probe : Pending}
    (hlines : s.linesBehind env n p.boundary = (jumped ++ [probe]).map some)
    (hrefused : ∀ i < jumped.length, answer i = .refused)
    (haccepted : answer jumped.length = .accepted) (hfew : jumped.length + 1 ≤ maxLookahead) :
    Passes now s p log jumped probe (walk env now answer s p log) := by
  rw [List.map_append] at hlines
  obtain ⟨fuel, hfuel⟩ : ∃ fuel, 2 * maxLookahead + 1 = fuel + 3 + 2 * jumped.length :=
    ⟨2 * maxLookahead - 2 - 2 * jumped.length, by omega⟩
  obtain ⟨hrun, n', hnext⟩ : stepUntilIdle env now answer (fuel + 3 + 2 * jumped.length)
      ⟨s, .walking p [], log⟩ = _ ∧ _ :=
    walking_run (fuel + 3) hlines (by simpa using hrefused) (by simp; omega)
  rw [List.nil_append] at hrun hnext
  rw [walk, stepUntilIdle_eligible, hfuel, hrun,
    walking_step (by omega) (peekNext_of_linesBehind hnext).1, haccepted]
  have hcommit : ∀ log', stepUntilIdle env now answer (fuel + 1)
      ⟨s, .confirmed p jumped probe, log'⟩ =
      ⟨s.discardConfirmed p (jumped.length + 1) probe now, .idle,
        log' ++ [.discarded p jumped probe]⟩ := by
    intro log'
    exact stepUntilIdle_idle fuel _ _
  simp only
  rw [hcommit, List.append_assoc]
  exact passes_of_discard jumped probe

/-- A walk that comes to a line that cannot be decoded. -/
theorem walk_torn {n : ℕ} {tried : List Pending} {rest : List (Option Pending)}
    (hlines : s.linesBehind env n p.boundary = tried.map some ++ none :: rest)
    (hrefused : ∀ i < tried.length, answer i = .refused) (hfew : tried.length ≤ maxLookahead) :
    Holds s log tried (walk env now answer s p log) := by
  obtain ⟨fuel, hfuel⟩ : ∃ fuel, 2 * maxLookahead + 1 = fuel + 1 + 2 * tried.length :=
    ⟨2 * maxLookahead - 2 * tried.length, by omega⟩
  obtain ⟨hrun, n', hnext⟩ : stepUntilIdle env now answer (fuel + 1 + 2 * tried.length)
      ⟨s, .walking p [], log⟩ = _ ∧ _ :=
    walking_run (fuel + 1) hlines (by simpa using hrefused) (by simpa using hfew)
  rw [List.nil_append] at hrun hnext
  rw [walk, stepUntilIdle_eligible, hfuel, hrun, walking_nothing (peekNext_of_linesBehind hnext).1]
  exact ⟨rfl, rfl, rfl⟩

/-- The records behind the head are refused up to one that is accepted. If every line up to it can
be decoded, one walk commits past them all and counts those given up. If a line between them cannot
be decoded, the walk holds there: it tried records of the run only, and nothing has moved. -/
theorem walk_passes_unbroken_runs (env : SpoolEnv) (now : ℕ) (answer : ℕ → ProbeOutcome)
    (s : DurableSpool) (p : Pending) (log : List Observation) (n : ℕ) (jumped : List Pending)
    (probe : Pending) (hlines : (s.linesBehind env n p.boundary).filterMap id = jumped ++ [probe])
    (hlast : (s.linesBehind env n p.boundary).getLast? = some (some probe))
    (hrefused : ∀ i < jumped.length, answer i = .refused)
    (haccepted : answer jumped.length = .accepted) (hfew : jumped.length + 1 ≤ maxLookahead) :
    (none ∉ s.linesBehind env n p.boundary →
      Passes now s p log jumped probe (walk env now answer s p log)) ∧
    (none ∈ s.linesBehind env n p.boundary →
      ∃ tried, tried <+: jumped ∧ Holds s log tried (walk env now answer s p log)) := by
  obtain hall | ⟨tried, rest, htorn⟩ := eq_map_some_or_torn (s.linesBehind env n p.boundary)
  · rw [hlines] at hall
    refine ⟨fun _ => walk_unbroken hall hrefused haccepted hfew, fun hmem => ?_⟩
    rw [hall] at hmem
    simp at hmem
  · -- The last line is a record, so what stands before the line is a part of the refused run.
    have hprefix : tried <+: jumped := by
      rw [htorn] at hlines hlast
      obtain rfl | ⟨rest', last, rfl⟩ := List.eq_nil_or_concat rest
      · simp at hlast
      · rw [List.concat_eq_append] at hlines hlast
        have hlast' : last = some probe := by
          rw [← List.cons_append, ← List.append_assoc, List.getLast?_concat] at hlast
          exact Option.some.inj hlast
        rw [hlast'] at hlines
        have hsame : tried ++ rest'.filterMap id ++ [probe] = jumped ++ [probe] := by
          rw [← hlines]
          simp [List.filterMap_map]
        exact ⟨rest'.filterMap id, List.append_cancel_right hsame⟩
    refine ⟨fun hmem => absurd (by rw [htorn]; simp) hmem, fun _ => ⟨tried, hprefix, ?_⟩⟩
    have hle := hprefix.length_le
    exact walk_torn htorn (fun i hi => hrefused i (by omega)) (by omega)

/-- The line of a record in the file. -/
def lineOf (payload : Bytes) : Bytes :=
  encode (Record.line ⟨.metrics, payload, .protobuf⟩) ++ [lineFeed]

/-- A spool that has just been opened on some bytes. -/
def spoolOn (bytes : Bytes) : DurableSpool :=
  .openAt ⟨some ⟨some 0, some 0, bytes, 0⟩, none⟩

/-- The `i`th record of such a spool, for concrete runs. -/
def recordOf (s : DurableSpool) (i : ℕ) : Pending :=
  ((s.linesBehind numberedEnv 3 0)[i]?.bind id).getD ⟨.metrics, [], .protobuf, "", 0⟩

/-- Three records. -/
def unbrokenSpool : DurableSpool := spoolOn (lineOf [10, 0] ++ lineOf [10, 1] ++ lineOf [10, 2])

/-- Two records with a line between them that is not one. -/
def brokenSpool : DurableSpool := spoolOn (lineOf [10, 0] ++ [120, lineFeed] ++ lineOf [10, 2])

theorem linesBehind_unbrokenSpool :
    unbrokenSpool.linesBehind numberedEnv 2 (recordOf unbrokenSpool 0).boundary =
      [some (recordOf unbrokenSpool 1), some (recordOf unbrokenSpool 2)] := by
  decide +kernel

theorem linesBehind_brokenSpool :
    brokenSpool.linesBehind numberedEnv 2 (recordOf brokenSpool 0).boundary =
      [none, some (recordOf brokenSpool 2)] := by
  decide +kernel

/-- The collector refuses the record behind the head and takes the one behind that; behind the
broken line, it takes the record. -/
theorem walk_passes_unbroken_runs_threeRecords :
    Passes 200 unbrokenSpool (recordOf unbrokenSpool 0) [] [recordOf unbrokenSpool 1]
      (recordOf unbrokenSpool 2) (walk numberedEnv 200
        (fun i => if i = 0 then .refused else .accepted) unbrokenSpool
        (recordOf unbrokenSpool 0) []) ∧
    ∃ tried, tried <+: [] ∧ Holds brokenSpool [] tried
      (walk numberedEnv 200 (fun _ => .accepted) brokenSpool (recordOf brokenSpool 0) []) := by
  refine ⟨(walk_passes_unbroken_runs _ _ _ _ _ _ 2 _ _ ?_ ?_ ?_ rfl ?_).1 ?_,
    (walk_passes_unbroken_runs _ _ _ _ _ _ 2 [] (recordOf brokenSpool 2) ?_ ?_ ?_ rfl ?_).2 ?_⟩
  · rw [linesBehind_unbrokenSpool]
    rfl
  · rw [linesBehind_unbrokenSpool]
    rfl
  · intro i hi
    obtain rfl : i = 0 := by simpa using hi
    rfl
  · decide
  · rw [linesBehind_unbrokenSpool]
    simp
  · rw [linesBehind_brokenSpool]
    rfl
  · rw [linesBehind_brokenSpool]
    rfl
  · intro i hi
    exact absurd hi (Nat.not_lt_zero i)
  · decide
  · rw [linesBehind_brokenSpool]
    exact List.mem_cons_self

/-- The one record behind the head would be accepted, but the line between them cannot be decoded:
the walk gives nothing up and delivers nothing. -/
theorem broken_line_stops_walk :
    (brokenSpool.linesBehind numberedEnv 2 (recordOf brokenSpool 0).boundary).filterMap id =
      [recordOf brokenSpool 2] ∧
    ¬ Passes 200 brokenSpool (recordOf brokenSpool 0) [] [] (recordOf brokenSpool 2)
      (walk numberedEnv 200 (fun _ => .accepted) brokenSpool (recordOf brokenSpool 0) []) := by
  refine ⟨by rw [linesBehind_brokenSpool]; rfl, fun h => ?_⟩
  have hlost : (walk numberedEnv 200 (fun _ => .accepted) brokenSpool (recordOf brokenSpool 0)
      []).spool.checkpoint.discardedTotal = 0 := by decide +kernel
  have hclaimed := h.lost
  rw [hlost] at hclaimed
  exact absurd hclaimed (Nat.succ_ne_zero _).symm

end Drainer

end Governance
