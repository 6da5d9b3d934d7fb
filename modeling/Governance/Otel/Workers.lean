import Governance.Lib.Runs

/-!
# The daemon's workers and the session lock

`oauth/mod.rs`, `file_lock/mod.rs` and `otel_daemon/mod.rs`: `current_session` takes the session's
lock file and holds it across its requests, suspended; `FileLock::acquire` polls for the file with
`std::thread::sleep`, so it blocks the worker of the runtime that it runs on, and never takes the
lock from a holder whose PID is alive. The daemon's own PID always is.
-/

namespace Governance

namespace Workers

variable {τ : Type} [DecidableEq τ] [Fintype τ]

/-- Where a task is: suspended outside `current_session`, running there on a worker, inside
`FileLock::acquire` on a worker, and with the lock, on a worker or suspended. -/
inductive Phase where
  | suspended
  | running (worker : ℕ)
  | acquiring (worker : ℕ)
  | holding (worker : ℕ)
  | holdingSuspended
  deriving DecidableEq

/-- The worker that a task occupies. -/
def Phase.worker : Phase → Option ℕ
  | .running worker => some worker
  | .acquiring worker => some worker
  | .holding worker => some worker
  | _ => none

/-- The task has the lock. -/
def Phase.holds : Phase → Bool
  | .holding _ => true
  | .holdingSuspended => true
  | _ => false

/-- Who wrote the lock file. -/
inductive Holder (τ : Type) where
  | task (t : τ)
  | otherProcess
  deriving DecidableEq

/-- The tasks that use the session and the lock file. -/
structure State (τ : Type) where
  phases : τ → Phase
  lock : Option (Holder τ)

/-- The daemon when its tasks have been spawned. -/
def State.initial : State τ := ⟨fun _ => .suspended, none⟩

/-- A decision of the scheduler, a step of a task, or another process at the lock file. -/
inductive Event (τ : Type) where
  | resume (t : τ) (worker : ℕ)
  | suspend (t : τ)
  | currentSession (t : τ)
  | createNew (t : τ)
  | createFails (t : τ)
  | drop (t : τ)
  | otherAcquires
  | otherReleases

namespace State

/-- No task occupies the worker. -/
def Free (s : State τ) (worker : ℕ) : Prop := ∀ t, (s.phases t).worker ≠ some worker

instance (s : State τ) (worker : ℕ) : Decidable (s.Free worker) :=
  inferInstanceAs (Decidable (∀ _, _))

/-- A task moves on. -/
def setPhase (s : State τ) (t : τ) (phase : Phase) : State τ :=
  { s with phases := Function.update s.phases t phase }

/-- One event on a runtime with `w` workers. A task is resumed by a free worker; a task that finds
the lock file stays in `acquire`, with its worker. -/
def step (w : ℕ) (s : State τ) : Event τ → State τ
  | .resume t worker =>
    if worker < w ∧ s.Free worker then
      match s.phases t with
      | .suspended => s.setPhase t (.running worker)
      | .holdingSuspended => s.setPhase t (.holding worker)
      | _ => s
    else s
  | .suspend t =>
    match s.phases t with
    | .running _ => s.setPhase t .suspended
    | .holding _ => s.setPhase t .holdingSuspended
    | _ => s
  | .currentSession t =>
    match s.phases t with
    | .running worker => s.setPhase t (.acquiring worker)
    | _ => s
  | .createNew t =>
    match s.phases t, s.lock with
    | .acquiring worker, none => { s.setPhase t (.holding worker) with lock := some (.task t) }
    | _, _ => s
  | .createFails t =>
    match s.phases t, s.lock with
    | .acquiring worker, none => s.setPhase t (.running worker)
    | _, _ => s
  | .drop t =>
    match s.phases t with
    | .holding worker => { s.setPhase t (.running worker) with lock := none }
    | _ => s
  | .otherAcquires => if s.lock = none then { s with lock := some .otherProcess } else s
  | .otherReleases => if s.lock = some .otherProcess then { s with lock := none } else s

/-- The daemon after some events. -/
def run (w : ℕ) (events : List (Event τ)) : State τ := events.foldl (step w) initial

/-- A suspended task has the lock, and every worker waits for it. -/
def Deadlocked (w : ℕ) (s : State τ) : Prop :=
  (∃ t, s.lock = some (.task t) ∧ s.phases t = .holdingSuspended) ∧
    ∀ worker < w, ∃ t, s.phases t = .acquiring worker

end State

/-! ## Who has the lock -/

/-- The lock file names the task that has the lock. -/
def Exclusive (s : State τ) : Prop :=
  ∀ t, (s.phases t).holds = true ↔ s.lock = some (.task t)

omit [Fintype τ] in
theorem Exclusive.setPhase {s : State τ} (h : Exclusive s) {t : τ} {phase : Phase}
    (hsame : phase.holds = (s.phases t).holds) : Exclusive (s.setPhase t phase) := by
  intro t'
  by_cases ht : t' = t
  · subst ht
    simp only [State.setPhase, Function.update_self, hsame]
    exact h t'
  · simp only [State.setPhase, Function.update_of_ne ht]
    exact h t'

theorem Exclusive.step {w : ℕ} {s : State τ} (h : Exclusive s) (event : Event τ) :
    Exclusive (s.step w event) := by
  cases event with
  | resume t worker =>
    simp only [State.step]
    split
    · split
      · next hphase => exact h.setPhase (by rw [hphase]; rfl)
      · next hphase => exact h.setPhase (by rw [hphase]; rfl)
      · exact h
    · exact h
  | suspend t =>
    simp only [State.step]
    split
    · next hphase => exact h.setPhase (by rw [hphase]; rfl)
    · next hphase => exact h.setPhase (by rw [hphase]; rfl)
    · exact h
  | currentSession t =>
    simp only [State.step]
    split
    · next hphase => exact h.setPhase (by rw [hphase]; rfl)
    · exact h
  | createNew t =>
    simp only [State.step]
    split
    · next worker hphase hlock =>
      intro t'
      by_cases ht : t' = t
      · subst ht
        simp [State.setPhase, Phase.holds]
      · have hother := h t'
        rw [hlock] at hother
        simp only [State.setPhase, Function.update_of_ne ht, Option.some.injEq, Holder.task.injEq,
          Ne.symm ht, iff_false]
        simpa using hother
    · exact h
  | createFails t =>
    simp only [State.step]
    split
    · next hphase _ => exact h.setPhase (by rw [hphase]; rfl)
    · exact h
  | drop t =>
    simp only [State.step]
    split
    · next worker hphase =>
      have hlock : s.lock = some (.task t) := (h t).mp (by rw [hphase]; rfl)
      intro t'
      by_cases ht : t' = t
      · subst ht
        simp [State.setPhase, Phase.holds]
      · have hother := h t'
        rw [hlock] at hother
        simp only [Option.some.injEq, Holder.task.injEq, Ne.symm ht, iff_false] at hother
        simpa [State.setPhase, Function.update_of_ne ht] using hother
    · exact h
  | otherAcquires =>
    simp only [State.step]
    split
    · next hlock =>
      intro t
      have hnone := h t
      rw [hlock] at hnone
      simpa using hnone
    · exact h
  | otherReleases =>
    simp only [State.step]
    split
    · next hlock =>
      intro t
      have hother := h t
      rw [hlock] at hother
      simpa using hother
    · exact h

theorem exclusive_run (w : ℕ) (events : List (Event τ)) : Exclusive (State.run w events) := by
  induction events using List.reverseRecOn with
  | nil => exact fun t => by simp [State.run, State.initial, Phase.holds]
  | append_singleton events event ih =>
    rw [State.run, List.foldl_append]
    exact ih.step event

/-! ## Deadlocks -/

omit [DecidableEq τ] in
/-- A deadlock takes a task for each worker and one more. -/
theorem State.Deadlocked.lt_card {w : ℕ} {s : State τ} (h : s.Deadlocked w) :
    w < Fintype.card τ := by
  obtain ⟨⟨holder, -, hsuspended⟩, hblocked⟩ := h
  choose task htask using fun worker : Fin w => hblocked worker worker.isLt
  have hinj : Function.Injective task := by
    intro i j hij
    have hphase := (htask i).symm.trans (hij ▸ htask j)
    exact Fin.ext (Phase.acquiring.inj hphase)
  have hholder : holder ∉ Set.range task := by
    rintro ⟨i, rfl⟩
    cases (htask i).symm.trans hsuspended
  simpa using Fintype.card_lt_of_injective_of_notMem task hinj hholder

omit [Fintype τ] in
/-- Tasks that neither wait for the lock nor have it do not matter to a deadlock. -/
theorem State.Deadlocked.setPhase {w : ℕ} {s : State τ} (h : s.Deadlocked w) {t : τ}
    {phase : Phase} (hacquiring : ∀ worker < w, s.phases t ≠ .acquiring worker)
    (hholder : s.phases t ≠ .holdingSuspended) : (s.setPhase t phase).Deadlocked w := by
  obtain ⟨⟨holder, hlock, hsuspended⟩, hblocked⟩ := h
  have hkeep {t' : τ} (hne : s.phases t ≠ s.phases t') :
      (s.setPhase t phase).phases t' = s.phases t' :=
    Function.update_of_ne (fun heq => hne (by rw [heq])) _ _
  refine ⟨⟨holder, hlock, ?_⟩, ?_⟩
  · rw [hkeep (by rw [hsuspended]; exact hholder), hsuspended]
  · intro worker hworker
    obtain ⟨t', ht'⟩ := hblocked worker hworker
    refine ⟨t', ?_⟩
    rw [hkeep (by rw [ht']; exact hacquiring worker hworker), ht']

/-- A deadlock is for good: whatever the scheduler does, the workers wait on. -/
theorem State.Deadlocked.step {w : ℕ} {s : State τ} (h : s.Deadlocked w) (hex : Exclusive s)
    (event : Event τ) : (s.step w event).Deadlocked w := by
  obtain ⟨⟨holder, hlock, hsuspended⟩, hblocked⟩ := id h
  cases event with
  | resume t worker =>
    simp only [State.step]
    split
    · next hfree =>
      obtain ⟨t', ht'⟩ := hblocked worker hfree.1
      exact absurd (by rw [ht']; rfl) (hfree.2 t')
    · exact h
  | suspend t =>
    simp only [State.step]
    split
    · next hphase => exact h.setPhase (by simp [hphase]) (by simp [hphase])
    · next hphase => exact h.setPhase (by simp [hphase]) (by simp [hphase])
    · exact h
  | currentSession t =>
    simp only [State.step]
    split
    · next hphase => exact h.setPhase (by simp [hphase]) (by simp [hphase])
    · exact h
  | createNew t =>
    simp only [State.step]
    split
    · next hnone => cases hlock.symm.trans hnone
    · exact h
  | createFails t =>
    simp only [State.step]
    split
    · next hnone => cases hlock.symm.trans hnone
    · exact h
  | drop t =>
    simp only [State.step]
    split
    · next worker hphase =>
      -- a second holder beside the suspended one
      have ht := (hex t).mp (by rw [hphase]; rfl)
      obtain rfl : holder = t := Holder.task.inj (Option.some.inj (hlock.symm.trans ht))
      cases hsuspended.symm.trans hphase
    · exact h
  | otherAcquires =>
    simp only [State.step, hlock]
    exact h
  | otherReleases =>
    simp only [State.step, hlock]
    exact h

/-- The tasks that `serve` spawns and that mint from the session. -/
inductive DaemonTask where
  | pump
  | codexSessions
  deriving DecidableEq

instance : Fintype DaemonTask := ⟨{.pump, .codexSessions}, fun t => by cases t <;> decide⟩

/-- The pump is suspended with the lock, and the ticker polls for it on the only worker. -/
def stuckRun : List (Event DaemonTask) :=
  [.resume .pump 0, .currentSession .pump, .createNew .pump, .suspend .pump,
    .resume .codexSessions 0, .currentSession .codexSessions]

/-- For every number of workers and every scheduling: the daemon never waits for itself exactly if
it has two workers. -/
theorem daemon_deadlock_free_iff (w : ℕ) (hw : 1 ≤ w) :
    (∀ events, ¬ (State.run w events : State DaemonTask).Deadlocked w) ↔ 2 ≤ w := by
  constructor
  · intro hfree
    by_contra hlt
    obtain rfl : w = 1 := by omega
    refine hfree stuckRun ⟨⟨.pump, by decide, by decide⟩, ?_⟩
    intro worker hworker
    obtain rfl : worker = 0 := by omega
    exact ⟨.codexSessions, by decide⟩
  · intro htwo events hdead
    have hcard : w < 2 := hdead.lt_card
    omega

/-- With two workers the ticker waits on one of them and the pump goes on on the other. -/
theorem daemon_deadlock_free_two_workers :
    (∀ events, ¬ (State.run 2 events : State DaemonTask).Deadlocked 2) ∧
      (State.run 2 (stuckRun ++ [.resume .pump 1, .drop .pump, .createNew .codexSessions]) :
        State DaemonTask).lock = some (.task .codexSessions) :=
  ⟨(daemon_deadlock_free_iff 2 (by decide)).mpr (by decide), by decide⟩

/-- On one worker the pump never resumes, whatever comes. -/
theorem single_worker_is_stuck :
    (State.run 1 stuckRun : State DaemonTask).Deadlocked 1 ∧
      ∀ events, (State.run 1 (stuckRun ++ events) : State DaemonTask).Deadlocked 1 := by
  have hstuck : (State.run 1 stuckRun : State DaemonTask).Deadlocked 1 := by
    refine ⟨⟨.pump, by decide, by decide⟩, ?_⟩
    intro worker hworker
    obtain rfl : worker = 0 := by omega
    exact ⟨.codexSessions, by decide⟩
  refine ⟨hstuck, fun events => ?_⟩
  induction events using List.reverseRecOn with
  | nil => rwa [List.append_nil]
  | append_singleton events event ih =>
    rw [← List.append_assoc, State.run, List.foldl_append]
    exact ih.step (exclusive_run 1 _) event

end Workers

end Governance
