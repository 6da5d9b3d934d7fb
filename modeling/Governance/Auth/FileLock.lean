import Mathlib

/-!
# The file lock

`governance-auth/src/file_lock/mod.rs`: a lock file that holds the PID of its owner, created with
`create_new` and removed by path. Every file-system operation of `acquire_at` and `Drop` is a step
of its own, and a process can crash before any of them.

A waiter that finds the recorded process dead removes the file in a step after the one that read
it. What it removes need not be what it read: the lock is exclusive in every run in which it is.
-/

namespace Governance

namespace FileLock

/-- `LOCK_MAX_WAIT` in milliseconds. -/
def lockMaxWait : ℕ := 300000

/-- `EMPTY_LOCK_GRACE` in milliseconds. -/
def emptyLockGrace : ℕ := 2000

/-- The file at the path: which file it is, the PID it holds, and when it was last written. -/
structure LockFile where
  inode : ℕ
  contents : Option ℕ
  modified : ℕ
  deriving DecidableEq

/-- A call of `acquire_at`. -/
structure Call where
  started : ℕ
  liveHolderCeiling : Option ℕ
  deriving DecidableEq

/-- Where a process stands; the phases of a call are named for the operation that comes next. -/
inductive Phase where
  | idle
  | opening (call : Call)
  | writing (inode created : ℕ)
  | retracting (inode : ℕ)
  | reading (call : Call)
  | aging (call : Call) (seen : LockFile)
  | checking (call : Call) (pid : ℕ) (seen : LockFile)
  | undetermined (call : Call)
  | waiting (call : Call)
  | reclaiming (call : Call) (seen : Option LockFile)
  | holding (inode : ℕ)
  | releasing (inode : ℕ)
  | dead
  deriving DecidableEq

/-- The clock, the path, the files so far, and the processes by their PIDs. -/
structure State where
  now : ℕ
  lock : Option LockFile
  nextInode : ℕ
  phase : ℕ → Phase

def State.initial : State := ⟨0, none, 0, fun _ => .idle⟩

/-- One operation of one process, a crash, or time that passes. -/
inductive Action where
  | acquireAt (p : ℕ) (liveHolderCeiling : Option ℕ)
  | createNew (p : ℕ)
  | openFails (p : ℕ)
  | write (p : ℕ)
  | writeFails (p : ℕ)
  | read (p : ℕ)
  | metadata (p : ℕ)
  | kill (p : ℕ)
  | poll (p : ℕ)
  | removeFile (p : ℕ)
  | drop (p : ℕ)
  | crash (p : ℕ)
  | tick (elapsed : ℕ)
  deriving DecidableEq

def State.set (s : State) (p : ℕ) (phase : Phase) : State :=
  { s with phase := Function.update s.phase p phase }

/-- `written_within`, on whatever is at the path. -/
def State.writtenWithin (s : State) (grace : ℕ) : Bool :=
  match s.lock with
  | some file => s.now - file.modified < grace
  | none => false

/-- `process_is_alive`, which answers correctly. -/
def State.processIsAlive (s : State) (pid : ℕ) : Bool := s.phase pid ≠ .dead

/-- One step. An action that the process is not up to changes nothing. -/
def step (s : State) : Action → State
  | .acquireAt p ceiling =>
    match s.phase p with
    | .idle => s.set p (.opening ⟨s.now, ceiling⟩)
    | _ => s
  | .createNew p =>
    match s.phase p with
    | .opening call =>
      match s.lock with
      | none =>
        { s.set p (.writing s.nextInode s.now) with
          lock := some ⟨s.nextInode, none, s.now⟩
          nextInode := s.nextInode + 1 }
      | some _ => s.set p (.reading call)
    | _ => s
  | .openFails p =>
    match s.phase p with
    | .opening _ => s.set p .idle
    | _ => s
  | .write p =>
    match s.phase p with
    | .writing inode _ =>
      -- The handle writes to its own file, which need not be at the path any more.
      { s.set p (.holding inode) with
        lock := s.lock.map fun file =>
          if file.inode = inode then { file with contents := some p, modified := s.now }
          else file }
    | _ => s
  | .writeFails p =>
    match s.phase p with
    | .writing inode _ => s.set p (.retracting inode)
    | _ => s
  | .read p =>
    match s.phase p with
    | .reading call =>
      match s.lock with
      | none => s.set p (.undetermined call)
      | some file =>
        match file.contents with
        | none => s.set p (.aging call file)
        | some pid => s.set p (.checking call pid file)
    | _ => s
  | .metadata p =>
    match s.phase p with
    | .aging call seen =>
      if s.writtenWithin emptyLockGrace then s.set p (.waiting call)
      else s.set p (.reclaiming call (some seen))
    | _ => s
  | .kill p =>
    match s.phase p with
    | .checking call pid seen =>
      if s.processIsAlive pid then s.set p (.waiting call)
      else s.set p (.reclaiming call (some seen))
    | _ => s
  | .poll p =>
    match s.phase p with
    | .waiting call =>
      if call.liveHolderCeiling.any fun ceiling => ceiling ≤ s.now - call.started then
        s.set p .idle
      else s.set p (.opening call)
    | .undetermined call =>
      if call.started + lockMaxWait ≤ s.now then s.set p (.reclaiming call none)
      else s.set p (.opening call)
    | _ => s
  | .removeFile p =>
    match s.phase p with
    | .retracting _ => { s.set p .idle with lock := none }
    | .reclaiming call _ => { s.set p (.opening call) with lock := none }
    | .releasing _ => { s.set p .idle with lock := none }
    | _ => s
  | .drop p =>
    match s.phase p with
    | .holding inode =>
      match s.lock with
      | some file => if file.contents = some p then s.set p (.releasing inode) else s.set p .idle
      | none => s.set p .idle
    | _ => s
  | .crash p => s.set p .dead
  | .tick elapsed => { s with now := s.now + elapsed }

/-- The state after some steps. -/
def run (actions : List Action) : State := actions.foldl step State.initial

/-- The process is between a successful `acquire_at` and the end of its `drop`. -/
def State.Holds (s : State) (p : ℕ) : Prop :=
  ∃ inode, s.phase p = .holding inode ∨ s.phase p = .releasing inode

/-- A live process writes its PID within the grace of creating the file. -/
def State.PromptWriters (s : State) : Prop :=
  ∀ p inode created, s.phase p = .writing inode created → s.now < created + emptyLockGrace

/-- `remove_file` finds nothing, or the very file it is meant for: the one that was read, with
the contents that were read, or the one that the process created. -/
def RemovesWhatItRead (s : State) : Action → Prop
  | .removeFile p =>
    match s.phase p with
    | .reclaiming _ seen => s.lock = none ∨ s.lock = seen
    | .retracting inode => ∀ file, s.lock = some file → file.inode = inode
    | _ => True
  | _ => True

/-! ## The invariant -/

/-- The file of a process that has created one and not given it up. -/
def Phase.entered : Phase → Option ℕ
  | .writing inode _ => some inode
  | .holding inode => some inode
  | .releasing inode => some inode
  | _ => none

/-- What a phase of a process says about the path. -/
def PhaseOk (s : State) (p : ℕ) : Phase → Prop
  | .writing inode created => s.lock = some ⟨inode, none, created⟩
  | .holding inode => ∃ modified, s.lock = some ⟨inode, some p, modified⟩
  | .releasing inode => ∃ modified, s.lock = some ⟨inode, some p, modified⟩
  | .retracting inode => inode < s.nextInode ∧ ∀ q, (s.phase q).entered ≠ some inode
  | .aging _ seen => seen.inode < s.nextInode ∧ seen.contents = none ∧ seen.modified ≤ s.now ∧
      ∀ file, s.lock = some file → file.inode = seen.inode → seen.modified ≤ file.modified
  | .checking _ pid seen => seen.contents = some pid
  | .reclaiming _ (some seen) => (∀ q, seen.contents = some q → s.phase q = .dead) ∧
      (seen.contents = none → seen.inode < s.nextInode ∧
        ((∀ file, s.lock = some file → file.inode ≠ seen.inode) ∨
          seen.modified + emptyLockGrace ≤ s.now))
  | _ => True

/-- Inodes are new, phases are right, and at most one process is at the file. -/
structure Invariant (s : State) : Prop where
  fresh : ∀ file, s.lock = some file → file.inode < s.nextInode ∧ file.modified ≤ s.now
  phases : ∀ p, PhaseOk s p (s.phase p)
  single : ∀ p q, (s.phase p).entered ≠ none → (s.phase q).entered ≠ none → p = q

/-! ## Steps that leave the path alone -/

section Steps

variable {s s' : State} {p q : ℕ} {phase : Phase}

@[simp] theorem phase_set_self : (s.set p phase).phase p = phase := by
  simp [State.set]

theorem phase_set_of_ne (h : q ≠ p) : (s.set p phase).phase q = s.phase q := by
  simp [State.set, h]

theorem PhaseOk.mono (h : PhaseOk s q phase) (hlock : s'.lock = s.lock)
    (hinode : s'.nextInode = s.nextInode) (hnow : s.now ≤ s'.now)
    (hdead : ∀ r, s.phase r = .dead → s'.phase r = .dead)
    (hentered : ∀ r inode, (s'.phase r).entered = some inode →
      ∃ r', (s.phase r').entered = some inode) : PhaseOk s' q phase := by
  cases phase with
  | writing inode created => exact hlock.trans h
  | holding inode => exact h.imp fun _ hm => hlock.trans hm
  | releasing inode => exact h.imp fun _ hm => hlock.trans hm
  | retracting inode =>
    refine ⟨hinode ▸ h.1, ?_⟩
    intro r hr
    obtain ⟨r', hr'⟩ := hentered r inode hr
    exact h.2 r' hr'
  | aging call seen =>
    refine ⟨hinode ▸ h.1, h.2.1, h.2.2.1.trans hnow, ?_⟩
    rw [hlock]
    exact h.2.2.2
  | checking call pid seen => exact h
  | reclaiming call seen =>
    cases seen with
    | none => trivial
    | some seen =>
      refine ⟨fun r hr => hdead r (h.1 r hr), ?_⟩
      intro hempty
      obtain ⟨hold, hgone⟩ := h.2 hempty
      rw [hlock]
      exact ⟨hinode ▸ hold, hgone.imp_right fun hlate => hlate.trans hnow⟩
  | idle => trivial
  | opening call => trivial
  | reading call => trivial
  | undetermined call => trivial
  | waiting call => trivial
  | dead => trivial

/-- One process moves on and creates no file. -/
theorem Invariant.set (h : Invariant s) (hok : PhaseOk (s.set p phase) p phase)
    (hentered : phase.entered = none ∨ phase.entered = (s.phase p).entered)
    (hdead : s.phase p = .dead → phase = .dead) : Invariant (s.set p phase) := by
  have hback : ∀ r inode, ((s.set p phase).phase r).entered = some inode →
      (s.phase r).entered = some inode := by
    intro r inode hr
    by_cases hrp : r = p
    · subst hrp
      rw [phase_set_self] at hr
      rcases hentered with hnone | hsame
      · rw [hnone] at hr
        cases hr
      · rw [← hsame, hr]
    · rw [phase_set_of_ne hrp] at hr
      exact hr
  refine ⟨h.fresh, ?_, ?_⟩
  · intro r
    by_cases hrp : r = p
    · subst hrp
      rw [phase_set_self]
      exact hok
    · rw [phase_set_of_ne hrp]
      refine (h.phases r).mono rfl rfl le_rfl ?_ fun r' inode hr' => ⟨r', hback r' inode hr'⟩
      intro r' hr'
      by_cases hrp' : r' = p
      · subst hrp'
        rw [phase_set_self, hdead hr']
      · rw [phase_set_of_ne hrp', hr']
  · intro r r' hr hr'
    obtain ⟨inode, hinode⟩ := Option.ne_none_iff_exists'.mp hr
    obtain ⟨inode', hinode'⟩ := Option.ne_none_iff_exists'.mp hr'
    apply h.single
    · rw [hback r inode hinode]
      exact Option.some_ne_none _
    · rw [hback r' inode' hinode']
      exact Option.some_ne_none _

/-- A live process moves on and is at no file. -/
theorem Invariant.move (h : Invariant s) {phase' : Phase} (hp : s.phase p = phase')
    (halive : phase' ≠ .dead) (hok : PhaseOk (s.set p phase) p phase)
    (hentered : phase.entered = none) : Invariant (s.set p phase) :=
  h.set hok (.inl hentered) fun hdead => absurd (hp.symm.trans hdead) halive

theorem Invariant.tick (h : Invariant s) (elapsed : ℕ) :
    Invariant { s with now := s.now + elapsed } where
  fresh := by
    intro file hfile
    obtain ⟨hinode, hmodified⟩ := h.fresh file hfile
    exact ⟨hinode, hmodified.trans (Nat.le_add_right _ _)⟩
  phases := by
    intro q
    exact (h.phases q).mono rfl rfl (Nat.le_add_right _ _) (fun _ hr => hr) fun r _ hr => ⟨r, hr⟩
  single := h.single

/-! ## Steps that change the path -/

/-- A process that is at the file has it at the path. -/
theorem Invariant.lock_of_entered (h : Invariant s) {inode : ℕ}
    (hp : (s.phase p).entered = some inode) :
    ∃ file, s.lock = some file ∧ file.inode = inode := by
  have hok := h.phases p
  cases hphase : s.phase p with
  | writing inode' created =>
    rw [hphase] at hok hp
    exact ⟨_, hok, Option.some.inj hp⟩
  | holding inode' =>
    rw [hphase] at hok hp
    obtain ⟨modified, hlock⟩ := hok
    exact ⟨_, hlock, Option.some.inj hp⟩
  | releasing inode' =>
    rw [hphase] at hok hp
    obtain ⟨modified, hlock⟩ := hok
    exact ⟨_, hlock, Option.some.inj hp⟩
  | _ =>
    rw [hphase] at hp
    cases hp

/-- With nothing at the path no process is at a file. -/
theorem Invariant.entered_of_none (h : Invariant s) (hlock : s.lock = none) (p : ℕ) :
    (s.phase p).entered = none := by
  by_contra hentered
  obtain ⟨inode, hinode⟩ := Option.ne_none_iff_exists'.mp hentered
  obtain ⟨file, hfile, -⟩ := h.lock_of_entered hinode
  rw [hlock] at hfile
  cases hfile

/-- What a process that is at no file knows about the path survives a change of the path that
puts a new file there, or writes or removes the one that is there. -/
theorem PhaseOk.change (h : PhaseOk s q phase) (hq : phase.entered = none)
    (hinode : s.nextInode ≤ s'.nextInode) (hnow : s'.now = s.now)
    (hlock : ∀ file, s'.lock = some file → file.modified = s.now ∧
      (s.nextInode ≤ file.inode ∨ ∃ old, s.lock = some old ∧ old.inode = file.inode))
    (hdead : ∀ r, s.phase r = .dead → s'.phase r = .dead)
    (hentered : ∀ r inode, (s'.phase r).entered = some inode →
      s.nextInode ≤ inode ∨ ∃ r', (s.phase r').entered = some inode) : PhaseOk s' q phase := by
  cases phase with
  | writing inode created => cases hq
  | holding inode => cases hq
  | releasing inode => cases hq
  | retracting inode =>
    refine ⟨h.1.trans_le hinode, ?_⟩
    intro r hr
    rcases hentered r inode hr with hnew | ⟨r', hr'⟩
    · exact absurd h.1 (not_lt.mpr hnew)
    · exact h.2 r' hr'
  | aging call seen =>
    refine ⟨h.1.trans_le hinode, h.2.1, hnow ▸ h.2.2.1, ?_⟩
    intro file hfile _
    rw [(hlock file hfile).1]
    exact h.2.2.1
  | checking call pid seen => exact h
  | reclaiming call seen =>
    cases seen with
    | none => trivial
    | some seen =>
      refine ⟨fun r hr => hdead r (h.1 r hr), ?_⟩
      intro hempty
      obtain ⟨hold, hgone⟩ := h.2 hempty
      refine ⟨hold.trans_le hinode, ?_⟩
      rcases hgone with hother | hlate
      · left
        intro file hfile heq
        rcases (hlock file hfile).2 with hnew | ⟨old, hold', hsame⟩
        · omega
        · exact hother old hold' (hsame.trans heq)
      · exact .inr (hnow ▸ hlate)
  | idle => trivial
  | opening call => trivial
  | reading call => trivial
  | undetermined call => trivial
  | waiting call => trivial
  | dead => trivial

theorem Invariant.createNew (h : Invariant s) {call : Call} (hp : s.phase p = .opening call)
    (hlock : s.lock = none) :
    Invariant { s.set p (.writing s.nextInode s.now) with
      lock := some ⟨s.nextInode, none, s.now⟩
      nextInode := s.nextInode + 1 } where
  fresh := by
    rintro file hfile
    obtain rfl := Option.some.inj hfile
    exact ⟨Nat.lt_succ_self _, le_rfl⟩
  phases := by
    intro r
    by_cases hrp : r = p
    · subst hrp
      simp only [phase_set_self]
      rfl
    · simp only [phase_set_of_ne hrp]
      refine (h.phases r).change (h.entered_of_none hlock r) (Nat.le_succ _) rfl ?_ ?_ ?_
      · rintro file hfile
        obtain rfl := Option.some.inj hfile
        exact ⟨rfl, .inl le_rfl⟩
      · intro r' hr'
        have hne : r' ≠ p := by
          rintro rfl
          rw [hp] at hr'
          cases hr'
        simpa only [phase_set_of_ne hne] using hr'
      · intro r' inode hr'
        by_cases hrp' : r' = p
        · subst hrp'
          simp only [phase_set_self, Phase.entered, Option.some.injEq] at hr'
          exact .inl hr'.le
        · rw [phase_set_of_ne hrp', h.entered_of_none hlock r'] at hr'
          cases hr'
  single := by
    have honly : ∀ r, ((s.set p (.writing s.nextInode s.now)).phase r).entered ≠ none → r = p := by
      intro r hr
      by_contra hrp
      rw [phase_set_of_ne hrp] at hr
      exact hr (h.entered_of_none hlock r)
    intro r r' hr hr'
    rw [honly r hr, honly r' hr']

theorem Invariant.write (h : Invariant s) {inode created : ℕ}
    (hp : s.phase p = .writing inode created) :
    Invariant { s.set p (.holding inode) with
      lock := s.lock.map fun file =>
        if file.inode = inode then { file with contents := some p, modified := s.now }
        else file } := by
  have hfile : s.lock = some ⟨inode, none, created⟩ := by
    have hok := h.phases p
    rw [hp] at hok
    exact hok
  have hnone : ∀ r, r ≠ p → (s.phase r).entered = none := by
    intro r hrp
    by_contra hr
    exact hrp (h.single r p hr (by rw [hp]; exact Option.some_ne_none _))
  have hwritten : (s.lock.map fun file =>
      if file.inode = inode then { file with contents := some p, modified := s.now }
      else file) = some ⟨inode, some p, s.now⟩ := by
    rw [hfile, Option.map_some, if_pos rfl]
  rw [hwritten]
  refine ⟨?_, ?_, ?_⟩
  · rintro file hfile'
    obtain rfl := Option.some.inj hfile'
    exact ⟨(h.fresh _ hfile).1, le_rfl⟩
  · intro r
    by_cases hrp : r = p
    · subst hrp
      simp only [phase_set_self]
      exact ⟨s.now, rfl⟩
    · simp only [phase_set_of_ne hrp]
      refine (h.phases r).change (hnone r hrp) le_rfl rfl ?_ ?_ ?_
      · rintro file hfile'
        obtain rfl := Option.some.inj hfile'
        exact ⟨rfl, .inr ⟨_, hfile, rfl⟩⟩
      · intro r' hr'
        have hne : r' ≠ p := by
          rintro rfl
          rw [hp] at hr'
          cases hr'
        simpa only [phase_set_of_ne hne] using hr'
      · intro r' inode' hr'
        by_cases hrp' : r' = p
        · subst hrp'
          simp only [phase_set_self, Phase.entered] at hr'
          exact .inr ⟨r', by rw [hp]; exact hr'⟩
        · rw [phase_set_of_ne hrp', hnone r' hrp'] at hr'
          cases hr'
  · have honly : ∀ r, ((s.set p (.holding inode)).phase r).entered ≠ none → r = p := by
      intro r hr
      by_contra hrp
      rw [phase_set_of_ne hrp] at hr
      exact hr (hnone r hrp)
    intro r r' hr hr'
    rw [honly r hr, honly r' hr']

/-- A file is removed while no other process is at one. -/
theorem Invariant.removeFile (h : Invariant s) (hp : s.phase p ≠ .dead)
    (hphase : phase = .idle ∨ ∃ call, phase = .opening call)
    (hothers : ∀ q, q ≠ p → (s.phase q).entered = none) :
    Invariant { s.set p phase with lock := none } := by
  have hentered : phase.entered = none := by
    rcases hphase with rfl | ⟨call, rfl⟩
    · rfl
    · rfl
  have hnone : ∀ r, ((s.set p phase).phase r).entered = none := by
    intro r
    by_cases hrp : r = p
    · rw [hrp, phase_set_self, hentered]
    · rw [phase_set_of_ne hrp, hothers r hrp]
  refine ⟨?_, ?_, ?_⟩
  · intro file hfile
    cases hfile
  · intro r
    by_cases hrp : r = p
    · subst hrp
      simp only [phase_set_self]
      rcases hphase with rfl | ⟨call, rfl⟩
      · trivial
      · trivial
    · simp only [phase_set_of_ne hrp]
      refine (h.phases r).change (hothers r hrp) le_rfl rfl ?_ ?_ ?_
      · intro file hfile
        cases hfile
      · intro r' hr'
        have hne : r' ≠ p := by
          rintro rfl
          exact hp hr'
        simpa only [phase_set_of_ne hne] using hr'
      · intro r' inode hr'
        rw [hnone r'] at hr'
        cases hr'
  · intro r r' hr
    exact absurd (hnone r) hr

/-- No process is at the file that a waiter removes: a recorded PID was found dead, and an empty
file is older than a live process leaves it. -/
theorem Invariant.entered_of_reclaim (h : Invariant s) (hprompt : s.PromptWriters) {call : Call}
    {seen : Option LockFile} (hp : s.phase p = .reclaiming call seen)
    (hsame : s.lock = none ∨ s.lock = seen) (q : ℕ) : (s.phase q).entered = none := by
  by_contra hentered
  have hne : s.lock ≠ none := fun hnone => hentered (h.entered_of_none hnone q)
  have hlock := hsame.resolve_left hne
  have hok := h.phases p
  have hq := h.phases q
  rw [hp] at hok
  cases seen with
  | none => exact hne hlock
  | some seen =>
    have hholder (hcontents : seen.contents = some q) (halive : s.phase q ≠ .dead) : False :=
      halive (hok.1 q hcontents)
    cases hphase : s.phase q with
    | writing inode created =>
      rw [hphase] at hq
      obtain rfl : seen = ⟨inode, none, created⟩ := Option.some.inj (hlock.symm.trans hq)
      rcases (hok.2 rfl).2 with hgone | hlate
      · exact hgone _ hlock rfl
      · exact absurd (hprompt q inode created hphase) (not_lt.mpr hlate)
    | holding inode =>
      rw [hphase] at hq
      obtain ⟨modified, hq⟩ := hq
      obtain rfl : seen = ⟨inode, some q, modified⟩ := Option.some.inj (hlock.symm.trans hq)
      exact hholder rfl (by rw [hphase]; exact Phase.noConfusion)
    | releasing inode =>
      rw [hphase] at hq
      obtain ⟨modified, hq⟩ := hq
      obtain rfl : seen = ⟨inode, some q, modified⟩ := Option.some.inj (hlock.symm.trans hq)
      exact hholder rfl (by rw [hphase]; exact Phase.noConfusion)
    | _ =>
      rw [hphase] at hentered
      exact hentered rfl

/-- What a waiter concludes from an empty file is true as long as the file is at the path. -/
theorem phaseOk_metadata (h : Invariant s) {call : Call} {seen : LockFile}
    (hp : s.phase p = .aging call seen) (hold : s.writtenWithin emptyLockGrace = false) :
    PhaseOk (s.set p (.reclaiming call (some seen))) p (.reclaiming call (some seen)) := by
  have hok := h.phases p
  rw [hp] at hok
  obtain ⟨hinode, hempty, -, hmodified⟩ := hok
  refine ⟨?_, fun _ => ⟨hinode, ?_⟩⟩
  · intro q hq
    rw [hempty] at hq
    cases hq
  · by_cases hthere : ∀ file, s.lock = some file → file.inode ≠ seen.inode
    · exact .inl hthere
    · push Not at hthere
      obtain ⟨file, hfile, hsame⟩ := hthere
      have hage : ¬ s.now - file.modified < emptyLockGrace := by
        simpa [State.writtenWithin, hfile] using hold
      have hlater := hmodified file hfile hsame
      have hpast := (h.fresh file hfile).2
      have hgrace : seen.modified + emptyLockGrace ≤ s.now := by omega
      exact .inr hgrace

theorem phaseOk_kill (h : Invariant s) {call : Call} {pid : ℕ} {seen : LockFile}
    (hp : s.phase p = .checking call pid seen) (hdead : s.processIsAlive pid = false) :
    PhaseOk (s.set p (.reclaiming call (some seen))) p (.reclaiming call (some seen)) := by
  have hok := h.phases p
  rw [hp] at hok
  have hpid : s.phase pid = .dead := by
    simpa [State.processIsAlive] using hdead
  have hne : pid ≠ p := by
    rintro rfl
    rw [hp] at hpid
    cases hpid
  refine ⟨?_, ?_⟩
  · intro q hq
    obtain rfl : pid = q := Option.some.inj (hok.symm.trans hq)
    rw [phase_set_of_ne hne, hpid]
  · intro hempty
    rw [show seen.contents = some pid from hok] at hempty
    cases hempty

theorem Invariant.step (h : Invariant s) (hprompt : s.PromptWriters) {a : Action}
    (hremoves : RemovesWhatItRead s a) : Invariant (FileLock.step s a) := by
  cases a with
  | acquireAt p ceiling =>
    simp only [FileLock.step]
    split
    · next hp => exact h.move hp Phase.noConfusion trivial rfl
    · exact h
  | createNew p =>
    simp only [FileLock.step]
    split
    · next call hp =>
      split
      · next hlock => exact h.createNew hp hlock
      · exact h.move hp Phase.noConfusion trivial rfl
    · exact h
  | openFails p =>
    simp only [FileLock.step]
    split
    · next call hp => exact h.move hp Phase.noConfusion trivial rfl
    · exact h
  | write p =>
    simp only [FileLock.step]
    split
    · next inode created hp => exact h.write hp
    · exact h
  | writeFails p =>
    simp only [FileLock.step]
    split
    · next inode created hp =>
      refine h.move hp Phase.noConfusion ⟨?_, ?_⟩ rfl
      · have hok := h.phases p
        rw [hp] at hok
        exact (h.fresh _ hok).1
      · intro q hq
        by_cases hqp : q = p
        · subst hqp
          rw [phase_set_self] at hq
          cases hq
        · rw [phase_set_of_ne hqp] at hq
          refine hqp (h.single q p ?_ ?_)
          · rw [hq]
            exact Option.some_ne_none _
          · rw [hp]
            exact Option.some_ne_none _
    · exact h
  | read p =>
    simp only [FileLock.step]
    split
    · next call hp =>
      split
      · exact h.move hp Phase.noConfusion trivial rfl
      · next file hfile =>
        split
        · next hempty =>
          refine h.move hp Phase.noConfusion
            ⟨(h.fresh file hfile).1, hempty, (h.fresh file hfile).2, ?_⟩ rfl
          intro file' hfile' _
          obtain rfl : file = file' := Option.some.inj (hfile.symm.trans hfile')
          exact le_rfl
        · next pid hpid => exact h.move hp Phase.noConfusion hpid rfl
    · exact h
  | metadata p =>
    simp only [FileLock.step]
    split
    · next call seen hp =>
      split
      · exact h.move hp Phase.noConfusion trivial rfl
      · next hold =>
        exact h.move hp Phase.noConfusion (phaseOk_metadata h hp (by simpa using hold)) rfl
    · exact h
  | kill p =>
    simp only [FileLock.step]
    split
    · next call pid seen hp =>
      split
      · exact h.move hp Phase.noConfusion trivial rfl
      · next hgone =>
        exact h.move hp Phase.noConfusion (phaseOk_kill h hp (by simpa using hgone)) rfl
    · exact h
  | poll p =>
    simp only [FileLock.step]
    split
    · next call hp =>
      split
      · exact h.move hp Phase.noConfusion trivial rfl
      · exact h.move hp Phase.noConfusion trivial rfl
    · next call hp =>
      split
      · exact h.move hp Phase.noConfusion trivial rfl
      · exact h.move hp Phase.noConfusion trivial rfl
    · exact h
  | removeFile p =>
    simp only [FileLock.step]
    split
    · next inode hp =>
      -- The file of a failed write is empty, and its inode is no other process's.
      have hown : ∀ file, s.lock = some file → file.inode = inode := by
        simpa only [RemovesWhatItRead, hp] using hremoves
      have hok := h.phases p
      rw [hp] at hok
      refine h.removeFile (by rw [hp]; exact Phase.noConfusion) (.inl rfl) ?_
      intro q _
      by_contra hq
      obtain ⟨inode', hinode'⟩ := Option.ne_none_iff_exists'.mp hq
      obtain ⟨file, hfile, hsame⟩ := h.lock_of_entered hinode'
      rw [← hsame, hown file hfile] at hinode'
      exact hok.2 q hinode'
    · next call seen hp =>
      have hsame : s.lock = none ∨ s.lock = seen := by
        simpa only [RemovesWhatItRead, hp] using hremoves
      refine h.removeFile (by rw [hp]; exact Phase.noConfusion) (.inr ⟨call, rfl⟩) ?_
      intro q _
      exact h.entered_of_reclaim hprompt hp hsame q
    · next inode hp =>
      refine h.removeFile (by rw [hp]; exact Phase.noConfusion) (.inl rfl) ?_
      intro q hqp
      by_contra hq
      exact hqp (h.single q p hq (by rw [hp]; exact Option.some_ne_none _))
    · exact h
  | drop p =>
    simp only [FileLock.step]
    split
    · next inode hp =>
      have hok := h.phases p
      rw [hp] at hok
      split
      · split
        · exact h.set hok (.inr (by rw [hp]; rfl)) fun hdead => by rw [hp] at hdead; cases hdead
        · exact h.move hp Phase.noConfusion trivial rfl
      · exact h.move hp Phase.noConfusion trivial rfl
    · exact h
  | crash p => exact h.set trivial (.inl rfl) fun _ => rfl
  | tick elapsed => exact h.tick elapsed

end Steps

/-! ## Runs -/

theorem invariant_initial : Invariant State.initial where
  fresh := by
    intro file hfile
    cases hfile
  phases := fun _ => trivial
  single := by
    intro p q hp
    exact absurd rfl hp

theorem invariant_run (actions : List Action)
    (hprompt : ∀ before after, actions = before ++ after → (run before).PromptWriters)
    (hremoves : ∀ before a after, actions = before ++ a :: after →
      RemovesWhatItRead (run before) a) : Invariant (run actions) := by
  induction actions using List.reverseRecOn with
  | nil => exact invariant_initial
  | append_singleton before a ih =>
    have hbefore : Invariant (run before) := by
      apply ih
      · intro before' after' heq
        exact hprompt before' (after' ++ [a]) (by rw [heq, List.append_assoc])
      · intro before' b after' heq
        exact hremoves before' b (after' ++ [a]) (by rw [heq]; simp)
    have hrun : run (before ++ [a]) = step (run before) a := by
      simp [run]
    rw [hrun]
    exact hbefore.step (hprompt before [a] rfl) (hremoves before a [] rfl)

/-- For any number of processes and any interleaving of their operations and crashes, with live
processes that write their PIDs in time: if every `remove_file` finds nothing or the very file
it is meant for, at most one process holds the lock. -/
theorem lock_exclusive_of_removes (actions : List Action)
    (hprompt : ∀ before after, actions = before ++ after → (run before).PromptWriters)
    (hremoves : ∀ before a after, actions = before ++ a :: after →
      RemovesWhatItRead (run before) a)
    (p q : ℕ) (hp : (run actions).Holds p) (hq : (run actions).Holds q) : p = q := by
  have hentered {r : ℕ} (hr : (run actions).Holds r) : ((run actions).phase r).entered ≠ none := by
    obtain ⟨inode, hr | hr⟩ := hr
    · rw [hr]
      exact Option.some_ne_none _
    · rw [hr]
      exact Option.some_ne_none _
  exact (invariant_run actions hprompt hremoves).single p q (hentered hp) (hentered hq)

/-! ## Two waiters behind a dead holder -/

/-- What holds at every position of a list, with what is before it. -/
theorem forall_split {α : Type} {l : List α} {P : List α → α → Prop}
    (h : ∀ i (hi : i < l.length), P (l.take i) l[i]) :
    ∀ before a after, l = before ++ a :: after → P before a := by
  rintro before a after rfl
  have hi : before.length < (before ++ a :: after).length := by simp
  have hat := h before.length hi
  simpa using hat

/-- Without time that passes every writer is prompt. -/
theorem promptWriters_of_now {s : State} (h : s.now = 0) : s.PromptWriters := by
  intro p inode created _
  rw [h]
  exact Nat.lt_of_lt_of_le (by decide) (Nat.le_add_left _ _)

theorem now_step {s : State} {a : Action} (h : ∀ elapsed, a ≠ .tick elapsed) :
    (step s a).now = s.now := by
  cases a with
  | tick elapsed => exact absurd rfl (h elapsed)
  | _ =>
    simp only [step]
    repeat' split
    all_goals rfl

theorem promptWriters_of_timeless {actions : List Action}
    (h : ∀ a ∈ actions, ∀ elapsed, a ≠ .tick elapsed) :
    ∀ before after, actions = before ++ after → (run before).PromptWriters := by
  rintro before after rfl
  apply promptWriters_of_now
  have hbefore : ∀ a ∈ before, ∀ elapsed, a ≠ .tick elapsed := fun a ha =>
    h a (List.mem_append_left _ ha)
  clear h
  induction before using List.reverseRecOn with
  | nil => rfl
  | append_singleton before a ih =>
    have hrun : run (before ++ [a]) = step (run before) a := by
      simp [run]
    rw [hrun, now_step (hbefore a (by simp)), ih fun b hb => hbefore b (by simp [hb])]

/-- A process takes the lock and dies, and another reclaims it. -/
def reclaimed : List Action :=
  [.acquireAt 9 none, .createNew 9, .write 9, .crash 9, .acquireAt 1 none, .createNew 1, .read 1,
    .kill 1, .removeFile 1, .createNew 1, .write 1]

theorem lock_exclusive_reclaimed : (run reclaimed).Holds 1 ∧
    ∀ q, (run reclaimed).Holds q → q = 1 := by
  have hholds : (run reclaimed).Holds 1 := ⟨1, .inl (by decide)⟩
  refine ⟨hholds, fun q hq => ?_⟩
  refine lock_exclusive_of_removes reclaimed (promptWriters_of_timeless (by simp [reclaimed])) ?_ q 1
    hq hholds
  refine forall_split fun i hi => ?_
  simp only [reclaimed, List.length_cons, List.length_nil] at hi
  interval_cases i
  all_goals first | trivial | exact .inr rfl

/-- Two waiters read the PID of a dead holder. The first removes the file and takes the lock; the
second removes the file of the first, and takes the lock too. -/
theorem two_waiters_hold_lock :
    let actions : List Action :=
      [.acquireAt 9 none, .createNew 9, .write 9, .crash 9,
        .acquireAt 1 none, .createNew 1, .read 1, .kill 1,
        .acquireAt 2 none, .createNew 2, .read 2, .kill 2,
        .removeFile 1, .createNew 1, .write 1, .removeFile 2, .createNew 2, .write 2]
    (∀ before after, actions = before ++ after → (run before).PromptWriters) ∧
      (run actions).Holds 1 ∧ (run actions).Holds 2 := by
  exact ⟨promptWriters_of_timeless (by simp), ⟨1, .inl (by decide)⟩, ⟨2, .inl (by decide)⟩⟩

end FileLock

end Governance
