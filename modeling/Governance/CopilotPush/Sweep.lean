import Governance.CopilotPush.Export

/-!
# A sweep and a wake

`copilot/sweep.rs`, `copilot/pass.rs`, `copilot/spool/reclaim.rs` and `copilot/drain.rs`. A
sweep reads the spool behind the shared offset, offers what it read to both signals, and
reclaims the file when every byte of it has been delivered. A wake sweeps until it has caught
up, a sweep stops short, or a bound is hit.

The texts of failures and everything that is only reported are left out.
-/

namespace Governance

open Utf8Text ByteLines

namespace Push

/-- `pass::pending_for`. -/
def pendingFor (state : Checkpoint) (signal : Signal) (lines : List Line) : List Line :=
  lines.filter fun line => line.offset ≥ state.signalOffset signal

/-- `pass::Outcome`, without what is only reported. -/
structure Outcome where
  pushed : ℕ
  stalled : Bool
  failed : Bool

variable (env : PushEnv)

/-- One turn of the loop of `pass::both`. -/
def offerSignal (signal : Signal) (endOffset : ℕ) (m : Machine) : Progress × Machine :=
  exportSignal env ⟨signal, env.now, endOffset⟩
    (pendingFor m.journal.state signal m.journal.lines) m

/-- `pass::both`. -/
def both (endOffset : ℕ) (m : Machine) : Outcome × Machine :=
  let m := m.withQuarantine (m.journal.state.quarantine.prune env.now)
  let metrics := offerSignal env .metrics endOffset m
  let logs := offerSignal env .logs endOffset metrics.2
  (⟨metrics.1.accepted + logs.1.accepted, metrics.1.exhausted || logs.1.exhausted,
    metrics.1.stopped || logs.1.stopped⟩, logs.2)

theorem both_machine (endOffset : ℕ) (m : Machine) : (both env endOffset m).2 =
    (offerSignal env .logs endOffset (offerSignal env .metrics endOffset
      (m.withQuarantine (m.journal.state.quarantine.prune env.now))).2).2 := by
  simp only [both]

/-- `Journal::finished`. -/
def Machine.finished (m : Machine) (records : ℕ) (stalled : Bool) (now : ℕ) : Machine :=
  let state := m.journal.state
  let state := if records > 0 then
    { state with lastPushRecords := records, lastPushUnix := some now } else state
  let state := if stalled then
    { state with heldSinceUnix := some (state.heldSinceUnix.getD now) }
  else { state with heldSinceUnix := none }
  { m with journal := { m.journal with state := state } }

/-- `set_len(0)`: the emptied file starts a generation under the old ids. -/
def PushDisk.truncate (d : PushDisk) (f : SpoolFile) : PushDisk :=
  { d with
    spool := some { f with bytes := [], generation := d.files }
    files := d.files + 1 }

/-- The checkpoint that `reclaim::maybe` stores. -/
def Checkpoint.reclaimed (c : Checkpoint) (digest : Bytes → String) (d : PushDisk) : Checkpoint :=
  { c.restart with spool := d.spool.map (Identity.of digest) }

/-- `reclaim::maybe`. -/
def reclaim (m : Machine) : Machine :=
  let state := m.journal.state
  if state.offset ≤ reclaimAbove then m
  else match m.now.disk.spool with
    | none => m
    | some f =>
      if f.bytes.length ≠ state.offset then m
      else
        let disk := m.now.disk.truncate f
        ((m.reach ⟨disk, m.now.log⟩).store env (state.reclaimed env.digest disk) false 0
          state.offset).2

/-- `sweep::Swept`. -/
structure Swept where
  pushed : ℕ
  pending : ℕ
  complete : Bool
  failed : Bool

/-- `Swept::nothing`. -/
def Swept.nothing : Swept := ⟨0, 0, false, false⟩

/-- The start of a sweep over some lines. -/
def Machine.start (moment : Moment) (j : Journal) : Machine :=
  ⟨moment, j, 0, 0, moment.disk.ledger, [moment], [], []⟩

/-- The end of `sweep::once`: the last commit, and the reclaim once it is stored. -/
def closing (m : Machine) : Bool × Machine :=
  let r := m.commit env false 0
  (r.1, if r.1 then reclaim env r.2 else r.2)

/-- `sweep::once`, with `none` for a failure. -/
def sweepOnce (dryRun : Bool) (carried : ℕ) (moment : Moment) : Option Swept × Machine :=
  let state := moment.disk.checkpoint.getD .default
  match drain env.digest moment.disk.spool state.offset state.spool with
  | .error _ => (none, .start moment (.new [] state none false))
  | .ok d =>
    let m := Machine.start moment (.new d.lines state d.identity d.restarted.isSome)
    if d.missing then (some .nothing, m)
    else if d.lines = [] then
      if dryRun then (some .nothing, m)
      else if d.restarted.isSome then
        let r := closing env m
        (if r.1 then some .nothing else none, r.2)
      else (some .nothing, reclaim env m)
    else if dryRun then (some .nothing, m)
    else
      let outcome := both env d.nextOffset m
      let r := closing env
        (outcome.2.finished (carried + outcome.1.pushed) outcome.1.stalled env.now)
      let reached := r.2.journal.state.offset
      (if r.1 then some ⟨outcome.1.pushed, d.size - reached, reached ≥ d.nextOffset,
        outcome.1.failed⟩ else none, r.2)

/-- What a sweep does with the lines it reads. -/
inductive SweepCase (d : Drain) (m : Machine) : Machine → Prop where
  | nothing : SweepCase d m m
  | caughtUp (missing : d.missing = false) (lines : d.lines = []) :
      SweepCase d m (reclaim env m)
  | restarted (missing : d.missing = false) (lines : d.lines = []) :
      SweepCase d m (closing env m).2
  | offered (missing : d.missing = false) (lines : d.lines ≠ []) (records : ℕ) (stalled : Bool) :
      SweepCase d m (closing env ((both env d.nextOffset m).2.finished records stalled env.now)).2

theorem sweepOnce_cases (dryRun : Bool) (carried : ℕ) (moment : Moment) {c : Checkpoint}
    (hc : moment.disk.checkpoint.getD .default = c) :
    (sweepOnce env dryRun carried moment).2 = .start moment (.new [] c none false) ∨
    ∃ d, drain env.digest moment.disk.spool c.offset c.spool = .ok d ∧
      SweepCase env d (.start moment (.new d.lines c d.identity d.restarted.isSome))
        (sweepOnce env dryRun carried moment).2 := by
  simp only [sweepOnce, hc]
  cases drain env.digest moment.disk.spool c.offset c.spool with
  | error err => exact .inl rfl
  | ok d =>
    refine .inr ⟨d, rfl, ?_⟩
    simp only
    split
    · exact .nothing
    next hmissing =>
    rw [Bool.not_eq_true] at hmissing
    split
    · next hlines =>
      split
      · exact .nothing
      split
      · exact .restarted hmissing hlines
      · exact .caughtUp hmissing hlines
    next hlines =>
    split
    · exact .nothing
    · dsimp only
      exact .offered hmissing hlines _ _

end Push

end Governance
