import Governance.Spool.Durable

/-!
# The journal of the Copilot drain

`copilot/checkpoint.rs`, `copilot/batch.rs`, `copilot/journal.rs` and
`copilot/export/progress.rs`. The checkpoint has one offset for each signal; a commit moves
one of them, charges what was lost on the way, and stores the checkpoint.

A `Machine` is a sweep under way: the disk, the journal in memory, and how many requests and
stores were made. The answers of the collector, the outcomes of the stores and the clock are
functions of these numbers. What one line transforms into belongs to the parsers of
`record.rs`, `metrics.rs` and `logs.rs`, so a `Reader` carries it: the signal a line has a
record for, if any, and how many records or points of it are lost. Counters are natural
numbers.

Ghost state: the `ledger` names what has been counted (and is stored with the checkpoint, as
the generation is that the checkpoint was `measured` against), `files` numbers the files there
have been, the `log` is what an observer sees, the `trail` has the disk and the log behind each
of these events, `given` has the records given up and `writes` each store of the sweep.
-/

namespace Governance

open Utf8Text ByteLines

namespace Push

/-- `push::Signal`. -/
inductive Signal where
  | metrics
  | logs
  deriving DecidableEq

/-- `push::Verdict`, or the failure of the request. -/
inductive Answer where
  | accepted
  | refused
  | error
  deriving DecidableEq

/-- `checkpoint::Checkpoint`. -/
structure Checkpoint where
  offset : ℕ
  spool : Option Identity
  metricsOffset : Option ℕ
  logsOffset : Option ℕ
  lastPushUnix : Option ℕ
  lastPushRecords : ℕ
  discardedTotal : ℕ
  lastDiscardUnix : Option ℕ
  heldSinceUnix : Option ℕ
  quarantine : Quarantine
  deriving DecidableEq

namespace Checkpoint

/-- `Checkpoint::default`. -/
def default : Checkpoint := ⟨0, none, none, none, none, 0, 0, none, none, ⟨[]⟩⟩

/-- `Checkpoint::signal_offset`. -/
def signalOffset (c : Checkpoint) : Signal → ℕ
  | .metrics => c.metricsOffset.getD c.offset
  | .logs => c.logsOffset.getD c.offset

/-- `Checkpoint::advance`. -/
def advance (c : Checkpoint) (signal : Signal) (reached : ℕ) : Checkpoint :=
  let c := match signal with
    | .metrics => { c with metricsOffset := some reached }
    | .logs => { c with logsOffset := some reached }
  { c with offset := min (c.signalOffset .metrics) (c.signalOffset .logs) }

/-- The first lines of `Journal::advance`: an offset only moves ahead. -/
def raise (c : Checkpoint) (signal : Signal) (reached : ℕ) : Checkpoint :=
  if reached > c.signalOffset signal then c.advance signal reached else c

/-- `Checkpoint::restart`. -/
def restart (c : Checkpoint) : Checkpoint :=
  { c with offset := 0, metricsOffset := some 0, logsOffset := some 0 }

/-- `Checkpoint::record_discards`. -/
def recordDiscards (c : Checkpoint) (count now : ℕ) : Checkpoint :=
  if count = 0 then c
  else { c with discardedTotal := c.discardedTotal + count, lastDiscardUnix := some now }

end Checkpoint

/-- The digest, and what a line transforms into. -/
structure Reader where
  digest : Bytes → String
  kind : Text → Option Signal
  lost : Text → ℕ

/-- What a sweep meets: the clock when it starts and at each commit, the answers to its
requests and the outcomes of its stores. -/
structure Conditions where
  now : ℕ
  clock : ℕ → ℕ
  answer : ℕ → Answer
  storeOk : ℕ → Bool

/-- What the drain gets from outside. -/
structure PushEnv extends Reader, Conditions

/-- Something that `discarded_total` counts, in a file of some generation: a record that was
given up, or what a line lost in the transform. -/
inductive Counted where
  | gaveUp (generation : ℕ) (signal : Signal) (line : Line)
  | untranslated (generation : ℕ) (line : Line)
  deriving DecidableEq

/-- The spool and the checkpoint on disk, with what the checkpoint counts and the generation it
was measured against. -/
structure PushDisk where
  spool : Option SpoolFile
  checkpoint : Option Checkpoint
  ledger : List Counted
  measured : ℕ
  files : ℕ
  deriving DecidableEq

/-- The generation of the file on disk. -/
def PushDisk.generation (d : PushDisk) : ℕ := (d.spool.map SpoolFile.generation).getD 0

/-- What an observer sees. -/
inductive PushEvent where
  | posted (generation : ℕ) (signal : Signal) (lines : List Line) (answer : Answer)
  | stored (generation : ℕ) (c : Checkpoint)
  | killed
  deriving DecidableEq

/-- The disk and what was seen so far. -/
structure Moment where
  disk : PushDisk
  log : List PushEvent

/-- A store of the sweep: the checkpoint and whether it was stored, whether the commit was one at
the top of the export loop, how many records it charged that were given up since the last
commit, the records given up so far, and the shared offset that the checkpoint counts through. -/
structure Write where
  c : Checkpoint
  ok : Bool
  inLoop : Bool
  owed : ℕ
  given : List Line
  through : ℕ
  deriving DecidableEq

/-- `journal::Journal`. -/
structure Journal where
  lines : List Line
  state : Checkpoint
  stored : Checkpoint
  identity : Option Identity
  charged : ℕ
  lost : ℕ

/-- `Journal::new`. -/
def Journal.new (lines : List Line) (state : Checkpoint) (identity : Option Identity)
    (restarted : Bool) : Journal :=
  ⟨lines, if restarted then state.restart else state, state, identity, 0, 0⟩

/-- `progress::Progress`. The reason of a stop is only reported. -/
structure Progress where
  resolved : ℕ
  accepted : ℕ
  discarded : ℕ
  held : ℕ
  exhausted : Bool
  requests : ℕ
  stopped : Bool
  committed : Option ℕ
  committedDiscards : ℕ

/-- `Progress::default`. -/
def Progress.default : Progress := ⟨0, 0, 0, 0, false, 0, false, none, 0⟩

/-- A sweep under way. -/
structure Machine where
  now : Moment
  journal : Journal
  asked : ℕ
  tried : ℕ
  ledger : List Counted
  trail : List Moment
  given : List Line
  writes : List Write

namespace Machine

/-- The generation of the file on disk. -/
def generation (m : Machine) : ℕ := m.now.disk.generation

/-- A new moment. -/
def reach (m : Machine) (moment : Moment) : Machine :=
  { m with now := moment, trail := m.trail ++ [moment] }

variable (env : PushEnv)

/-- `push::post` for some lines. -/
def post (m : Machine) (signal : Signal) (lines : List Line) : Answer × Machine :=
  let answer := env.answer m.asked
  let event := PushEvent.posted m.generation signal lines answer
  (answer, { m with asked := m.asked + 1 }.reach ⟨m.now.disk, m.now.log ++ [event]⟩)

/-- `checkpoint::store`. -/
def store (m : Machine) (c : Checkpoint) (inLoop : Bool) (owed through : ℕ) : Bool × Machine :=
  let ok := env.storeOk m.tried
  let m := { m with
    tried := m.tried + 1
    writes := m.writes ++ [⟨c, ok, inLoop, owed, m.given, through⟩] }
  let disk := { m.now.disk with
    checkpoint := some c
    ledger := m.ledger
    measured := m.generation }
  (ok, if ok then m.reach ⟨disk, m.now.log ++ [PushEvent.stored m.generation c]⟩ else m)

/-- `Journal::commit`. -/
def commit (m : Machine) (inLoop : Bool) (owed : ℕ) : Bool × Machine :=
  if m.journal.state = m.journal.stored then (true, m)
  else
    let state := { m.journal.state with spool := m.journal.identity }
    let m := { m with journal := { m.journal with state := state } }
    let r := m.store env state inLoop owed state.offset
    (r.1, if r.1 then { r.2 with journal := { r.2.journal with stored := state } } else r.2)

/-- What `Journal::transform_loss` charges: the lines that the shared offset has newly
covered. -/
def newly (j : Journal) : List Line :=
  (j.lines.drop j.charged).takeWhile fun line => line.offset < j.state.offset

/-- `Counts::discarded` of some lines. -/
def lossOf (lost : Text → ℕ) (lines : List Line) : ℕ := (lines.map fun line => lost line.text).sum

/-- The lines whose loss `Journal::advance` charges. -/
def fresh (m : Machine) (signal : Signal) (reached : ℕ) : List Line :=
  newly { m.journal with state := m.journal.state.raise signal reached }

/-- `Journal::advance` up to its commit. -/
def charge (m : Machine) (signal : Signal) (reached refused : ℕ) : Machine :=
  let j := { m.journal with state := m.journal.state.raise signal reached }
  let fresh := m.fresh signal reached
  let lost := refused + lossOf env.lost fresh
  let j := { j with
    charged := j.charged + fresh.length
    state := j.state.recordDiscards lost (env.clock m.tried)
    lost := j.lost + lost }
  { m with
    journal := j
    ledger := m.ledger ++ fresh.map fun line => Counted.untranslated m.generation line }

/-- `Journal::advance`. -/
def advance (m : Machine) (signal : Signal) (reached refused : ℕ) (inLoop : Bool) :
    Bool × Machine :=
  (m.charge env signal reached refused).commit env inLoop refused

end Machine

/-- `progress::Offer`, without the connection. -/
structure Offer where
  signal : Signal
  now : ℕ
  endOffset : ℕ

/-- `progress::build`: how many records of the signal some lines have, if any. -/
def build (r : Reader) (lines : List Line) (signal : Signal) : Option ℕ :=
  match lines.countP fun line => r.kind line.text = some signal with
  | 0 => none
  | records => some records

/-- `progress::advanced_to`. -/
def advancedTo (lines : List Line) (resolved endOfRange : ℕ) : ℕ :=
  (lines[resolved]?.map Line.offset).getD endOfRange

/-- `progress::commit`. -/
def commit (env : PushEnv) (offer : Offer) (lines : List Line) (inLoop : Bool) (p : Progress)
    (m : Machine) : Bool × Progress × Machine :=
  if p.committed = some p.resolved then (true, p, m)
  else
    let reached := advancedTo lines p.resolved offer.endOffset
    let refused := p.discarded - p.committedDiscards
    let r := m.advance env offer.signal reached refused inLoop
    (r.1, if r.1 then { p with committed := some p.resolved, committedDiscards := p.discarded }
      else p, r.2)

end Push

end Governance
