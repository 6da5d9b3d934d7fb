import Governance.Spool.World

/-!
# The drain of the daemon

`drain/advance.rs`, `drain/quarantine.rs` and `drain/lookahead.rs`: the one consumer of the
spool. It offers the record at the head; a refusal is recorded, and a record refused on enough
separate attempts starts a walk over the records behind it, until the collector takes one.

Every call of the spool holds its lock and every answer of the collector is awaited, so the
consumer is a state machine (`Phase`): between two of its steps a client can retain, the timer
can compact, and the process can be killed. A step is given the clock and the answer it gets,
if it asks for one. A mint or a stamp that fails is an answer that says nothing.
-/

namespace Governance

open Utf8Text ByteLines

/-- `probe::ProbeOutcome`: what offering one record on its own established. -/
inductive ProbeOutcome where
  | accepted
  | refused
  | unknown
  deriving DecidableEq

/-- `lookahead::MAX_LOOKAHEAD`. -/
def maxLookahead : ℕ := 20

/-- The key of the refusals of a record. -/
def Pending.refusalKey (p : Pending) : String := p.signal.display ++ ":" ++ p.key

/-- Where the consumer stands. The records that a walk has jumped over are those refused since
`pending`. -/
inductive Phase where
  | idle
  | offered (pending : Pending)
  | accepted (pending : Pending)
  | refused (pending : Pending)
  | eligible (pending : Pending)
  | walking (pending : Pending) (jumped : List Pending)
  | probing (pending : Pending) (jumped : List Pending) (probe : Pending)
  | confirmed (pending : Pending) (jumped : List Pending) (probe : Pending)

/-- What an observer of the daemon can write down. -/
inductive Observation where
  | attempt (p : Pending) (outcome : ProbeOutcome)
  | recorded (p : Pending) (now : ℕ)
  | skipped (lines : ℕ)
  | discarded (stuck : Pending) (jumped : List Pending) (probe : Pending)
  deriving DecidableEq

/-- The spool, its consumer, and what was observed so far. -/
structure Drainer where
  spool : DurableSpool
  phase : Phase
  log : List Observation

/-- A call of a client or of the timer, or a step of the consumer. -/
inductive DrainAct where
  | retain (r : Record)
  | compact
  | step (now : ℕ) (outcome : ProbeOutcome)

/-- What happens next: one of these, a kill between two of them, or a kill behind the durable
step number `n` of one of them. -/
inductive DrainEvent where
  | act (act : DrainAct)
  | kill
  | crash (act : DrainAct) (n : ℕ)

/-- How many undecodable lines the loop of `next` commits past. -/
def DurableSpool.skippedBy (env : SpoolEnv) (now : ℕ) : ℕ → DurableSpool → ℕ
  | 0, _ => 0
  | fuel + 1, s =>
    match s.peekAt env s.checkpoint.offset with
    | .error _ => 0
    | .ok (peeked, identity) =>
      let s := { s with pendingIdentity := identity }
      match peeked with
      | .empty => 0
      | .restarted => skippedBy env now fuel
          { s with checkpoint := { s.checkpoint.restart with spool := s.pendingIdentity } }
      | .undecodable boundary => skippedBy env now fuel (s.commitPast boundary 1 now) + 1
      | .decoded _ => 0

namespace Drainer

variable (env : SpoolEnv)

/-- A daemon that has never been used. -/
def init : Drainer := ⟨.openAt ⟨none, none⟩, .idle, []⟩

/-- The record a walk tried last. -/
def cursor (pending : Pending) (jumped : List Pending) : Pending := jumped.getLast?.getD pending

/-- A step of the consumer. -/
def consume (d : Drainer) (now : ℕ) (outcome : ProbeOutcome) : Drainer :=
  match d.phase with
  | .idle =>
    -- `advance_one` asks for the record at the head
    let skipped := (d.spool.pruned now).skippedBy env now (d.spool.fileSize + 3)
    match d.spool.next env now with
    | (.ok (some p), s) => ⟨s, .offered p, d.log ++ [.skipped skipped]⟩
    | (_, s) => ⟨s, .idle, d.log ++ [.skipped skipped]⟩
  | .offered p =>
    let log := d.log ++ [.attempt p outcome]
    match outcome with
    | .accepted => ⟨d.spool, .accepted p, log⟩
    | .refused => ⟨d.spool, .refused p, log⟩
    | .unknown => ⟨d.spool, .idle, log⟩
  | .accepted p => ⟨d.spool.advance p now, .idle, d.log⟩
  | .refused p =>
    -- `quarantine::handle`
    let r := d.spool.recordRefusal p now
    ⟨r.2, if r.1 then .eligible p else .idle, d.log ++ [.recorded p now]⟩
  | .eligible p =>
    -- `lookahead::walk` mints first
    ⟨d.spool, if outcome = .unknown then .idle else .walking p [], d.log⟩
  | .walking p jumped =>
    if jumped.length = maxLookahead then ⟨d.spool, .idle, d.log⟩
    else match d.spool.peekNext env (cursor p jumped) with
      | .ok (some probe) => ⟨d.spool, .probing p jumped probe, d.log⟩
      | _ => ⟨d.spool, .idle, d.log⟩
  | .probing p jumped probe =>
    let log := d.log ++ [.attempt probe outcome]
    match outcome with
    | .accepted => ⟨d.spool, .confirmed p jumped probe, log⟩
    | .refused => ⟨d.spool, .walking p (jumped ++ [probe]), log⟩
    | .unknown => ⟨d.spool, .idle, log⟩
  | .confirmed p jumped probe =>
    ⟨d.spool.discardConfirmed p (jumped.length + 1) probe now, .idle,
      d.log ++ [.discarded p jumped probe]⟩

/-- One call or step. -/
def act (d : Drainer) : DrainAct → Drainer
  | .retain r => { d with spool := (d.spool.retain env r).2 }
  | .compact => { d with spool := (d.spool.compactIfStuck env).2 }
  | .step now outcome => d.consume env now outcome

/-- The daemon started again on a disk. -/
def reopen (disk : Disk) (trail : List Disk) (log : List Observation) : Drainer :=
  ⟨{ DurableSpool.openAt disk with trail := trail }, .idle, log⟩

/-- One event. -/
def event (d : Drainer) : DrainEvent → Drainer
  | .act a => d.act env a
  | .kill => reopen d.spool.disk d.spool.trail d.log
  | .crash a n =>
    let d' := d.act env a
    -- the durable steps are counted from zero
    let trail := d'.spool.trail.take (d.spool.trail.length + n + 1)
    reopen (trail.getLast?.getD d'.spool.disk) trail d'.log

/-- A run. -/
def run : Drainer → List DrainEvent → Drainer
  | d, [] => d
  | d, e :: rest => run (d.event env e) rest

end Drainer

end Governance
