import Governance.Spool.Envelope

/-!
# The durable spool

`otel_daemon/spool` with its checkpoint (`checkpoint.rs`) and the refusal table it shares
with the Copilot drain (`copilot/quarantine.rs`).

`DurableSpool` holds what the struct holds and the disk it works on. The durable steps are
an append, a truncation, a rename and a store of the checkpoint; each goes through `setFile`
or `store`, which also write the new disk to the ghost `trail`, so a crash is a choice of one
disk of the trail. File-system failures are not modelled.
-/

namespace Governance

open Utf8Text ByteLines

/-! ## The refusal table -/

/-- `quarantine::Entry`. -/
structure QuarantineEntry where
  refusals : ℕ
  lastSeenUnix : ℕ
  deriving DecidableEq

/-- `quarantine::Quarantine`: a `BTreeMap`, kept as its entries in the order of their keys. -/
structure Quarantine where
  entries : List (String × QuarantineEntry)
  deriving DecidableEq

namespace Quarantine

/-- `REFUSALS_BEFORE_DISCARD`, `TTL_SECONDS` and `MAX_ENTRIES`. -/
def refusalsBeforeDiscard : ℕ := 2

def ttlSeconds : ℕ := 7 * 24 * 60 * 60

def maxEntries : ℕ := 64

/-- `Quarantine::key`: the first half of the hex digest of the line. -/
def key (digest : Bytes → String) (text : Text) : String :=
  .ofList ((digest (encode text)).toList.take 32)

/-- `BTreeMap::insert`. -/
def insert (key : String) (entry : QuarantineEntry) :
    List (String × QuarantineEntry) → List (String × QuarantineEntry)
  | [] => [(key, entry)]
  | (k, e) :: rest =>
    if key < k then (key, entry) :: (k, e) :: rest
    else if key = k then (key, entry) :: rest
    else (k, e) :: insert key entry rest

/-- `Quarantine::refused`. -/
def refused (q : Quarantine) (key : String) (now minSeparation : ℕ) : Bool × Quarantine :=
  let entry := (q.entries.lookup key).getD ⟨0, now - minSeparation⟩
  let entry := if now - entry.lastSeenUnix ≥ minSeparation then
    ⟨entry.refusals + 1, now⟩ else entry
  (refusalsBeforeDiscard ≤ entry.refusals, ⟨insert key entry q.entries⟩)

/-- `Quarantine::forget`. -/
def forget (q : Quarantine) (key : String) : Quarantine := ⟨q.entries.filter fun e => e.1 ≠ key⟩

/-- The first of the entries with the least `lastSeenUnix`. -/
def oldest : List (String × QuarantineEntry) → Option String
  | [] => none
  | (k, e) :: rest =>
    if rest.all fun e' => e.lastSeenUnix ≤ e'.2.lastSeenUnix then some k else oldest rest

/-- The second loop of `Quarantine::prune`: one entry goes with each turn. -/
def dropOldest : ℕ → List (String × QuarantineEntry) → List (String × QuarantineEntry)
  | 0, entries => entries
  | fuel + 1, entries =>
    if entries.length > maxEntries then
      match oldest entries with
      | some k => dropOldest fuel (entries.filter fun e => e.1 ≠ k)
      | none => entries
    else entries

/-- `Quarantine::prune`. -/
def prune (q : Quarantine) (now : ℕ) : Quarantine :=
  let kept := q.entries.filter fun e => now - e.2.lastSeenUnix ≤ ttlSeconds
  ⟨dropOldest kept.length kept⟩

end Quarantine

/-! ## The checkpoint and the disk -/

/-- `checkpoint::Checkpoint`. -/
structure Checkpoint where
  offset : ℕ
  spool : Option Identity
  discardedTotal : ℕ
  lastDiscardUnix : Option ℕ
  quarantine : Quarantine
  deriving DecidableEq

namespace Checkpoint

/-- `Checkpoint::default`. -/
def default : Checkpoint := ⟨0, none, 0, none, ⟨[]⟩⟩

/-- `Checkpoint::restart`. -/
def restart (c : Checkpoint) : Checkpoint := { c with offset := 0 }

/-- `Checkpoint::record_discard`. -/
def recordDiscard (c : Checkpoint) (count now : ℕ) : Checkpoint :=
  if count = 0 then c
  else { c with discardedTotal := c.discardedTotal + count, lastDiscardUnix := some now }

end Checkpoint

/-- Two checkpoints that read and count alike. -/
structure Checkpoint.Agrees (c c' : Checkpoint) : Prop where
  offset : c.offset = c'.offset
  spool : c.spool = c'.spool
  discardedTotal : c.discardedTotal = c'.discardedTotal

/-- The two files of the spool. -/
structure Disk where
  spool : Option SpoolFile
  checkpoint : Option Checkpoint
  deriving DecidableEq

/-- What the operating system and other crates give the spool: the SHA-256 of some bytes,
the envelope's reader, and the inode and device of the file that starts a generation. -/
structure SpoolEnv where
  digest : Bytes → String
  codec : EnvelopeCodec
  ids : ℕ → Option ℕ × Option ℕ

/-- A file system that numbers the files of the spool. -/
def numberedEnv : SpoolEnv where
  digest bs := .ofList (Base64.base64 bs)
  codec := .printed (fun _ => none) fun _ => none
  ids generation := (some generation, some 0)

/-- `spool::CAPACITY`. -/
def capacity : ℕ := 16 * 1024 * 1024

/-- `commit::RECLAIM_ABOVE`. -/
def reclaimAbove : ℕ := 1024 * 1024

/-- `commit::MIN_SEPARATION_SECONDS`. -/
def minSeparationSeconds : ℕ := 60

/-- `spool::Pending`. -/
structure Pending where
  signal : Signal
  payload : Bytes
  format : WireFormat
  key : String
  boundary : ℕ
  deriving DecidableEq

/-- The record a `Pending` carries. -/
def Pending.record (p : Pending) : Record := ⟨p.signal, p.payload, p.format⟩

/-- `read::Peeked`. -/
inductive Peeked where
  | empty
  | restarted
  | undecodable (boundary : ℕ)
  | decoded (pending : Pending)
  deriving DecidableEq

/-- `spool::DurableSpool`, with the disk it works on. -/
structure DurableSpool where
  disk : Disk
  checkpoint : Checkpoint
  pendingIdentity : Option Identity
  trail : List Disk

namespace DurableSpool

/-- `DurableSpool::at`: a missing checkpoint is the default one. -/
def openAt (disk : Disk) : DurableSpool :=
  ⟨disk, disk.checkpoint.getD .default, none, [disk]⟩

/-- A durable change of the disk. -/
def persist (s : DurableSpool) (disk : Disk) : DurableSpool :=
  { s with disk := disk, trail := s.trail ++ [disk] }

/-- `checkpoint::store`. -/
def store (s : DurableSpool) : DurableSpool :=
  s.persist { s.disk with checkpoint := some s.checkpoint }

/-- A durable change of the spool file. -/
def setFile (s : DurableSpool) (f : SpoolFile) : DurableSpool :=
  s.persist { s.disk with spool := some f }

/-- The size `metadata` reports, `0` for a missing file. -/
def fileSize (s : DurableSpool) : ℕ := (s.disk.spool.map fun f => f.bytes.length).getD 0

variable (env : SpoolEnv)

/-- `envelope::append_line`: the file is created when it is missing. -/
def appendLine (s : DurableSpool) (line : Text) : DurableSpool :=
  let f := s.disk.spool.getD ⟨(env.ids 0).1, (env.ids 0).2, [], 0⟩
  s.setFile (f.append (encode line ++ [lineFeed]))

/-- `DurableSpool::retain`. -/
def retain (s : DurableSpool) (r : Record) : Except SpoolError Unit × DurableSpool :=
  let line := r.line
  let pending := s.fileSize - s.checkpoint.offset
  let added := (encode line).length + 1
  if pending + added > capacity then (.error (.full pending), s)
  else (.ok (), s.appendLine env line)

/-- `DurableSpool::peek_at`. -/
def peekAt (s : DurableSpool) (offset : ℕ) : Except SpoolError (Peeked × Option Identity) :=
  match drain env.digest s.disk.spool offset s.checkpoint.spool with
  | .error err => .error err
  | .ok d =>
    if d.restarted.isSome then .ok (.restarted, d.identity)
    else match d.lines.head? with
      | none => .ok (.empty, d.identity)
      | some first =>
        match decodeEnvelope env.codec first.text with
        | some r => .ok (.decoded ⟨r.signal, r.payload, r.format,
            Quarantine.key env.digest first.text, d.boundary⟩, d.identity)
        | none => .ok (.undecodable d.boundary, d.identity)

/-- `DurableSpool::try_reclaim`. -/
def tryReclaim (s : DurableSpool) : DurableSpool :=
  if s.checkpoint.offset ≤ reclaimAbove then s
  else match s.disk.spool with
    | none => s
    | some f =>
      if f.bytes.length ≠ s.checkpoint.offset then s
      else
        -- the same file, emptied: a new generation under the old ids
        let s := s.setFile { f with bytes := [], generation := f.generation + 1 }
        { s with checkpoint := { s.checkpoint.restart with spool := none } }.store

/-- `DurableSpool::commit_past`. -/
def commitPast (s : DurableSpool) (boundary lost now : ℕ) : DurableSpool :=
  let checkpoint := { s.checkpoint with spool := s.pendingIdentity, offset := boundary }
  { s with checkpoint := checkpoint.recordDiscard lost now }.store.tryReclaim

/-- `DurableSpool::advance`. -/
def advance (s : DurableSpool) (p : Pending) (now : ℕ) : DurableSpool :=
  s.commitPast p.boundary 0 now

/-- `DurableSpool::record_refusal`. -/
def recordRefusal (s : DurableSpool) (p : Pending) (now : ℕ) : Bool × DurableSpool :=
  let r := s.checkpoint.quarantine.refused (p.signal.display ++ ":" ++ p.key) now
    minSeparationSeconds
  (r.1, { s with checkpoint := { s.checkpoint with quarantine := r.2 } }.store)

/-- `DurableSpool::discard_confirmed`. -/
def discardConfirmed (s : DurableSpool) (stuck : Pending) (lost : ℕ) (probe : Pending) (now : ℕ) :
    DurableSpool :=
  let quarantine := s.checkpoint.quarantine.forget (stuck.signal.display ++ ":" ++ stuck.key)
  { s with checkpoint := { s.checkpoint with quarantine := quarantine } }.commitPast probe.boundary
    lost now

/-- `DurableSpool::compact_if_stuck`. -/
def compactIfStuck (s : DurableSpool) : Bool × DurableSpool :=
  if s.checkpoint.offset ≤ reclaimAbove then (false, s)
  else match s.disk.spool with
    | none => (false, s)
    | some f =>
      if f.bytes.length < s.checkpoint.offset then (false, s)
      else
        let ids := env.ids (f.generation + 1)
        let s' := s.setFile ⟨ids.1, ids.2, f.bytes.drop s.checkpoint.offset, f.generation + 1⟩
        (true, { s' with checkpoint := { s'.checkpoint with offset := 0, spool := none } }.store)

/-- The loop of `DurableSpool::next`. Past a restart every turn consumes bytes of the file, so
a fuel of its size and three is enough. -/
def nextLoop (now : ℕ) : ℕ → DurableSpool → Except SpoolError (Option Pending) × DurableSpool
  | 0, s => (.ok none, s)
  | fuel + 1, s =>
    match s.peekAt env s.checkpoint.offset with
    | .error err => (.error err, s)
    | .ok (peeked, identity) =>
      let s := { s with pendingIdentity := identity }
      match peeked with
      | .empty => (.ok none, s)
      | .restarted =>
        nextLoop now fuel
          { s with checkpoint := { s.checkpoint.restart with spool := s.pendingIdentity } }
      | .undecodable boundary => nextLoop now fuel (s.commitPast boundary 1 now)
      | .decoded pending => (.ok (some pending), s)

/-- `DurableSpool::next`. -/
def next (s : DurableSpool) (now : ℕ) : Except SpoolError (Option Pending) × DurableSpool :=
  nextLoop env now (s.fileSize + 3)
    { s with checkpoint := { s.checkpoint with quarantine := s.checkpoint.quarantine.prune now } }

/-- `DurableSpool::peek_next`. -/
def peekNext (s : DurableSpool) (after : Pending) : Except SpoolError (Option Pending) :=
  match s.peekAt env after.boundary with
  | .error err => .error err
  | .ok (.decoded pending, _) => .ok (some pending)
  | .ok _ => .ok none

end DurableSpool

end Governance
