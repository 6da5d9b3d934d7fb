import Governance.Copilot.Replay

/-!
# Syncing and backfilling

`governance-copilot/src/sync` and `governance-ctl/src/sync/backfill`: a day is ingested report by
report, archived before it is parsed, and a backfill run ingests the days of a window that starts
behind the high-water mark.

What happens outside is an `Attempt` for each report: what the download gave, and whether the
archive, the transaction of the rows and the manifest statement went through. The OTLP sink
writes nothing that is read back here, and host names are only reported, so both are left out.
-/

namespace Governance

open ByteLines

/-- `Downloaded`, or the failure of the download. -/
inductive Fetched where
  | error
  | empty
  | payload (bytes : Bytes)
  deriving DecidableEq

/-- The outcomes of the calls outside while one report is ingested. -/
structure Attempt where
  fetched : Fetched
  archived : Bool
  stored : Bool
  recorded : Bool

/-- The failures of an ingest. -/
inductive SyncError where
  | token
  | fetch
  | archive
  | copilot (error : CopilotError)
  deriving DecidableEq

/-- `ReportOutcome`. -/
structure ReportOutcome where
  report : String
  day : String
  status : String
  recordCount : ℕ
  deriving DecidableEq

/-- The objects of the raw archive by their keys. -/
abbrev Archive := String → Option Bytes

/-- The database and the archive. -/
structure SyncState where
  db : CopilotDb
  archive : Archive

/-- Nothing stored and nothing archived. -/
def SyncState.empty : SyncState := ⟨CopilotDb.empty, fun _ => none⟩

/-- `archive_key`. -/
def archiveKey (org report day : String) : String :=
  "org=" ++ org ++ "/day=" ++ day ++ "/" ++ report ++ ".ndjson"

/-- `seats_archive_key`. -/
def seatsArchiveKey (org snapshotDay : String) : String :=
  "org=" ++ org ++ "/day=" ++ snapshotDay ++ "/" ++ seatsReportType ++ ".json"

/-- `Archive::write`. -/
def SyncState.write (s : SyncState) (key : String) (bytes : Bytes) : SyncState :=
  { s with archive := Function.update s.archive key (some bytes) }

/-- `Config`, as far as the backfill and the cutover read it. -/
structure SyncConfig where
  tenantId : String
  org : String
  lookbackDays : ℤ
  maxBackfillDays : ℤ
  freezeWrites : Bool

namespace CopilotEnv

variable (env : CopilotEnv)

/-- A writer while the database is up, or the failure of its connection. -/
def performWhen (up : Bool) (db : CopilotDb) (call : StoreCall) :
    Except StorageError ℕ × CopilotDb :=
  if up then env.perform db call else (.error .other, db)

/-- `replay_report` under the outcomes of an attempt. -/
def replayAttempt (a : Attempt) (db : CopilotDb) (tenantId org day report : String)
    (bytes : Bytes) : Except CopilotError ℕ × CopilotDb :=
  match env.parseReport tenantId org day report bytes with
  | .error e => (.error e, db)
  | .ok call =>
    match env.performWhen a.stored db call with
    | (.error e, db) => (.error (.storage e), db)
    | (.ok n, db) =>
      match env.performWhen a.recorded db
          (.upsertManifest ⟨tenantId, "github_copilot", org, report, day, "ok", n⟩) with
      | (.error e, db) => (.error (.storage e), db)
      | (.ok _, db) => (.ok n, db)

/-- The count of `parse_report_rows`. -/
def parsedCount (tenantId org day report : String) (bytes : Bytes) : Except CopilotError ℕ :=
  (env.parseReport tenantId org day report bytes).map StoreCall.count

/-- The end of `ingest_one` and of `sync_seats`: the payload is archived, then replayed, or
only counted under a freeze. -/
def ingestPayload (cfg : SyncConfig) (day report key : String) (bytes : Bytes) (a : Attempt)
    (s : SyncState) : Except SyncError ReportOutcome × SyncState :=
  if !a.archived then (.error .archive, s)
  else
    let s := s.write key bytes
    if cfg.freezeWrites then
      match env.parsedCount cfg.tenantId cfg.org day report bytes with
      | .error e => (.error (.copilot e), s)
      | .ok n => (.ok ⟨report, day, "ok", n⟩, s)
    else
      match env.replayAttempt a s.db cfg.tenantId cfg.org day report bytes with
      | (.error e, db) => (.error (.copilot e), { s with db := db })
      | (.ok n, db) => (.ok ⟨report, day, "ok", n⟩, { s with db := db })

/-- `ingest_one`. -/
def ingestOne (cfg : SyncConfig) (day report : String) (a : Attempt) (s : SyncState) :
    Except SyncError ReportOutcome × SyncState :=
  match a.fetched with
  | .error => (.error .fetch, s)
  | .empty =>
    if cfg.freezeWrites then (.ok ⟨report, day, "empty", 0⟩, s)
    else
      match env.performWhen a.recorded s.db
          (.upsertManifest ⟨cfg.tenantId, "github_copilot", cfg.org, report, day, "empty", 0⟩) with
      | (.error e, db) => (.error (.copilot (.storage e)), { s with db := db })
      | (.ok _, db) => (.ok ⟨report, day, "empty", 0⟩, { s with db := db })
  | .payload bytes =>
    env.ingestPayload cfg day report (archiveKey cfg.org report day) bytes a s

/-- The loop of `sync_day`: the first report that fails ends it. -/
def syncReports (cfg : SyncConfig) (day : String) (attempt : String → Attempt) :
    List String → SyncState → Except SyncError (List ReportOutcome) × SyncState
  | [], s => (.ok [], s)
  | report :: rest, s =>
    match env.ingestOne cfg day report (attempt report) s with
    | (.error e, s) => (.error e, s)
    | (.ok outcome, s) =>
      match syncReports cfg day attempt rest s with
      | (.error e, s) => (.error e, s)
      | (.ok outcomes, s) => (.ok (outcome :: outcomes), s)

/-- What GitHub does on one day: the token, and an attempt for each report. -/
structure DayAttempt where
  token : Bool
  attempt : String → Attempt

/-- `sync_day`. -/
def syncDay (cfg : SyncConfig) (day : String) (a : DayAttempt) (s : SyncState) :
    Except SyncError (List ReportOutcome) × SyncState :=
  if a.token then env.syncReports cfg day a.attempt reports s else (.error .token, s)

/-- `sync_seats`. The endpoint has no empty answer. -/
def syncSeats (cfg : SyncConfig) (snapshotDay : String) (a : DayAttempt) (s : SyncState) :
    Except SyncError ReportOutcome × SyncState :=
  if !a.token then (.error .token, s)
  else match (a.attempt seatsReportType).fetched with
    | .payload bytes =>
      env.ingestPayload cfg snapshotDay seatsReportType (seatsArchiveKey cfg.org snapshotDay) bytes
        (a.attempt seatsReportType) s
    | _ => (.error .fetch, s)

end CopilotEnv

/-! ## The backfill window -/

/-- `high_water_mark`: the latest day that has a manifest of a day report. -/
def CopilotDb.highWaterMark (db : CopilotDb) (tenantId provider : String) : Option ℤ :=
  ((db.manifests.rows.filter fun m =>
    m.tenantId = tenantId ∧ m.provider = provider ∧ m.reportType ≠ seatsReportType).map
      ManifestRow.reportDay).max?

/-- `COPILOT_DATA_LAG_DAYS`. -/
def copilotDataLagDays : ℤ := 1

/-- `backfill_window`. -/
def backfillWindow (hwm : Option ℤ) (today lookbackDays maxBackfillDays : ℤ) : ℤ × ℤ :=
  let last := today - copilotDataLagDays
  let lookbackBound := today - max lookbackDays 0
  let maxBackfillBound := today - max maxBackfillDays 0
  let start := match hwm with
    | some h => max (min (min (h + 1) last) lookbackBound) maxBackfillBound
    | none => maxBackfillBound
  (start, last)

/-- The days from one to another, newest first. -/
def daysDown (first last : ℤ) : List ℤ :=
  ((List.range (last + 1 - first).toNat).map fun i : ℕ => first + i).reverse

/-- The days that `run_backfill_at` requests. -/
def CopilotDb.backfillDays (db : CopilotDb) (cfg : SyncConfig) (today : ℤ) : List ℤ :=
  let window := backfillWindow (db.highWaterMark cfg.tenantId "github_copilot") today
    cfg.lookbackDays cfg.maxBackfillDays
  daysDown window.1 window.2

namespace CopilotEnv

variable (env : CopilotEnv)

/-- A run of the backfill: the day it runs on, what happens on each day it requests, and to the
seats. -/
structure BackfillRun where
  today : ℤ
  day : ℤ → DayAttempt
  seats : DayAttempt

/-- The loop of `run_backfill_at`: a day that fails does not end it. The failed days are
returned. -/
def backfillLoop (cfg : SyncConfig) (run : BackfillRun) :
    List ℤ → SyncState → List ℤ × SyncState
  | [], s => ([], s)
  | day :: days, s =>
    match env.syncDay cfg (env.dateText day) (run.day day) s with
    | (.ok _, s) => backfillLoop cfg run days s
    | (.error _, s) =>
      let r := backfillLoop cfg run days s
      (day :: r.1, r.2)

/-- `BackfillOutcome`. -/
structure BackfillOutcome where
  requested : List ℤ
  failed : List ℤ
  seats : Except SyncError ReportOutcome

/-- `run_backfill_at`. -/
def runBackfillAt (cfg : SyncConfig) (run : BackfillRun) (s : SyncState) :
    BackfillOutcome × SyncState :=
  let days := s.db.backfillDays cfg run.today
  let r := env.backfillLoop cfg run days s
  let seats := env.syncSeats cfg (env.dateText run.today) run.seats r.2
  (⟨days, r.1, seats.1⟩, seats.2)

/-- The state after a sequence of runs. -/
def backfills (cfg : SyncConfig) (s : SyncState) (runs : List BackfillRun) : SyncState :=
  runs.foldl (fun s run => (env.runBackfillAt cfg run s).2) s

end CopilotEnv

end Governance
