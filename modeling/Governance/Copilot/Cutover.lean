import Governance.Copilot.Sync

/-!
# The cutover

`governance-ctl/src/sync/cutover` and `operators/replay.rs`: the archive is replayed day by day,
its counts are compared with the manifests of one tenant and one organization, and on the word of
the operator the tables of the day facts are dropped for all of them.

What the sink, the archive and the database answer is part of the run. The OTLP records of a
frozen replay are read by nothing here, so only its failures are kept.
-/

namespace Governance

open ByteLines

/-! ## The dropped tables -/

/-- `COPILOT_DAY_TABLES`. -/
def copilotDayTables : List String :=
  ["copilot_org_dailys", "copilot_user_dailys", "copilot_repo_dailys", "copilot_seat_snapshots"]

/-- `SHARED_TABLES`: children before parents. -/
def sharedTables : List String := ["model_calls", "tool_calls", "executions"]

/-- A row of one of `COPILOT_DAY_TABLES`. -/
inductive DayFact where
  | org (row : OrgDailyRow)
  | user (row : UserDailyRow)
  | repo (row : RepoDailyRow)
  | seat (row : SeatSnapshotRow)
  deriving DecidableEq

namespace DayFact

def tenantId : DayFact → String
  | .org row => row.tenantId
  | .user row => row.tenantId
  | .repo row => row.tenantId
  | .seat row => row.tenantId

def day : DayFact → ℤ
  | .org row => row.reportDay
  | .user row => row.reportDay
  | .repo row => row.reportDay
  | .seat row => row.snapshotDay

/-- The report that fills the table of the row. -/
def report : DayFact → String
  | .org _ => "organization-1-day"
  | .user _ => "users-1-day"
  | .repo _ => "repos-1-day"
  | .seat _ => seatsReportType

/-- The table and the natural key of the row. -/
def naturalKey : DayFact → String × DayKey × String
  | .org row => ("copilot_org_dailys", OrgDailyRow.index.key row, "")
  | .user row => ("copilot_user_dailys", UserDailyRow.index.key row)
  | .repo row => ("copilot_repo_dailys", RepoDailyRow.index.key row)
  | .seat row => ("copilot_seat_snapshots", SeatSnapshotRow.index.key row)

/-- Everything but the primary key, which a conflict leaves as it is. -/
def data : DayFact → DayFact
  | .org row => .org { row with id := "" }
  | .user row => .user { row with id := "" }
  | .repo row => .repo { row with id := "" }
  | .seat row => .seat { row with id := "" }

end DayFact

/-- The rows of a table, by its name. The connector writes none to the shared tables. -/
def CopilotDb.factsOf (db : CopilotDb) (table : String) : List DayFact :=
  if table = "copilot_org_dailys" then db.orgDailys.rows.map .org
  else if table = "copilot_user_dailys" then db.userDailys.rows.map .user
  else if table = "copilot_repo_dailys" then db.repoDailys.rows.map .repo
  else if table = "copilot_seat_snapshots" then db.seatSnapshots.rows.map .seat
  else []

/-- The rows of all dropped tables. -/
def CopilotDb.facts (db : CopilotDb) : List DayFact := copilotDayTables.flatMap db.factsOf

/-! ## The archive -/

/-- The key under which `verify_archive_counts` looks for a report. -/
def archivedKey (org report day : String) : String :=
  if report = seatsReportType then seatsArchiveKey org day else archiveKey org report day

/-- `str::strip_suffix`. -/
def stripSuffix (suffix text : List Char) : Option (List Char) :=
  if suffix <:+ text then some (text.take (text.length - suffix.length)) else none

/-- The report that `read_archived_report` takes from the last part of a key. -/
def reportOfKey (key : String) : String :=
  match (key.toList.splitOn '/').getLast? with
  | none => key
  | some file =>
    match (stripSuffix ".ndjson".toList file).or (stripSuffix ".json".toList file) with
    | none => key
    | some report => String.ofList report

/-! ## Replaying a range of days -/

/-- The failures of `run_replay`. -/
inductive ReplayError where
  | invertedRange
  | archive
  | sink
  | copilot (error : CopilotError)
  deriving DecidableEq

/-- A run of `replay`: the range, what the archive lists for a day, and what happens outside to
each object; the sink matters under a freeze only. `archived` of an attempt tells whether the
object and its manifest could be read. -/
structure ReplayRun where
  first : ℤ
  last : ℤ
  listDay : String → Option (List String)
  attempt : String → Attempt
  sink : Bool
  emitted : String → Bool

/-- `Archive::read`, when it goes through. -/
def SyncState.read (s : SyncState) (up : Bool) (key : String) : Option Bytes :=
  if up then s.archive key else none

namespace CopilotEnv

variable (env : CopilotEnv)

/-- The reports of a day, written to the tables again. -/
def replayKeys (cfg : SyncConfig) (ds : String) (attempt : String → Attempt) :
    List String → SyncState → Except ReplayError Unit × SyncState
  | [], s => (.ok (), s)
  | key :: keys, s =>
    match s.read (attempt key).archived key with
    | none => (.error .archive, s)
    | some bytes =>
      match env.replayAttempt (attempt key) s.db cfg.tenantId cfg.org ds (reportOfKey key)
          bytes with
      | (.error e, db) => (.error (.copilot e), { s with db := db })
      | (.ok _, db) => replayKeys cfg ds attempt keys { s with db := db }

/-- The reports of a day, parsed for the sink. -/
def emitKeys (cfg : SyncConfig) (ds : String) (attempt : String → Attempt) (s : SyncState) :
    List String → Except ReplayError Unit
  | [] => .ok ()
  | key :: keys =>
    match s.read (attempt key).archived key with
    | none => .error .archive
    | some bytes =>
      match env.parsedCount cfg.tenantId cfg.org ds (reportOfKey key) bytes with
      | .error e => .error (.copilot e)
      | .ok _ => emitKeys cfg ds attempt s keys

/-- One day of `run_replay`. -/
def replayDay (cfg : SyncConfig) (run : ReplayRun) (ds : String) (s : SyncState) :
    Except ReplayError Unit × SyncState :=
  match run.listDay ds with
  | none => (.error .archive, s)
  | some keys =>
    if cfg.freezeWrites then
      if !run.sink then (.error .sink, s)
      else match env.emitKeys cfg ds run.attempt s keys with
        | .error e => (.error e, s)
        | .ok _ => (if run.emitted ds then .ok () else .error .sink, s)
    else env.replayKeys cfg ds run.attempt keys s

/-- The loop of `run_replay`. -/
def replayDays (cfg : SyncConfig) (run : ReplayRun) :
    List ℤ → SyncState → Except ReplayError Unit × SyncState
  | [], s => (.ok (), s)
  | day :: days, s =>
    match env.replayDay cfg run (env.dateText day) s with
    | (.error e, s) => (.error e, s)
    | (.ok _, s) => replayDays cfg run days s

/-- `run_replay`, on a range whose texts were dates. -/
def runReplay (cfg : SyncConfig) (run : ReplayRun) (s : SyncState) :
    Except ReplayError Unit × SyncState :=
  if run.last < run.first then (.error .invertedRange, s)
  else env.replayDays cfg run (daysDown run.first run.last).reverse s

/-! ## Verifying the counts -/

/-- `CountMismatch`. -/
structure CountMismatch where
  day : String
  report : String
  expected : ℤ
  actual : ℤ
  deriving DecidableEq

/-- The failures of the cutover operators. -/
inductive CutoverError where
  | notConfirmed
  | frozen
  | manifests
  | mismatches (n : ℕ)
  | transaction
  deriving DecidableEq

/-- What the operators meet outside: whether the manifests could be read, each object of the
archive, and whether the transaction of the drop went through. -/
structure CutoverAttempt where
  selected : Bool
  read : String → Bool
  committed : Bool

/-- The body of the loop of `verify_archive_counts`. A missing archive counts 0 rows and one that
cannot be parsed -1, and both are a mismatch whatever is expected. -/
def countMismatch (cfg : SyncConfig) (read : String → Option Bytes) (m : ManifestRow) :
    Option CountMismatch :=
  let ds := env.dateText m.reportDay
  if m.status = "empty" then none
  else match read (archivedKey cfg.org m.reportType ds) with
    | none => some ⟨ds, m.reportType, m.recordCount, 0⟩
    | some bytes =>
      match env.parsedCount cfg.tenantId cfg.org ds m.reportType bytes with
      | .error _ => some ⟨ds, m.reportType, m.recordCount, -1⟩
      | .ok actual =>
        if (actual : ℤ) ≠ m.recordCount then some ⟨ds, m.reportType, m.recordCount, actual⟩
        else none

/-- The manifests of a tenant and an organization by day and report. -/
def selectManifests (cfg : SyncConfig) (db : CopilotDb) : List ManifestRow :=
  (db.manifests.rows.filter fun m => m.tenantId = cfg.tenantId ∧ m.provider = "github_copilot" ∧
    m.scopeId = cfg.org).insertionSort fun a b =>
      a.reportDay < b.reportDay ∨ a.reportDay = b.reportDay ∧ a.reportType ≤ b.reportType

/-- `verify_archive_counts`. -/
def verifyArchiveCounts (cfg : SyncConfig) (a : CutoverAttempt) (s : SyncState) :
    Except CutoverError (List CountMismatch) :=
  if cfg.freezeWrites then .error .frozen
  else if !a.selected then .error .manifests
  else .ok ((selectManifests cfg s.db).filterMap
    (env.countMismatch cfg fun key => s.read (a.read key) key))

/-- `decommission`. The tables that it returns are gone. -/
def decommission (cfg : SyncConfig) (confirm includeSharedTables : Bool) (a : CutoverAttempt)
    (s : SyncState) : Except CutoverError (List String) :=
  if !confirm then .error .notConfirmed
  else if cfg.freezeWrites then .error .frozen
  else match env.verifyArchiveCounts cfg a s with
    | .error e => .error e
    | .ok (m :: mismatches) => .error (.mismatches (m :: mismatches).length)
    | .ok [] =>
      let tables :=
        if includeSharedTables then copilotDayTables ++ sharedTables else copilotDayTables
      if a.committed then .ok tables else .error .transaction

/-! ## Runs -/

/-- What happens to a database and its archive before the cutover, for whatever tenant and
organization. -/
inductive CutoverAction where
  | syncDay (cfg : SyncConfig) (day : String) (a : DayAttempt)
  | syncSeats (cfg : SyncConfig) (snapshotDay : String) (a : DayAttempt)
  | replay (cfg : SyncConfig) (run : ReplayRun)
  | overwrite (key : String) (bytes : Bytes)

def cutoverStep (s : SyncState) : CutoverAction → SyncState
  | .syncDay cfg day a => (env.syncDay cfg day a s).2
  | .syncSeats cfg snapshotDay a => (env.syncSeats cfg snapshotDay a s).2
  | .replay cfg run => (env.runReplay cfg run s).2
  | .overwrite key bytes => s.write key bytes

/-- The state after a sequence of actions. -/
def cutoverRun (actions : List CutoverAction) : SyncState :=
  actions.foldl env.cutoverStep SyncState.empty

end CopilotEnv

end Governance
