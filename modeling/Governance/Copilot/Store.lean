import Governance.Copilot.Report

/-!
# The Copilot tables

`governance-copilot/src/store.rs` and `replay.rs` on the tables of the migration
`copilot_usage_models` and `ingest_manifests`: each writer inserts one row after the other with
`ON CONFLICT` on the natural key, and derives the primary key by joining some of the columns
with colons. `started_at` and `completed_at` of a manifest are left out: nothing reads them.
-/

namespace Governance

open ByteLines

/-! ## Rows -/

/-- A row of `copilot_org_dailys`. -/
structure OrgDailyRow where
  id : String
  tenantId : String
  organizationId : String
  reportDay : ℤ
  activeUsers : ℤ
  engagedUsers : ℤ
  totalInteractions : ℤ
  codeGenerations : ℤ
  codeAcceptances : ℤ
  locSuggested : ℤ
  locAdded : ℤ
  locDeleted : ℤ
  aiCredits : ℤ
  netCostMicroUsd : ℤ
  deriving DecidableEq

/-- A row of `copilot_user_dailys`. -/
structure UserDailyRow where
  id : String
  tenantId : String
  organizationId : String
  reportDay : ℤ
  providerUserId : String
  userLogin : String
  totalInteractions : ℤ
  codeGenerations : ℤ
  codeAcceptances : ℤ
  aiCredits : ℤ
  netCostMicroUsd : ℤ
  deriving DecidableEq

/-- A row of `copilot_repo_dailys`. -/
structure RepoDailyRow where
  id : String
  tenantId : String
  organizationId : String
  reportDay : ℤ
  repositoryId : String
  codingAgentActivity : ℤ
  codeReviewActivity : ℤ
  pullRequestActivity : ℤ
  deriving DecidableEq

/-- A row of `copilot_user_teams`. -/
structure UserTeamsRow where
  id : String
  tenantId : String
  organizationId : String
  reportDay : ℤ
  userId : String
  teamId : String
  teamSlug : String
  deriving DecidableEq

/-- A row of `copilot_seat_snapshots`. -/
structure SeatSnapshotRow where
  id : String
  tenantId : String
  organizationId : String
  snapshotDay : ℤ
  providerUserId : String
  userLogin : String
  seatAssignedAt : Option ℤ
  lastActivityAt : Option ℤ
  lastActivityEditor : Option String
  seatState : String
  deriving DecidableEq

/-- A row of `ingest_manifests`. -/
structure ManifestRow where
  id : String
  tenantId : String
  provider : String
  scopeId : String
  reportDay : ℤ
  reportType : String
  status : String
  recordCount : ℤ
  schemaVersion : ℤ
  deriving DecidableEq

/-! ## Natural keys -/

/-- The columns on which a report is counted: tenant, organization and day. -/
structure DayKey where
  tenantId : String
  organizationId : String
  day : ℤ
  deriving DecidableEq

/-- `ingest_manifests_natural_key`. -/
structure ManifestKey where
  tenantId : String
  provider : String
  scopeId : String
  reportDay : ℤ
  reportType : String
  deriving DecidableEq

/-- `copilot_org_dailys_natural_key` and the primary key. -/
def OrgDailyRow.index : TableIndex OrgDailyRow DayKey String where
  key r := ⟨r.tenantId, r.organizationId, r.reportDay⟩
  id := OrgDailyRow.id

/-- `copilot_user_dailys_natural_key` and the primary key. -/
def UserDailyRow.index : TableIndex UserDailyRow (DayKey × String) String where
  key r := (⟨r.tenantId, r.organizationId, r.reportDay⟩, r.providerUserId)
  id := UserDailyRow.id

/-- `copilot_repo_dailys_natural_key` and the primary key. -/
def RepoDailyRow.index : TableIndex RepoDailyRow (DayKey × String) String where
  key r := (⟨r.tenantId, r.organizationId, r.reportDay⟩, r.repositoryId)
  id := RepoDailyRow.id

/-- `copilot_user_teams_natural_key` and the primary key. -/
def UserTeamsRow.index : TableIndex UserTeamsRow (DayKey × String × String) String where
  key r := (⟨r.tenantId, r.organizationId, r.reportDay⟩, r.userId, r.teamId)
  id := UserTeamsRow.id

/-- `copilot_seat_snapshots_natural_key` and the primary key. -/
def SeatSnapshotRow.index : TableIndex SeatSnapshotRow (DayKey × String) String where
  key r := (⟨r.tenantId, r.organizationId, r.snapshotDay⟩, r.providerUserId)
  id := SeatSnapshotRow.id

/-- `ingest_manifests_natural_key` and the primary key. -/
def ManifestRow.index : TableIndex ManifestRow ManifestKey String where
  key r := ⟨r.tenantId, r.provider, r.scopeId, r.reportDay, r.reportType⟩
  id := ManifestRow.id

/-! ## Conflict clauses -/

/-- The columns that each conflict clause takes over: every column outside the two keys. -/
def OrgDailyRow.refresh : Refresh OrgDailyRow.index (ℤ × ℤ × ℤ × ℤ × ℤ × ℤ × ℤ × ℤ × ℤ × ℤ) where
  cols r := (r.activeUsers, r.engagedUsers, r.totalInteractions, r.codeGenerations,
    r.codeAcceptances, r.locSuggested, r.locAdded, r.locDeleted, r.aiCredits, r.netCostMicroUsd)
  set c r :=
    { r with
      activeUsers := c.1
      engagedUsers := c.2.1
      totalInteractions := c.2.2.1
      codeGenerations := c.2.2.2.1
      codeAcceptances := c.2.2.2.2.1
      locSuggested := c.2.2.2.2.2.1
      locAdded := c.2.2.2.2.2.2.1
      locDeleted := c.2.2.2.2.2.2.2.1
      aiCredits := c.2.2.2.2.2.2.2.2.1
      netCostMicroUsd := c.2.2.2.2.2.2.2.2.2 }
  cols_set _ _ := rfl
  set_cols _ := rfl
  set_set _ _ _ := rfl
  key_set _ _ := rfl
  id_set _ _ := rfl

def UserDailyRow.refresh : Refresh UserDailyRow.index (String × ℤ × ℤ × ℤ × ℤ × ℤ) where
  cols r := (r.userLogin, r.totalInteractions, r.codeGenerations, r.codeAcceptances, r.aiCredits,
    r.netCostMicroUsd)
  set c r :=
    { r with
      userLogin := c.1
      totalInteractions := c.2.1
      codeGenerations := c.2.2.1
      codeAcceptances := c.2.2.2.1
      aiCredits := c.2.2.2.2.1
      netCostMicroUsd := c.2.2.2.2.2 }
  cols_set _ _ := rfl
  set_cols _ := rfl
  set_set _ _ _ := rfl
  key_set _ _ := rfl
  id_set _ _ := rfl

def RepoDailyRow.refresh : Refresh RepoDailyRow.index (ℤ × ℤ × ℤ) where
  cols r := (r.codingAgentActivity, r.codeReviewActivity, r.pullRequestActivity)
  set c r :=
    { r with
      codingAgentActivity := c.1
      codeReviewActivity := c.2.1
      pullRequestActivity := c.2.2 }
  cols_set _ _ := rfl
  set_cols _ := rfl
  set_set _ _ _ := rfl
  key_set _ _ := rfl
  id_set _ _ := rfl

def UserTeamsRow.refresh : Refresh UserTeamsRow.index String where
  cols := UserTeamsRow.teamSlug
  set c r := { r with teamSlug := c }
  cols_set _ _ := rfl
  set_cols _ := rfl
  set_set _ _ _ := rfl
  key_set _ _ := rfl
  id_set _ _ := rfl

def SeatSnapshotRow.refresh :
    Refresh SeatSnapshotRow.index (String × Option ℤ × Option ℤ × Option String × String) where
  cols r := (r.userLogin, r.seatAssignedAt, r.lastActivityAt, r.lastActivityEditor, r.seatState)
  set c r :=
    { r with
      userLogin := c.1
      seatAssignedAt := c.2.1
      lastActivityAt := c.2.2.1
      lastActivityEditor := c.2.2.2.1
      seatState := c.2.2.2.2 }
  cols_set _ _ := rfl
  set_cols _ := rfl
  set_set _ _ _ := rfl
  key_set _ _ := rfl
  id_set _ _ := rfl

def ManifestRow.refresh : Refresh ManifestRow.index (String × ℤ × ℤ) where
  cols r := (r.status, r.recordCount, r.schemaVersion)
  set c r := { r with status := c.1, recordCount := c.2.1, schemaVersion := c.2.2 }
  cols_set _ _ := rfl
  set_cols _ := rfl
  set_set _ _ _ := rfl
  key_set _ _ := rfl
  id_set _ _ := rfl

/-- The tables of the connector. -/
structure CopilotDb where
  orgDailys : Table OrgDailyRow.index
  userDailys : Table UserDailyRow.index
  repoDailys : Table RepoDailyRow.index
  userTeams : Table UserTeamsRow.index
  seatSnapshots : Table SeatSnapshotRow.index
  manifests : Table ManifestRow.index

/-- The database before the first report. -/
def CopilotDb.empty : CopilotDb :=
  ⟨Table.empty, Table.empty, Table.empty, Table.empty, Table.empty, Table.empty⟩

/-! ## Writers -/

/-- `row_id`. -/
def rowId (kind tenant scope day : String) : String :=
  kind ++ ":" ++ tenant ++ ":" ++ scope ++ ":" ++ day

/-- The loop of a writer: every row is bound, its day cast, and upserted; the transaction of a
writer that fails is rolled back. -/
def storeRows {ρ κ γ σ : Type} [DecidableEq κ] {ix : TableIndex ρ κ String} (R : Refresh ix γ)
    (bindRow : σ → Option ρ) : List σ → Table ix → Except StorageError (Table ix)
  | [], t => .ok t
  | r :: rows, t =>
    match bindRow r with
    | none => .error .decode
    | some row =>
      match t.upsert R row with
      | none => .error .uniqueViolation
      | some t' => storeRows R bindRow rows t'

/-- `SCHEMA_VERSION`. -/
def schemaVersion : ℤ := 1

/-- `SEATS_REPORT_TYPE`. -/
def seatsReportType : String := "billing-seats"

namespace CopilotEnv

variable (env : CopilotEnv)

/-- The bindings of each writer; a day that is no date fails its `CAST`. -/
def orgDailyRow (tenantId : String) (r : OrgDaily) : Option OrgDailyRow :=
  (env.castDate r.reportDay).map fun day =>
    { id := rowId "org" tenantId r.organizationId r.reportDay
      tenantId := tenantId
      organizationId := r.organizationId
      reportDay := day
      activeUsers := asI64 r.activeUsers
      engagedUsers := asI64 r.engagedUsers
      totalInteractions := asI64 r.totalInteractions
      codeGenerations := 0
      codeAcceptances := 0
      locSuggested := 0
      locAdded := 0
      locDeleted := 0
      aiCredits := asI64 r.aiCredits
      netCostMicroUsd := r.netCostMicroUsd }

def userDailyRow (tenantId organizationId : String) (r : UserDaily) : Option UserDailyRow :=
  (env.castDate r.reportDay).map fun day =>
    { id := rowId "user" tenantId r.providerUserId r.reportDay
      tenantId := tenantId
      organizationId := organizationId
      reportDay := day
      providerUserId := r.providerUserId
      userLogin := r.userLogin
      totalInteractions := asI64 r.totalInteractions
      codeGenerations := asI64 r.totalCompletions
      codeAcceptances := 0
      aiCredits := asI64 r.aiCredits
      netCostMicroUsd := r.netCostMicroUsd }

def repoDailyRow (tenantId organizationId : String) (r : RepoDaily) : Option RepoDailyRow :=
  (env.castDate r.reportDay).map fun day =>
    { id := rowId "repo" tenantId r.repositoryId r.reportDay
      tenantId := tenantId
      organizationId := organizationId
      reportDay := day
      repositoryId := r.repositoryId
      codingAgentActivity := asI64 r.codingAgentActivity
      codeReviewActivity := asI64 r.codeReviewActivity
      pullRequestActivity := asI64 r.pullRequestActivity }

def userTeamsRow (tenantId organizationId : String) (r : UserTeam) : Option UserTeamsRow :=
  (env.castDate r.reportDay).map fun day =>
    { id := rowId "team" tenantId r.userId r.reportDay
      tenantId := tenantId
      organizationId := organizationId
      reportDay := day
      userId := r.userId
      teamId := r.teamId
      teamSlug := r.teamSlug }

def seatSnapshotRow (tenantId organizationId : String) (r : SeatSnapshot) :
    Option SeatSnapshotRow :=
  (env.castDate r.snapshotDay).map fun day =>
    { id := rowId "seat" tenantId r.providerUserId r.snapshotDay
      tenantId := tenantId
      organizationId := organizationId
      snapshotDay := day
      providerUserId := r.providerUserId
      userLogin := r.userLogin
      seatAssignedAt := r.seatAssignedAt
      lastActivityAt := r.lastActivityAt
      lastActivityEditor := r.lastActivityEditor
      seatState := r.seatState }

/-- The arguments of `upsert_manifest`. -/
structure Manifest where
  tenantId : String
  provider : String
  scopeId : String
  reportType : String
  day : String
  status : String
  recordCount : ℕ

/-- The bindings of `upsert_manifest`. The length of a vector fits `i64`. -/
def manifestRow (m : Manifest) : Option ManifestRow :=
  (env.castDate m.day).map fun day =>
    { id := "manifest:" ++ m.tenantId ++ ":" ++ m.scopeId ++ ":" ++ m.reportType ++ ":" ++ m.day
      tenantId := m.tenantId
      provider := m.provider
      scopeId := m.scopeId
      reportDay := day
      reportType := m.reportType
      status := m.status
      recordCount := m.recordCount
      schemaVersion := schemaVersion }

/-- A call of one of the six writers. -/
inductive StoreCall where
  | upsertOrgDaily (tenantId : String) (rows : List OrgDaily)
  | upsertUserDaily (tenantId organizationId : String) (rows : List UserDaily)
  | upsertRepoDaily (tenantId organizationId : String) (rows : List RepoDaily)
  | upsertUserTeam (tenantId organizationId : String) (rows : List UserTeam)
  | upsertSeatSnapshot (tenantId organizationId : String) (rows : List SeatSnapshot)
  | upsertManifest (manifest : Manifest)

/-- The number of rows that a call writes. -/
def StoreCall.count : StoreCall → ℕ
  | .upsertOrgDaily _ rows => rows.length
  | .upsertUserDaily _ _ rows => rows.length
  | .upsertRepoDaily _ _ rows => rows.length
  | .upsertUserTeam _ _ rows => rows.length
  | .upsertSeatSnapshot _ _ rows => rows.length
  | .upsertManifest _ => 1

/-- `upsert_org_daily`, `upsert_user_daily`, `upsert_repo_daily`, `upsert_user_team`,
`upsert_seat_snapshot` and `upsert_manifest`. -/
def store (db : CopilotDb) : StoreCall → Except StorageError CopilotDb
  | .upsertOrgDaily tenantId rows =>
    (storeRows OrgDailyRow.refresh (env.orgDailyRow tenantId) rows db.orgDailys).map
      fun t => { db with orgDailys := t }
  | .upsertUserDaily tenantId organizationId rows =>
    (storeRows UserDailyRow.refresh (env.userDailyRow tenantId organizationId) rows
      db.userDailys).map fun t => { db with userDailys := t }
  | .upsertRepoDaily tenantId organizationId rows =>
    (storeRows RepoDailyRow.refresh (env.repoDailyRow tenantId organizationId) rows
      db.repoDailys).map fun t => { db with repoDailys := t }
  | .upsertUserTeam tenantId organizationId rows =>
    (storeRows UserTeamsRow.refresh (env.userTeamsRow tenantId organizationId) rows
      db.userTeams).map fun t => { db with userTeams := t }
  | .upsertSeatSnapshot tenantId organizationId rows =>
    (storeRows SeatSnapshotRow.refresh (env.seatSnapshotRow tenantId organizationId) rows
      db.seatSnapshots).map fun t => { db with seatSnapshots := t }
  | .upsertManifest m =>
    (storeRows ManifestRow.refresh env.manifestRow [m] db.manifests).map
      fun t => { db with manifests := t }

/-- A writer as its caller sees it: the outcome, and the tables after commit or rollback. -/
def perform (db : CopilotDb) (call : StoreCall) : Except StorageError ℕ × CopilotDb :=
  match env.store db call with
  | .ok db' => (.ok call.count, db')
  | .error e => (.error e, db)

/-- The tables after a sequence of calls. -/
def stores (db : CopilotDb) (calls : List StoreCall) : CopilotDb :=
  calls.foldl (fun db call => (env.perform db call).2) db

end CopilotEnv

end Governance
