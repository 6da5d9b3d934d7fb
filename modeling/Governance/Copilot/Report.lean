import Governance.Lib.ByteLines
import Governance.Core.Schema

/-!
# Copilot reports

`governance-copilot/src/model.rs` and `parse/mod.rs`: the rows of the report payloads and the
normalized rows they become. What belongs to other libraries is the record `CopilotEnv`: the
JSON reader of each payload row, the floating-point conversion of credits, and the date texts
of PostgreSQL and of `chrono`.
-/

namespace Governance

open ByteLines

/-- `CopilotError`, as far as parsing and persistence return it. -/
inductive CopilotError where
  | github (kind : String) (status : ℕ) (detail : String)
  | parse (report day : String)
  | storage (error : StorageError)
  deriving DecidableEq

/-! ## Payload rows -/

/-- `OrgReportRow`; the flattened rest of the row is not read. -/
structure OrgReportRow where
  day : String
  organizationId : Option String
  totalActiveUsers : Option ℕ
  totalEngagedUsers : Option ℕ
  totalCompletions : Option ℕ
  totalChatEngagements : Option ℕ

/-- `UserReportRow`, with the credits as the bits of their `f64`. -/
structure UserReportRow where
  userId : Option String
  userLogin : Option String
  day : String
  totalEngagements : Option ℕ
  totalCompletions : Option ℕ
  aiCredits : Option UInt64

/-- `RepoReportRow`. -/
structure RepoReportRow where
  repoId : Option String
  repoName : Option String
  day : String
  codingAgentActivity : Option ℕ
  codeReviewActivity : Option ℕ
  pullRequestActivity : Option ℕ

/-- `UserTeamRow`. -/
structure UserTeamRow where
  userId : Option String
  userLogin : Option String
  teamId : Option String
  slug : Option String
  day : String

/-- `SeatAssignee`. -/
structure SeatAssignee where
  id : Option String
  login : Option String

/-- `SeatRow`. -/
structure SeatRow where
  createdAt : Option String
  lastActivityAt : Option String
  lastActivityEditor : Option String
  pendingCancellationDate : Option String
  assignee : Option SeatAssignee

/-- `SeatsPage`. -/
structure SeatsPage where
  seats : List SeatRow

/-! ## Normalized rows -/

/-- `OrgDaily`. -/
structure OrgDaily where
  organizationId : String
  reportDay : String
  activeUsers : ℕ
  engagedUsers : ℕ
  totalInteractions : ℕ
  totalCompletions : ℕ
  aiCredits : ℕ
  netCostMicroUsd : ℤ

/-- `UserDaily`. -/
structure UserDaily where
  providerUserId : String
  userLogin : String
  reportDay : String
  totalInteractions : ℕ
  totalCompletions : ℕ
  aiCredits : ℕ
  netCostMicroUsd : ℤ

/-- `UserTeam`. -/
structure UserTeam where
  userId : String
  teamId : String
  teamSlug : String
  reportDay : String

/-- `RepoDaily`. -/
structure RepoDaily where
  repositoryId : String
  reportDay : String
  codingAgentActivity : ℕ
  codeReviewActivity : ℕ
  pullRequestActivity : ℕ

/-- `SeatSnapshot`. -/
structure SeatSnapshot where
  providerUserId : String
  userLogin : String
  snapshotDay : String
  seatAssignedAt : Option ℤ
  lastActivityAt : Option ℤ
  lastActivityEditor : Option String
  seatState : String

/-! ## The environment -/

/-- What the connector takes from other libraries. A date that PostgreSQL read from a text is
printed by `chrono` as a text that PostgreSQL reads back. -/
structure CopilotEnv where
  orgRow : Bytes → Option OrgReportRow
  userRow : Bytes → Option UserReportRow
  repoRow : Bytes → Option RepoReportRow
  teamRow : Bytes → Option UserTeamRow
  seatPages : Bytes → Option (List SeatsPage)
  creditsToMicroUsd : UInt64 → ℤ
  parseFromRfc3339 : String → Option ℤ
  castDate : String → Option ℤ
  dateText : ℤ → String
  castDate_dateText : ∀ text day, castDate text = some day → castDate (dateText day) = some day

/-- `as i64` of a `u64`. -/
def asI64 (n : ℕ) : ℤ := Int.bmod n (2 ^ 64)

/-- `as u64` of an `i64`. -/
def asU64 (n : ℤ) : ℕ := (n % 2 ^ 64).toNat

/-- `CREDIT_MICRO_USD`. -/
def creditMicroUsd : ℤ := 10000

/-- An id that is there and not empty. -/
def presentId (id? : Option String) : Option String :=
  id?.filter fun id => !id.isEmpty

/-! ## Parsing -/

/-- The loop of the NDJSON parsers: a line that is no row is an error, and a row without an id
is skipped. -/
def parseLines {α β : Type} (decode : Bytes → Option α) (normalize : α → Option β)
    (report day : String) : List Bytes → Except CopilotError (List β)
  | [] => .ok []
  | line :: lines =>
    match decode line with
    | none => .error (.parse report day)
    | some row => do
      let out ← parseLines decode normalize report day lines
      return (normalize row).toList ++ out

/-- What the normalization of every line has, every parsed row has. -/
theorem forall_parseLines {α β : Type} {P : β → Prop} {decode : Bytes → Option α}
    {normalize : α → Option β} {report day : String} {lines : List Bytes} {rows : List β}
    (h : parseLines decode normalize report day lines = .ok rows)
    (hnormalize : ∀ row out, normalize row = some out → P out) : ∀ r ∈ rows, P r := by
  induction lines generalizing rows with
  | nil =>
    obtain rfl := Except.ok.inj h
    simp
  | cons line lines ih =>
    rw [parseLines] at h
    split at h
    · cases h
    · next row hrow =>
      cases hrest : parseLines decode normalize report day lines with
      | error e =>
        rw [hrest] at h
        cases h
      | ok out =>
        rw [hrest] at h
        obtain rfl := Except.ok.inj h
        intro r hr
        rcases List.mem_append.mp hr with hr | hr
        · exact hnormalize row r (Option.mem_toList.mp hr)
        · exact ih hrest r hr

/-- The non-empty lines of a payload. -/
def payloadLines (bytes : Bytes) : List Bytes := (segments bytes).filter fun l => !l.isEmpty

namespace CopilotEnv

variable (env : CopilotEnv)

def normalizeOrg (row : OrgReportRow) : Option OrgDaily :=
  (presentId row.organizationId).map fun organizationId =>
    { organizationId := organizationId
      reportDay := row.day
      activeUsers := row.totalActiveUsers.getD 0
      engagedUsers := row.totalEngagedUsers.getD 0
      totalInteractions :=
        u64SaturatingAdd (row.totalCompletions.getD 0) (row.totalChatEngagements.getD 0)
      totalCompletions := row.totalCompletions.getD 0
      aiCredits := 0
      netCostMicroUsd := 0 }

/-- `parse_org_daily`. -/
def parseOrgDaily (bytes : Bytes) (report day : String) : Except CopilotError (List OrgDaily) :=
  parseLines env.orgRow normalizeOrg report day (payloadLines bytes)

def normalizeUser (row : UserReportRow) : Option UserDaily :=
  (presentId row.userId).map fun userId =>
    let cost := env.creditsToMicroUsd (row.aiCredits.getD 0)
    { providerUserId := userId
      userLogin := row.userLogin.getD ""
      reportDay := row.day
      totalInteractions := row.totalEngagements.getD 0
      totalCompletions := row.totalCompletions.getD 0
      aiCredits := asU64 (cost.tdiv creditMicroUsd)
      netCostMicroUsd := cost }

/-- `parse_user_daily`. -/
def parseUserDaily (bytes : Bytes) (report day : String) : Except CopilotError (List UserDaily) :=
  parseLines env.userRow env.normalizeUser report day (payloadLines bytes)

def normalizeRepo (row : RepoReportRow) : Option RepoDaily :=
  ((presentId row.repoId).or (presentId row.repoName)).map fun repositoryId =>
    { repositoryId := repositoryId
      reportDay := row.day
      codingAgentActivity := row.codingAgentActivity.getD 0
      codeReviewActivity := row.codeReviewActivity.getD 0
      pullRequestActivity := row.pullRequestActivity.getD 0 }

/-- `parse_repo_daily`. -/
def parseRepoDaily (bytes : Bytes) (report day : String) : Except CopilotError (List RepoDaily) :=
  parseLines env.repoRow normalizeRepo report day (payloadLines bytes)

def normalizeTeam (row : UserTeamRow) : Option UserTeam :=
  (presentId row.userId).bind fun userId => (presentId row.teamId).map fun teamId =>
    { userId := userId
      teamId := teamId
      teamSlug := row.slug.getD ""
      reportDay := row.day }

/-- `parse_user_team`. -/
def parseUserTeam (bytes : Bytes) (report day : String) : Except CopilotError (List UserTeam) :=
  parseLines env.teamRow normalizeTeam report day (payloadLines bytes)

/-- `seat_state`. -/
def seatState (pendingCancellationDate : Option String) : String :=
  if pendingCancellationDate.isSome then "pending_cancellation" else "active"

/-- `parse_seat_timestamp`. -/
def parseSeatTimestamp (raw : Option String) : Option ℤ := raw.bind env.parseFromRfc3339

def normalizeSeat (snapshotDay : String) (seat : SeatRow) : Option SeatSnapshot :=
  seat.assignee.bind fun assignee => (presentId assignee.id).map fun providerUserId =>
    { providerUserId := providerUserId
      userLogin := assignee.login.getD ""
      snapshotDay := snapshotDay
      seatAssignedAt := env.parseSeatTimestamp seat.createdAt
      lastActivityAt := env.parseSeatTimestamp seat.lastActivityAt
      lastActivityEditor := seat.lastActivityEditor
      seatState := seatState seat.pendingCancellationDate }

/-- `parse_seats`. -/
def parseSeats (bytes : Bytes) (report snapshotDay : String) :
    Except CopilotError (List SeatSnapshot) :=
  match env.seatPages bytes with
  | none => .error (.parse report snapshotDay)
  | some pages =>
    .ok ((pages.flatMap SeatsPage.seats).filterMap (env.normalizeSeat snapshotDay))

end CopilotEnv

end Governance
