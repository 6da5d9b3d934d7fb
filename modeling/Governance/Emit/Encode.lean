import Governance.Copilot.Store
import Governance.Lib.Outcome

/-!
# The day-grain encoding

`governance-ctl/src/emit/encode.rs` with its report families, and `emit/helpers.rs`: a normalized
row becomes a log record with typed attributes, and the records of one emit are checked for
natural keys that collide. What `anyhow` carries is its message; the RFC 3339 text of a timestamp
is a parameter.
-/

namespace Governance

namespace Emit

/-- `AttributeValue`. -/
inductive AttributeValue where
  | str (s : String)
  | int (i : ℤ)
  deriving DecidableEq

/-- `LogRecordData`. -/
structure LogRecordData where
  body : String
  attributes : List (String × AttributeValue)
  deriving DecidableEq

/-- `SOURCE`. -/
def source : String := "github-copilot"

/-- `checked_i64`. -/
def checkedI64 (v : ℕ) : Except String ℤ :=
  if v ≤ i64Max then .ok v
  else .error s!"count {v} exceeds i64 range; refusing to emit a wrapped value"

/-- `common`. -/
def common (tenantId org report day subjectKind subjectId : String) :
    List (String × AttributeValue) :=
  [("source", .str source), ("tenant_id", .str tenantId), ("org", .str org),
    ("report", .str report), ("day", .str day), ("subject_kind", .str subjectKind),
    ("subject_id", .str subjectId)]

/-- `encode_org_daily`. -/
def encodeOrgDaily (tenantId org : String) (row : OrgDaily) (orgAiCredits : ℕ)
    (orgNetCostMicroUsd : ℤ) : Except String LogRecordData := do
  let activeUsers ← checkedI64 row.activeUsers
  let engagedUsers ← checkedI64 row.engagedUsers
  let totalInteractions ← checkedI64 row.totalInteractions
  let totalCompletions ← checkedI64 row.totalCompletions
  let aiCredits ← checkedI64 orgAiCredits
  return {
    body := s!"org {row.organizationId} {row.reportDay}: {row.activeUsers} active, " ++
      s!"{row.engagedUsers} engaged, {row.totalInteractions} interactions"
    attributes := common tenantId org "organization-1-day" row.reportDay "org" row.organizationId ++
      [("active_users", .int activeUsers), ("engaged_users", .int engagedUsers),
        ("total_interactions", .int totalInteractions),
        ("total_completions", .int totalCompletions), ("ai_credits", .int aiCredits),
        ("net_cost_micro_usd", .int orgNetCostMicroUsd)] }

/-- `encode_user_daily`. -/
def encodeUserDaily (tenantId org : String) (row : UserDaily) : Except String LogRecordData := do
  let totalInteractions ← checkedI64 row.totalInteractions
  let totalCompletions ← checkedI64 row.totalCompletions
  let aiCredits ← checkedI64 row.aiCredits
  return {
    body := s!"user {row.providerUserId} {row.reportDay}: {row.totalInteractions} " ++
      s!"interactions, {row.totalCompletions} completions"
    attributes := common tenantId org "users-1-day" row.reportDay "user" row.providerUserId ++
      [("user_login", .str row.userLogin), ("total_interactions", .int totalInteractions),
        ("total_completions", .int totalCompletions), ("ai_credits", .int aiCredits),
        ("net_cost_micro_usd", .int row.netCostMicroUsd)] }

/-- `encode_repo_daily`. -/
def encodeRepoDaily (tenantId org : String) (row : RepoDaily) : Except String LogRecordData := do
  let codingAgentActivity ← checkedI64 row.codingAgentActivity
  let codeReviewActivity ← checkedI64 row.codeReviewActivity
  let pullRequestActivity ← checkedI64 row.pullRequestActivity
  return {
    body := s!"repo {row.repositoryId} {row.reportDay}: {row.codingAgentActivity} coding, " ++
      s!"{row.codeReviewActivity} review, {row.pullRequestActivity} pr"
    attributes := common tenantId org "repos-1-day" row.reportDay "repo" row.repositoryId ++
      [("coding_agent_activity", .int codingAgentActivity),
        ("code_review_activity", .int codeReviewActivity),
        ("pull_request_activity", .int pullRequestActivity)] }

/-- `encode_user_team`. -/
def encodeUserTeam (tenantId org : String) (row : UserTeam) : LogRecordData where
  body := s!"user {row.userId} -> team {row.teamId} ({row.teamSlug}) {row.reportDay}"
  attributes := common tenantId org "user-teams-1-day" row.reportDay "user_team" row.userId ++
    [("team_id", .str row.teamId), ("team_slug", .str row.teamSlug)]

/-- `encode_seat`: the subject is the organization, and the holder has an attribute of its own. -/
def encodeSeat (rfc3339 : ℤ → String) (tenantId org : String) (row : SeatSnapshot) :
    LogRecordData where
  body := s!"seat {row.providerUserId} ({row.userLogin}) {row.seatState} {row.snapshotDay}"
  attributes := common tenantId org "billing-seats" row.snapshotDay "org" org ++
    [("provider_user_id", .str row.providerUserId), ("user_login", .str row.userLogin)] ++
    (row.seatAssignedAt.toList.map fun t => ("seat_assigned_at", .str (rfc3339 t))) ++
    (row.lastActivityAt.toList.map fun t => ("last_activity_at", .str (rfc3339 t))) ++
    (row.lastActivityEditor.toList.map fun e => ("last_activity_editor", .str e)) ++
    [("seat_state", .str row.seatState)]

/-! ## One emit -/

/-- `ParsedRows`. -/
inductive ParsedRows where
  | org (rows : List OrgDaily)
  | user (rows : List UserDaily)
  | repo (rows : List RepoDaily)
  | userTeam (rows : List UserTeam)
  | seat (rows : List SeatSnapshot)

/-- `encode_report`. -/
def encodeReport (rfc3339 : ℤ → String) (tenantId org : String) (parsed : ParsedRows)
    (orgCredits : ℕ) (orgCost : ℤ) : Except String (String × List LogRecordData) :=
  match parsed with
  | .org rs => do
    let records ← rs.mapM fun r => encodeOrgDaily tenantId org r orgCredits orgCost
    return ("organization-1-day", records)
  | .user rs => do
    let records ← rs.mapM (encodeUserDaily tenantId org)
    return ("users-1-day", records)
  | .repo rs => do
    let records ← rs.mapM (encodeRepoDaily tenantId org)
    return ("repos-1-day", records)
  | .userTeam rs => .ok ("user-teams-1-day", rs.map (encodeUserTeam tenantId org))
  | .seat rs => .ok ("billing-seats", rs.map (encodeSeat rfc3339 tenantId org))

/-- The user rows among some reports. -/
def userRows (rows : List ParsedRows) : List UserDaily :=
  rows.flatMap fun
    | .user rs => rs
    | _ => []

/-- `aggregate_org_cost`. -/
def aggregateOrgCost (rows : List ParsedRows) : ℕ × ℤ :=
  (userRows rows).foldl (fun total r =>
    (u64SaturatingAdd total.1 r.aiCredits, i64SaturatingAdd total.2 r.netCostMicroUsd)) (0, 0)

/-- `attr_str`. -/
def attrStr (attributes : List (String × AttributeValue)) (key : String) : Option String :=
  match attributes.find? fun a => a.1 = key with
  | some (_, .str s) => some s
  | _ => none

/-- The key on which `detect_collisions` counts a record. -/
def collisionKey (record : LogRecordData) : String × String × String :=
  let report := (attrStr record.attributes "report").getD ""
  let day := (attrStr record.attributes "day").getD ""
  let subject :=
    if report = "billing-seats" then (attrStr record.attributes "provider_user_id").getD ""
    else (attrStr record.attributes "subject_id").getD ""
  (report, day, subject)

/-- `detect_collisions`; the order of the keys in the message is that of a hash map. -/
def detectCollisions (records : List LogRecordData) (strict : Bool) : Except String Unit :=
  let seen := records.map collisionKey
  let dupes := (seen.dedup.filter fun k => 1 < seen.count k).map fun k =>
    k.1 ++ "/" ++ k.2.1 ++ "/" ++ k.2.2 ++ " x" ++ toString (seen.count k)
  if dupes = [] then .ok ()
  else if strict then
    .error (toString dupes.length ++ " natural-key collision(s) in one emit batch: " ++
      ", ".intercalate dupes ++ "; refusing to emit colliding records under the cutover freeze " ++
      "(RFC-0001 known-issues #1/#5 -- do not cut over until resolved)")
  else .ok ()

/-- The loop of `emit_rows` over the reports: the records, and their number by report. -/
def encodeReports (rfc3339 : ℤ → String) (tenantId org : String) (orgCredits : ℕ) (orgCost : ℤ) :
    List ParsedRows → Except String (List LogRecordData × List (String × ℕ))
  | [] => .ok ([], [])
  | .userTeam _ :: rows => encodeReports rfc3339 tenantId org orgCredits orgCost rows
  | parsed :: rows => do
    let (report, recs) ← encodeReport rfc3339 tenantId org parsed orgCredits orgCost
    let (records, perReport) ← encodeReports rfc3339 tenantId org orgCredits orgCost rows
    return (recs ++ records, (report, recs.length) :: perReport)

/-- The preparation of `emit_rows`: the records that are then handed to the logger. -/
def prepare (rfc3339 : ℤ → String) (tenantId org : String) (rows : List ParsedRows)
    (strict : Bool) : Except String (List LogRecordData × List (String × ℕ)) := do
  let (orgCredits, orgCost) := aggregateOrgCost rows
  let (records, perReport) ← encodeReports rfc3339 tenantId org orgCredits orgCost rows
  detectCollisions records strict
  return (records, perReport)

/-! ## Reading a record back -/

/-- The integer of an attribute. -/
def attrInt (attributes : List (String × AttributeValue)) (key : String) : Option ℤ :=
  match attributes.find? fun a => a.1 = key with
  | some (_, .int i) => some i
  | _ => none

theorem checkedI64_of_lt {v : ℕ} (h : v < 2 ^ 63) : checkedI64 v = .ok v := by
  have hle : (v : ℤ) ≤ i64Max := by
    unfold i64Max
    omega
  rw [checkedI64, if_pos hle]

theorem checkedI64_eq_ok {v : ℕ} {i : ℤ} (h : checkedI64 v = .ok i) : v < 2 ^ 63 ∧ i = v := by
  unfold checkedI64 i64Max at h
  split at h
  · next hle => exact ⟨by omega, (Except.ok.inj h).symm⟩
  · cases h

section Encoders

variable {tenantId org : String} {record : LogRecordData}

/-- Where each encoder succeeds its record carries the counts as they are. -/
theorem encodeUserDaily_eq_ok {row : UserDaily} (h : encodeUserDaily tenantId org row = .ok record) :
    (row.totalInteractions < 2 ^ 63 ∧ row.totalCompletions < 2 ^ 63 ∧ row.aiCredits < 2 ^ 63) ∧
      record.attributes =
        common tenantId org "users-1-day" row.reportDay "user" row.providerUserId ++
          ([("user_login", .str row.userLogin), ("total_interactions", .int row.totalInteractions),
            ("total_completions", .int row.totalCompletions), ("ai_credits", .int row.aiCredits),
            ("net_cost_micro_usd", .int row.netCostMicroUsd)] : List (String × AttributeValue)) := by
  unfold encodeUserDaily at h
  obtain ⟨_, hinteractions, h⟩ := Except.ok_of_bind h
  obtain ⟨_, hcompletions, h⟩ := Except.ok_of_bind h
  obtain ⟨_, hcredits, h⟩ := Except.ok_of_bind h
  obtain ⟨hi, rfl⟩ := checkedI64_eq_ok hinteractions
  obtain ⟨hc, rfl⟩ := checkedI64_eq_ok hcompletions
  obtain ⟨ha, rfl⟩ := checkedI64_eq_ok hcredits
  obtain rfl := Except.ok.inj h
  exact ⟨⟨hi, hc, ha⟩, rfl⟩

theorem encodeUserDaily_isOk {row : UserDaily} (hinteractions : row.totalInteractions < 2 ^ 63)
    (hcompletions : row.totalCompletions < 2 ^ 63) (hcredits : row.aiCredits < 2 ^ 63) :
    ∃ record, encodeUserDaily tenantId org row = .ok record := by
  rw [encodeUserDaily, checkedI64_of_lt hinteractions, checkedI64_of_lt hcompletions,
    checkedI64_of_lt hcredits]
  exact ⟨_, rfl⟩

theorem encodeRepoDaily_eq_ok {row : RepoDaily} (h : encodeRepoDaily tenantId org row = .ok record) :
    (row.codingAgentActivity < 2 ^ 63 ∧ row.codeReviewActivity < 2 ^ 63 ∧
        row.pullRequestActivity < 2 ^ 63) ∧
      record.attributes =
        common tenantId org "repos-1-day" row.reportDay "repo" row.repositoryId ++
          ([("coding_agent_activity", .int row.codingAgentActivity),
            ("code_review_activity", .int row.codeReviewActivity),
            ("pull_request_activity", .int row.pullRequestActivity)] : List (String × AttributeValue)) := by
  unfold encodeRepoDaily at h
  obtain ⟨_, hcoding, h⟩ := Except.ok_of_bind h
  obtain ⟨_, hreview, h⟩ := Except.ok_of_bind h
  obtain ⟨_, hpull, h⟩ := Except.ok_of_bind h
  obtain ⟨hc, rfl⟩ := checkedI64_eq_ok hcoding
  obtain ⟨hr, rfl⟩ := checkedI64_eq_ok hreview
  obtain ⟨hp, rfl⟩ := checkedI64_eq_ok hpull
  obtain rfl := Except.ok.inj h
  exact ⟨⟨hc, hr, hp⟩, rfl⟩

theorem encodeRepoDaily_isOk {row : RepoDaily} (hcoding : row.codingAgentActivity < 2 ^ 63)
    (hreview : row.codeReviewActivity < 2 ^ 63) (hpull : row.pullRequestActivity < 2 ^ 63) :
    ∃ record, encodeRepoDaily tenantId org row = .ok record := by
  rw [encodeRepoDaily, checkedI64_of_lt hcoding, checkedI64_of_lt hreview, checkedI64_of_lt hpull]
  exact ⟨_, rfl⟩

theorem encodeOrgDaily_eq_ok {row : OrgDaily} {orgAiCredits : ℕ} {orgNetCostMicroUsd : ℤ}
    (h : encodeOrgDaily tenantId org row orgAiCredits orgNetCostMicroUsd = .ok record) :
    record.attributes =
      common tenantId org "organization-1-day" row.reportDay "org" row.organizationId ++
        ([("active_users", .int row.activeUsers), ("engaged_users", .int row.engagedUsers),
          ("total_interactions", .int row.totalInteractions),
          ("total_completions", .int row.totalCompletions), ("ai_credits", .int orgAiCredits),
          ("net_cost_micro_usd", .int orgNetCostMicroUsd)] : List (String × AttributeValue)) := by
  unfold encodeOrgDaily at h
  obtain ⟨_, hactive, h⟩ := Except.ok_of_bind h
  obtain ⟨_, hengaged, h⟩ := Except.ok_of_bind h
  obtain ⟨_, hinteractions, h⟩ := Except.ok_of_bind h
  obtain ⟨_, hcompletions, h⟩ := Except.ok_of_bind h
  obtain ⟨_, hcredits, h⟩ := Except.ok_of_bind h
  obtain ⟨-, rfl⟩ := checkedI64_eq_ok hactive
  obtain ⟨-, rfl⟩ := checkedI64_eq_ok hengaged
  obtain ⟨-, rfl⟩ := checkedI64_eq_ok hinteractions
  obtain ⟨-, rfl⟩ := checkedI64_eq_ok hcompletions
  obtain ⟨-, rfl⟩ := checkedI64_eq_ok hcredits
  obtain rfl := Except.ok.inj h
  rfl

end Encoders

end Emit

end Governance
