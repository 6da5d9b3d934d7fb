import Governance.Emit.Encode

/-!
# A strict emit

What the records of one emit hold of the rows they were made of, whether the collision guard
counts on the keys on which the receiver merges, and what the organization records add up to.
-/

namespace Governance

namespace Emit

/-- A parsed row of a report that is emitted. -/
inductive Row where
  | org (r : OrgDaily)
  | user (r : UserDaily)
  | repo (r : RepoDaily)
  | seat (r : SeatSnapshot)

/-- The rows of one report; user teams are not emitted. -/
def ParsedRows.rows : ParsedRows → List Row
  | .org rs => rs.map .org
  | .user rs => rs.map .user
  | .repo rs => rs.map .repo
  | .userTeam _ => []
  | .seat rs => rs.map .seat

/-- The record of one row. -/
def encodeRow (rfc3339 : ℤ → String) (tenantId org : String) (orgCredits : ℕ) (orgCost : ℤ) :
    Row → Except String LogRecordData
  | .org r => encodeOrgDaily tenantId org r orgCredits orgCost
  | .user r => encodeUserDaily tenantId org r
  | .repo r => encodeRepoDaily tenantId org r
  | .seat r => .ok (encodeSeat rfc3339 tenantId org r)

/-- The key on which the receiver merges: that of a day fact or that of a seat snapshot. -/
inductive ReceiverKey where
  | dayFact (day subjectKind subjectId : Option String)
  | seat (day subjectKind subjectId providerUserId : Option String)
  deriving DecidableEq

/-- The key under which the receiver stores a record. -/
def receiverKey (record : LogRecordData) : ReceiverKey :=
  let day := attrStr record.attributes "day"
  let subjectKind := attrStr record.attributes "subject_kind"
  let subjectId := attrStr record.attributes "subject_id"
  if attrStr record.attributes "report" = some "billing-seats" then
    .seat day subjectKind subjectId (attrStr record.attributes "provider_user_id")
  else .dayFact day subjectKind subjectId

/-- The costs that the records of one report carry. -/
def costsOf (report : String) (records : List LogRecordData) : List ℤ :=
  records.filterMap fun record =>
    if attrStr record.attributes "report" = some report then
      attrInt record.attributes "net_cost_micro_usd"
    else none

/-- The organization rows among some reports. -/
def orgRows (reports : List ParsedRows) : List OrgDaily :=
  reports.flatMap fun
    | .org rs => rs
    | _ => []

/-! ## Rows and records -/

variable {rfc3339 : ℤ → String} {tenantId org : String} {orgCredits : ℕ} {orgCost : ℤ}

/-- The report that a row belongs to. -/
def Row.report : Row → String
  | .org _ => "organization-1-day"
  | .user _ => "users-1-day"
  | .repo _ => "repos-1-day"
  | .seat _ => "billing-seats"

/-- The receiver's key of the record of a row. -/
def Row.receiverKey (org : String) : Row → ReceiverKey
  | .org r => .dayFact r.reportDay "org" r.organizationId
  | .user r => .dayFact r.reportDay "user" r.providerUserId
  | .repo r => .dayFact r.reportDay "repo" r.repositoryId
  | .seat r => .seat r.snapshotDay "org" org r.providerUserId

/-- The guard's key of the record of a row. -/
def Row.collisionKey (row : Row) : String × String × String :=
  match row with
  | .org r => (row.report, r.reportDay, r.organizationId)
  | .user r => (row.report, r.reportDay, r.providerUserId)
  | .repo r => (row.report, r.reportDay, r.repositoryId)
  | .seat r => (row.report, r.snapshotDay, r.providerUserId)

/-- The cost on the record of a row. -/
def Row.cost (orgCost : ℤ) : Row → Option ℤ
  | .org _ => some orgCost
  | .user r => some r.netCostMicroUsd
  | _ => none

/-- What the record of a row says of it. -/
structure Describes (org : String) (orgCost : ℤ) (row : Row) (record : LogRecordData) : Prop where
  report : attrStr record.attributes "report" = some row.report
  receiverKey : Emit.receiverKey record = row.receiverKey org
  collisionKey : Emit.collisionKey record = row.collisionKey
  cost : attrInt record.attributes "net_cost_micro_usd" = row.cost orgCost

theorem describes_of_encodeRow {row : Row} {record : LogRecordData}
    (h : encodeRow rfc3339 tenantId org orgCredits orgCost row = .ok record) :
    Describes org orgCost row record := by
  cases row with
  | org r =>
    have hattrs := encodeOrgDaily_eq_ok h
    constructor <;>
      simp [hattrs, common, attrStr, attrInt, receiverKey, collisionKey, Row.report,
        Row.receiverKey, Row.collisionKey, Row.cost]
  | user r =>
    have hattrs := (encodeUserDaily_eq_ok h).2
    constructor <;>
      simp [hattrs, common, attrStr, attrInt, receiverKey, collisionKey, Row.report,
        Row.receiverKey, Row.collisionKey, Row.cost]
  | repo r =>
    have hattrs := (encodeRepoDaily_eq_ok h).2
    constructor <;>
      simp [hattrs, common, attrStr, attrInt, receiverKey, collisionKey, Row.report,
        Row.receiverKey, Row.collisionKey, Row.cost]
  | seat r =>
    obtain rfl := Except.ok.inj h
    have hcost : (encodeSeat rfc3339 tenantId org r).attributes.find?
        (fun a => a.1 = "net_cost_micro_usd") = none := by
      rw [List.find?_eq_none]
      simp only [encodeSeat, common, List.forall_mem_append, List.forall_mem_cons,
        List.forall_mem_map]
      simp
    constructor
    · simp [encodeSeat, common, attrStr, Row.report]
    · simp [encodeSeat, common, attrStr, receiverKey, Row.receiverKey]
    · simp [encodeSeat, common, attrStr, collisionKey, Row.collisionKey, Row.report]
    · rw [attrInt, hcost]
      rfl

/-- The guard tells two rows apart exactly when the receiver does: a report has one subject kind,
and every seat of an emit has the same organization as its subject. -/
theorem receiverKey_eq_iff {row row' : Row} :
    row.receiverKey org = row'.receiverKey org ↔ row.collisionKey = row'.collisionKey := by
  cases row <;> cases row' <;> simp [Row.receiverKey, Row.collisionKey, Row.report]

theorem encodeReport_eq_ok {parsed : ParsedRows} (hemitted : ∀ rs, parsed ≠ .userTeam rs)
    {report : String} {records : List LogRecordData}
    (h : encodeReport rfc3339 tenantId org parsed orgCredits orgCost = .ok (report, records)) :
    List.Forall₂ (fun row record =>
      encodeRow rfc3339 tenantId org orgCredits orgCost row = .ok record) parsed.rows records := by
  cases parsed with
  | org rs =>
    obtain ⟨_, hrs, h⟩ := Except.ok_of_bind h
    obtain ⟨-, rfl⟩ := Prod.mk.inj (Except.ok.inj h)
    exact List.forall₂_map_left_iff.mpr (Except.mapM_eq_ok_iff.1 hrs)
  | user rs =>
    obtain ⟨_, hrs, h⟩ := Except.ok_of_bind h
    obtain ⟨-, rfl⟩ := Prod.mk.inj (Except.ok.inj h)
    exact List.forall₂_map_left_iff.mpr (Except.mapM_eq_ok_iff.1 hrs)
  | repo rs =>
    obtain ⟨_, hrs, h⟩ := Except.ok_of_bind h
    obtain ⟨-, rfl⟩ := Prod.mk.inj (Except.ok.inj h)
    exact List.forall₂_map_left_iff.mpr (Except.mapM_eq_ok_iff.1 hrs)
  | userTeam rs => exact absurd rfl (hemitted rs)
  | seat rs =>
    obtain ⟨-, rfl⟩ := Prod.mk.inj (Except.ok.inj h)
    rw [ParsedRows.rows, List.forall₂_map_left_iff, List.forall₂_map_right_iff,
      List.forall₂_same]
    exact fun _ _ => rfl

theorem encodeReports_cons {parsed : ParsedRows} (hemitted : ∀ rs, parsed ≠ .userTeam rs)
    (reports : List ParsedRows) :
    encodeReports rfc3339 tenantId org orgCredits orgCost (parsed :: reports) =
      encodeReport rfc3339 tenantId org parsed orgCredits orgCost >>= fun own =>
        encodeReports rfc3339 tenantId org orgCredits orgCost reports >>= fun rest =>
          pure (own.2 ++ rest.1, (own.1, own.2.length) :: rest.2) := by
  cases parsed with
  | userTeam rs => exact absurd rfl (hemitted rs)
  | _ => rfl

/-- The records are those of the rows of all reports, in their order. -/
theorem encodeReports_eq_ok {reports : List ParsedRows} {records : List LogRecordData}
    {perReport : List (String × ℕ)}
    (h : encodeReports rfc3339 tenantId org orgCredits orgCost reports =
      .ok (records, perReport)) :
    List.Forall₂ (fun row record =>
      encodeRow rfc3339 tenantId org orgCredits orgCost row = .ok record)
      (reports.flatMap ParsedRows.rows) records := by
  induction reports generalizing records perReport with
  | nil =>
    obtain ⟨rfl, -⟩ := Prod.mk.inj (Except.ok.inj h)
    exact .nil
  | cons parsed reports ih =>
    by_cases hteam : ∃ rs, parsed = .userTeam rs
    · obtain ⟨rs, rfl⟩ := hteam
      exact ih h
    · have hemitted : ∀ rs, parsed ≠ .userTeam rs := fun rs hrs => hteam ⟨rs, hrs⟩
      rw [encodeReports_cons hemitted] at h
      obtain ⟨⟨report, recs⟩, hreport, h⟩ := Except.ok_of_bind h
      obtain ⟨⟨rest, restReports⟩, hrest, h⟩ := Except.ok_of_bind h
      obtain ⟨rfl, -⟩ := Prod.mk.inj (Except.ok.inj h)
      rw [List.flatMap_cons]
      exact List.rel_append (encodeReport_eq_ok hemitted hreport) (ih hrest)

/-! ## The guard -/

theorem nodup_iff_dupes {α : Type} [DecidableEq α] [BEq α] [LawfulBEq α] {l : List α} :
    (l.dedup.filter fun a => 1 < l.count a) = [] ↔ l.Nodup := by
  rw [List.nodup_iff_count_le_one, List.filter_eq_nil_iff]
  constructor
  · intro h a
    by_cases ha : a ∈ l
    · simpa using h a (List.mem_dedup.mpr ha)
    · rw [List.count_eq_zero_of_not_mem ha]
      omega
  · intro h a _
    simpa using h a

/-- Under the freeze a batch passes exactly when no two records have one key of the guard. -/
theorem detectCollisions_strict_iff {records : List LogRecordData} :
    detectCollisions records true = .ok () ↔ (records.map collisionKey).Nodup := by
  rw [← nodup_iff_dupes]
  simp only [detectCollisions, List.map_eq_nil_iff]
  split
  · next h => exact iff_of_true rfl h
  · next h => exact iff_of_false (by simp) h

theorem map_of_describes {β : Type} {rows : List Row} {records : List LogRecordData}
    (h : List.Forall₂ (Describes org orgCost) rows records) {f : LogRecordData → β} {g : Row → β}
    (hfg : ∀ row record, Describes org orgCost row record → f record = g row) :
    records.map f = rows.map g := by
  induction h with
  | nil => rfl
  | cons hrow _ ih => rw [List.map_cons, List.map_cons, hfg _ _ hrow, ih]

/-- The guard passes exactly the batches in which the receiver merges no two records. -/
theorem nodup_receiverKey_iff {rows : List Row} {records : List LogRecordData}
    (h : List.Forall₂ (Describes org orgCost) rows records) :
    (records.map receiverKey).Nodup ↔ (records.map collisionKey).Nodup := by
  rw [map_of_describes h fun _ _ hrow => hrow.receiverKey,
    map_of_describes h fun _ _ hrow => hrow.collisionKey, List.Nodup, List.Nodup,
    List.pairwise_map, List.pairwise_map]
  simp only [ne_eq, receiverKey_eq_iff]

/-! ## The money -/

theorem costsOf_eq {rows : List Row} {records : List LogRecordData} (report : String)
    (h : List.Forall₂ (Describes org orgCost) rows records) :
    costsOf report records =
      rows.filterMap fun row => if row.report = report then row.cost orgCost else none := by
  induction h with
  | nil => rfl
  | @cons row record rows records hrow _ ih =>
    rw [costsOf] at ih ⊢
    simp only [List.filterMap_cons, hrow.report, hrow.cost, Option.some.injEq, ih]

section Rows

variable {α β γ : Type} {f : β → Option γ} (mk : α → β)

theorem filterMap_map_some {g : α → γ} (h : ∀ a, f (mk a) = some (g a)) (l : List α) :
    (l.map mk).filterMap f = l.map g := by
  rw [List.filterMap_map]
  exact List.filterMap_eq_map_iff_forall_eq_some.mpr fun a _ => h a

theorem filterMap_map_none (h : ∀ a, f (mk a) = none) (l : List α) :
    (l.map mk).filterMap f = [] := by
  rw [List.filterMap_map, List.filterMap_eq_nil_iff]
  exact fun a _ => h a

end Rows

/-- Every organization record carries the total. -/
theorem orgCosts_eq (reports : List ParsedRows) :
    ((reports.flatMap ParsedRows.rows).filterMap fun row =>
      if row.report = "organization-1-day" then row.cost orgCost else none) =
      List.replicate (orgRows reports).length orgCost := by
  rw [← List.map_const']
  induction reports with
  | nil => rfl
  | cons parsed reports ih =>
    rw [orgRows] at ih ⊢
    rw [List.flatMap_cons, List.filterMap_append, ih, List.flatMap_cons, List.map_append]
    refine congrArg (· ++ _) ?_
    cases parsed with
    | org rs => exact filterMap_map_some Row.org (fun _ => if_pos rfl) rs
    | user rs =>
      exact filterMap_map_none Row.user (fun _ => if_neg
        (show "users-1-day" ≠ "organization-1-day" by decide)) rs
    | repo rs =>
      exact filterMap_map_none Row.repo (fun _ => if_neg
        (show "repos-1-day" ≠ "organization-1-day" by decide)) rs
    | userTeam rs => rfl
    | seat rs =>
      exact filterMap_map_none Row.seat (fun _ => if_neg
        (show "billing-seats" ≠ "organization-1-day" by decide)) rs

/-- Every user record carries the cost of its row. -/
theorem userCosts_eq (reports : List ParsedRows) :
    ((reports.flatMap ParsedRows.rows).filterMap fun row =>
      if row.report = "users-1-day" then row.cost orgCost else none) =
      (userRows reports).map UserDaily.netCostMicroUsd := by
  induction reports with
  | nil => rfl
  | cons parsed reports ih =>
    rw [userRows] at ih ⊢
    rw [List.flatMap_cons, List.filterMap_append, ih, List.flatMap_cons, List.map_append]
    refine congrArg (· ++ _) ?_
    cases parsed with
    | org rs =>
      exact filterMap_map_none Row.org (fun _ => if_neg
        (show "organization-1-day" ≠ "users-1-day" by decide)) rs
    | user rs => exact filterMap_map_some Row.user (fun _ => if_pos rfl) rs
    | repo rs =>
      exact filterMap_map_none Row.repo (fun _ => if_neg
        (show "repos-1-day" ≠ "users-1-day" by decide)) rs
    | userTeam rs => rfl
    | seat rs =>
      exact filterMap_map_none Row.seat (fun _ => if_neg
        (show "billing-seats" ≠ "users-1-day" by decide)) rs

/-- The saturating sum of some amounts. -/
def saturatingSum (costs : List ℤ) : ℤ := costs.foldl i64SaturatingAdd 0

theorem aggregateOrgCost_cost (reports : List ParsedRows) :
    (aggregateOrgCost reports).2 =
      saturatingSum ((userRows reports).map UserDaily.netCostMicroUsd) := by
  rw [aggregateOrgCost, saturatingSum, List.foldl_map]
  -- The two totals of the loop run side by side.
  have hloop (rows : List UserDaily) (credits : ℕ) (cost : ℤ) :
      (rows.foldl (fun total r => (u64SaturatingAdd total.1 r.aiCredits,
        i64SaturatingAdd total.2 r.netCostMicroUsd)) (credits, cost)).2 =
        rows.foldl (fun total r => i64SaturatingAdd total r.netCostMicroUsd) cost := by
    induction rows generalizing credits cost with
    | nil => rfl
    | cons r rows ih => exact ih _ _
  exact hloop _ _ _

/-- A preparation that succeeds encoded every report and passed the guard. -/
theorem prepare_eq_ok {reports : List ParsedRows} {strict : Bool} {records : List LogRecordData}
    {perReport : List (String × ℕ)}
    (h : prepare rfc3339 tenantId org reports strict = .ok (records, perReport)) :
    encodeReports rfc3339 tenantId org (aggregateOrgCost reports).1 (aggregateOrgCost reports).2
        reports = .ok (records, perReport) ∧
      detectCollisions records strict = .ok () := by
  have hbind : (encodeReports rfc3339 tenantId org (aggregateOrgCost reports).1
      (aggregateOrgCost reports).2 reports >>= fun batch =>
        detectCollisions batch.1 strict >>= fun _ => pure (batch.1, batch.2)) =
          .ok (records, perReport) := h
  obtain ⟨batch, hencode, hrest⟩ := Except.ok_of_bind hbind
  obtain ⟨_, hguard, hrest⟩ := Except.ok_of_bind hrest
  obtain ⟨rfl, rfl⟩ := Prod.mk.inj (Except.ok.inj hrest)
  exact ⟨hencode, hguard⟩

/-- A strict emit merges no two records, has exactly one record for each row, in their order, and
its organization records add up to the total of its user records exactly when there is at most one
of them or the total is zero. -/
theorem strict_emit_iff (rfc3339 : ℤ → String) (tenantId org : String) (reports : List ParsedRows)
    (records : List LogRecordData) (perReport : List (String × ℕ))
    (h : prepare rfc3339 tenantId org reports true = .ok (records, perReport)) :
    (records.map receiverKey).Nodup ∧
    List.Forall₂ (fun row record =>
      encodeRow rfc3339 tenantId org (aggregateOrgCost reports).1 (aggregateOrgCost reports).2 row =
        .ok record) (reports.flatMap ParsedRows.rows) records ∧
    ((orgRows reports ≠ [] → (costsOf "organization-1-day" records).sum =
        saturatingSum (costsOf "users-1-day" records)) ↔
      (orgRows reports).length ≤ 1 ∨
        saturatingSum ((userRows reports).map UserDaily.netCostMicroUsd) = 0) := by
  obtain ⟨hencode, hguard⟩ := prepare_eq_ok h
  have hrows := encodeReports_eq_ok hencode
  have hdescribes := hrows.imp fun _ _ => describes_of_encodeRow
  refine ⟨(nodup_receiverKey_iff hdescribes).mpr (detectCollisions_strict_iff.1 hguard), hrows, ?_⟩
  rw [costsOf_eq _ hdescribes, costsOf_eq _ hdescribes, orgCosts_eq, userCosts_eq,
    aggregateOrgCost_cost, List.sum_replicate, nsmul_eq_mul, Ne, ← List.length_eq_zero_iff]
  generalize saturatingSum ((userRows reports).map UserDaily.netCostMicroUsd) = total
  generalize (orgRows reports).length = n
  constructor
  · intro hsum
    by_cases hn : n ≤ 1
    · exact .inl hn
    · -- Two or more copies of the total are the total only when it is zero.
      have htotal := hsum (by omega)
      have hmul : ((n : ℤ) - 1) * total = 0 := by linarith
      rcases mul_eq_zero.mp hmul with hn' | hzero
      · omega
      · exact .inr hzero
  · rintro (hn | rfl) hne
    · have hone : n = 1 := by omega
      rw [hone, Nat.cast_one, one_mul]
    · rw [mul_zero]

/-! ## Two batches -/

/-- An organization row without activity, and a user row with a cost. -/
def orgRow (id : String) : OrgDaily := ⟨id, "2026-08-01", 0, 0, 0, 0, 0, 0⟩

def userRow (id : String) (cost : ℤ) : UserDaily := ⟨id, "", "2026-08-01", 0, 0, 0, cost⟩

/-- The records of some organizations and two users. -/
def twoUsers (orgs : List String) : Except String (List LogRecordData × List (String × ℕ)) :=
  prepare (fun _ => "") "acme" "octo"
    [.org (orgs.map orgRow), .user [userRow "u1" 3, userRow "u2" 4]] true

theorem strict_emit_one_org :
    ((twoUsers ["octo"]).toOption.getD ([], [])).1.length = 3 ∧
      (((twoUsers ["octo"]).toOption.getD ([], [])).1.map receiverKey).Nodup :=
  ⟨by decide, (strict_emit_iff (fun _ => "") "acme" "octo"
    [.org (["octo"].map orgRow), .user [userRow "u1" 3, userRow "u2" 4]] _
    ((twoUsers ["octo"]).toOption.getD ([], [])).2 (by decide)).1⟩

/-- Two organizations in one report: each of their records carries the whole spend of the day, and
together they carry it twice. -/
theorem two_orgs_count_spend_twice :
    (twoUsers ["octo", "umbrella"]).map (fun batch =>
      (costsOf "organization-1-day" batch.1, saturatingSum (costsOf "users-1-day" batch.1))) =
        .ok ([7, 7], 7) := by
  decide

end Emit

end Governance
