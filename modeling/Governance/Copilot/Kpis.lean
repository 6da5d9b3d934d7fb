import Governance.Copilot.Sync

/-!
# The organization KPIs

`governance-core/src/org_kpis`: the two queries behind the `/metrics` scrape, each on the latest
day of every organization. Spend is stored with the rows of the users, and the usage query reads
it from the rows of the organization; seats are upserted holder by holder and never cleared.
-/

namespace Governance

open ByteLines

/-- `date_trunc('month', ..)` of PostgreSQL, on the days that its tables hold. -/
structure Calendar where
  monthStart : ℤ → ℤ
  monthStart_le : ∀ day, monthStart day ≤ day

/-- `CAST(.. AS BIGINT)` of a sum, which fails out of range. -/
def castBigint (n : ℤ) : Except StorageError ℤ :=
  if i64Min ≤ n ∧ n ≤ i64Max then .ok n else .error .other

/-- `OrgUsageKpis`. -/
structure OrgUsageKpis where
  organizationId : String
  reportDay : ℤ
  activeUsers : ℤ
  engagedUsers : ℤ
  dailyCostMicroUsd : ℤ
  costMonthToDateMicroUsd : ℤ
  deriving DecidableEq

/-- `OrgSeatKpis`. -/
structure OrgSeatKpis where
  organizationId : String
  snapshotDay : ℤ
  seatsAssigned : ℕ
  seatsNeverUsed : ℕ
  deriving DecidableEq

namespace CopilotDb

variable (db : CopilotDb)

/-- The group of an organization in `latest`, over `copilot_org_dailys`. -/
def latestReportDay (tenantId organizationId : String) : Option ℤ :=
  ((db.orgDailys.rows.filter fun o =>
    o.tenantId = tenantId ∧ o.organizationId = organizationId).map OrgDailyRow.reportDay).max?

/-- The group of an organization in `month_to_date`. The latest day is in its own month, so
the group is never empty. -/
def monthToDate (cal : Calendar) (tenantId organizationId : String) (maxDay : ℤ) :
    Except StorageError ℤ :=
  castBigint ((db.orgDailys.rows.filter fun o =>
    o.tenantId = tenantId ∧ o.organizationId = organizationId ∧
      cal.monthStart maxDay ≤ o.reportDay ∧ o.reportDay ≤ maxDay).map
    OrgDailyRow.netCostMicroUsd).sum

/-- `org_usage_kpis`. -/
def orgUsageKpis (cal : Calendar) (tenantId : String) : Except StorageError (List OrgUsageKpis) :=
  (db.orgDailys.rows.filter fun o => o.tenantId = tenantId ∧
    db.latestReportDay tenantId o.organizationId = some o.reportDay).mapM fun o => do
      let cost ← db.monthToDate cal tenantId o.organizationId o.reportDay
      return ⟨o.organizationId, o.reportDay, o.activeUsers, o.engagedUsers, o.netCostMicroUsd,
        cost⟩

/-- The spend that the rows of the users hold for some days. -/
def userSpend (tenantId : String) (first last : ℤ) : ℤ :=
  ((db.userDailys.rows.filter fun u =>
    u.tenantId = tenantId ∧ first ≤ u.reportDay ∧ u.reportDay ≤ last).map
    UserDailyRow.netCostMicroUsd).sum

/-- The group of an organization in `latest`, over `copilot_seat_snapshots`. -/
def latestSnapshotDay (tenantId organizationId : String) : Option ℤ :=
  ((db.seatSnapshots.rows.filter fun s =>
    s.tenantId = tenantId ∧ s.organizationId = organizationId).map SeatSnapshotRow.snapshotDay).max?

/-- `org_seat_kpis`. -/
def orgSeatKpis (tenantId : String) : List OrgSeatKpis :=
  ((db.seatSnapshots.rows.filter fun s => s.tenantId = tenantId).map
    SeatSnapshotRow.organizationId).dedup.filterMap fun organizationId =>
      (db.latestSnapshotDay tenantId organizationId).map fun day =>
        let seats := db.seatSnapshots.rows.filter fun s =>
          s.tenantId = tenantId ∧ s.organizationId = organizationId ∧ s.snapshotDay = day
        ⟨organizationId, day, seats.length, seats.countP fun s => s.lastActivityAt.isNone⟩

end CopilotDb

/-- `aggregate_org_cost`, over the user rows of a day. -/
def aggregateOrgCost (rows : List UserDaily) : ℕ × ℤ :=
  rows.foldl (fun acc r =>
    (u64SaturatingAdd acc.1 r.aiCredits, i64SaturatingAdd acc.2 r.netCostMicroUsd)) (0, 0)

namespace CopilotEnv

variable {env : CopilotEnv}

/-! ## The organization rows hold no spend -/

/-- No row of the organization report carries a cost. -/
def NoOrgCost (db : CopilotDb) : Prop := ∀ o ∈ db.orgDailys.rows, o.netCostMicroUsd = 0

theorem normalizeOrg_cost {row : OrgReportRow} {o : OrgDaily} (h : normalizeOrg row = some o) :
    o.netCostMicroUsd = 0 := by
  obtain ⟨organizationId, -, rfl⟩ := Option.map_eq_some_iff.mp h
  rfl

theorem parseReport_org_cost {tenantId org day report : String} {bytes : Bytes} {tenant : String}
    {rows : List OrgDaily}
    (h : env.parseReport tenantId org day report bytes = .ok (.upsertOrgDaily tenant rows)) :
    ∀ o ∈ rows, o.netCostMicroUsd = 0 := by
  unfold parseReport at h
  split at h
  · obtain ⟨rows', hrows, hcall⟩ := map_eq_ok h
    obtain ⟨-, rfl⟩ := StoreCall.upsertOrgDaily.inj hcall
    exact forall_parseLines hrows fun _ _ => normalizeOrg_cost
  split at h
  · obtain ⟨rows', -, hcall⟩ := map_eq_ok h
    cases hcall
  split at h
  · obtain ⟨rows', -, hcall⟩ := map_eq_ok h
    cases hcall
  split at h
  · obtain ⟨rows', -, hcall⟩ := map_eq_ok h
    cases hcall
  split at h
  · obtain ⟨rows', -, hcall⟩ := map_eq_ok h
    cases hcall
  · cases h

/-- A writer keeps the organization rows without cost, if its own rows have none. -/
theorem NoOrgCost.perform {db : CopilotDb} (hdb : NoOrgCost db) {call : StoreCall}
    (hcall : ∀ tenantId rows, call = .upsertOrgDaily tenantId rows →
      ∀ o ∈ rows, o.netCostMicroUsd = 0) : NoOrgCost (env.perform db call).2 := by
  cases hstore : env.store db call with
  | error e =>
    simp only [CopilotEnv.perform, hstore]
    exact hdb
  | ok db' =>
    simp only [CopilotEnv.perform, hstore]
    cases call with
    | upsertOrgDaily tenantId rows =>
      obtain ⟨t, ht, rfl⟩ := map_eq_ok hstore
      have hbound : ∀ w ∈ rows.filterMap (env.orgDailyRow tenantId), w.netCostMicroUsd = 0 := by
        intro w hw
        obtain ⟨o, ho, hrow⟩ := List.mem_filterMap.mp hw
        obtain ⟨day, -, rfl⟩ := Option.map_eq_some_iff.mp hrow
        exact hcall tenantId rows rfl o ho
      exact Table.forall_upsertAll (storeRows_ok ht).1 hdb hbound fun w hw r _ _ => hbound w hw
    | _ =>
      obtain ⟨t, -, rfl⟩ := map_eq_ok hstore
      exact hdb

theorem noOrgCost_replays (env : CopilotEnv) (steps : List ReplayStep) :
    NoOrgCost (env.replays steps) := by
  apply replays_keeps
  · exact fun _ h => (List.not_mem_nil h).elim
  · intro tenantId org day report bytes call hparse db hdb
    exact hdb.perform fun tenant rows hcall => parseReport_org_cost (hcall ▸ hparse)
  · intro m _ db hdb
    refine hdb.perform fun _ _ h => ?_
    cases h

/-! ## The usage KPIs -/

theorem sum_filter_map_eq_zero {ρ : Type} (rows : List ρ) (p : ρ → Bool) {f : ρ → ℤ}
    (h : ∀ r ∈ rows, f r = 0) : ((rows.filter p).map f).sum = 0 := by
  apply List.sum_eq_zero
  intro x hx
  obtain ⟨r, hr, rfl⟩ := List.mem_map.mp hx
  exact h r (List.mem_filter.mp hr).1

theorem monthToDate_eq_zero {db : CopilotDb} (hdb : NoOrgCost db) (cal : Calendar)
    (tenantId organizationId : String) (maxDay : ℤ) :
    db.monthToDate cal tenantId organizationId maxDay = .ok 0 := by
  rw [CopilotDb.monthToDate, sum_filter_map_eq_zero _ _ hdb]
  rfl

theorem mapM_ok {ε α β : Type} {f : α → Except ε β} {g : α → β} {as : List α}
    (h : ∀ a ∈ as, f a = .ok (g a)) : as.mapM f = .ok (as.map g) := by
  induction as with
  | nil => rfl
  | cons a as ih =>
    rw [List.mapM_cons, h a List.mem_cons_self, ih fun b hb => h b (List.mem_cons_of_mem _ hb)]
    rfl

/-- Without cost in the organization rows the query reports none. -/
theorem orgUsageKpis_noCost {db : CopilotDb} (hdb : NoOrgCost db) (cal : Calendar)
    (tenantId : String) :
    db.orgUsageKpis cal tenantId = .ok ((db.orgDailys.rows.filter fun o =>
      o.tenantId = tenantId ∧ db.latestReportDay tenantId o.organizationId = some o.reportDay).map
        fun o => ⟨o.organizationId, o.reportDay, o.activeUsers, o.engagedUsers, 0, 0⟩) := by
  apply mapM_ok
  intro o ho
  rw [monthToDate_eq_zero hdb, hdb o (List.mem_filter.mp ho).1]
  rfl

/-- The latest day of an organization is the day of one of its rows. -/
theorem exists_of_latestReportDay {db : CopilotDb} {tenantId organizationId : String} {day : ℤ}
    (h : db.latestReportDay tenantId organizationId = some day) :
    ∃ o ∈ db.orgDailys.rows, o.tenantId = tenantId ∧ o.organizationId = organizationId ∧
      o.reportDay = day := by
  obtain ⟨o, ho, rfl⟩ := List.mem_map.mp (List.max?_mem h)
  obtain ⟨hmem, hkey⟩ := List.mem_filter.mp ho
  obtain ⟨htenant, horg⟩ := of_decide_eq_true hkey
  exact ⟨o, hmem, htenant, horg, rfl⟩

/-- After any sequence of replays the usage query succeeds and has one entry for each
organization of the tenant, on its latest day. The costs of an entry are the spend that the
rows of the users hold for that day, and for its month up to it, if and only if both are
nothing. -/
theorem cost_kpis_report_spend_iff (env : CopilotEnv) (cal : Calendar) (steps : List ReplayStep)
    (tenantId : String) :
    ∃ kpis, (env.replays steps).orgUsageKpis cal tenantId = .ok kpis ∧
      ∀ organizationId day,
        (env.replays steps).latestReportDay tenantId organizationId = some day →
        ∃ k ∈ kpis, k.organizationId = organizationId ∧ k.reportDay = day ∧
          (∀ k' ∈ kpis, k'.organizationId = organizationId → k' = k) ∧
          ((k.dailyCostMicroUsd = (env.replays steps).userSpend tenantId day day ∧
              k.costMonthToDateMicroUsd =
                (env.replays steps).userSpend tenantId (cal.monthStart day) day) ↔
            ((env.replays steps).userSpend tenantId day day = 0 ∧
              (env.replays steps).userSpend tenantId (cal.monthStart day) day = 0)) := by
  refine ⟨_, orgUsageKpis_noCost (noOrgCost_replays env steps) cal tenantId, ?_⟩
  intro organizationId day hday
  obtain ⟨o, ho, rfl, rfl, rfl⟩ := exists_of_latestReportDay hday
  refine ⟨_, List.mem_map.mpr ⟨o, List.mem_filter.mpr ⟨ho, decide_eq_true ⟨rfl, hday⟩⟩, rfl⟩, rfl,
    rfl, ?_, ?_⟩
  · intro k' hk' horg
    obtain ⟨o', ho', rfl⟩ := List.mem_map.mp hk'
    obtain ⟨hmem, hrow⟩ := List.mem_filter.mp ho'
    obtain ⟨htenant, hlatest⟩ := of_decide_eq_true hrow
    -- Both rows are of the latest day, so the natural key makes them one.
    have horg' : o'.organizationId = o.organizationId := horg
    rw [horg', hday] at hlatest
    have hsame : o' = o := by
      refine Table.eq_of_key hmem ho (DayKey.mk.injEq .. ▸ ?_)
      exact ⟨htenant, horg', (Option.some.inj hlatest).symm⟩
    rw [hsame]
  · constructor
    · rintro ⟨hdaily, hmonth⟩
      exact ⟨hdaily.symm, hmonth.symm⟩
    · rintro ⟨hdaily, hmonth⟩
      exact ⟨hdaily.symm, hmonth.symm⟩

/-- A line of the organization report. -/
def orgLine : Bytes :=
  Utf8Text.encode "\x7b\"day\":\"2026-08-05\",\"organization_id\":\"77\"\x7d".toList

/-- An environment that reads one organization and one user, who spent two and a half credits. -/
def spendEnv : CopilotEnv :=
  { sampleEnv with
    orgRow := fun line =>
      if line = orgLine then some ⟨"2026-08-05", some "77", some 1, some 1, none, none⟩ else none
    userRow := fun line =>
      if line = userLine "1001" then
        some ⟨some "1001", none, "2026-08-05", none, none, some 0x4004000000000000⟩
      else none
    creditsToMicroUsd := fun credits => if credits = 0x4004000000000000 then 25000 else 0 }

/-- The calendar of August, with the days counted from its first. -/
def augustCalendar : Calendar where
  monthStart day := if 1 ≤ day ∧ day ≤ 31 then 1 else day
  monthStart_le day := by
    split
    · next h => exact h.1
    · exact le_rfl

/-- The user spent 25000 micro-USD on the latest day, which the OTLP path aggregates, and both
costs of the organization are zero. -/
theorem spend_reported_as_zero :
    let db := spendEnv.replays
      [.replay "acme" "org-1" "2026-08-05" "organization-1-day" (unlines [orgLine]),
        .replay "acme" "org-1" "2026-08-05" "users-1-day" (unlines [userLine "1001"])]
    db.orgUsageKpis augustCalendar "acme" = .ok [⟨"77", 5, 1, 1, 0, 0⟩] ∧
      db.userSpend "acme" 5 5 = 25000 ∧
      (spendEnv.parseUserDaily (unlines [userLine "1001"]) "users-1-day" "2026-08-05").map
        aggregateOrgCost = .ok (2, 25000) := by
  decide +kernel

end CopilotEnv

end Governance
