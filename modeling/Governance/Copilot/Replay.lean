import Governance.Lib.Utf8Decode
import Governance.Copilot.Ids

/-!
# Replaying a report

`replay.rs` with `verify_manifests` and `count_rows` of `store.rs`. A replay upserts the rows of
a payload one by one and then records how many there were. It never deletes, so a day is
replaced exactly when the payload covers what was stored for the day, names its own day on
every row and no natural key twice.
-/

namespace Governance

open ByteLines

namespace CopilotEnv

variable (env : CopilotEnv)

/-- The part of `replay_report` that its arms share: the rows are stored, then their number is
recorded. A manifest that is refused leaves the rows. -/
def storeAndRecord (db : CopilotDb) (tenantId org day report : String) (call : StoreCall) :
    Except CopilotError ℕ × CopilotDb :=
  match env.perform db call with
  | (.error e, db) => (.error (.storage e), db)
  | (.ok n, db) =>
    match env.perform db
        (.upsertManifest ⟨tenantId, "github_copilot", org, report, day, "ok", n⟩) with
    | (.error e, db) => (.error (.storage e), db)
    | (.ok _, db) => (.ok n, db)

/-- The rows of a payload, as the call that stores them. -/
def parseReport (tenantId org day report : String) (bytes : Bytes) :
    Except CopilotError StoreCall :=
  if report = "organization-1-day" then
    (env.parseOrgDaily bytes report day).map (.upsertOrgDaily tenantId)
  else if report = "users-1-day" then
    (env.parseUserDaily bytes report day).map (.upsertUserDaily tenantId org)
  else if report = "repos-1-day" then
    (env.parseRepoDaily bytes report day).map (.upsertRepoDaily tenantId org)
  else if report = "user-teams-1-day" then
    (env.parseUserTeam bytes report day).map (.upsertUserTeam tenantId org)
  else if report = seatsReportType then
    (env.parseSeats bytes report day).map (.upsertSeatSnapshot tenantId org)
  else .error (.github "sync" 0 ("unknown report type " ++ report ++ " in REPORTS"))

/-- `replay_report`. -/
def replayReport (db : CopilotDb) (tenantId org day report : String) (bytes : Bytes) :
    Except CopilotError ℕ × CopilotDb :=
  match env.parseReport tenantId org day report bytes with
  | .error e => (.error e, db)
  | .ok call => env.storeAndRecord db tenantId org day report call

/-- `REPORTS`. -/
def reports : List String :=
  ["organization-1-day", "users-1-day", "repos-1-day", "user-teams-1-day"]

/-- The manifest that `ingest_one` records for a report without data. -/
def recordEmpty (db : CopilotDb) (tenantId org day report : String) : CopilotDb :=
  if report ∈ reports then
    (env.perform db
      (.upsertManifest ⟨tenantId, "github_copilot", org, report, day, "empty", 0⟩)).2
  else db

/-! ## Verification -/

/-- `count_rows`. -/
def countRows (db : CopilotDb) (tenantId scopeId report : String) (day : ℤ) :
    Except CopilotError ℕ :=
  match env.castDate (env.dateText day) with
  | none => .error (.storage .decode)
  | some date =>
    -- The organization aggregate is counted by tenant and day alone.
    if report = "organization-1-day" then
      .ok (db.orgDailys.rows.countP fun r => r.tenantId = tenantId ∧ r.reportDay = date)
    else if report = "users-1-day" then
      .ok (db.userDailys.rows.countP fun r =>
        r.tenantId = tenantId ∧ r.organizationId = scopeId ∧ r.reportDay = date)
    else if report = "repos-1-day" then
      .ok (db.repoDailys.rows.countP fun r =>
        r.tenantId = tenantId ∧ r.organizationId = scopeId ∧ r.reportDay = date)
    else if report = "user-teams-1-day" then
      .ok (db.userTeams.rows.countP fun r =>
        r.tenantId = tenantId ∧ r.organizationId = scopeId ∧ r.reportDay = date)
    else if report = seatsReportType then
      .ok (db.seatSnapshots.rows.countP fun r =>
        r.tenantId = tenantId ∧ r.organizationId = scopeId ∧ r.snapshotDay = date)
    else .error (.github "verify" 0 ("unknown report type " ++ report))

/-- `ManifestDrift`. -/
structure ManifestDrift where
  day : String
  report : String
  status : String
  expected : ℤ
  actual : ℤ
  deriving DecidableEq

/-- The loop of `verify_manifests`. -/
def driftOf (db : CopilotDb) (tenantId scopeId : String) :
    List ManifestRow → Except CopilotError (List ManifestDrift)
  | [] => .ok []
  | m :: manifests => do
    let actual ← env.countRows db tenantId scopeId m.reportType m.reportDay
    let drift ← driftOf db tenantId scopeId manifests
    return if (actual : ℤ) ≠ m.recordCount then
      ⟨env.dateText m.reportDay, m.reportType, m.status, m.recordCount, actual⟩ :: drift
    else drift

/-- `verify_manifests`. -/
def verifyManifests (db : CopilotDb) (tenantId provider scopeId : String) :
    Except CopilotError (List ManifestDrift) :=
  env.driftOf db tenantId scopeId
    ((db.manifests.rows.filter fun m => m.tenantId = tenantId ∧ m.provider = provider ∧
      m.scopeId = scopeId).insertionSort fun a b => b.reportDay ≤ a.reportDay)

/-- What happens to the tables between two looks at them. -/
inductive ReplayStep where
  | replay (tenantId org day report : String) (bytes : Bytes)
  | empty (tenantId org day report : String)

def replayStep (db : CopilotDb) : ReplayStep → CopilotDb
  | .replay tenantId org day report bytes =>
    (env.replayReport db tenantId org day report bytes).2
  | .empty tenantId org day report => env.recordEmpty db tenantId org day report

/-- The tables after a sequence of replays and empty reports. -/
def replays (steps : List ReplayStep) : CopilotDb := steps.foldl env.replayStep CopilotDb.empty

/-! ## Replacing a day -/

/-- The rows that `count_rows` counts for the organization report. -/
def orgScope (tenantId : String) (date : ℤ) (k : DayKey) : Prop :=
  k.tenantId = tenantId ∧ k.day = date

/-- The rows that `count_rows` counts for the other reports. -/
def dayScope {α : Type} (tenantId org : String) (date : ℤ) (k : DayKey × α) : Prop :=
  k.1.tenantId = tenantId ∧ k.1.organizationId = org ∧ k.1.day = date

instance (tenantId : String) (date : ℤ) : DecidablePred (orgScope tenantId date) :=
  fun _ => inferInstanceAs (Decidable (_ ∧ _))

instance {α : Type} (tenantId org : String) (date : ℤ) :
    DecidablePred (dayScope (α := α) tenantId org date) :=
  fun _ => inferInstanceAs (Decidable (_ ∧ _))

/-- The rows of the day are exactly those of the payload, the last of each natural key, and all
other rows are as they were. -/
def DayReplaced (org : String) (date : ℤ) (db db' : CopilotDb) : StoreCall → Prop
  | .upsertOrgDaily tenantId rows =>
    Table.Replaced OrgDailyRow.refresh (orgScope tenantId date)
        (rows.filterMap (env.orgDailyRow tenantId)) db.orgDailys db'.orgDailys ∧
      (db'.userDailys, db'.repoDailys, db'.userTeams, db'.seatSnapshots) =
        (db.userDailys, db.repoDailys, db.userTeams, db.seatSnapshots)
  | .upsertUserDaily tenantId organizationId rows =>
    Table.Replaced UserDailyRow.refresh (dayScope tenantId org date)
        (rows.filterMap (env.userDailyRow tenantId organizationId)) db.userDailys db'.userDailys ∧
      (db'.orgDailys, db'.repoDailys, db'.userTeams, db'.seatSnapshots) =
        (db.orgDailys, db.repoDailys, db.userTeams, db.seatSnapshots)
  | .upsertRepoDaily tenantId organizationId rows =>
    Table.Replaced RepoDailyRow.refresh (dayScope tenantId org date)
        (rows.filterMap (env.repoDailyRow tenantId organizationId)) db.repoDailys db'.repoDailys ∧
      (db'.orgDailys, db'.userDailys, db'.userTeams, db'.seatSnapshots) =
        (db.orgDailys, db.userDailys, db.userTeams, db.seatSnapshots)
  | .upsertUserTeam tenantId organizationId rows =>
    Table.Replaced UserTeamsRow.refresh (dayScope tenantId org date)
        (rows.filterMap (env.userTeamsRow tenantId organizationId)) db.userTeams db'.userTeams ∧
      (db'.orgDailys, db'.userDailys, db'.repoDailys, db'.seatSnapshots) =
        (db.orgDailys, db.userDailys, db.repoDailys, db.seatSnapshots)
  | .upsertSeatSnapshot tenantId organizationId rows =>
    Table.Replaced SeatSnapshotRow.refresh (dayScope tenantId org date)
        (rows.filterMap (env.seatSnapshotRow tenantId organizationId)) db.seatSnapshots
        db'.seatSnapshots ∧
      (db'.orgDailys, db'.userDailys, db'.repoDailys, db'.userTeams) =
        (db.orgDailys, db.userDailys, db.repoDailys, db.userTeams)
  | .upsertManifest _ => False

/-- The rows of the payload are of the day, name every row stored for the day, and name none
twice. -/
def DayCovered (org : String) (date : ℤ) (db : CopilotDb) : StoreCall → Prop
  | .upsertOrgDaily tenantId rows =>
    Table.Covers (orgScope tenantId date) (rows.filterMap (env.orgDailyRow tenantId)) db.orgDailys
  | .upsertUserDaily tenantId organizationId rows =>
    Table.Covers (dayScope tenantId org date)
      (rows.filterMap (env.userDailyRow tenantId organizationId)) db.userDailys
  | .upsertRepoDaily tenantId organizationId rows =>
    Table.Covers (dayScope tenantId org date)
      (rows.filterMap (env.repoDailyRow tenantId organizationId)) db.repoDailys
  | .upsertUserTeam tenantId organizationId rows =>
    Table.Covers (dayScope tenantId org date)
      (rows.filterMap (env.userTeamsRow tenantId organizationId)) db.userTeams
  | .upsertSeatSnapshot tenantId organizationId rows =>
    Table.Covers (dayScope tenantId org date)
      (rows.filterMap (env.seatSnapshotRow tenantId organizationId)) db.seatSnapshots
  | .upsertManifest _ => False

/-- `verify_manifests` succeeds and reports no drift for a report and a day. -/
def NoDrift (db : CopilotDb) (tenantId org report : String) (date : ℤ) : Prop :=
  ∃ drift, env.verifyManifests db tenantId "github_copilot" org = .ok drift ∧
    ∀ d ∈ drift, ¬ (d.day = env.dateText date ∧ d.report = report)

/-! ## What verification finds -/

/-- The report types that `count_rows` knows. -/
def knownReports : List String := reports ++ [seatsReportType]

/-- Every manifest is of a known report and of a day that was read from a text. -/
def KnownManifests (db : CopilotDb) : Prop :=
  ∀ m ∈ db.manifests.rows, m.reportType ∈ knownReports ∧
    ∃ text, env.castDate text = some m.reportDay

variable {env}

/-- The rows counted for a known report. -/
theorem countRows_ok (db : CopilotDb) (tenantId scopeId : String) {report text : String} {date : ℤ}
    (hreport : report ∈ knownReports) (hdate : env.castDate text = some date) :
    ∃ n, env.countRows db tenantId scopeId report date = .ok n := by
  simp only [knownReports, reports, List.cons_append, List.nil_append, List.mem_cons,
    List.not_mem_nil, or_false] at hreport
  simp only [countRows, env.castDate_dateText text date hdate]
  rcases hreport with rfl | rfl | rfl | rfl | rfl
  · exact ⟨_, rfl⟩
  · exact ⟨_, rfl⟩
  · exact ⟨_, rfl⟩
  · exact ⟨_, rfl⟩
  · exact ⟨_, rfl⟩

/-- On manifests that can be counted the loop ends, and reports those whose count is wrong. -/
theorem driftOf_counted (db : CopilotDb) (tenantId scopeId : String)
    (manifests : List ManifestRow) (hcount : ∀ m ∈ manifests,
      ∃ n, env.countRows db tenantId scopeId m.reportType m.reportDay = .ok n) :
    ∃ drift, env.driftOf db tenantId scopeId manifests = .ok drift ∧ ∀ d, d ∈ drift ↔
      ∃ m ∈ manifests, ∃ n, env.countRows db tenantId scopeId m.reportType m.reportDay = .ok n ∧
        (n : ℤ) ≠ m.recordCount ∧
        d = ⟨env.dateText m.reportDay, m.reportType, m.status, m.recordCount, n⟩ := by
  induction manifests with
  | nil => exact ⟨[], rfl, by simp⟩
  | cons m manifests ih =>
    obtain ⟨n, hn⟩ := hcount m List.mem_cons_self
    obtain ⟨drift, hdrift, hmem⟩ := ih fun m' hm' => hcount m' (List.mem_cons_of_mem _ hm')
    have hrun : env.driftOf db tenantId scopeId (m :: manifests) =
        .ok (if (n : ℤ) ≠ m.recordCount then
          ⟨env.dateText m.reportDay, m.reportType, m.status, m.recordCount, n⟩ :: drift
        else drift) := by
      simp only [driftOf, hn, hdrift]
      rfl
    refine ⟨_, hrun, fun d => ?_⟩
    have hhead : (∃ k, env.countRows db tenantId scopeId m.reportType m.reportDay = .ok k ∧
        (k : ℤ) ≠ m.recordCount ∧
        d = ⟨env.dateText m.reportDay, m.reportType, m.status, m.recordCount, k⟩) ↔
        ((n : ℤ) ≠ m.recordCount ∧
          d = ⟨env.dateText m.reportDay, m.reportType, m.status, m.recordCount, n⟩) := by
      constructor
      · rintro ⟨k, hk, hne, rfl⟩
        obtain rfl : n = k := Except.ok.inj (hn.symm.trans hk)
        exact ⟨hne, rfl⟩
      · rintro ⟨hne, hd⟩
        exact ⟨n, hn, hne, hd⟩
    simp only [List.mem_cons, exists_eq_or_imp, hhead, ← hmem]
    split
    · next hne => simp [hne]
    · next heq => simp [heq]

theorem driftOf_ok (db : CopilotDb) (tenantId scopeId : String) (manifests : List ManifestRow)
    (hknown : ∀ m ∈ manifests, m.reportType ∈ knownReports ∧
      ∃ text, env.castDate text = some m.reportDay) :
    ∃ drift, env.driftOf db tenantId scopeId manifests = .ok drift ∧ ∀ d, d ∈ drift ↔
      ∃ m ∈ manifests, ∃ n, env.countRows db tenantId scopeId m.reportType m.reportDay = .ok n ∧
        (n : ℤ) ≠ m.recordCount ∧
        d = ⟨env.dateText m.reportDay, m.reportType, m.status, m.recordCount, n⟩ := by
  apply driftOf_counted
  intro m hm
  obtain ⟨hreport, text, hdate⟩ := hknown m hm
  exact countRows_ok db tenantId scopeId hreport hdate

/-- There is no drift for a report and a day exactly when its manifest has the right count. -/
theorem noDrift_iff {db : CopilotDb} (hknown : env.KnownManifests db) {tenantId org report : String}
    {date : ℤ} {m : ManifestRow} (hm : m ∈ db.manifests.rows)
    (hkey : ManifestRow.index.key m = ⟨tenantId, "github_copilot", org, date, report⟩) {n : ℕ}
    (hcount : env.countRows db tenantId org report date = .ok n) :
    env.NoDrift db tenantId org report date ↔ (n : ℤ) = m.recordCount := by
  obtain ⟨htenant, hprovider, hscope, hday, htype⟩ := ManifestKey.mk.inj hkey
  have hlist (m' : ManifestRow) : m' ∈ (db.manifests.rows.filter fun m' =>
      m'.tenantId = tenantId ∧ m'.provider = "github_copilot" ∧ m'.scopeId = org).insertionSort
        (fun a b => b.reportDay ≤ a.reportDay) ↔ m' ∈ db.manifests.rows ∧
      m'.tenantId = tenantId ∧ m'.provider = "github_copilot" ∧ m'.scopeId = org := by
    rw [List.mem_insertionSort, List.mem_filter, decide_eq_true_eq]
  obtain ⟨drift, hdrift, hmem⟩ := driftOf_ok db tenantId org _
    fun m' hm' => hknown m' ((hlist m').mp hm').1
  constructor
  · rintro ⟨drift', hdrift', hnone⟩
    obtain rfl : drift = drift' := Except.ok.inj (hdrift.symm.trans hdrift')
    by_contra hne
    refine hnone _ ((hmem _).mpr ⟨m, (hlist m).mpr ⟨hm, htenant, hprovider, hscope⟩, n, ?_, hne,
      rfl⟩) ⟨congrArg env.dateText hday, htype⟩
    rw [htype, hday]
    exact hcount
  · intro hn
    refine ⟨drift, hdrift, ?_⟩
    rintro d hd ⟨hdday, hdreport⟩
    obtain ⟨m', hm', n', hn', hne, rfl⟩ := (hmem d).mp hd
    obtain ⟨hm', htenant', hprovider', hscope'⟩ := (hlist m').mp hm'
    -- One date text is printed for one date, so the manifest is that of the report and the day.
    have hdate : m'.reportDay = date := by
      obtain ⟨-, text', htext'⟩ := hknown m' hm'
      obtain ⟨-, text, htext⟩ := hknown m hm
      have h' := env.castDate_dateText text' _ htext'
      have h := env.castDate_dateText text _ htext
      rw [show env.dateText m'.reportDay = env.dateText date from hdday, ← hday, h] at h'
      exact (Option.some.inj h').symm.trans hday
    have hsame : m' = m := by
      refine Table.eq_of_key hm' hm (ManifestKey.mk.injEq .. ▸ ?_)
      exact ⟨htenant'.trans htenant.symm, hprovider'.trans hprovider.symm,
        hscope'.trans hscope.symm, hdate.trans hday.symm, Eq.trans hdreport htype.symm⟩
    subst hsame
    rw [htype, hday, hcount] at hn'
    obtain rfl : n = n' := Except.ok.inj hn'
    exact hne hn

/-! ## What a replay writes -/

/-- A writer that succeeds bound all its rows and upserted them. -/
theorem storeRows_ok {ρ κ γ σ : Type} [DecidableEq κ] {ix : TableIndex ρ κ String}
    {R : Refresh ix γ} {bindRow : σ → Option ρ} {rows : List σ} {t t' : Table ix}
    (h : storeRows R bindRow rows t = .ok t') :
    t.upsertAll R (rows.filterMap bindRow) = some t' ∧
      (rows.filterMap bindRow).length = rows.length := by
  induction rows generalizing t with
  | nil =>
    obtain rfl := Except.ok.inj h
    exact ⟨rfl, rfl⟩
  | cons r rows ih =>
    rw [storeRows] at h
    split at h
    · cases h
    · next row hrow =>
      split at h
      · cases h
      · next t₁ hup =>
        obtain ⟨hrest, hlen⟩ := ih h
        rw [List.filterMap_cons_some hrow]
        exact ⟨Table.upsertAll_cons.2 ⟨t₁, hup, hrest⟩, by simp [hlen]⟩

theorem perform_ok {db db' : CopilotDb} {call : StoreCall} {n : ℕ}
    (h : env.perform db call = (.ok n, db')) : env.store db call = .ok db' ∧ n = call.count := by
  unfold perform at h
  split at h
  · next db₁ hstore =>
    obtain ⟨hn, rfl⟩ := Prod.mk.inj h
    exact ⟨hstore, (Except.ok.inj hn).symm⟩
  · next e hstore => cases (Prod.mk.inj h).1

theorem map_eq_ok {ε α β : Type} {f : α → β} {x : Except ε α} {b : β} (h : x.map f = .ok b) :
    ∃ a, x = .ok a ∧ f a = b := by
  cases x with
  | error e => cases h
  | ok a => exact ⟨a, rfl, Except.ok.inj h⟩

/-- A manifest that was written is there with its count; no other table and no other manifest
changed. -/
theorem store_manifest {db db' : CopilotDb} {m : Manifest}
    (h : env.store db (.upsertManifest m) = .ok db') :
    ∃ date, env.castDate m.day = some date ∧
      (∃ row ∈ db'.manifests.rows, ManifestRow.index.key row =
          ⟨m.tenantId, m.provider, m.scopeId, date, m.reportType⟩ ∧
        row.recordCount = m.recordCount) ∧
      (∀ row ∈ db'.manifests.rows, row ∈ db.manifests.rows ∨
        (row.reportType = m.reportType ∧ row.reportDay = date)) ∧
      db' = { db with manifests := db'.manifests } := by
  obtain ⟨t, ht, rfl⟩ := map_eq_ok h
  obtain ⟨hup, hlen⟩ := storeRows_ok ht
  cases hrow : env.manifestRow m with
  | none =>
    rw [List.filterMap_cons_none hrow] at hlen
    cases hlen
  | some row =>
    rw [List.filterMap_cons_some hrow, List.filterMap_nil] at hup
    obtain ⟨date, hdate, hbound⟩ := Option.map_eq_some_iff.mp hrow
    have hkey : ManifestRow.index.key row =
        ⟨m.tenantId, m.provider, m.scopeId, date, m.reportType⟩ := by
      rw [← hbound]
      rfl
    refine ⟨date, hdate, ?_, ?_, rfl⟩
    · have hmem : ManifestRow.index.key row ∈ t.keys := (Table.keys_upsertAll hup _).mpr (by simp)
      obtain ⟨r, hr, hrkey⟩ := List.mem_map.mp hmem
      refine ⟨r, hr, hrkey.trans hkey, ?_⟩
      have hlast := Table.cols_eq_lastCols hup hr (by simp [hrkey])
      simp only [Table.lastCols, hrkey, if_true, Option.none_or, Option.some.injEq] at hlast
      have hcount : row.recordCount = r.recordCount := congrArg (fun c => c.2.1) hlast
      rw [← hcount, ← hbound]
    · obtain ⟨s, hs, hend⟩ := Table.upsertAll_cons.1 hup
      obtain rfl := Option.some.inj hend
      refine Table.forall_upsert hs (fun r hr => .inl hr)
        (fun _ => .inr ⟨congrArg ManifestKey.reportType hkey,
          congrArg ManifestKey.reportDay hkey⟩) ?_
      intro r hr hrkey
      rw [hkey] at hrkey
      exact .inr ⟨congrArg ManifestKey.reportType hrkey, congrArg ManifestKey.reportDay hrkey⟩

/-- A replay that succeeds stored the rows of its payload and then its manifest. -/
theorem replayReport_ok {db db' : CopilotDb} {tenantId org day report : String} {bytes : Bytes}
    {n : ℕ} (h : env.replayReport db tenantId org day report bytes = (.ok n, db')) :
    ∃ call db₁, env.parseReport tenantId org day report bytes = .ok call ∧
      env.store db call = .ok db₁ ∧
      env.store db₁ (.upsertManifest
        ⟨tenantId, "github_copilot", org, report, day, "ok", call.count⟩) = .ok db' := by
  unfold replayReport at h
  split at h
  · cases (Prod.mk.inj h).1
  · next call hparse =>
    unfold storeAndRecord at h
    split at h
    · cases (Prod.mk.inj h).1
    · next n₁ db₁ hrows =>
      obtain ⟨hstore, rfl⟩ := perform_ok hrows
      split at h
      · cases (Prod.mk.inj h).1
      · next n₂ db₂ hmanifest =>
        obtain ⟨-, rfl⟩ := Prod.mk.inj h
        exact ⟨call, db₁, hparse, hstore, (perform_ok hmanifest).1⟩

/-- A payload is parsed for a known report, into rows of its table. -/
theorem parseReport_cases {tenantId org day report : String} {bytes : Bytes} {call : StoreCall}
    (h : env.parseReport tenantId org day report bytes = .ok call) :
    (report = "organization-1-day" ∧ ∃ rows, call = .upsertOrgDaily tenantId rows) ∨
      (report = "users-1-day" ∧ ∃ rows, call = .upsertUserDaily tenantId org rows) ∨
      (report = "repos-1-day" ∧ ∃ rows, call = .upsertRepoDaily tenantId org rows) ∨
      (report = "user-teams-1-day" ∧ ∃ rows, call = .upsertUserTeam tenantId org rows) ∨
      (report = seatsReportType ∧ ∃ rows, call = .upsertSeatSnapshot tenantId org rows) := by
  unfold parseReport at h
  split at h
  · next hreport =>
    obtain ⟨rows, -, rfl⟩ := map_eq_ok h
    exact .inl ⟨hreport, rows, rfl⟩
  split at h
  · next hreport =>
    obtain ⟨rows, -, rfl⟩ := map_eq_ok h
    exact .inr (.inl ⟨hreport, rows, rfl⟩)
  split at h
  · next hreport =>
    obtain ⟨rows, -, rfl⟩ := map_eq_ok h
    exact .inr (.inr (.inl ⟨hreport, rows, rfl⟩))
  split at h
  · next hreport =>
    obtain ⟨rows, -, rfl⟩ := map_eq_ok h
    exact .inr (.inr (.inr (.inl ⟨hreport, rows, rfl⟩)))
  split at h
  · next hreport =>
    obtain ⟨rows, -, rfl⟩ := map_eq_ok h
    exact .inr (.inr (.inr (.inr ⟨hreport, rows, rfl⟩)))
  · cases h

/-! ## Manifests stay known -/

theorem KnownManifests.perform {db : CopilotDb} (hdb : env.KnownManifests db) {call : StoreCall}
    (hcall : ∀ m, call = .upsertManifest m → m.reportType ∈ knownReports) :
    env.KnownManifests (env.perform db call).2 := by
  cases hstore : env.store db call with
  | error e =>
    simp only [CopilotEnv.perform, hstore]
    exact hdb
  | ok db' =>
    simp only [CopilotEnv.perform, hstore]
    cases call with
    | upsertManifest m =>
      obtain ⟨date, hdate, -, hrows, -⟩ := store_manifest hstore
      intro row hrow
      rcases hrows row hrow with hold | ⟨htype, hday⟩
      · exact hdb row hold
      · exact ⟨htype ▸ hcall m rfl, m.day, hday ▸ hdate⟩
    | _ =>
      obtain ⟨t, -, rfl⟩ := map_eq_ok hstore
      exact hdb

theorem report_known {tenantId org day report : String} {bytes : Bytes} {call : StoreCall}
    (h : env.parseReport tenantId org day report bytes = .ok call) : report ∈ knownReports := by
  rcases parseReport_cases h with ⟨rfl, -⟩ | ⟨rfl, -⟩ | ⟨rfl, -⟩ | ⟨rfl, -⟩ | ⟨rfl, -⟩ <;> decide

/-- What the writers of parsed rows keep, and the writer of manifests of known reports, every
step keeps. -/
theorem replayStep_keeps {P : CopilotDb → Prop}
    (hrows : ∀ tenantId org day report bytes call,
      env.parseReport tenantId org day report bytes = .ok call →
        ∀ db, P db → P (env.perform db call).2)
    (hmanifest : ∀ m : Manifest, m.reportType ∈ knownReports →
      ∀ db, P db → P (env.perform db (.upsertManifest m)).2)
    {db : CopilotDb} (hdb : P db) (step : ReplayStep) : P (env.replayStep db step) := by
  cases step with
  | empty tenantId org day report =>
    simp only [CopilotEnv.replayStep, recordEmpty]
    split
    · next hreport => exact hmanifest _ (List.mem_append_left _ hreport) db hdb
    · exact hdb
  | replay tenantId org day report bytes =>
    simp only [CopilotEnv.replayStep, replayReport]
    split
    · exact hdb
    · next call hparse =>
      have hstored := hrows _ _ _ _ _ call hparse db hdb
      unfold storeAndRecord
      split
      · next e db₁ hperform =>
        rw [hperform] at hstored
        exact hstored
      · next n db₁ hperform =>
        rw [hperform] at hstored
        have hend := hmanifest ⟨tenantId, "github_copilot", org, report, day, "ok", n⟩
          (report_known hparse) db₁ hstored
        split
        · next e db₂ hm =>
          rw [hm] at hend
          exact hend
        · next n' db₂ hm =>
          rw [hm] at hend
          exact hend

theorem replays_keeps {P : CopilotDb → Prop} (hempty : P CopilotDb.empty)
    (hrows : ∀ tenantId org day report bytes call,
      env.parseReport tenantId org day report bytes = .ok call →
        ∀ db, P db → P (env.perform db call).2)
    (hmanifest : ∀ m : Manifest, m.reportType ∈ knownReports →
      ∀ db, P db → P (env.perform db (.upsertManifest m)).2)
    (steps : List ReplayStep) : P (env.replays steps) := by
  have hrun (db : CopilotDb) (hdb : P db) : P (steps.foldl env.replayStep db) := by
    induction steps generalizing db with
    | nil => exact hdb
    | cons step steps ih => exact ih _ (replayStep_keeps hrows hmanifest hdb step)
  exact hrun _ hempty

theorem KnownManifests.of_rows {tenantId org day report : String} {bytes : Bytes}
    {call : StoreCall} (hparse : env.parseReport tenantId org day report bytes = .ok call)
    (db : CopilotDb) (hdb : env.KnownManifests db) : env.KnownManifests (env.perform db call).2 := by
  refine hdb.perform fun m hm => ?_
  rcases parseReport_cases hparse with
    ⟨-, rows, rfl⟩ | ⟨-, rows, rfl⟩ | ⟨-, rows, rfl⟩ | ⟨-, rows, rfl⟩ | ⟨-, rows, rfl⟩ <;>
    cases hm

theorem KnownManifests.of_manifest (m : Manifest) (hm : m.reportType ∈ knownReports)
    (db : CopilotDb) (hdb : env.KnownManifests db) :
    env.KnownManifests (env.perform db (.upsertManifest m)).2 := by
  refine hdb.perform fun m' hm' => ?_
  obtain rfl := StoreCall.upsertManifest.inj hm'
  exact hm

theorem KnownManifests.replayStep {db : CopilotDb} (hdb : env.KnownManifests db)
    (step : ReplayStep) : env.KnownManifests (env.replayStep db step) :=
  replayStep_keeps (fun _ _ _ _ _ _ => KnownManifests.of_rows) KnownManifests.of_manifest hdb step

theorem knownManifests_replays (env : CopilotEnv) (steps : List ReplayStep) :
    env.KnownManifests (env.replays steps) :=
  replays_keeps (fun _ h => (List.not_mem_nil h).elim)
    (fun _ _ _ _ _ _ => KnownManifests.of_rows) KnownManifests.of_manifest steps

/-! ## The replay of a day -/

/-- One table: with the count that verification asks for, replacing is covering. -/
theorem replaced_noDrift_iff {ρ κ γ : Type} [DecidableEq κ] {ix : TableIndex ρ κ String}
    {R : Refresh ix γ} {scope : κ → Prop} [DecidablePred scope] {bound : List ρ} {t t' : Table ix}
    (hup : t.upsertAll R bound = some t') {β : Type} {others others' : β} (hothers : others' = others)
    {noDrift : Prop}
    (hdrift : noDrift ↔ t'.rows.countP (fun r => scope (ix.key r)) = bound.length) :
    ((Table.Replaced R scope bound t t' ∧ others' = others) ∧ noDrift) ↔
      Table.Covers scope bound t := by
  rw [hdrift, ← Table.replaced_iff_covers hup]
  constructor
  · rintro ⟨⟨hrep, -⟩, hcount⟩
    exact ⟨hrep, hcount⟩
  · rintro ⟨hrep, hcount⟩
    exact ⟨⟨hrep, hothers⟩, hcount⟩

/-- After any sequence of replays and empty reports, a replay that succeeds replaces its day (the
rows stored for the tenant, the organization, the report and the day are those of the payload,
verification finds no drift for them, and no other row changes) if and only if every row of the
payload is of that day, every row stored for the day has its natural key in the payload, and no
natural key comes twice. -/
theorem replay_replaces_iff (env : CopilotEnv) (steps : List ReplayStep)
    (tenantId org day report : String) (bytes : Bytes) (n : ℕ) (db' : CopilotDb)
    (h : env.replayReport (env.replays steps) tenantId org day report bytes = (.ok n, db')) :
    ∃ call date, env.parseReport tenantId org day report bytes = .ok call ∧
      env.castDate day = some date ∧
      ((env.DayReplaced org date (env.replays steps) db' call ∧
          env.NoDrift db' tenantId org report date) ↔
        env.DayCovered org date (env.replays steps) call) := by
  have hknown' : env.KnownManifests db' := by
    have hstep := (knownManifests_replays env steps).replayStep (.replay tenantId org day report bytes)
    simp only [replayStep, h] at hstep
    exact hstep
  obtain ⟨call, db₁, hparse, hstore, hmanifest⟩ := replayReport_ok h
  obtain ⟨date, hdate, ⟨m, hm, hkey, hcount⟩, -, hdb'⟩ := store_manifest hmanifest
  refine ⟨call, date, hparse, hdate, ?_⟩
  have hround := env.castDate_dateText day date hdate
  have hdrift {k : ℕ} (hk : env.countRows db' tenantId org report date = .ok k) :
      env.NoDrift db' tenantId org report date ↔ k = call.count := by
    rw [noDrift_iff hknown' hm hkey hk, hcount]
    exact Nat.cast_inj
  rcases parseReport_cases hparse with ⟨rfl, rows, rfl⟩ | ⟨rfl, rows, rfl⟩ | ⟨rfl, rows, rfl⟩ |
    ⟨rfl, rows, rfl⟩ | ⟨rfl, rows, rfl⟩
  · obtain ⟨t, ht, rfl⟩ := map_eq_ok hstore
    obtain ⟨hup, hlen⟩ := storeRows_ok ht
    rw [hdb']
    refine replaced_noDrift_iff hup rfl ?_
    rw [← hdb', hdrift (by simp only [countRows, hround]; rfl), StoreCall.count, ← hlen, hdb']
    rfl
  · obtain ⟨t, ht, rfl⟩ := map_eq_ok hstore
    obtain ⟨hup, hlen⟩ := storeRows_ok ht
    rw [hdb']
    refine replaced_noDrift_iff hup rfl ?_
    rw [← hdb', hdrift (by simp only [countRows, hround]; rfl), StoreCall.count, ← hlen, hdb']
    rfl
  · obtain ⟨t, ht, rfl⟩ := map_eq_ok hstore
    obtain ⟨hup, hlen⟩ := storeRows_ok ht
    rw [hdb']
    refine replaced_noDrift_iff hup rfl ?_
    rw [← hdb', hdrift (by simp only [countRows, hround]; rfl), StoreCall.count, ← hlen, hdb']
    rfl
  · obtain ⟨t, ht, rfl⟩ := map_eq_ok hstore
    obtain ⟨hup, hlen⟩ := storeRows_ok ht
    rw [hdb']
    refine replaced_noDrift_iff hup rfl ?_
    rw [← hdb', hdrift (by simp only [countRows, hround]; rfl), StoreCall.count, ← hlen, hdb']
    rfl
  · obtain ⟨t, ht, rfl⟩ := map_eq_ok hstore
    obtain ⟨hup, hlen⟩ := storeRows_ok ht
    rw [hdb']
    refine replaced_noDrift_iff hup rfl ?_
    rw [← hdb', hdrift (by simp only [countRows, hround]; rfl), StoreCall.count, ← hlen, hdb']
    rfl

/-! ## A republished report -/

/-- A line of the user report. -/
def userLine (userId : String) : Bytes :=
  Utf8Text.encode
    ("\x7b\"day\":\"2026-08-05\",\"user_id\":\"" ++ userId ++ "\"\x7d").toList

/-- An environment that reads the lines of two users. -/
def republishedEnv : CopilotEnv :=
  { sampleEnv with
    userRow := fun line =>
      if line = userLine "1001" then some ⟨some "1001", none, "2026-08-05", none, none, none⟩
      else if line = userLine "1002" then
        some ⟨some "1002", none, "2026-08-05", none, none, none⟩
      else none }

/-- The report of two users, and its republished version with one of them. -/
def firstPayload : Bytes := unlines [userLine "1001", userLine "1002"]

def secondPayload : Bytes := unlines [userLine "1001"]

theorem replay_replaces_firstPayload :
    ∃ db', republishedEnv.replayReport (republishedEnv.replays []) "acme" "org-1" "2026-08-05"
        "users-1-day" firstPayload = (.ok 2, db') ∧
      ∃ call date, republishedEnv.parseReport "acme" "org-1" "2026-08-05" "users-1-day"
          firstPayload = .ok call ∧
        republishedEnv.castDate "2026-08-05" = some date ∧
        ((republishedEnv.DayReplaced "org-1" date (republishedEnv.replays []) db' call ∧
            republishedEnv.NoDrift db' "acme" "org-1" "users-1-day" date) ↔
          republishedEnv.DayCovered "org-1" date (republishedEnv.replays []) call) := by
  have hok : republishedEnv.replayReport (republishedEnv.replays []) "acme" "org-1" "2026-08-05"
      "users-1-day" firstPayload = (.ok 2, (republishedEnv.replayReport
        (republishedEnv.replays []) "acme" "org-1" "2026-08-05" "users-1-day" firstPayload).2) :=
    Prod.ext (by decide +kernel) rfl
  exact ⟨_, hok, replay_replaces_iff republishedEnv [] "acme" "org-1" "2026-08-05" "users-1-day"
    firstPayload 2 _ hok⟩

/-- The republished report is stored, but the row of the user that it dropped stays, and
verification reports one row too many. -/
theorem dropped_user_stays :
    let before := republishedEnv.replays
      [.replay "acme" "org-1" "2026-08-05" "users-1-day" firstPayload]
    let after := republishedEnv.replayReport before "acme" "org-1" "2026-08-05" "users-1-day"
      secondPayload
    after.1 = .ok 1 ∧ after.2.userDailys.rows.map UserDailyRow.providerUserId = ["1001", "1002"] ∧
      ¬ republishedEnv.NoDrift after.2 "acme" "org-1" "users-1-day" 5 := by
  intro before after
  obtain ⟨hok, hrows, hfound⟩ :
      after.1 = .ok 1 ∧
      after.2.userDailys.rows.map UserDailyRow.providerUserId = ["1001", "1002"] ∧
      republishedEnv.verifyManifests after.2 "acme" "github_copilot" "org-1" =
        .ok [⟨"2026-08-05", "users-1-day", "ok", 1, 2⟩] := by
    decide +kernel
  refine ⟨hok, hrows, ?_⟩
  rintro ⟨drift, hdrift, hnone⟩
  obtain rfl := Except.ok.inj (hdrift.symm.trans hfound)
  exact hnone _ List.mem_cons_self ⟨rfl, rfl⟩

end CopilotEnv

end Governance
