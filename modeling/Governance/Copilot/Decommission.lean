import Governance.Lib.Runs
import Governance.Copilot.Cutover

/-!
# What a decommission destroys

The gate of `decommission` compares counts, for one tenant and one organization, and leaves out
manifests that are `empty`; the drop takes the tables of everybody. A row can be lost where the
gate does not look: when the object of its report is replaced, or its manifest rewritten, by a
step that does not write the row again.

`StepKeeps` says of one step that it does not do this. Along a run of such steps every row is
still produced by the object archived for its own report, or else the gate finds the manifest of
the row wrong.
-/

namespace Governance

open ByteLines

/-! ## Facts and their data -/

namespace DayFact

theorem naturalKey_data (f : DayFact) : f.data.naturalKey = f.naturalKey := by
  cases f <;> rfl

theorem tenantId_data (f : DayFact) : f.data.tenantId = f.tenantId := by
  cases f <;> rfl

theorem day_data (f : DayFact) : f.data.day = f.day := by
  cases f <;> rfl

theorem report_data (f : DayFact) : f.data.report = f.report := by
  cases f <;> rfl

theorem data_org {w r : OrgDailyRow} (hkey : OrgDailyRow.index.key w = OrgDailyRow.index.key r)
    (hcols : OrgDailyRow.refresh.cols w = OrgDailyRow.refresh.cols r) :
    (org w).data = (org r).data := by
  cases w
  cases r
  simp only [OrgDailyRow.index, OrgDailyRow.refresh, DayKey.mk.injEq, Prod.mk.injEq] at hkey hcols
  simp only [data, hkey, hcols]

theorem data_user {w r : UserDailyRow} (hkey : UserDailyRow.index.key w = UserDailyRow.index.key r)
    (hcols : UserDailyRow.refresh.cols w = UserDailyRow.refresh.cols r) :
    (user w).data = (user r).data := by
  cases w
  cases r
  simp only [UserDailyRow.index, UserDailyRow.refresh, DayKey.mk.injEq, Prod.mk.injEq] at hkey hcols
  simp only [data, hkey, hcols]

theorem data_repo {w r : RepoDailyRow} (hkey : RepoDailyRow.index.key w = RepoDailyRow.index.key r)
    (hcols : RepoDailyRow.refresh.cols w = RepoDailyRow.refresh.cols r) :
    (repo w).data = (repo r).data := by
  cases w
  cases r
  simp only [RepoDailyRow.index, RepoDailyRow.refresh, DayKey.mk.injEq, Prod.mk.injEq] at hkey hcols
  simp only [data, hkey, hcols]

theorem data_seat {w r : SeatSnapshotRow}
    (hkey : SeatSnapshotRow.index.key w = SeatSnapshotRow.index.key r)
    (hcols : SeatSnapshotRow.refresh.cols w = SeatSnapshotRow.refresh.cols r) :
    (seat w).data = (seat r).data := by
  cases w
  cases r
  simp only [SeatSnapshotRow.index, SeatSnapshotRow.refresh, DayKey.mk.injEq, Prod.mk.injEq]
    at hkey hcols
  simp only [data, hkey, hcols]

end DayFact

theorem CopilotDb.mem_facts {db : CopilotDb} {f : DayFact} : f ∈ db.facts ↔
    match f with
    | .org row => row ∈ db.orgDailys.rows
    | .user row => row ∈ db.userDailys.rows
    | .repo row => row ∈ db.repoDailys.rows
    | .seat row => row ∈ db.seatSnapshots.rows := by
  cases f <;> simp [CopilotDb.facts, CopilotDb.factsOf, copilotDayTables]

namespace CopilotEnv

variable (env : CopilotEnv)

/-- The rows that a call writes to the dropped tables. -/
def factsOfCall : StoreCall → List DayFact
  | .upsertOrgDaily tenantId rows => (rows.filterMap (env.orgDailyRow tenantId)).map .org
  | .upsertUserDaily tenantId organizationId rows =>
    (rows.filterMap (env.userDailyRow tenantId organizationId)).map .user
  | .upsertRepoDaily tenantId organizationId rows =>
    (rows.filterMap (env.repoDailyRow tenantId organizationId)).map .repo
  | .upsertUserTeam _ _ _ => []
  | .upsertSeatSnapshot tenantId organizationId rows =>
    (rows.filterMap (env.seatSnapshotRow tenantId organizationId)).map .seat
  | .upsertManifest _ => []

/-! ## Rows and the objects of their reports -/

/-- Parsing the bytes as the report of a row, for its tenant and its day, produces the row. -/
def Produces (org : String) (bytes : Bytes) (f : DayFact) : Prop :=
  ∃ call, env.parseReport f.tenantId org (env.dateText f.day) f.report bytes = .ok call ∧
    ∃ g ∈ env.factsOfCall call, g.data = f.data

instance (org : String) (bytes : Bytes) (f : DayFact) : Decidable (env.Produces org bytes f) :=
  match h : env.parseReport f.tenantId org (env.dateText f.day) f.report bytes with
  | .error _ => .isFalse fun ⟨_, hcall, _⟩ => nomatch h.symm.trans hcall
  | .ok call => decidable_of_iff (∃ g ∈ env.factsOfCall call, g.data = f.data)
    ⟨fun hg => ⟨call, h, hg⟩, fun ⟨_, hcall, hg⟩ => Except.ok.inj (h.symm.trans hcall) ▸ hg⟩

/-- The object archived for the organization, the day and the report of a row produces it. -/
def Backed (archive : Archive) (org : String) (f : DayFact) : Prop :=
  ∃ bytes, archive (archivedKey org f.report (env.dateText f.day)) = some bytes ∧
    env.Produces org bytes f

/-- The archived report of its own organization, day and report produces the row again. The row of
an organization report does not name the organization it was requested for. -/
def Replayable (archive : Archive) (f : DayFact) : Prop := ∃ org, env.Backed archive org f

/-- The manifest of a row in the eyes of an operator. -/
def ownManifest (cfg : SyncConfig) (f : DayFact) : ManifestKey :=
  ⟨cfg.tenantId, "github_copilot", cfg.org, f.day, f.report⟩

/-- The row is of the tenant and the organization of the operator, and the gate finds its manifest
wrong. -/
def Flagged (cfg : SyncConfig) (manifests : Table ManifestRow.index) (archive : Archive)
    (org : String) (f : DayFact) : Prop :=
  f.tenantId = cfg.tenantId ∧ org = cfg.org ∧ ∃ m,
    manifests.get? (ownManifest cfg f) = some m ∧ (env.countMismatch cfg archive m).isSome

/-- The row is backed, or the gate will stop. -/
def Held (cfg : SyncConfig) (s : SyncState) (org : String) (f : DayFact) : Prop :=
  env.Backed s.archive org f ∨ env.Flagged cfg s.db.manifests s.archive org f

/-! ## Steps that keep the rows -/

/-- A step that leaves `archive`, writes the rows `written` and rewrites the manifest `recorded`
takes nothing away: every stored row that it does not write again is produced by the object that
is archived for it then, or it is the operator's and its manifest, which the step leaves alone, is
not `empty` and has another count than that object. -/
def Keeps (cfg : SyncConfig) (s : SyncState) (archive : Archive) (written : List DayFact)
    (recorded : Option ManifestKey) : Prop :=
  ∀ f ∈ s.db.facts, f.naturalKey ∉ written.map DayFact.naturalKey → ∀ org, env.Held cfg s org f →
    env.Backed archive org f ∨
      env.Flagged cfg s.db.manifests archive org f ∧ recorded ≠ some (ownManifest cfg f)

/-- The natural key of the manifest of a report, if its day is a date. -/
def manifestKey (tenantId org day report : String) : Option ManifestKey :=
  (env.castDate day).map fun date => ⟨tenantId, "github_copilot", org, date, report⟩

/-- The rows that a replay stores and the manifest that it records. -/
def replayEffect (a : Attempt) (db : CopilotDb) (tenantId org day report : String) (bytes : Bytes) :
    List DayFact × Option ManifestKey :=
  match env.parseReport tenantId org day report bytes with
  | .error _ => ([], none)
  | .ok call =>
    match env.performWhen a.stored db call with
    | (.error _, _) => ([], none)
    | (.ok _, _) =>
      (env.factsOfCall call, if a.recorded then env.manifestKey tenantId org day report else none)

/-- Bytes that are archived under a key, and replayed with some effect: the rows stored are of the
requested day, the key is the one of their report, and no other row loses its object. -/
structure PayloadKeeps (cfg : SyncConfig) (s : SyncState) (org day report key : String)
    (bytes : Bytes) (effect : List DayFact × Option ManifestKey) : Prop where
  own : ∀ f ∈ effect.1, env.dateText f.day = day ∧ archivedKey org report day = key
  keeps : env.Keeps cfg s (Function.update s.archive key (some bytes)) effect.1 effect.2

/-- The end of `ingest_one` and of `sync_seats`. -/
def IngestKeeps (op cfg : SyncConfig) (day report key : String) (bytes : Bytes) (a : Attempt)
    (s : SyncState) : Prop :=
  a.archived = true → env.PayloadKeeps op s cfg.org day report key bytes
    (if cfg.freezeWrites then ([], none)
     else env.replayEffect a s.db cfg.tenantId cfg.org day report bytes)

/-- `ingest_one`. -/
def ReportKeeps (op cfg : SyncConfig) (day report : String) (a : Attempt) (s : SyncState) : Prop :=
  match a.fetched with
  | .error => True
  | .empty => cfg.freezeWrites = false → a.recorded = true →
    env.Keeps op s s.archive [] (env.manifestKey cfg.tenantId cfg.org day report)
  | .payload bytes =>
    env.IngestKeeps op cfg day report (archiveKey cfg.org report day) bytes a s

/-- The loop of `sync_day`. -/
def ReportsKeep (op cfg : SyncConfig) (day : String) (attempt : String → Attempt) :
    List String → SyncState → Prop
  | [], _ => True
  | report :: rest, s => env.ReportKeeps op cfg day report (attempt report) s ∧
    match env.ingestOne cfg day report (attempt report) s with
    | (.error _, _) => True
    | (.ok _, s) => ReportsKeep op cfg day attempt rest s

/-- The reports of a day that is replayed. -/
def KeysKeep (op cfg : SyncConfig) (ds : String) (attempt : String → Attempt) :
    List String → SyncState → Prop
  | [], _ => True
  | key :: keys, s =>
    match s.read (attempt key).archived key with
    | none => True
    | some bytes =>
      env.PayloadKeeps op s cfg.org ds (reportOfKey key) key bytes
        (env.replayEffect (attempt key) s.db cfg.tenantId cfg.org ds (reportOfKey key) bytes) ∧
      match env.replayAttempt (attempt key) s.db cfg.tenantId cfg.org ds (reportOfKey key)
          bytes with
      | (.error _, _) => True
      | (.ok _, db) => KeysKeep op cfg ds attempt keys { s with db := db }

/-- The loop of `run_replay`; under a freeze it writes nothing. -/
def DaysKeep (op cfg : SyncConfig) (run : ReplayRun) : List ℤ → SyncState → Prop
  | [], _ => True
  | day :: days, s =>
    (∀ keys, run.listDay (env.dateText day) = some keys → cfg.freezeWrites = false →
      env.KeysKeep op cfg (env.dateText day) run.attempt keys s) ∧
    match env.replayDay cfg run (env.dateText day) s with
    | (.error _, _) => True
    | (.ok _, s) => DaysKeep op cfg run days s

/-- No part of the step takes a row away, for the operator `op` of the gate. -/
def StepKeeps (op : SyncConfig) (s : SyncState) : CutoverAction → Prop
  | .syncDay cfg day a => a.token = true → env.ReportsKeep op cfg day a.attempt reports s
  | .syncSeats cfg snapshotDay a => a.token = true → ∀ bytes,
    (a.attempt seatsReportType).fetched = .payload bytes →
      env.IngestKeeps op cfg snapshotDay seatsReportType (seatsArchiveKey cfg.org snapshotDay) bytes
        (a.attempt seatsReportType) s
  | .replay cfg run => env.DaysKeep op cfg run (daysDown run.first run.last).reverse s
  | .overwrite key bytes =>
    env.Keeps op s (Function.update s.archive key (some bytes)) [] none

/-! ## What a writer does to the facts -/

/-- The facts after a write are those written, up to their ids, and the ones that were there and
were not written; a manifest that was not recorded is as it was. -/
structure Writes (db db' : CopilotDb) (written : List DayFact) (recorded : Option ManifestKey) :
    Prop where
  facts : ∀ f ∈ db'.facts, (∃ g ∈ written, g.data = f.data) ∨
    f ∈ db.facts ∧ f.naturalKey ∉ written.map DayFact.naturalKey
  manifests : ∀ k, recorded ≠ some k → db'.manifests.get? k = db.manifests.get? k

theorem Writes.refl (db : CopilotDb) (recorded : Option ManifestKey) :
    Writes db db [] recorded :=
  ⟨fun _ hf => .inr ⟨hf, List.not_mem_nil⟩, fun _ _ => rfl⟩

variable {env}

/-- The rows of a table after a write. -/
theorem mem_storeRows {ρ κ γ σ : Type} [DecidableEq κ] {ix : TableIndex ρ κ String}
    {R : Refresh ix γ} {bindRow : σ → Option ρ} {rows : List σ} {t t' : Table ix}
    (h : storeRows R bindRow rows t = .ok t') {toFact : ρ → DayFact}
    (hdata : ∀ {w r}, ix.key w = ix.key r → R.cols w = R.cols r → (toFact w).data = (toFact r).data)
    (hkey : ∀ {w r}, (toFact w).naturalKey = (toFact r).naturalKey → ix.key w = ix.key r)
    {r : ρ} (hr : r ∈ t'.rows) :
    (∃ g ∈ (rows.filterMap bindRow).map toFact, g.data = (toFact r).data) ∨
      r ∈ t.rows ∧ (toFact r).naturalKey ∉
        ((rows.filterMap bindRow).map toFact).map DayFact.naturalKey := by
  rcases Table.mem_upsertAll (storeRows_ok h).1 hr with ⟨w, hw, hwkey, hwcols⟩ | ⟨hold, hnot⟩
  · exact .inl ⟨toFact w, List.mem_map_of_mem hw, hdata hwkey hwcols⟩
  · refine .inr ⟨hold, ?_⟩
    intro hmem
    obtain ⟨g, hg, hgkey⟩ := List.mem_map.mp hmem
    obtain ⟨w, hw, rfl⟩ := List.mem_map.mp hg
    exact hnot (hkey hgkey ▸ List.mem_map_of_mem hw)

/-- What each writer of rows does to the dropped tables: it leaves all tables but its own alone. -/
theorem writes_store {db db' : CopilotDb} {call : StoreCall} (h : env.store db call = .ok db')
    (hrows : ∀ m, call ≠ .upsertManifest m) : Writes db db' (env.factsOfCall call) none := by
  cases call with
  | upsertOrgDaily tenantId rows =>
    obtain ⟨t, ht, rfl⟩ := map_eq_ok h
    refine ⟨?_, fun _ _ => rfl⟩
    intro f hf
    rw [CopilotDb.mem_facts] at hf ⊢
    cases f with
    | org row => exact mem_storeRows ht DayFact.data_org (fun hk => congrArg (fun k => k.2.1) hk) hf
    | user row | repo row | seat row =>
      exact .inr ⟨hf, by simp [factsOfCall, DayFact.naturalKey]⟩
  | upsertUserDaily tenantId organizationId rows =>
    obtain ⟨t, ht, rfl⟩ := map_eq_ok h
    refine ⟨?_, fun _ _ => rfl⟩
    intro f hf
    rw [CopilotDb.mem_facts] at hf ⊢
    cases f with
    | user row => exact mem_storeRows ht DayFact.data_user (congrArg Prod.snd) hf
    | org row | repo row | seat row =>
      exact .inr ⟨hf, by simp [factsOfCall, DayFact.naturalKey]⟩
  | upsertRepoDaily tenantId organizationId rows =>
    obtain ⟨t, ht, rfl⟩ := map_eq_ok h
    refine ⟨?_, fun _ _ => rfl⟩
    intro f hf
    rw [CopilotDb.mem_facts] at hf ⊢
    cases f with
    | repo row => exact mem_storeRows ht DayFact.data_repo (congrArg Prod.snd) hf
    | org row | user row | seat row =>
      exact .inr ⟨hf, by simp [factsOfCall, DayFact.naturalKey]⟩
  | upsertSeatSnapshot tenantId organizationId rows =>
    obtain ⟨t, ht, rfl⟩ := map_eq_ok h
    refine ⟨?_, fun _ _ => rfl⟩
    intro f hf
    rw [CopilotDb.mem_facts] at hf ⊢
    cases f with
    | seat row => exact mem_storeRows ht DayFact.data_seat (congrArg Prod.snd) hf
    | org row | user row | repo row =>
      exact .inr ⟨hf, by simp [factsOfCall, DayFact.naturalKey]⟩
  | upsertUserTeam tenantId organizationId rows =>
    obtain ⟨t, -, rfl⟩ := map_eq_ok h
    refine ⟨fun f hf => .inr ⟨?_, List.not_mem_nil⟩, fun _ _ => rfl⟩
    rw [CopilotDb.mem_facts] at hf ⊢
    exact hf
  | upsertManifest m => exact (hrows m rfl).elim

/-- A manifest statement leaves the dropped tables and the other manifests alone. -/
theorem writes_manifest {db db' : CopilotDb} {m : Manifest}
    (h : env.store db (.upsertManifest m) = .ok db') (hprovider : m.provider = "github_copilot") :
    Writes db db' [] (env.manifestKey m.tenantId m.scopeId m.day m.reportType) := by
  obtain ⟨t, ht, rfl⟩ := map_eq_ok h
  refine ⟨fun f hf => .inr ⟨?_, List.not_mem_nil⟩, ?_⟩
  · rw [CopilotDb.mem_facts] at hf ⊢
    exact hf
  · intro k hk
    refine Table.get?_upsertAll_of_notMem (storeRows_ok ht).1 ?_
    intro hmem
    obtain ⟨row, hrow, rfl⟩ := List.mem_map.mp hmem
    obtain ⟨m', hm', hbound⟩ := List.mem_filterMap.mp hrow
    obtain rfl := List.mem_singleton.mp hm'
    obtain ⟨date, hdate, rfl⟩ := Option.map_eq_some_iff.mp hbound
    apply hk
    simp only [manifestKey, hdate, Option.map_some, ManifestRow.index, hprovider]

theorem Writes.trans {db db₁ db₂ : CopilotDb} {written : List DayFact}
    {recorded : Option ManifestKey} (hrows : Writes db db₁ written none)
    (hmanifest : Writes db₁ db₂ [] recorded) :
    Writes db db₂ written recorded where
  facts f hf := by
    rcases hmanifest.facts f hf with ⟨g, hg, -⟩ | ⟨hf, -⟩
    · exact (List.not_mem_nil hg).elim
    · exact hrows.facts f hf
  manifests k hk := by
    rw [hmanifest.manifests k hk, hrows.manifests k (Option.some_ne_none k).symm]

theorem performWhen_ok {up : Bool} {db db' : CopilotDb} {call : StoreCall} {n : ℕ}
    (h : env.performWhen up db call = (.ok n, db')) : up = true ∧ env.store db call = .ok db' := by
  unfold performWhen at h
  split at h
  · next hup => exact ⟨hup, (perform_ok h).1⟩
  · cases (Prod.mk.inj h).1

theorem performWhen_error {up : Bool} {db db' : CopilotDb} {call : StoreCall} {e : StorageError}
    (h : env.performWhen up db call = (.error e, db')) : db' = db := by
  unfold performWhen at h
  split at h
  · unfold perform at h
    split at h
    · cases (Prod.mk.inj h).1
    · exact (Prod.mk.inj h).2.symm
  · exact (Prod.mk.inj h).2.symm

/-- The manifest of an attempt, whether or not it is recorded. -/
theorem writes_performWhen (up : Bool) (db : CopilotDb) {m : Manifest}
    (hprovider : m.provider = "github_copilot") :
    Writes db (env.performWhen up db (.upsertManifest m)).2 []
      (if up then env.manifestKey m.tenantId m.scopeId m.day m.reportType else none) := by
  cases hperform : env.performWhen up db (.upsertManifest m) with
  | mk outcome db' =>
    cases outcome with
    | error e =>
      obtain rfl := performWhen_error hperform
      exact Writes.refl _ _
    | ok n =>
      obtain ⟨rfl, hstore⟩ := performWhen_ok hperform
      exact writes_manifest hstore hprovider

/-- A replay does what its effect says. -/
theorem writes_replayAttempt (a : Attempt) (db : CopilotDb) (tenantId org day report : String)
    (bytes : Bytes) :
    Writes db (env.replayAttempt a db tenantId org day report bytes).2
      (env.replayEffect a db tenantId org day report bytes).1
      (env.replayEffect a db tenantId org day report bytes).2 := by
  unfold replayAttempt replayEffect
  cases hparse : env.parseReport tenantId org day report bytes with
  | error e => exact Writes.refl _ _
  | ok call =>
    cases hperform : env.performWhen a.stored db call with
    | mk outcome db₁ =>
      simp only [hperform]
      cases outcome with
      | error e =>
        obtain rfl := performWhen_error hperform
        exact Writes.refl _ _
      | ok n =>
        have hrows : Writes db db₁ (env.factsOfCall call) none := by
          refine writes_store (performWhen_ok hperform).2 ?_
          rintro m rfl
          rcases parseReport_cases hparse with
            ⟨-, _, h⟩ | ⟨-, _, h⟩ | ⟨-, _, h⟩ | ⟨-, _, h⟩ | ⟨-, _, h⟩ <;> cases h
        have hmanifest : Writes db₁ (env.performWhen a.recorded db₁ (.upsertManifest
            ⟨tenantId, "github_copilot", org, report, day, "ok", n⟩)).2 []
            (if a.recorded then env.manifestKey tenantId org day report else none) :=
          writes_performWhen a.recorded db₁ rfl
        dsimp only
        generalize env.performWhen a.recorded db₁ (.upsertManifest
          ⟨tenantId, "github_copilot", org, report, day, "ok", n⟩) = result at hmanifest ⊢
        obtain ⟨outcome, db₂⟩ := result
        cases outcome with
        | error e => exact hrows.trans hmanifest
        | ok k => exact hrows.trans hmanifest

/-! ## The rows that a step writes -/

/-- The facts of a payload are of its tenant and of its report. -/
theorem mem_factsOfCall {tenantId org day report : String} {bytes : Bytes} {call : StoreCall}
    (h : env.parseReport tenantId org day report bytes = .ok call) {f : DayFact}
    (hf : f ∈ env.factsOfCall call) : f.tenantId = tenantId ∧ f.report = report := by
  rcases parseReport_cases h with ⟨rfl, rows, rfl⟩ | ⟨rfl, rows, rfl⟩ | ⟨rfl, rows, rfl⟩ |
    ⟨rfl, rows, rfl⟩ | ⟨rfl, rows, rfl⟩
  · obtain ⟨row, hrow, rfl⟩ := List.mem_map.mp hf
    obtain ⟨r, -, hbound⟩ := List.mem_filterMap.mp hrow
    obtain ⟨date, -, rfl⟩ := Option.map_eq_some_iff.mp hbound
    exact ⟨rfl, rfl⟩
  · obtain ⟨row, hrow, rfl⟩ := List.mem_map.mp hf
    obtain ⟨r, -, hbound⟩ := List.mem_filterMap.mp hrow
    obtain ⟨date, -, rfl⟩ := Option.map_eq_some_iff.mp hbound
    exact ⟨rfl, rfl⟩
  · obtain ⟨row, hrow, rfl⟩ := List.mem_map.mp hf
    obtain ⟨r, -, hbound⟩ := List.mem_filterMap.mp hrow
    obtain ⟨date, -, rfl⟩ := Option.map_eq_some_iff.mp hbound
    exact ⟨rfl, rfl⟩
  · exact (List.not_mem_nil hf).elim
  · obtain ⟨row, hrow, rfl⟩ := List.mem_map.mp hf
    obtain ⟨r, -, hbound⟩ := List.mem_filterMap.mp hrow
    obtain ⟨date, -, rfl⟩ := Option.map_eq_some_iff.mp hbound
    exact ⟨rfl, rfl⟩

/-- The rows of an effect are rows of the payload. -/
theorem mem_replayEffect {a : Attempt} {db : CopilotDb} {tenantId org day report : String}
    {bytes : Bytes} {f : DayFact}
    (hf : f ∈ (env.replayEffect a db tenantId org day report bytes).1) :
    ∃ call, env.parseReport tenantId org day report bytes = .ok call ∧
      f ∈ env.factsOfCall call := by
  unfold replayEffect at hf
  split at hf
  · exact (List.not_mem_nil hf).elim
  · next call hparse =>
    split at hf
    · exact (List.not_mem_nil hf).elim
    · exact ⟨call, hparse, hf⟩

/-- A row written from a payload of its own day is produced by the payload, archived under the
key of its report. -/
theorem backed_of_written {archive : Archive} {tenantId org day report : String} {bytes : Bytes}
    {call : StoreCall} (hparse : env.parseReport tenantId org day report bytes = .ok call)
    (harchive : archive (archivedKey org report day) = some bytes) {f g : DayFact}
    (hg : g ∈ env.factsOfCall call) (hday : env.dateText g.day = day) (hdata : g.data = f.data) :
    env.Backed archive org f := by
  obtain ⟨htenant, hreport⟩ := mem_factsOfCall hparse hg
  have hftenant : f.tenantId = tenantId := by
    rw [← f.tenantId_data, ← hdata, g.tenantId_data, htenant]
  have hfreport : f.report = report := by
    rw [← f.report_data, ← hdata, g.report_data, hreport]
  have hfday : env.dateText f.day = day := by
    rw [← f.day_data, ← hdata, g.day_data, hday]
  refine ⟨bytes, by rw [hfreport, hfday, harchive], call, ?_, g, hg, hdata⟩
  rw [hftenant, hfday, hfreport]
  exact hparse

/-! ## The invariant -/

/-- Every row is backed, or the gate will stop. -/
def AllHeld (env : CopilotEnv) (op : SyncConfig) (s : SyncState) : Prop :=
  ∀ f ∈ s.db.facts, ∃ org, env.Held op s org f

variable {op : SyncConfig} {s : SyncState}

theorem allHeld_empty (env : CopilotEnv) (op : SyncConfig) : env.AllHeld op SyncState.empty := by
  intro f hf
  rw [CopilotDb.mem_facts] at hf
  cases f with
  | org row | user row | repo row | seat row => exact (List.not_mem_nil hf).elim

/-- A write that keeps the rows and backs those that it writes. -/
theorem AllHeld.write (h : env.AllHeld op s) {db' : CopilotDb} {archive : Archive}
    {written : List DayFact} {recorded : Option ManifestKey}
    (hwrites : Writes s.db db' written recorded) (hkeeps : env.Keeps op s archive written recorded)
    (hown : ∀ f, ∀ g ∈ written, g.data = f.data → ∃ org, env.Backed archive org f) :
    env.AllHeld op ⟨db', archive⟩ := by
  intro f hf
  rcases hwrites.facts f hf with ⟨g, hg, hdata⟩ | ⟨hold, hnot⟩
  · obtain ⟨org, hbacked⟩ := hown f g hg hdata
    exact ⟨org, .inl hbacked⟩
  · obtain ⟨org, hheld⟩ := h f hold
    refine ⟨org, ?_⟩
    rcases hkeeps f hold hnot org hheld with hbacked | ⟨⟨htenant, horg, m, hm, hmismatch⟩, hrec⟩
    · exact .inl hbacked
    · exact .inr ⟨htenant, horg, m, (hwrites.manifests _ hrec).trans hm, hmismatch⟩

/-- A write of nothing but a manifest or an object. -/
theorem AllHeld.rewrite (h : env.AllHeld op s) {db' : CopilotDb} {archive : Archive}
    {recorded : Option ManifestKey} (hwrites : Writes s.db db' [] recorded)
    (hkeeps : env.Keeps op s archive [] recorded) : env.AllHeld op ⟨db', archive⟩ :=
  h.write hwrites hkeeps fun _ _ hg => (List.not_mem_nil hg).elim

theorem AllHeld.payload (h : env.AllHeld op s) {tenantId org day report key : String}
    {bytes : Bytes} {a : Attempt}
    (hkeeps : env.PayloadKeeps op s org day report key bytes
      (env.replayEffect a s.db tenantId org day report bytes)) :
    env.AllHeld op ⟨(env.replayAttempt a s.db tenantId org day report bytes).2,
      Function.update s.archive key (some bytes)⟩ := by
  refine h.write (writes_replayAttempt a s.db tenantId org day report bytes) hkeeps.keeps ?_
  intro f g hg hdata
  obtain ⟨hday, hkey⟩ := hkeeps.own g hg
  obtain ⟨call, hparse, hcall⟩ := mem_replayEffect hg
  refine ⟨org, backed_of_written hparse ?_ hcall hday hdata⟩
  rw [hkey, Function.update_self]

theorem AllHeld.ingestPayload (h : env.AllHeld op s) {cfg : SyncConfig} {day report key : String}
    {bytes : Bytes} {a : Attempt} (hkeeps : env.IngestKeeps op cfg day report key bytes a s) :
    env.AllHeld op (env.ingestPayload cfg day report key bytes a s).2 := by
  unfold CopilotEnv.ingestPayload
  cases harchived : a.archived with
  | false => exact h
  | true =>
    have hpayload := hkeeps harchived
    simp only [Bool.not_true, Bool.false_eq_true, if_false]
    cases hfreeze : cfg.freezeWrites with
    | true =>
      rw [hfreeze, if_pos rfl] at hpayload
      have hwritten := h.rewrite (Writes.refl s.db none) hpayload.keeps
      simp only [if_true]
      split
      · exact hwritten
      · exact hwritten
    | false =>
      rw [hfreeze, if_neg Bool.false_ne_true] at hpayload
      have hwritten := h.payload hpayload
      simp only [Bool.false_eq_true, if_false]
      split
      · next hreplay =>
        rw [show env.replayAttempt a s.db cfg.tenantId cfg.org day report bytes = _ from hreplay]
          at hwritten
        exact hwritten
      · next hreplay =>
        rw [show env.replayAttempt a s.db cfg.tenantId cfg.org day report bytes = _ from hreplay]
          at hwritten
        exact hwritten

/-- One report of a day. -/
theorem AllHeld.ingestOne (h : env.AllHeld op s) {cfg : SyncConfig} {day report : String}
    {a : Attempt} (hkeeps : env.ReportKeeps op cfg day report a s) :
    env.AllHeld op (env.ingestOne cfg day report a s).2 := by
  unfold ReportKeeps at hkeeps
  unfold CopilotEnv.ingestOne
  cases hfetched : a.fetched with
  | error => exact h
  | payload bytes =>
    rw [hfetched] at hkeeps
    exact h.ingestPayload hkeeps
  | empty =>
    rw [hfetched] at hkeeps
    cases hfreeze : cfg.freezeWrites with
    | true => exact h
    | false =>
      have hwrites : Writes s.db (env.performWhen a.recorded s.db (.upsertManifest
          ⟨cfg.tenantId, "github_copilot", cfg.org, report, day, "empty", 0⟩)).2 []
          (if a.recorded then env.manifestKey cfg.tenantId cfg.org day report else none) :=
        writes_performWhen a.recorded s.db rfl
      have hwritten : env.AllHeld op ⟨(env.performWhen a.recorded s.db (.upsertManifest
          ⟨cfg.tenantId, "github_copilot", cfg.org, report, day, "empty", 0⟩)).2, s.archive⟩ := by
        cases hrecorded : a.recorded with
        | false => exact h
        | true =>
          rw [hrecorded, if_pos rfl] at hwrites
          exact h.rewrite hwrites (hkeeps hfreeze hrecorded)
      simp only [Bool.false_eq_true, if_false]
      split
      · next hperform =>
        rw [hperform] at hwritten
        exact hwritten
      · next hperform =>
        rw [hperform] at hwritten
        exact hwritten

theorem AllHeld.syncReports {cfg : SyncConfig} {day : String} {attempt : String → Attempt}
    {rest : List String} (h : env.AllHeld op s)
    (hkeeps : env.ReportsKeep op cfg day attempt rest s) :
    env.AllHeld op (env.syncReports cfg day attempt rest s).2 := by
  induction rest generalizing s with
  | nil => exact h
  | cons report rest ih =>
    obtain ⟨hreport, hrest⟩ := hkeeps
    have hone := h.ingestOne hreport
    unfold CopilotEnv.syncReports
    cases hingest : env.ingestOne cfg day report (attempt report) s with
    | mk outcome s₁ =>
      rw [hingest] at hone hrest
      cases outcome with
      | error e => exact hone
      | ok outcome =>
        have hend := ih hone hrest
        dsimp only
        split
        · next heq =>
          rw [heq] at hend
          exact hend
        · next heq =>
          rw [heq] at hend
          exact hend

theorem AllHeld.replayKeys {cfg : SyncConfig} {ds : String} {attempt : String → Attempt}
    {keys : List String} (h : env.AllHeld op s)
    (hkeeps : env.KeysKeep op cfg ds attempt keys s) :
    env.AllHeld op (env.replayKeys cfg ds attempt keys s).2 := by
  induction keys generalizing s with
  | nil => exact h
  | cons key keys ih =>
    unfold KeysKeep at hkeeps
    unfold CopilotEnv.replayKeys
    cases hread : s.read (attempt key).archived key with
    | none => exact h
    | some bytes =>
      rw [hread] at hkeeps
      obtain ⟨hpayload, hrest⟩ := hkeeps
      have harchive : Function.update s.archive key (some bytes) = s.archive := by
        rw [Function.update_eq_self_iff]
        unfold SyncState.read at hread
        split at hread
        · exact hread.symm
        · cases hread
      have hone := h.payload hpayload
      rw [harchive] at hone
      dsimp only
      cases hreplay : env.replayAttempt (attempt key) s.db cfg.tenantId cfg.org ds
          (reportOfKey key) bytes with
      | mk outcome db =>
        rw [hreplay] at hone hrest
        cases outcome with
        | error e => exact hone
        | ok n => exact ih hone hrest

theorem AllHeld.replayDays {cfg : SyncConfig} {run : ReplayRun} {days : List ℤ}
    (h : env.AllHeld op s) (hkeeps : env.DaysKeep op cfg run days s) :
    env.AllHeld op (env.replayDays cfg run days s).2 := by
  induction days generalizing s with
  | nil => exact h
  | cons day days ih =>
    obtain ⟨hday, hrest⟩ := hkeeps
    have hone : env.AllHeld op (env.replayDay cfg run (env.dateText day) s).2 := by
      unfold CopilotEnv.replayDay
      cases hlist : run.listDay (env.dateText day) with
      | none => exact h
      | some keys =>
        cases hfreeze : cfg.freezeWrites with
        | false => exact h.replayKeys (hday keys hlist hfreeze)
        | true =>
          simp only [if_true]
          split
          · exact h
          · split
            · exact h
            · exact h
    unfold CopilotEnv.replayDays
    cases hreplay : env.replayDay cfg run (env.dateText day) s with
    | mk outcome s₁ =>
      rw [hreplay] at hone hrest
      cases outcome with
      | error e => exact hone
      | ok n => exact ih hone hrest

theorem AllHeld.step (h : env.AllHeld op s) {action : CutoverAction}
    (hkeeps : env.StepKeeps op s action) : env.AllHeld op (env.cutoverStep s action) := by
  cases action with
  | syncDay cfg day a =>
    simp only [cutoverStep, syncDay]
    split
    · next htoken => exact h.syncReports (hkeeps htoken)
    · exact h
  | syncSeats cfg snapshotDay a =>
    simp only [cutoverStep, syncSeats]
    split
    · exact h
    · next htoken =>
      rw [Bool.not_eq_true', Bool.not_eq_false] at htoken
      split
      · next bytes hfetched => exact h.ingestPayload (hkeeps htoken bytes hfetched)
      · exact h
  | replay cfg run =>
    simp only [cutoverStep, runReplay]
    split
    · exact h
    · exact h.replayDays hkeeps
  | overwrite key bytes => exact h.rewrite (Writes.refl s.db none) hkeeps

/-! ## The gate -/

/-- An object that could not be read is a mismatch. -/
theorem countMismatch_read {cfg : SyncConfig} {up : String → Bool} {m : ManifestRow}
    (h : env.countMismatch cfg (fun key => s.read (up key) key) m = none) :
    env.countMismatch cfg s.archive m = none := by
  unfold countMismatch at h ⊢
  simp only [SyncState.read] at h
  cases hup : up (archivedKey cfg.org m.reportType (env.dateText m.reportDay)) with
  | true =>
    rw [hup] at h
    exact h
  | false =>
    rw [hup] at h
    split at h
    · next hempty => simp only [hempty, if_true]
    · cases h

/-- When the gate lets the drop pass, it finds no manifest of its operator wrong. -/
theorem decommission_ok {confirm shared : Bool} {a : CutoverAttempt} {dropped : List String}
    (h : env.decommission op confirm shared a s = .ok dropped) :
    dropped = (if shared then copilotDayTables ++ sharedTables else copilotDayTables) ∧
      ∀ m ∈ selectManifests op s.db, env.countMismatch op s.archive m = none := by
  unfold decommission at h
  split at h
  · cases h
  split at h
  · cases h
  split at h
  · cases h
  · cases h
  · next hverify =>
    dsimp only at h
    split at h
    · refine ⟨(Except.ok.inj h).symm, ?_⟩
      intro m hm
      unfold verifyArchiveCounts at hverify
      split at hverify
      · cases hverify
      split at hverify
      · cases hverify
      · have hnone := List.filterMap_eq_nil_iff.mp (Except.ok.inj hverify) m hm
        exact countMismatch_read hnone
    · cases h

theorem mem_selectManifests {cfg : SyncConfig} {db : CopilotDb} {f : DayFact} {m : ManifestRow}
    (h : db.manifests.get? (ownManifest cfg f) = some m) : m ∈ selectManifests cfg db := by
  obtain ⟨hm, hkey⟩ := Table.get?_eq_some.1 h
  obtain ⟨htenant, hprovider, hscope, -, -⟩ := ManifestKey.mk.inj hkey
  rw [selectManifests, List.mem_insertionSort, List.mem_filter, decide_eq_true_eq]
  exact ⟨hm, htenant, hprovider, hscope⟩

theorem Held.backed {org : String} {f : DayFact} (h : env.Held op s org f)
    (hgate : ∀ m ∈ selectManifests op s.db, env.countMismatch op s.archive m = none) :
    env.Backed s.archive org f := by
  rcases h with hbacked | ⟨-, -, m, hm, hmismatch⟩
  · exact hbacked
  · rw [hgate m (mem_selectManifests hm)] at hmismatch
    cases hmismatch

/-- In every run of syncs, replays and overwrites of the archive, for whatever tenants and
organizations, whose steps keep the rows: if a decommission of the day tables succeeds, then every
row of every table that it drops is produced again by the archived report of its own organization,
day and report. -/
theorem decommission_replayable (env : CopilotEnv) (op : SyncConfig) (actions : List CutoverAction)
    (hkeeps : Runs.Always env.cutoverStep (env.StepKeeps op) SyncState.empty actions)
    (confirm : Bool) (a : CutoverAttempt) (dropped : List String)
    (hok : env.decommission op confirm false a (env.cutoverRun actions) = .ok dropped) :
    ∀ table ∈ dropped, ∀ f ∈ (env.cutoverRun actions).db.factsOf table,
      env.Replayable (env.cutoverRun actions).archive f := by
  have hheld : env.AllHeld op (env.cutoverRun actions) :=
    hkeeps.invariant (allHeld_empty env op) fun _ _ h hstep => h.step hstep
  obtain ⟨hdropped, hgate⟩ := decommission_ok hok
  intro table htable f hf
  have hfact : f ∈ (env.cutoverRun actions).db.facts := by
    rw [hdropped] at htable
    exact List.mem_flatMap.mpr ⟨table, htable, hf⟩
  obtain ⟨org, hf⟩ := hheld f hfact
  exact ⟨org, hf.backed hgate⟩

/-! ## A republished report -/

/-- A step leaves rows alone whose manifests it does not rewrite. -/
theorem keeps_of_recorded {written : List DayFact} {recorded : Option ManifestKey}
    (h : ∀ f ∈ s.db.facts, recorded ≠ some (ownManifest op f)) :
    env.Keeps op s s.archive written recorded := by
  intro f hf _ org hheld
  rcases hheld with hbacked | hflagged
  · exact .inl hbacked
  · exact .inr ⟨hflagged, h f hf⟩

theorem keeps_of_written {archive : Archive} {written : List DayFact}
    {recorded : Option ManifestKey}
    (h : ∀ f ∈ s.db.facts, f.naturalKey ∈ written.map DayFact.naturalKey) :
    env.Keeps op s archive written recorded :=
  fun f hf hnot => (hnot (h f hf)).elim

/-- The operator of an organization. -/
def operatorOf (org : String) : SyncConfig := ⟨"acme", org, 3, 28, false⟩

/-- GitHub has a report of the users and no other. -/
def usersOnly (bytes : Bytes) : DayAttempt where
  token := true
  attempt report := ⟨if report = "users-1-day" then .payload bytes else .empty, true, true, true⟩

/-- Everything outside goes through. -/
def allThrough : CutoverAttempt := ⟨true, fun _ => true, true⟩

theorem decommission_replayable_users :
    let actions := [CutoverAction.syncDay (operatorOf "org-1") "2026-08-05"
      (usersOnly firstPayload)]
    Runs.Always republishedEnv.cutoverStep (republishedEnv.StepKeeps (operatorOf "org-1"))
        SyncState.empty actions ∧
      republishedEnv.decommission (operatorOf "org-1") true false allThrough
        (republishedEnv.cutoverRun actions) = .ok copilotDayTables ∧
      ∀ table ∈ copilotDayTables, ∀ f ∈ (republishedEnv.cutoverRun actions).db.factsOf table,
        republishedEnv.Replayable (republishedEnv.cutoverRun actions).archive f := by
  intro actions
  have hkeeps : Runs.Always republishedEnv.cutoverStep
      (republishedEnv.StepKeeps (operatorOf "org-1")) SyncState.empty actions := by
    refine ⟨fun _ => ⟨?_, ?_⟩, trivial⟩
    · exact fun _ _ => keeps_of_recorded (by decide)
    split
    · trivial
    next hone =>
    obtain rfl := congrArg Prod.snd hone
    refine ⟨fun _ => ⟨by decide, keeps_of_written (by decide)⟩, ?_⟩
    split
    · trivial
    next htwo =>
    obtain rfl := congrArg Prod.snd htwo
    refine ⟨fun _ _ => keeps_of_recorded (by decide), ?_⟩
    split
    · trivial
    next hthree =>
    obtain rfl := congrArg Prod.snd hthree
    refine ⟨fun _ _ => keeps_of_recorded (by decide), ?_⟩
    split
    · trivial
    · trivial
  have hok : republishedEnv.decommission (operatorOf "org-1") true false allThrough
      (republishedEnv.cutoverRun actions) = .ok copilotDayTables := by decide
  exact ⟨hkeeps, hok, decommission_replayable republishedEnv (operatorOf "org-1") actions hkeeps
    true allThrough copilotDayTables hok⟩

/-- A row of the user report is only produced under its own organization. -/
theorem org_of_produces {org : String} {bytes : Bytes} {row : UserDailyRow}
    (h : env.Produces org bytes (.user row)) : org = row.organizationId := by
  obtain ⟨call, hparse, g, hg, hdata⟩ := h
  rcases parseReport_cases hparse with ⟨hreport, -⟩ | ⟨-, rows, rfl⟩ | ⟨hreport, -⟩ | ⟨hreport, -⟩ |
    ⟨hreport, -⟩
  · simp [DayFact.report] at hreport
  · obtain ⟨row', hrow', rfl⟩ := List.mem_map.mp hg
    obtain ⟨r, -, hbound⟩ := List.mem_filterMap.mp hrow'
    obtain ⟨date, -, rfl⟩ := Option.map_eq_some_iff.mp hbound
    exact congrArg UserDailyRow.organizationId (DayFact.user.inj hdata)
  · simp [DayFact.report] at hreport
  · simp [DayFact.report] at hreport
  · simp [DayFact.report, seatsReportType] at hreport

/-- The report of a day is republished with another user. The row of the first one stays in the
table and is gone from the archive; the counts agree for the organization itself, and the operator
of another one does not look at them. Either drops the row. -/
theorem republished_user_is_dropped :
    let sync := fun user => CutoverAction.syncDay (operatorOf "org-2") "2026-08-05"
      (usersOnly (unlines [userLine user]))
    let s := republishedEnv.cutoverRun [sync "1001", sync "1002"]
    republishedEnv.decommission (operatorOf "org-2") true false allThrough s =
        .ok copilotDayTables ∧
      republishedEnv.decommission (operatorOf "org-1") true false allThrough s =
        .ok copilotDayTables ∧
      ∃ f ∈ s.db.factsOf "copilot_user_dailys", ¬ republishedEnv.Replayable s.archive f := by
  intro sync s
  refine ⟨by decide, by decide,
    .user ⟨"user:acme:1001:2026-08-05", "acme", "org-2", 5, "1001", "", 0, 0, 0, 0, 0⟩,
    by decide, ?_⟩
  rintro ⟨org, bytes, harchive, hproduces⟩
  obtain rfl := org_of_produces hproduces
  have hsecond : s.archive (archivedKey "org-2" "users-1-day" "2026-08-05") =
      some (unlines [userLine "1002"]) := by
    decide
  obtain rfl := Option.some.inj (hsecond.symm.trans harchive)
  exact absurd hproduces (by decide)

end CopilotEnv

end Governance
