import Governance.Copilot.Kpis

/-!
# The seats of the last snapshot

What `org_seat_kpis` reports after a sequence of seat snapshots. A snapshot adds and refreshes
holders but removes none, and the query takes the latest day that has a row, so the KPIs are of
the last snapshot exactly when it lists somebody, and everybody who was listed on the same day.
-/

namespace Governance

open ByteLines

/-- A call of `sync_seats`. -/
structure SeatTake where
  snapshotDay : String
  attempt : CopilotEnv.DayAttempt

/-- The holders of a listing, each once. -/
def seatHolders (seats : List SeatSnapshot) : List String :=
  (seats.map SeatSnapshot.providerUserId).dedup

/-- The holders without activity, by the last entry of each. -/
def holdersNeverUsed (seats : List SeatSnapshot) : ℕ :=
  (seatHolders seats).countP fun holder =>
    (seats.filter fun s => s.providerUserId = holder).getLast?.any fun s => s.lastActivityAt.isNone

namespace CopilotEnv

variable (env : CopilotEnv)

/-- The seats that a snapshot lists. -/
def listedSeats (take : SeatTake) : List SeatSnapshot :=
  match (take.attempt.attempt seatsReportType).fetched with
  | .payload bytes =>
    match env.parseSeats bytes seatsReportType take.snapshotDay with
    | .ok seats => seats
    | .error _ => []
  | _ => []

/-- A sequence of snapshots that all succeed. -/
def seatSnapshots (cfg : SyncConfig) : List SeatTake → SyncState → Option SyncState
  | [], s => some s
  | take :: takes, s =>
    match env.syncSeats cfg take.snapshotDay take.attempt s with
    | (.ok _, s) => seatSnapshots cfg takes s
    | (.error _, _) => none

variable {env}

/-! ## One snapshot -/

/-- An attempt that succeeds is a replay that succeeds. -/
theorem replayAttempt_ok {a : Attempt} {db db' : CopilotDb} {tenantId org day report : String}
    {bytes : Bytes} {n : ℕ}
    (h : env.replayAttempt a db tenantId org day report bytes = (.ok n, db')) :
    env.replayReport db tenantId org day report bytes = (.ok n, db') := by
  unfold replayAttempt at h
  unfold replayReport storeAndRecord
  cases hparse : env.parseReport tenantId org day report bytes with
  | error e =>
    rw [hparse] at h
    cases (Prod.mk.inj h).1
  | ok call =>
    rw [hparse] at h
    cases hstored : a.stored with
    | false =>
      simp only [performWhen, hstored, Bool.false_eq_true, if_false] at h
      cases (Prod.mk.inj h).1
    | true =>
      cases hrecorded : a.recorded with
      | true =>
        simp only [performWhen, hstored, hrecorded, if_true] at h
        exact h
      | false =>
        simp only [performWhen, hstored, hrecorded, if_true, Bool.false_eq_true, if_false] at h
        split at h
        · cases (Prod.mk.inj h).1
        · cases (Prod.mk.inj h).1

/-- Under the freeze a snapshot leaves the tables as they are. -/
theorem syncSeats_frozen {cfg : SyncConfig} (hfreeze : cfg.freezeWrites = true) (day : String)
    (a : DayAttempt) (s : SyncState) : (env.syncSeats cfg day a s).2.db = s.db := by
  simp only [syncSeats, ingestPayload, hfreeze, if_true]
  split
  · rfl
  split
  · split
    · rfl
    · split
      · rfl
      · rfl
  · rfl

/-- A snapshot that succeeds upserts the seats it lists. -/
theorem syncSeats_ok {cfg : SyncConfig} (hfreeze : cfg.freezeWrites = false) {take : SeatTake}
    {s s' : SyncState} {outcome : ReportOutcome}
    (h : env.syncSeats cfg take.snapshotDay take.attempt s = (.ok outcome, s')) :
    ∃ date, env.castDate take.snapshotDay = some date ∧
      s.db.seatSnapshots.upsertAll SeatSnapshotRow.refresh
        ((env.listedSeats take).filterMap (env.seatSnapshotRow cfg.tenantId cfg.org)) =
          some s'.db.seatSnapshots := by
  unfold syncSeats at h
  split at h
  · cases (Prod.mk.inj h).1
  split at h
  · next bytes hfetched =>
    simp only [ingestPayload, hfreeze, Bool.false_eq_true, if_false] at h
    split at h
    · cases (Prod.mk.inj h).1
    split at h
    · cases (Prod.mk.inj h).1
    · next n db' hreplay =>
      obtain ⟨-, rfl⟩ := Prod.mk.inj h
      obtain ⟨call, db₁, hparse, hstore, hmanifest⟩ := replayReport_ok (replayAttempt_ok hreplay)
      obtain ⟨date, hdate, -, -, hdb'⟩ := store_manifest hmanifest
      obtain ⟨seats, hseats, rfl⟩ : ∃ seats,
          env.parseSeats bytes seatsReportType take.snapshotDay = .ok seats ∧
            StoreCall.upsertSeatSnapshot cfg.tenantId cfg.org seats = call := map_eq_ok hparse
      obtain ⟨t, ht, rfl⟩ := map_eq_ok hstore
      have hlisted : env.listedSeats take = seats := by
        simp only [listedSeats, hfetched, hseats]
      refine ⟨date, hdate, ?_⟩
      rw [hlisted, hdb']
      exact (storeRows_ok ht).1
  · cases (Prod.mk.inj h).1

/-! ## The rows of a listing -/

/-- The seats of a listing are of its own day. -/
theorem snapshotDay_of_listed {take : SeatTake} {seat : SeatSnapshot}
    (h : seat ∈ env.listedSeats take) : seat.snapshotDay = take.snapshotDay := by
  unfold listedSeats at h
  split at h
  · next bytes hfetched =>
    split at h
    · next seats hseats =>
      unfold parseSeats at hseats
      split at hseats
      · cases hseats
      · obtain rfl := Except.ok.inj hseats
        obtain ⟨row, -, hrow⟩ := List.mem_filterMap.mp h
        obtain ⟨assignee, -, hid⟩ := Option.bind_eq_some_iff.mp hrow
        obtain ⟨id, -, rfl⟩ := Option.map_eq_some_iff.mp hid
        rfl
    · cases h
  · cases h

section Listing

variable {tenantId org : String} {date : ℤ} {seats : List SeatSnapshot}

theorem seatSnapshotRow_eq_some {seat : SeatSnapshot}
    (h : env.castDate seat.snapshotDay = some date) :
    ∃ row, env.seatSnapshotRow tenantId org seat = some row ∧
      SeatSnapshotRow.index.key row = (⟨tenantId, org, date⟩, seat.providerUserId) ∧
      SeatSnapshotRow.refresh.cols row = (seat.userLogin, seat.seatAssignedAt,
        seat.lastActivityAt, seat.lastActivityEditor, seat.seatState) := by
  rw [seatSnapshotRow, h]
  exact ⟨_, rfl, rfl, rfl⟩

theorem keys_listing (h : ∀ seat ∈ seats, env.castDate seat.snapshotDay = some date) :
    (seats.filterMap (env.seatSnapshotRow tenantId org)).map SeatSnapshotRow.index.key =
      seats.map fun seat => (⟨tenantId, org, date⟩, seat.providerUserId) := by
  induction seats with
  | nil => rfl
  | cons seat seats ih =>
    obtain ⟨row, hrow, hkey, -⟩ := seatSnapshotRow_eq_some (h seat List.mem_cons_self)
    rw [List.filterMap_cons_some hrow, List.map_cons, List.map_cons, hkey,
      ih fun s hs => h s (List.mem_cons_of_mem _ hs)]

/-- The columns that are written last for a holder are those of the last entry. -/
theorem lastCols_listing (h : ∀ seat ∈ seats, env.castDate seat.snapshotDay = some date)
    (holder : String) :
    Table.lastCols SeatSnapshotRow.refresh (⟨tenantId, org, date⟩, holder)
        (seats.filterMap (env.seatSnapshotRow tenantId org)) =
      (seats.filter fun seat => seat.providerUserId = holder).getLast?.map fun seat =>
        (seat.userLogin, seat.seatAssignedAt, seat.lastActivityAt, seat.lastActivityEditor,
          seat.seatState) := by
  induction seats with
  | nil => rfl
  | cons seat seats ih =>
    obtain ⟨row, hrow, hkey, hcols⟩ := seatSnapshotRow_eq_some (h seat List.mem_cons_self)
    rw [List.filterMap_cons_some hrow, Table.lastCols, hkey, hcols,
      ih fun s hs => h s (List.mem_cons_of_mem _ hs)]
    by_cases hholder : seat.providerUserId = holder
    · rw [List.filter_cons_of_pos (by simpa using hholder), List.getLast?_cons,
        if_pos (by rw [hholder])]
      cases (seats.filter fun seat => seat.providerUserId = holder).getLast? with
      | none => rfl
      | some last => rfl
    · rw [List.filter_cons_of_neg (by simpa using hholder), if_neg, Option.or_none]
      intro hkey
      exact hholder (congrArg Prod.snd hkey)

/-- The keys of a listing, each once, are those of its holders. -/
theorem dedup_keys_listing (h : ∀ seat ∈ seats, env.castDate seat.snapshotDay = some date) :
    ((seats.filterMap (env.seatSnapshotRow tenantId org)).map SeatSnapshotRow.index.key).dedup =
      (seatHolders seats).map fun holder => ((⟨tenantId, org, date⟩ : DayKey), holder) := by
  rw [keys_listing h, seatHolders, ← List.dedup_map_of_injective (Prod.mk_right_injective _),
    List.map_map]
  rfl

end Listing

/-! ## A sequence of snapshots -/

theorem seatSnapshots_concat {cfg : SyncConfig} {takes : List SeatTake} {last : SeatTake}
    {s s' : SyncState} (h : env.seatSnapshots cfg (takes ++ [last]) s = some s') :
    ∃ s₁ outcome, env.seatSnapshots cfg takes s = some s₁ ∧
      env.syncSeats cfg last.snapshotDay last.attempt s₁ = (.ok outcome, s') := by
  induction takes generalizing s with
  | nil =>
    simp only [List.nil_append, seatSnapshots] at h
    split at h
    · next outcome s₁ hsync =>
      obtain rfl := Option.some.inj h
      exact ⟨s, outcome, rfl, hsync⟩
    · cases h
  | cons take takes ih =>
    rw [List.cons_append, seatSnapshots] at h
    split at h
    · next outcome s₁ hsync =>
      obtain ⟨s₂, outcome', hrun, hlast⟩ := ih h
      refine ⟨s₂, outcome', ?_, hlast⟩
      rw [seatSnapshots, hsync]
      exact hrun
    · cases h

theorem seatSnapshots_frozen {cfg : SyncConfig} (hfreeze : cfg.freezeWrites = true)
    {takes : List SeatTake} {s s' : SyncState} (h : env.seatSnapshots cfg takes s = some s') :
    s'.db = s.db := by
  induction takes generalizing s with
  | nil =>
    obtain rfl := Option.some.inj h
    rfl
  | cons take takes ih =>
    rw [seatSnapshots] at h
    split at h
    · next outcome s₁ hsync =>
      have hstep : (env.syncSeats cfg take.snapshotDay take.attempt s).2.db = s.db :=
        syncSeats_frozen hfreeze _ _ _
      rw [hsync] at hstep
      exact (ih h).trans hstep
    · cases h

/-- The holders of a day are those of all its snapshots. -/
theorem seatSnapshots_keys {cfg : SyncConfig} (hfreeze : cfg.freezeWrites = false)
    {takes : List SeatTake} {s s' : SyncState} (h : env.seatSnapshots cfg takes s = some s')
    (date : ℤ) (holder : String) :
    ((⟨cfg.tenantId, cfg.org, date⟩ : DayKey), holder) ∈ s'.db.seatSnapshots.keys ↔
      ((⟨cfg.tenantId, cfg.org, date⟩ : DayKey), holder) ∈ s.db.seatSnapshots.keys ∨
        ∃ take ∈ takes, env.castDate take.snapshotDay = some date ∧
          holder ∈ (env.listedSeats take).map SeatSnapshot.providerUserId := by
  induction takes generalizing s with
  | nil =>
    obtain rfl := Option.some.inj h
    simp
  | cons take takes ih =>
    rw [seatSnapshots] at h
    split at h
    · next outcome s₁ hsync =>
      obtain ⟨day, hday, hup⟩ := syncSeats_ok hfreeze hsync
      have hlisted : ∀ seat ∈ env.listedSeats take, env.castDate seat.snapshotDay = some day :=
        fun seat hseat => snapshotDay_of_listed hseat ▸ hday
      rw [ih h, Table.keys_upsertAll hup, keys_listing hlisted, or_assoc]
      simp only [List.mem_cons, exists_eq_or_imp]
      refine or_congr_right (or_congr_left ?_)
      simp only [List.mem_map, Prod.mk.injEq, DayKey.mk.injEq, true_and, hday, Option.some.injEq]
      constructor
      · rintro ⟨seat, hseat, rfl, rfl⟩
        exact ⟨rfl, seat, hseat, rfl⟩
      · rintro ⟨rfl, seat, hseat, rfl⟩
        exact ⟨seat, hseat, rfl, rfl⟩
    · cases h

/-! ## The seat KPIs -/

theorem latestSnapshotDay_eq_some {db : CopilotDb} {tenantId org : String} {day : ℤ} :
    db.latestSnapshotDay tenantId org = some day ↔
      (∃ r ∈ db.seatSnapshots.rows, dayScope tenantId org day (SeatSnapshotRow.index.key r)) ∧
        ∀ r ∈ db.seatSnapshots.rows, r.tenantId = tenantId → r.organizationId = org →
          r.snapshotDay ≤ day := by
  rw [CopilotDb.latestSnapshotDay, List.max?_eq_some_iff]
  simp only [List.mem_map, List.mem_filter, decide_eq_true_eq, forall_exists_index, and_imp]
  refine and_congr ?_ ?_
  · constructor
    · rintro ⟨r, ⟨hr, htenant, horg⟩, hday⟩
      exact ⟨r, hr, htenant, horg, hday⟩
    · rintro ⟨r, hr, htenant, horg, hday⟩
      exact ⟨r, ⟨hr, htenant, horg⟩, hday⟩
  · constructor
    · intro h r hr htenant horg
      exact h _ r hr htenant horg rfl
    · rintro h _ r hr htenant horg rfl
      exact h r hr htenant horg

/-- Every entry is of an organization's latest day, with the seats of that day. -/
theorem mem_orgSeatKpis {db : CopilotDb} {tenantId : String} {k : OrgSeatKpis} :
    k ∈ db.orgSeatKpis tenantId ↔
      db.latestSnapshotDay tenantId k.organizationId = some k.snapshotDay ∧
        k.seatsAssigned = db.seatSnapshots.rows.countP (fun r =>
          dayScope tenantId k.organizationId k.snapshotDay (SeatSnapshotRow.index.key r)) ∧
        k.seatsNeverUsed = db.seatSnapshots.rows.countP (fun r =>
          dayScope tenantId k.organizationId k.snapshotDay (SeatSnapshotRow.index.key r) ∧
            (SeatSnapshotRow.refresh.cols r).2.2.1.isNone) := by
  have hassigned (org : String) (day : ℤ) : (db.seatSnapshots.rows.filter fun r =>
      r.tenantId = tenantId ∧ r.organizationId = org ∧ r.snapshotDay = day).length =
        db.seatSnapshots.rows.countP fun r =>
          dayScope tenantId org day (SeatSnapshotRow.index.key r) :=
    List.countP_eq_length_filter.symm
  have hunused (org : String) (day : ℤ) : (db.seatSnapshots.rows.filter fun r =>
      r.tenantId = tenantId ∧ r.organizationId = org ∧ r.snapshotDay = day).countP
        (fun r => r.lastActivityAt.isNone) =
        db.seatSnapshots.rows.countP fun r =>
          dayScope tenantId org day (SeatSnapshotRow.index.key r) ∧
            (SeatSnapshotRow.refresh.cols r).2.2.1.isNone := by
    rw [List.countP_filter]
    refine List.countP_congr fun r _ => ?_
    rw [Bool.and_eq_true, decide_eq_true_iff, decide_eq_true_iff, and_comm]
    rfl
  obtain ⟨org, day, assigned, unused⟩ := k
  rw [CopilotDb.orgSeatKpis, List.mem_filterMap]
  dsimp only
  constructor
  · rintro ⟨org', -, hk⟩
    obtain ⟨day', hday, hk⟩ := Option.map_eq_some_iff.mp hk
    obtain ⟨rfl, rfl, rfl, rfl⟩ := OrgSeatKpis.mk.inj hk
    exact ⟨hday, hassigned org' day', hunused org' day'⟩
  · rintro ⟨hday, hcount, hcount'⟩
    obtain ⟨⟨r, hr, htenant, horg, -⟩, -⟩ := latestSnapshotDay_eq_some.1 hday
    refine ⟨org, ?_, ?_⟩
    · exact List.mem_dedup.mpr (List.mem_map.mpr
        ⟨r, List.mem_filter.mpr ⟨hr, decide_eq_true htenant⟩, horg⟩)
    · rw [hday, Option.map_some, hassigned, hunused, hcount, hcount']

/-- In a list that does not decrease the last entry is the greatest. -/
theorem le_last_of_pairwise {takes : List SeatTake} {last : SeatTake} {date : ℤ}
    (hlast : env.castDate last.snapshotDay = some date)
    (hdays : ((takes ++ [last]).filterMap fun take =>
      env.castDate take.snapshotDay).Pairwise (· ≤ ·)) {take : SeatTake}
    (htake : take ∈ takes ++ [last]) {day : ℤ} (hday : env.castDate take.snapshotDay = some day) :
    day ≤ date := by
  rw [List.filterMap_append, List.pairwise_append] at hdays
  rcases List.mem_append.mp htake with htake | htake
  · exact hdays.2.2 day (List.mem_filterMap.mpr ⟨take, htake, hday⟩) date
      (List.mem_filterMap.mpr ⟨last, List.mem_singleton_self _, hlast⟩)
  · obtain rfl := List.mem_singleton.mp htake
    rw [hlast] at hday
    exact (Option.some.inj hday).ge

/-- If there are as many seats of a day as holders of a listing that are stored, no other holder
is stored. -/
theorem holder_of_count {t : Table SeatSnapshotRow.index} {tenantId org : String} {date : ℤ}
    {seats : List SeatSnapshot}
    (hcount : (seatHolders seats).length = t.rows.countP (fun r =>
      dayScope tenantId org date (SeatSnapshotRow.index.key r)))
    (hstored : ∀ holder ∈ seatHolders seats,
      ((⟨tenantId, org, date⟩ : DayKey), holder) ∈ t.keys) {holder : String}
    (h : ((⟨tenantId, org, date⟩ : DayKey), holder) ∈ t.keys) : holder ∈ seatHolders seats := by
  let listed := (seatHolders seats).map fun holder => ((⟨tenantId, org, date⟩ : DayKey), holder)
  let stored := (t.rows.filter fun r =>
    dayScope tenantId org date (SeatSnapshotRow.index.key r)).map SeatSnapshotRow.index.key
  have hmem (u : String) (hu : ((⟨tenantId, org, date⟩ : DayKey), u) ∈ t.keys) :
      ((⟨tenantId, org, date⟩ : DayKey), u) ∈ stored := by
    obtain ⟨r, hr, hkey⟩ := List.mem_map.mp hu
    refine List.mem_map.mpr ⟨r, List.mem_filter.mpr ⟨hr, decide_eq_true ?_⟩, hkey⟩
    rw [hkey]
    exact ⟨rfl, rfl, rfl⟩
  have hnodup : listed.Nodup := (List.nodup_dedup _).map (Prod.mk_right_injective _)
  have hsub : listed ⊆ stored := by
    intro k hk
    obtain ⟨u, hu, rfl⟩ := List.mem_map.mp hk
    exact hmem u (hstored u hu)
  have hlength : stored.length ≤ listed.length := by
    rw [List.length_map, List.length_map, ← List.countP_eq_length_filter, hcount]
  have hperm := (List.Nodup.subperm hnodup hsub).perm_of_length_le hlength
  obtain ⟨u, hu, hk⟩ := List.mem_map.mp (hperm.mem_iff.mpr (hmem holder h))
  exact (Prod.mk.inj hk).2 ▸ hu

section Run

variable {cfg : SyncConfig} {s s' : SyncState} {takes : List SeatTake} {last : SeatTake}

/-- A stored holder of an organization that had no seats was listed on the day of the row. -/
theorem mem_keys_iff_listed (hfresh : ∀ r ∈ s.db.seatSnapshots.rows,
      ¬ (r.tenantId = cfg.tenantId ∧ r.organizationId = cfg.org))
    (hfreeze : cfg.freezeWrites = false) (hrun : env.seatSnapshots cfg takes s = some s')
    {day : ℤ} {holder : String} :
    ((⟨cfg.tenantId, cfg.org, day⟩ : DayKey), holder) ∈ s'.db.seatSnapshots.keys ↔
      ∃ take ∈ takes, env.castDate take.snapshotDay = some day ∧
        holder ∈ seatHolders (env.listedSeats take) := by
  simp only [seatHolders, List.mem_dedup]
  rw [seatSnapshots_keys hfreeze hrun, or_iff_right]
  intro hmem
  obtain ⟨r, hr, hkey⟩ := List.mem_map.mp hmem
  have hday := (Prod.mk.inj hkey).1
  exact hfresh r hr ⟨congrArg DayKey.tenantId hday, congrArg DayKey.organizationId hday⟩

/-- If the last snapshot lists somebody, its day is the latest. -/
theorem latestSnapshotDay_of_listed (hfresh : ∀ r ∈ s.db.seatSnapshots.rows,
      ¬ (r.tenantId = cfg.tenantId ∧ r.organizationId = cfg.org))
    (hfreeze : cfg.freezeWrites = false)
    (hrun : env.seatSnapshots cfg (takes ++ [last]) s = some s')
    (hdays : ((takes ++ [last]).filterMap fun take =>
      env.castDate take.snapshotDay).Pairwise (· ≤ ·)) {date : ℤ}
    (hdate : env.castDate last.snapshotDay = some date) (hne : env.listedSeats last ≠ []) :
    s'.db.latestSnapshotDay cfg.tenantId cfg.org = some date := by
  refine latestSnapshotDay_eq_some.2 ⟨?_, ?_⟩
  · obtain ⟨seat, hseat⟩ := List.exists_mem_of_ne_nil _ hne
    have hkey := (mem_keys_iff_listed hfresh hfreeze hrun).mpr ⟨last,
      List.mem_append_right _ (List.mem_singleton_self _), hdate,
      List.mem_dedup.mpr (List.mem_map_of_mem hseat)⟩
    obtain ⟨r, hr, hrkey⟩ := List.mem_map.mp hkey
    refine ⟨r, hr, ?_⟩
    rw [hrkey]
    exact ⟨rfl, rfl, rfl⟩
  · rintro r hr htenant horg
    have hkey : ((⟨cfg.tenantId, cfg.org, r.snapshotDay⟩ : DayKey), r.providerUserId) ∈
        s'.db.seatSnapshots.keys := by
      rw [← htenant, ← horg]
      exact Table.mem_keys hr
    obtain ⟨take, htake, hday, -⟩ := (mem_keys_iff_listed hfresh hfreeze hrun).mp hkey
    exact le_last_of_pairwise hdate hdays htake hday

end Run

/-- Snapshots of an organization that had no seats, on days that do not decrease: the KPIs are
the holders of the last one, and those of them without activity, if and only if writes are not
frozen, the last snapshot lists somebody, and it lists everybody whom an earlier snapshot of
its day listed. -/
theorem seat_kpis_describe_last_iff (env : CopilotEnv) (cfg : SyncConfig) (s s' : SyncState)
    (takes : List SeatTake) (last : SeatTake)
    (hfresh : ∀ r ∈ s.db.seatSnapshots.rows,
      ¬ (r.tenantId = cfg.tenantId ∧ r.organizationId = cfg.org))
    (hrun : env.seatSnapshots cfg (takes ++ [last]) s = some s')
    (hdays : ((takes ++ [last]).filterMap fun take =>
      env.castDate take.snapshotDay).Pairwise (· ≤ ·)) :
    (∃ k ∈ s'.db.orgSeatKpis cfg.tenantId, k.organizationId = cfg.org ∧
        k.seatsAssigned = (seatHolders (env.listedSeats last)).length ∧
        k.seatsNeverUsed = holdersNeverUsed (env.listedSeats last)) ↔
      cfg.freezeWrites = false ∧ env.listedSeats last ≠ [] ∧
        ∀ take ∈ takes, env.castDate take.snapshotDay = env.castDate last.snapshotDay →
          ∀ holder ∈ seatHolders (env.listedSeats take),
            holder ∈ seatHolders (env.listedSeats last) := by
  cases hfreeze : cfg.freezeWrites with
  | true =>
    -- Nothing was stored, so the organization has no entry.
    simp only [Bool.true_eq_false, false_and, iff_false]
    rintro ⟨k, hk, horg, -⟩
    obtain ⟨⟨r, hr, htenant, horg', -⟩, -⟩ :=
      latestSnapshotDay_eq_some.1 (mem_orgSeatKpis.1 hk).1
    rw [seatSnapshots_frozen hfreeze hrun] at hr
    exact hfresh r hr ⟨htenant, horg'.trans horg⟩
  | false =>
    simp only [true_and]
    obtain ⟨s₁, outcome, hbefore, hsync⟩ := seatSnapshots_concat hrun
    obtain ⟨date, hdate, hup⟩ := syncSeats_ok hfreeze hsync
    have hlisted : ∀ seat ∈ env.listedSeats last, env.castDate seat.snapshotDay = some date :=
      fun seat hseat => snapshotDay_of_listed hseat ▸ hdate
    have hlatest := latestSnapshotDay_of_listed hfresh hfreeze hrun hdays hdate
    constructor
    · rintro ⟨k, hk, horg, hassigned, -⟩
      obtain ⟨hday, hcount, -⟩ := mem_orgSeatKpis.1 hk
      have hne : env.listedSeats last ≠ [] := by
        intro hnil
        obtain ⟨⟨r, hr, hscope⟩, -⟩ := latestSnapshotDay_eq_some.1 hday
        rw [hassigned, hnil] at hcount
        exact List.countP_eq_zero.mp hcount.symm r hr (decide_eq_true hscope)
      rw [horg, hlatest hne, Option.some.injEq] at hday
      rw [horg, ← hday, hassigned] at hcount
      refine ⟨hne, ?_⟩
      intro take htake hsame holder hholder
      refine holder_of_count hcount (fun h hh => ?_) ?_
      · exact (mem_keys_iff_listed hfresh hfreeze hrun).mpr
          ⟨last, List.mem_append_right _ (List.mem_singleton_self _), hdate, hh⟩
      · exact (mem_keys_iff_listed hfresh hfreeze hrun).mpr
          ⟨take, List.mem_append_left _ htake, hsame.trans hdate, hholder⟩
    · rintro ⟨hne, hcovers⟩
      have hown : ∀ w ∈ (env.listedSeats last).filterMap
          (env.seatSnapshotRow cfg.tenantId cfg.org),
          dayScope cfg.tenantId cfg.org date (SeatSnapshotRow.index.key w) := by
        intro w hw
        have hkey := List.mem_map_of_mem (f := SeatSnapshotRow.index.key) hw
        rw [keys_listing hlisted] at hkey
        obtain ⟨seat, -, hseat⟩ := List.mem_map.mp hkey
        rw [← hseat]
        exact ⟨rfl, rfl, rfl⟩
      have hstale : ∀ r ∈ s₁.db.seatSnapshots.rows,
          dayScope cfg.tenantId cfg.org date (SeatSnapshotRow.index.key r) →
          SeatSnapshotRow.index.key r ∈ ((env.listedSeats last).filterMap
            (env.seatSnapshotRow cfg.tenantId cfg.org)).map SeatSnapshotRow.index.key := by
        rintro r hr ⟨htenant, horg, hday⟩
        have hkey : SeatSnapshotRow.index.key r =
            (⟨cfg.tenantId, cfg.org, date⟩, r.providerUserId) := by
          rw [← htenant, ← horg, ← hday]
          rfl
        obtain ⟨take, htake, hsame, hholder⟩ :=
          (mem_keys_iff_listed hfresh hfreeze hbefore).mp (hkey ▸ Table.mem_keys hr)
        rw [hkey, ← List.mem_dedup, dedup_keys_listing hlisted]
        exact List.mem_map_of_mem (hcovers take htake (hsame.trans hdate.symm) _ hholder)
      refine ⟨⟨cfg.org, date, (seatHolders (env.listedSeats last)).length,
        holdersNeverUsed (env.listedSeats last)⟩, mem_orgSeatKpis.2 ⟨hlatest hne, ?_, ?_⟩, rfl,
        rfl, rfl⟩
      · rw [Table.count_of_covers hup hown hstale, dedup_keys_listing hlisted, List.length_map]
      · have hcount := Table.countP_of_covers hup hown hstale fun c => c.2.2.1.isNone
        rw [hcount, dedup_keys_listing hlisted, List.countP_map, holdersNeverUsed]
        refine List.countP_congr fun holder _ => ?_
        rw [Function.comp_apply, lastCols_listing hlisted, Option.any_map]

/-! ## A seat that is taken away -/

/-- A listing of some holders, none of whom was active. -/
def seatListing (holders : List String) : List SeatsPage :=
  [⟨holders.map fun holder => ⟨none, none, none, none, some ⟨some holder, none⟩⟩⟩]

/-- An environment that reads three listings: two holders, one of them, and nobody. -/
def seatEnv : CopilotEnv :=
  { sampleEnv with
    seatPages := fun bytes =>
      if bytes = [2] then some (seatListing ["1001", "1002"])
      else if bytes = [1] then some (seatListing ["1001"])
      else if bytes = [0] then some (seatListing [])
      else none }

/-- A snapshot for which everything goes through. -/
def seatTake (bytes : Bytes) : SeatTake where
  snapshotDay := "2026-08-05"
  attempt := ⟨true, fun _ => ⟨.payload bytes, true, true, true⟩⟩

def seatConfig : SyncConfig := ⟨"acme", "org-1", 3, 28, false⟩

theorem seat_kpis_describe_two_holders :
    ∃ s', seatEnv.seatSnapshots seatConfig [seatTake [2]] SyncState.empty = some s' ∧
      ((∃ k ∈ s'.db.orgSeatKpis "acme", k.organizationId = "org-1" ∧
          k.seatsAssigned = (seatHolders (seatEnv.listedSeats (seatTake [2]))).length ∧
          k.seatsNeverUsed = holdersNeverUsed (seatEnv.listedSeats (seatTake [2]))) ↔
        seatConfig.freezeWrites = false ∧ seatEnv.listedSeats (seatTake [2]) ≠ [] ∧
          ∀ take ∈ [], seatEnv.castDate take.snapshotDay = seatEnv.castDate "2026-08-05" →
            ∀ holder ∈ seatHolders (seatEnv.listedSeats take),
              holder ∈ seatHolders (seatEnv.listedSeats (seatTake [2]))) := by
  have hrun : (seatEnv.seatSnapshots seatConfig [seatTake [2]] SyncState.empty).isSome := by
    decide
  obtain ⟨s', hs'⟩ := Option.isSome_iff_exists.mp hrun
  exact ⟨s', hs', seat_kpis_describe_last_iff seatEnv seatConfig SyncState.empty s' []
    (seatTake [2]) (fun _ h => (List.not_mem_nil h).elim) hs' (by decide)⟩

/-- A seat is taken away, or all are, between two snapshots of a day: both snapshots succeed, and
two assigned seats are reported after either. -/
theorem removed_seat_stays_counted :
    (seatEnv.seatSnapshots seatConfig [seatTake [2], seatTake [1]] SyncState.empty).map
        (fun s => s.db.orgSeatKpis "acme") = some [⟨"org-1", 5, 2, 2⟩] ∧
      seatHolders (seatEnv.listedSeats (seatTake [1])) = ["1001"] ∧
      (seatEnv.seatSnapshots seatConfig [seatTake [2], seatTake [0]] SyncState.empty).map
        (fun s => s.db.orgSeatKpis "acme") = some [⟨"org-1", 5, 2, 2⟩] ∧
      seatHolders (seatEnv.listedSeats (seatTake [0])) = [] := by
  decide

end CopilotEnv

end Governance
