import Governance.Copilot.Sync

/-!
# The days of a backfill

Which days a run of the backfill requests. The high-water mark is one for all reports and all
organizations of a tenant, so a day can fall out of the window although one of its reports was
never stored: it is requested again while it is within the lookback, and behind that only as
long as nothing later has been recorded.
-/

namespace Governance

theorem mem_daysDown {first last d : ℤ} : d ∈ daysDown first last ↔ first ≤ d ∧ d ≤ last := by
  simp only [daysDown, List.mem_reverse, List.mem_map, List.mem_range]
  constructor
  · rintro ⟨i, hi, rfl⟩
    omega
  · rintro ⟨hfirst, hlast⟩
    exact ⟨(d - first).toNat, by omega, by omega⟩

/-- The window never ends later than yesterday. -/
theorem backfillWindow_snd (hwm : Option ℤ) (today lookback maxBackfill : ℤ) :
    (backfillWindow hwm today lookback maxBackfill).2 = today - 1 := rfl

/-- Where the window starts, for the latest of some days. -/
theorem backfillWindow_fst_le {days : List ℤ} {today lookback maxBackfill x : ℤ} :
    (backfillWindow days.max? today lookback maxBackfill).1 ≤ x ↔
      today - max maxBackfill 0 ≤ x ∧
        ∀ d ∈ days, min (d + 1) (min (today - 1) (today - max lookback 0)) ≤ x := by
  cases hmax : days.max? with
  | none =>
    obtain rfl := List.max?_eq_none_iff.mp hmax
    simp [backfillWindow]
  | some h =>
    obtain ⟨hmem, hle⟩ := List.max?_eq_some_iff.mp hmax
    simp only [backfillWindow, copilotDataLagDays]
    constructor
    · intro hx
      refine ⟨by omega, ?_⟩
      intro d hd
      have hd := hle d hd
      omega
    · rintro ⟨hbound, hdays⟩
      have hh := hdays h hmem
      omega

/-- The days with a manifest of a day report. -/
def CopilotDb.recordedDays (db : CopilotDb) (tenantId provider : String) : List ℤ :=
  (db.manifests.rows.filter fun m =>
    m.tenantId = tenantId ∧ m.provider = provider ∧ m.reportType ≠ seatsReportType).map
      ManifestRow.reportDay

theorem CopilotDb.mem_recordedDays {db : CopilotDb} {tenantId provider : String} {d : ℤ} :
    d ∈ db.recordedDays tenantId provider ↔ ∃ m ∈ db.manifests.rows, m.tenantId = tenantId ∧
      m.provider = provider ∧ m.reportType ≠ seatsReportType ∧ m.reportDay = d := by
  simp only [recordedDays, List.mem_map, List.mem_filter, decide_eq_true_eq]
  constructor
  · rintro ⟨m, ⟨hm, htenant, hprovider, htype⟩, hday⟩
    exact ⟨m, hm, htenant, hprovider, htype, hday⟩
  · rintro ⟨m, hm, htenant, hprovider, htype, hday⟩
    exact ⟨m, ⟨hm, htenant, hprovider, htype⟩, hday⟩

namespace CopilotEnv

/-- After every sequence of runs, from every state: no run requests a day later than yesterday, and a day that is
not too far back is requested by the next run exactly when it is within the lookback, is
yesterday, or nothing has been recorded for it or a later day. -/
theorem backfill_requests_iff (env : CopilotEnv) (cfg : SyncConfig) (runs : List BackfillRun)
    (s : SyncState) (today : ℤ) :
    (∀ before run after, runs = before ++ run :: after →
      ∀ d ∈ (env.runBackfillAt cfg run (env.backfills cfg s before)).1.requested,
        d ≤ run.today - 1) ∧
    ∀ d, today - cfg.maxBackfillDays ≤ d → d ≤ today - 1 →
      (d ∈ (env.backfills cfg s runs).db.backfillDays cfg today ↔
        today - max cfg.lookbackDays 0 ≤ d ∨ d = today - 1 ∨
          ∀ m ∈ (env.backfills cfg s runs).db.manifests.rows, m.tenantId = cfg.tenantId →
            m.provider = "github_copilot" → m.reportType ≠ seatsReportType → m.reportDay < d) := by
  refine ⟨?_, ?_⟩
  · rintro before run after rfl d hd
    exact (mem_daysDown.1 hd).2
  · intro d hfirst hlast
    generalize (env.backfills cfg s runs).db = db
    have hwindow : d ∈ db.backfillDays cfg today ↔
        ∀ day ∈ db.recordedDays cfg.tenantId "github_copilot",
          min (day + 1) (min (today - 1) (today - max cfg.lookbackDays 0)) ≤ d := by
      refine (mem_daysDown).trans ?_
      rw [CopilotDb.highWaterMark, backfillWindow_fst_le, backfillWindow_snd]
      constructor
      · rintro ⟨⟨-, hdays⟩, -⟩
        exact hdays
      · intro hdays
        exact ⟨⟨by omega, hdays⟩, hlast⟩
    rw [hwindow]
    constructor
    · intro hdays
      by_cases hnear : min (today - 1) (today - max cfg.lookbackDays 0) ≤ d
      · omega
      · refine .inr (.inr ?_)
        intro m hm htenant hprovider htype
        have hday := hdays m.reportDay
          (CopilotDb.mem_recordedDays.2 ⟨m, hm, htenant, hprovider, htype, rfl⟩)
        omega
    · rintro (hnear | rfl | hbefore) day hday
      · omega
      · omega
      · obtain ⟨m, hm, htenant, hprovider, htype, rfl⟩ := CopilotDb.mem_recordedDays.1 hday
        have hlt := hbefore m hm htenant hprovider htype
        omega

/-- A run on the sixth in which GitHub only answers for yesterday's first report. -/
def firstReportOnly : BackfillRun where
  today := 6
  day d := ⟨true, fun report =>
    ⟨if d = 5 ∧ report = "organization-1-day" then .empty else .error, true, true, true⟩⟩
  seats := ⟨false, fun _ => ⟨.error, true, true, true⟩⟩

def acmeConfig : SyncConfig := ⟨"acme", "org-1", 3, 28, false⟩

theorem backfill_requests_yesterday :
    5 ∈ (sampleEnv.backfills acmeConfig .empty [firstReportOnly]).db.backfillDays acmeConfig 6 :=
  ((backfill_requests_iff sampleEnv acmeConfig [firstReportOnly] .empty 6).2 5 (by decide)
    (by decide)).mpr (.inr (.inl rfl))

/-- The first of August was never stored and is not too far back, but the next run does not
request it: yesterday's one report has moved the mark past it. -/
theorem failed_day_orphaned :
    let s := sampleEnv.backfills acmeConfig .empty [firstReportOnly]
    (∀ m ∈ s.db.manifests.rows, m.reportDay ≠ 1) ∧ 6 - acmeConfig.maxBackfillDays ≤ 1 ∧
      (1 : ℤ) ≤ 6 - 1 ∧ 1 ∉ s.db.backfillDays acmeConfig 6 := by
  decide

end CopilotEnv

end Governance
