import Governance.Copilot.Backfill

/-!
# Organizations of one tenant

What the manifests and rows of other organizations do to the backfill window and to the
verification of one organization. Both should be those of the organization's own part of the
tables. The high-water mark is taken over all organizations of the tenant, and the rows of the
organization report are counted by tenant and day alone, so they are not: the theorem says
exactly when.
-/

namespace Governance

/-- The part of the tables that belongs to one organization: `org` is the scope of its manifests
and rows, `orgId` the id that its organization report carries. -/
def CopilotDb.ownPart (db : CopilotDb) (tenantId org orgId : String) : CopilotDb where
  orgDailys := db.orgDailys.filter fun r => r.tenantId = tenantId ∧ r.organizationId = orgId
  userDailys := db.userDailys.filter fun r => r.tenantId = tenantId ∧ r.organizationId = org
  repoDailys := db.repoDailys.filter fun r => r.tenantId = tenantId ∧ r.organizationId = org
  userTeams := db.userTeams.filter fun r => r.tenantId = tenantId ∧ r.organizationId = org
  seatSnapshots := db.seatSnapshots.filter fun r =>
    r.tenantId = tenantId ∧ r.organizationId = org
  manifests := db.manifests.filter fun m =>
    m.tenantId = tenantId ∧ m.provider = "github_copilot" ∧ m.scopeId = org

/-- The window of `run_backfill_at`. -/
def CopilotDb.windowFor (db : CopilotDb) (cfg : SyncConfig) (today : ℤ) : ℤ × ℤ :=
  backfillWindow (db.highWaterMark cfg.tenantId "github_copilot") today cfg.lookbackDays
    cfg.maxBackfillDays

/-- The day before which a window never starts late: yesterday, or the lookback. -/
def SyncConfig.trailing (cfg : SyncConfig) (today : ℤ) : ℤ :=
  min (today - 1) (today - max cfg.lookbackDays 0)

/-- The window of the own part starts at the lookback already, or no other organization of the
tenant has recorded a day report for one of its days or later. -/
def WindowUndisturbed (db : CopilotDb) (cfg : SyncConfig) (orgId : String) (today : ℤ) : Prop :=
  let own := db.ownPart cfg.tenantId cfg.org orgId
  cfg.trailing today ≤ (own.windowFor cfg today).1 ∨
    ∀ m ∈ db.manifests.rows, m.tenantId = cfg.tenantId → m.provider = "github_copilot" →
      m.scopeId ≠ cfg.org → m.reportType ≠ seatsReportType →
        m.reportDay < (own.windowFor cfg today).1

theorem windowFor_fst_le {db : CopilotDb} {cfg : SyncConfig} {today x : ℤ} :
    (db.windowFor cfg today).1 ≤ x ↔ today - max cfg.maxBackfillDays 0 ≤ x ∧
      ∀ d ∈ db.recordedDays cfg.tenantId "github_copilot", min (d + 1) (cfg.trailing today) ≤ x :=
  backfillWindow_fst_le

theorem window_undisturbed_iff (db : CopilotDb) (cfg : SyncConfig) (orgId : String) (today : ℤ) :
    db.windowFor cfg today = (db.ownPart cfg.tenantId cfg.org orgId).windowFor cfg today ↔
      WindowUndisturbed db cfg orgId today := by
  simp only [WindowUndisturbed]
  generalize hown : db.ownPart cfg.tenantId cfg.org orgId = own
  have hmem : ∀ m, m ∈ own.manifests.rows ↔ m ∈ db.manifests.rows ∧ m.tenantId = cfg.tenantId ∧
      m.provider = "github_copilot" ∧ m.scopeId = cfg.org := by
    intro m
    rw [← hown, CopilotDb.ownPart, Table.rows_filter, List.mem_filter, decide_eq_true_eq]
  obtain ⟨hcold, hown'⟩ := windowFor_fst_le.1 (le_refl (own.windowFor cfg today).1)
  obtain ⟨hcold', hall⟩ := windowFor_fst_le.1 (le_refl (db.windowFor cfg today).1)
  have hle : (own.windowFor cfg today).1 ≤ (db.windowFor cfg today).1 := by
    refine windowFor_fst_le.2 ⟨hcold', ?_⟩
    intro d hd
    obtain ⟨m, hm, hrest⟩ := CopilotDb.mem_recordedDays.1 hd
    exact hall d (CopilotDb.mem_recordedDays.2 ⟨m, ((hmem m).mp hm).1, hrest⟩)
  have heq : db.windowFor cfg today = own.windowFor cfg today ↔
      (db.windowFor cfg today).1 ≤ (own.windowFor cfg today).1 := by
    constructor
    · intro h
      rw [h]
    · intro h
      exact Prod.ext (le_antisymm h hle) rfl
  rw [heq, windowFor_fst_le]
  constructor
  · rintro ⟨-, hdays⟩
    by_cases htrailing : cfg.trailing today ≤ (own.windowFor cfg today).1
    · exact .inl htrailing
    · refine .inr ?_
      intro m hm htenant hprovider _ htype
      have hday := hdays m.reportDay
        (CopilotDb.mem_recordedDays.2 ⟨m, hm, htenant, hprovider, htype, rfl⟩)
      omega
  · intro hundisturbed
    refine ⟨hcold, ?_⟩
    intro d hd
    obtain ⟨m, hm, htenant, hprovider, htype, rfl⟩ := CopilotDb.mem_recordedDays.1 hd
    by_cases hscope : m.scopeId = cfg.org
    · exact hown' _ (CopilotDb.mem_recordedDays.2
        ⟨m, (hmem m).mpr ⟨hm, htenant, hprovider, hscope⟩, htenant, hprovider, htype, rfl⟩)
    · rcases hundisturbed with htrailing | hothers
      · omega
      · have hlt := hothers m hm htenant hprovider hscope htype
        omega

/-! ## Verification -/

namespace CopilotEnv

variable (env : CopilotEnv)

/-- A manifest that `count_rows` cannot count: its report is unknown, or PostgreSQL does not read
its day back. -/
def Uncountable (m : ManifestRow) : Prop :=
  m.reportType ∉ knownReports ∨ env.castDate (env.dateText m.reportDay) = none

/-- Verification fails either way, or no other organization of the tenant has a row on a day of
which the organization has a manifest of its organization report. -/
def DriftUndisturbed (db : CopilotDb) (tenantId org orgId : String) : Prop :=
  (∃ m ∈ (db.ownPart tenantId org orgId).manifests.rows, env.Uncountable m) ∨
    ∀ m ∈ (db.ownPart tenantId org orgId).manifests.rows, m.reportType = "organization-1-day" →
      ∀ date, env.castDate (env.dateText m.reportDay) = some date →
        ∀ r ∈ db.orgDailys.rows, r.tenantId = tenantId → r.reportDay = date →
          r.organizationId = orgId

variable {env}

/-- What `count_rows` cannot count does not depend on the tables. -/
theorem countRows_error {m : ManifestRow} (h : env.Uncountable m) :
    ∃ e, ∀ db tenantId scopeId,
      env.countRows db tenantId scopeId m.reportType m.reportDay = .error e := by
  cases hdate : env.castDate (env.dateText m.reportDay) with
  | none => exact ⟨.storage .decode, fun _ _ _ => by simp only [countRows, hdate]⟩
  | some date =>
    have hreport : m.reportType ∉ knownReports := by
      rcases h with hreport | hnone
      · exact hreport
      · rw [hdate] at hnone
        cases hnone
    simp only [knownReports, reports, List.cons_append, List.nil_append, List.mem_cons,
      List.not_mem_nil, or_false, not_or] at hreport
    obtain ⟨horg, huser, hrepo, hteam, hseat⟩ := hreport
    exact ⟨.github "verify" 0 ("unknown report type " ++ m.reportType), fun _ _ _ => by
      simp only [countRows, hdate, horg, huser, hrepo, hteam, hseat, if_false]⟩

theorem countRows_countable {m : ManifestRow} (h : ¬ env.Uncountable m) (db : CopilotDb)
    (tenantId scopeId : String) :
    ∃ n, env.countRows db tenantId scopeId m.reportType m.reportDay = .ok n := by
  simp only [Uncountable, not_or, not_not] at h
  obtain ⟨hreport, hdate⟩ := h
  obtain ⟨date, hdate⟩ := Option.ne_none_iff_exists'.mp hdate
  simp only [knownReports, reports, List.cons_append, List.nil_append, List.mem_cons,
    List.not_mem_nil, or_false] at hreport
  simp only [countRows, hdate]
  rcases hreport with h | h | h | h | h
  all_goals
    rw [h]
    exact ⟨_, rfl⟩

theorem driftOf_error {manifests : List ManifestRow} (h : ∃ m ∈ manifests, env.Uncountable m)
    (db db' : CopilotDb) (tenantId scopeId : String) :
    env.driftOf db tenantId scopeId manifests = env.driftOf db' tenantId scopeId manifests ∧
      ∃ e, env.driftOf db tenantId scopeId manifests = .error e := by
  induction manifests with
  | nil => simp at h
  | cons m manifests ih =>
    by_cases hm : env.Uncountable m
    · obtain ⟨e, he⟩ := countRows_error hm
      simp only [driftOf, he]
      exact ⟨rfl, e, rfl⟩
    · have hrest : ∃ m ∈ manifests, env.Uncountable m := by
        obtain ⟨m', hm', hbad⟩ := h
        rcases List.mem_cons.mp hm' with rfl | hm'
        · exact absurd hbad hm
        · exact ⟨m', hm', hbad⟩
      obtain ⟨heq, e, he⟩ := ih hrest
      obtain ⟨n, hn⟩ := countRows_countable hm db tenantId scopeId
      obtain ⟨n', hn'⟩ := countRows_countable hm db' tenantId scopeId
      rw [he] at heq
      simp only [driftOf, hn, hn', he, ← heq]
      exact ⟨rfl, e, rfl⟩

theorem driftOf_congr {manifests : List ManifestRow} {db db' : CopilotDb}
    {tenantId scopeId : String} (h : ∀ m ∈ manifests,
      env.countRows db tenantId scopeId m.reportType m.reportDay =
        env.countRows db' tenantId scopeId m.reportType m.reportDay) :
    env.driftOf db tenantId scopeId manifests = env.driftOf db' tenantId scopeId manifests := by
  induction manifests with
  | nil => rfl
  | cons m manifests ih =>
    simp only [driftOf, h m List.mem_cons_self]
    rw [ih fun m' hm' => h m' (List.mem_cons_of_mem _ hm')]

/-- Where the counts differ, so does what is reported: an entry names the day and the report, and
these decide the count. -/
theorem driftOf_eq_iff {manifests : List ManifestRow} (h : ∀ m ∈ manifests, ¬ env.Uncountable m)
    (db db' : CopilotDb) (tenantId scopeId : String) :
    env.driftOf db tenantId scopeId manifests = env.driftOf db' tenantId scopeId manifests ↔
      ∀ m ∈ manifests, env.countRows db tenantId scopeId m.reportType m.reportDay =
        env.countRows db' tenantId scopeId m.reportType m.reportDay := by
  refine ⟨?_, driftOf_congr⟩
  intro heq m hm
  obtain ⟨drift, hdrift, hmem⟩ := driftOf_counted db tenantId scopeId manifests
    fun m hm => countRows_countable (h m hm) db tenantId scopeId
  obtain ⟨drift', hdrift', hmem'⟩ := driftOf_counted db' tenantId scopeId manifests
    fun m hm => countRows_countable (h m hm) db' tenantId scopeId
  obtain rfl : drift = drift' := Except.ok.inj (hdrift.symm.trans (heq.trans hdrift'))
  have hsame : ∀ (db : CopilotDb) (m m' : ManifestRow), env.dateText m.reportDay =
      env.dateText m'.reportDay → m.reportType = m'.reportType →
      env.countRows db tenantId scopeId m.reportType m.reportDay =
        env.countRows db tenantId scopeId m'.reportType m'.reportDay := by
    intro db m m' hday htype
    simp only [countRows, hday, htype]
  obtain ⟨n, hn⟩ := countRows_countable (h m hm) db tenantId scopeId
  obtain ⟨n', hn'⟩ := countRows_countable (h m hm) db' tenantId scopeId
  by_cases hexpected : (n : ℤ) = m.recordCount
  · by_cases hexpected' : (n' : ℤ) = m.recordCount
    · have hnn : n = n' := by omega
      rw [hn, hn', hnn]
    · -- reported with the other tables only
      obtain ⟨m₂, -, k, hk, -, hentry⟩ := (hmem _).mp ((hmem' _).mpr ⟨m, hm, n', hn', hexpected', rfl⟩)
      obtain ⟨hday, htype, -, -, hactual⟩ := ManifestDrift.mk.inj hentry
      rw [← hsame db m m₂ hday htype, hn] at hk
      rw [hn, hn', Except.ok.inj hk, Nat.cast_inj.mp hactual]
  · obtain ⟨m₂, -, k, hk, -, hentry⟩ := (hmem' _).mp ((hmem _).mpr ⟨m, hm, n, hn, hexpected, rfl⟩)
    obtain ⟨hday, htype, -, -, hactual⟩ := ManifestDrift.mk.inj hentry
    rw [← hsame db' m m₂ hday htype, hn'] at hk
    rw [hn, hn', Except.ok.inj hk, Nat.cast_inj.mp hactual]

theorem countP_filter_eq_iff {α : Type} {l : List α} {p q : α → Bool} :
    (l.filter p).countP q = l.countP q ↔ ∀ a ∈ l, q a = true → p a = true := by
  have hsplit := List.countP_eq_countP_filter_add l q p
  have hzero : (l.filter fun a => !p a).countP q = 0 ↔ ∀ a ∈ l, q a = true → p a = true := by
    rw [List.countP_eq_zero]
    constructor
    · intro h a ha hq
      by_contra hp
      exact h a (List.mem_filter.mpr ⟨ha, by simpa using hp⟩) hq
    · intro h a ha hq
      obtain ⟨ha, hp⟩ := List.mem_filter.mp ha
      rw [h a ha hq] at hp
      cases hp
  rw [← hzero]
  omega

/-- The other reports are counted with their organization. -/
theorem countRows_ownPart_eq_iff {m : ManifestRow} (h : ¬ env.Uncountable m) (db : CopilotDb)
    (tenantId org orgId : String) :
    env.countRows db tenantId org m.reportType m.reportDay =
        env.countRows (db.ownPart tenantId org orgId) tenantId org m.reportType m.reportDay ↔
      (m.reportType = "organization-1-day" →
        ∀ date, env.castDate (env.dateText m.reportDay) = some date →
          ∀ r ∈ db.orgDailys.rows, r.tenantId = tenantId → r.reportDay = date →
            r.organizationId = orgId) := by
  simp only [Uncountable, not_or, not_not] at h
  obtain ⟨hreport, hdate⟩ := h
  obtain ⟨date, hdate⟩ := Option.ne_none_iff_exists'.mp hdate
  simp only [knownReports, reports, List.cons_append, List.nil_append, List.mem_cons,
    List.not_mem_nil, or_false] at hreport
  simp only [countRows, hdate, CopilotDb.ownPart, Table.rows_filter]
  have hown : ∀ {α : Type} {l : List α} {p q : α → Bool},
      (∀ a ∈ l, q a = true → p a = true) → l.countP q = (l.filter p).countP q :=
    fun h => (countP_filter_eq_iff.2 h).symm
  rcases hreport with h | h | h | h | h
  · simp only [h, if_true, Except.ok.injEq, true_implies, Option.some.injEq, forall_eq']
    rw [eq_comm, countP_filter_eq_iff]
    constructor
    · intro hall r hr htenant hday
      have hr := hall r hr (by simp [htenant, hday])
      simp only [decide_eq_true_eq] at hr
      exact hr.2
    · intro hall r hr hq
      simp only [decide_eq_true_eq] at hq
      simp only [decide_eq_true_eq]
      exact ⟨hq.1, hall r hr hq.1 hq.2⟩
  all_goals
    rw [h]
    simp only [String.reduceEq, seatsReportType, if_false, if_true, false_implies, iff_true,
      Except.ok.injEq]
    apply hown
    intro r _ hr
    simp only [decide_eq_true_eq] at hr
    simp only [decide_eq_true_eq]
    exact ⟨hr.1, hr.2.1⟩

theorem drift_undisturbed_iff (db : CopilotDb) (tenantId org orgId : String) :
    env.verifyManifests db tenantId "github_copilot" org =
        env.verifyManifests (db.ownPart tenantId org orgId) tenantId "github_copilot" org ↔
      env.DriftUndisturbed db tenantId org orgId := by
  have hfilter : ((db.ownPart tenantId org orgId).manifests.rows.filter fun m =>
      m.tenantId = tenantId ∧ m.provider = "github_copilot" ∧ m.scopeId = org) =
      (db.ownPart tenantId org orgId).manifests.rows := by
    simp [CopilotDb.ownPart]
  have hrows : (db.ownPart tenantId org orgId).manifests.rows = db.manifests.rows.filter fun m =>
      m.tenantId = tenantId ∧ m.provider = "github_copilot" ∧ m.scopeId = org := rfl
  rw [verifyManifests, verifyManifests, hfilter, ← hrows]
  generalize hms : (db.ownPart tenantId org orgId).manifests.rows.insertionSort
    (fun a b => b.reportDay ≤ a.reportDay) = manifests
  have hmem : ∀ m, m ∈ (db.ownPart tenantId org orgId).manifests.rows ↔ m ∈ manifests := by
    intro m
    rw [← hms, List.mem_insertionSort]
  simp only [DriftUndisturbed, hmem]
  by_cases hbad : ∃ m ∈ manifests, env.Uncountable m
  · exact ⟨fun _ => .inl hbad, fun _ => (driftOf_error hbad db _ tenantId org).1⟩
  · have hgood : ∀ m ∈ manifests, ¬ env.Uncountable m := fun m hm hm' => hbad ⟨m, hm, hm'⟩
    rw [driftOf_eq_iff hgood]
    constructor
    · intro h
      exact .inr fun m hm => (countRows_ownPart_eq_iff (hgood m hm) db tenantId org orgId).mp (h m hm)
    · rintro (hex | h) m hm
      · exact absurd hex hbad
      · exact (countRows_ownPart_eq_iff (hgood m hm) db tenantId org orgId).mpr (h m hm)

/-- The window and the drift of an organization are those of its own rows exactly when no other
organization of the tenant disturbs them. -/
theorem organizations_independent_iff (env : CopilotEnv) (db : CopilotDb) (cfg : SyncConfig)
    (orgId : String) (today : ℤ) :
    (db.windowFor cfg today = (db.ownPart cfg.tenantId cfg.org orgId).windowFor cfg today ∧
      env.verifyManifests db cfg.tenantId "github_copilot" cfg.org =
        env.verifyManifests (db.ownPart cfg.tenantId cfg.org orgId) cfg.tenantId "github_copilot"
          cfg.org) ↔
      WindowUndisturbed db cfg orgId today ∧ env.DriftUndisturbed db cfg.tenantId cfg.org orgId :=
  and_congr (window_undisturbed_iff db cfg orgId today)
    (drift_undisturbed_iff db cfg.tenantId cfg.org orgId)

/-- Another organization of the tenant records one report of the fifth: of `org-1` there is
nothing in either table, but its window no longer reaches back to its gap. -/
theorem other_organization_moves_window :
    let db := (sampleEnv.backfills { acmeConfig with org := "org-2" } .empty [firstReportOnly]).db
    (db.ownPart "acme" "org-1" "1").manifests.rows =
        (CopilotDb.empty.ownPart "acme" "org-1" "1").manifests.rows ∧
      CopilotDb.empty.windowFor acmeConfig 6 = (-22, 5) ∧ db.windowFor acmeConfig 6 = (3, 5) := by
  decide

end CopilotEnv

end Governance
