import Governance.Copilot.Kpis

/-!
# The gauges of `/metrics`

`lightbridge-governance/src/metrics`: every scrape asks for the freshness of the connectors, the
usage and the seats of the organizations, each query on its own, and sets the gauges label by label
from the rows that came back. A query that fails leaves the gauges of its family as they are. So
does a label that the rows no longer have: no gauge is ever taken away.
-/

namespace Governance

namespace Api

/-- `ConnectorFreshness`, with the day of its last success, counted from 1970. -/
structure ConnectorFreshness where
  provider : String
  lastSuccessAt : ℤ
  deriving DecidableEq

/-- `connector_freshness`: the latest day of each provider among the reports that succeeded, the
seat listings aside. -/
def connectorFreshness (db : CopilotDb) (tenantId : String) : List ConnectorFreshness :=
  let succeeded := db.manifests.rows.filter fun m =>
    m.tenantId = tenantId ∧ (m.status = "ok" ∨ m.status = "empty") ∧ m.reportType ≠ "billing-seats"
  (succeeded.map ManifestRow.provider).dedup.filterMap fun provider =>
    ((succeeded.filter fun m => m.provider = provider).map ManifestRow.reportDay).max?.map
      fun day => ⟨provider, day⟩

/-- `KNOWN_PROVIDERS`. -/
def knownProviders : List String := ["github_copilot"]

/-! ## Gauges -/

/-- An `IntGaugeVec` with one label: a series exists from the first time its label is set. -/
def GaugeVec : Type := String → Option ℤ

namespace GaugeVec

/-- The vector without a series. -/
def new : GaugeVec := fun _ => none

/-- `with_label_values(&[label]).set(value)`. -/
def set (g : GaugeVec) (label : String) (value : ℤ) : GaugeVec :=
  Function.update g label (some value)

/-- The series that some rows leave, one for each label. -/
def ofRows {ρ : Type} (label : ρ → String) (value : ρ → ℤ) (rows : List ρ) : GaugeVec := fun l =>
  (rows.reverse.find? fun row => label row = l).map value

@[simp] theorem set_self (g : GaugeVec) (label : String) (value : ℤ) :
    g.set label value label = some value :=
  Function.update_self (β := fun _ => Option ℤ) label (some value) g

@[simp] theorem set_of_ne {label label' : String} (h : label' ≠ label) (g : GaugeVec) (value : ℤ) :
    g.set label value label' = g label' :=
  Function.update_of_ne (β := fun _ => Option ℤ) h (some value) g

variable {ρ : Type} {label : ρ → String} {value : ρ → ℤ}

theorem ofRows_append (a b : List ρ) (l : String) :
    ofRows label value (a ++ b) l = (ofRows label value b l).or (ofRows label value a l) := by
  simp only [ofRows, List.reverse_append, List.find?_append, Option.map_or]

theorem ofRows_eq_none_iff {rows : List ρ} {l : String} :
    ofRows label value rows l = none ↔ l ∉ rows.map label := by
  simp [ofRows]

theorem foldl_set (rows : List ρ) (g : GaugeVec) (l : String) :
    rows.foldl (fun g row => g.set (label row) (value row)) g l =
      (ofRows label value rows l).or (g l) := by
  induction rows generalizing g with
  | nil => rfl
  | cons row rows ih =>
    have hrow : g.set (label row) (value row) l = (ofRows label value [row] l).or (g l) := by
      by_cases hl : label row = l
      · subst hl
        simp [ofRows]
      · simp [ofRows, hl, Ne.symm hl]
    have hsplit : ofRows label value ([row] ++ rows) l = _ := ofRows_append [row] rows l
    rw [List.foldl_cons, ih, hrow, ← Option.or_assoc, ← hsplit]
    rfl

/-- The series of all rows are those of the last result set, exactly if it has every label. -/
theorem ofRows_flatten_iff (results : List (List ρ)) (l : String) :
    ofRows label value results.flatten l =
        results.getLast?.bind (fun rows => ofRows label value rows l) ↔
      ∀ rows ∈ results, l ∈ rows.map label → l ∈ (results.getLast?.getD []).map label := by
  cases results using List.reverseRecOn with
  | nil => simp [ofRows]
  | append_singleton results last =>
    have hflat : (results ++ [last]).flatten = results.flatten ++ last := by simp
    rw [hflat, ofRows_append, List.getLast?_concat, Option.bind_some, Option.getD_some]
    by_cases hl : l ∈ last.map label
    · have hsome : ofRows label value last l ≠ none := mt ofRows_eq_none_iff.1 (not_not.mpr hl)
      obtain ⟨v, hv⟩ := Option.ne_none_iff_exists'.mp hsome
      simp only [hv, Option.some_or, hl, implies_true]
    · rw [ofRows_eq_none_iff.2 hl, Option.none_or, ofRows_eq_none_iff]
      simp only [List.mem_append, List.mem_singleton]
      constructor
      · rintro hnone rows (hrows | rfl) hmem
        · refine absurd ?_ hnone
          obtain ⟨row, hrow, rfl⟩ := List.mem_map.mp hmem
          exact List.mem_map_of_mem (List.mem_flatten_of_mem hrows hrow)
        · exact hmem
      · intro h hmem
        obtain ⟨row, hrow, rfl⟩ := List.mem_map.mp hmem
        obtain ⟨rows, hrows, hin⟩ := List.mem_flatten.mp hrow
        exact hl (h rows (.inl hrows) (List.mem_map_of_mem hin))

end GaugeVec

/-- `Metrics`. The counter starts with a zero for each of its reasons. -/
structure Metrics where
  connectorLastSuccessTimestampSeconds : GaugeVec
  connectorHasSynced : GaugeVec
  connectorMetricsScrapeErrorsTotal : String → ℕ
  orgActiveUsers : GaugeVec
  orgEngagedUsers : GaugeVec
  orgDailyCostMicroUsd : GaugeVec
  orgCostMonthToDateMicroUsd : GaugeVec
  orgSeatsAssigned : GaugeVec
  orgSeatsNeverUsed : GaugeVec
  orgKpiHasData : GaugeVec

/-- How a query under its timeout ended. -/
inductive Outcome (ρ : Type) where
  | rows (rows : List ρ)
  | queryError
  | timeout

namespace Metrics

/-- `Metrics::new`. -/
def new : Metrics where
  connectorLastSuccessTimestampSeconds := .new
  connectorHasSynced := .new
  connectorMetricsScrapeErrorsTotal := fun _ => 0
  orgActiveUsers := .new
  orgEngagedUsers := .new
  orgDailyCostMicroUsd := .new
  orgCostMonthToDateMicroUsd := .new
  orgSeatsAssigned := .new
  orgSeatsNeverUsed := .new
  orgKpiHasData := .new

/-- `connector_metrics_scrape_errors_total.with_label_values(&[reason]).inc()`. -/
def countError (m : Metrics) (reason : String) : Metrics :=
  { m with
    connectorMetricsScrapeErrorsTotal := Function.update m.connectorMetricsScrapeErrorsTotal reason
      (m.connectorMetricsScrapeErrorsTotal reason + 1) }

/-- `by_provider`: a later row of a provider replaces an earlier one. -/
def byProvider (rows : List ConnectorFreshness) (provider : String) : Option ℤ :=
  GaugeVec.ofRows ConnectorFreshness.provider (fun row => 86400 * row.lastSuccessAt) rows provider

/-- The body of the loop over `KNOWN_PROVIDERS`. -/
def setFreshness (rows : List ConnectorFreshness) (m : Metrics) (provider : String) : Metrics :=
  match byProvider rows provider with
  | some seconds =>
    { m with
      connectorHasSynced := m.connectorHasSynced.set provider 1
      connectorLastSuccessTimestampSeconds :=
        m.connectorLastSuccessTimestampSeconds.set provider seconds }
  | none => { m with connectorHasSynced := m.connectorHasSynced.set provider 0 }

/-- `refresh_connector_freshness`. -/
def refreshConnectorFreshness (m : Metrics) : Outcome ConnectorFreshness → Metrics
  | .queryError => m.countError "query_error"
  | .timeout => m.countError "timeout"
  | .rows rows => knownProviders.foldl (setFreshness rows) m

/-- The body of the loop over the rows of `org_usage_kpis`. -/
def setUsage (m : Metrics) (row : OrgUsageKpis) : Metrics :=
  { m with
    orgActiveUsers := m.orgActiveUsers.set row.organizationId row.activeUsers
    orgEngagedUsers := m.orgEngagedUsers.set row.organizationId row.engagedUsers
    orgDailyCostMicroUsd := m.orgDailyCostMicroUsd.set row.organizationId row.dailyCostMicroUsd
    orgCostMonthToDateMicroUsd :=
      m.orgCostMonthToDateMicroUsd.set row.organizationId row.costMonthToDateMicroUsd }

/-- `refresh_org_usage_kpis`. -/
def refreshOrgUsageKpis (m : Metrics) : Outcome OrgUsageKpis → Metrics
  | .queryError => m.countError "org_usage_query_error"
  | .timeout => m.countError "org_usage_timeout"
  | .rows rows => rows.foldl setUsage
      { m with orgKpiHasData := m.orgKpiHasData.set "usage" (if rows = [] then 0 else 1) }

/-- The body of the loop over the rows of `org_seat_kpis`. -/
def setSeats (m : Metrics) (row : OrgSeatKpis) : Metrics :=
  { m with
    orgSeatsAssigned := m.orgSeatsAssigned.set row.organizationId row.seatsAssigned
    orgSeatsNeverUsed := m.orgSeatsNeverUsed.set row.organizationId row.seatsNeverUsed }

/-- `refresh_org_seat_kpis`. -/
def refreshOrgSeatKpis (m : Metrics) : Outcome OrgSeatKpis → Metrics
  | .queryError => m.countError "org_seats_query_error"
  | .timeout => m.countError "org_seats_timeout"
  | .rows rows => rows.foldl setSeats
      { m with orgKpiHasData := m.orgKpiHasData.set "seats" (if rows = [] then 0 else 1) }

end Metrics

/-- A query that reads the tables as they are at its moment, fails, or runs into its timeout. -/
inductive QueryEnd where
  | answered (db : CopilotDb)
  | failed
  | elapsed

/-- One scrape: how each of its three queries ended. -/
structure Scrape where
  connector : QueryEnd
  usage : QueryEnd
  seats : QueryEnd

namespace Scrape

variable (cal : Calendar) (tenantId : String)

/-- The outcome of `connector_freshness`. -/
def connectorOutcome (s : Scrape) : Outcome ConnectorFreshness :=
  match s.connector with
  | .answered db => .rows (connectorFreshness db tenantId)
  | .failed => .queryError
  | .elapsed => .timeout

/-- The outcome of `org_usage_kpis`, whose cast can fail. -/
def usageOutcome (s : Scrape) : Outcome OrgUsageKpis :=
  match s.usage with
  | .answered db =>
    match db.orgUsageKpis cal tenantId with
    | .ok rows => .rows rows
    | .error _ => .queryError
  | .failed => .queryError
  | .elapsed => .timeout

/-- The outcome of `org_seat_kpis`. -/
def seatsOutcome (s : Scrape) : Outcome OrgSeatKpis :=
  match s.seats with
  | .answered db => .rows (db.orgSeatKpis tenantId)
  | .failed => .queryError
  | .elapsed => .timeout

end Scrape

/-- The handler of `/metrics`, up to the rendering: `refresh_connector_freshness`, then
`refresh_org_kpis`. -/
def Metrics.scrape (cal : Calendar) (tenantId : String) (m : Metrics) (s : Scrape) : Metrics :=
  ((m.refreshConnectorFreshness (s.connectorOutcome tenantId)).refreshOrgUsageKpis
    (s.usageOutcome cal tenantId)).refreshOrgSeatKpis (s.seatsOutcome tenantId)

/-! ## What the gauges should show -/

/-- The result sets among some outcomes. -/
def results {ρ : Type} (outcomes : List (Outcome ρ)) : List (List ρ) :=
  outcomes.filterMap fun
    | .rows rows => some rows
    | _ => none

namespace Metrics

/-- The gauges with a series for each organization of the usage query. -/
def usageGauges : List ((Metrics → GaugeVec) × (OrgUsageKpis → ℤ)) :=
  [(orgActiveUsers, OrgUsageKpis.activeUsers), (orgEngagedUsers, OrgUsageKpis.engagedUsers),
    (orgDailyCostMicroUsd, OrgUsageKpis.dailyCostMicroUsd),
    (orgCostMonthToDateMicroUsd, OrgUsageKpis.costMonthToDateMicroUsd)]

/-- The gauges with a series for each organization of the seat query. -/
def seatGauges : List ((Metrics → GaugeVec) × (OrgSeatKpis → ℤ)) :=
  [(orgSeatsAssigned, fun row => row.seatsAssigned),
    (orgSeatsNeverUsed, fun row => row.seatsNeverUsed)]

theorem usageGauges_cases {g : (Metrics → GaugeVec) × (OrgUsageKpis → ℤ)} (hg : g ∈ usageGauges) :
    g = (orgActiveUsers, OrgUsageKpis.activeUsers) ∨
      g = (orgEngagedUsers, OrgUsageKpis.engagedUsers) ∨
      g = (orgDailyCostMicroUsd, OrgUsageKpis.dailyCostMicroUsd) ∨
      g = (orgCostMonthToDateMicroUsd, OrgUsageKpis.costMonthToDateMicroUsd) := by
  simpa only [usageGauges, List.mem_cons, List.not_mem_nil, or_false] using hg

theorem seatGauges_cases {g : (Metrics → GaugeVec) × (OrgSeatKpis → ℤ)} (hg : g ∈ seatGauges) :
    g = (orgSeatsAssigned, fun row => row.seatsAssigned) ∨
      g = (orgSeatsNeverUsed, fun row => row.seatsNeverUsed) := by
  simpa only [seatGauges, List.mem_cons, List.not_mem_nil, or_false] using hg

/-- The gauges show the last result set of each family, and nothing of a family without one. -/
structure ShowsConfirmed (m : Metrics) (connector : Option (List ConnectorFreshness))
    (usage : Option (List OrgUsageKpis)) (seats : Option (List OrgSeatKpis)) : Prop where
  timestamp : ∀ provider, m.connectorLastSuccessTimestampSeconds provider =
    if provider ∈ knownProviders then connector.bind (byProvider · provider) else none
  hasSynced : ∀ provider, m.connectorHasSynced provider =
    if provider ∈ knownProviders then connector.map fun rows =>
      if provider ∈ rows.map ConnectorFreshness.provider then 1 else 0
    else none
  orgUsage : ∀ g ∈ usageGauges, ∀ organizationId, g.1 m organizationId =
    usage.bind (GaugeVec.ofRows OrgUsageKpis.organizationId g.2 · organizationId)
  orgSeats : ∀ g ∈ seatGauges, ∀ organizationId, g.1 m organizationId =
    seats.bind (GaugeVec.ofRows OrgSeatKpis.organizationId g.2 · organizationId)
  hasData : ∀ family, m.orgKpiHasData family =
    if family = "usage" then usage.map fun rows => if rows = [] then 0 else 1
    else if family = "seats" then seats.map fun rows => if rows = [] then 0 else 1
    else none

/-- The gauges show the rows of all result sets, a later row of a label in place of an earlier
one; the flags show the last set. -/
structure ShowsAll (m : Metrics) (connector : List (List ConnectorFreshness))
    (usage : List (List OrgUsageKpis)) (seats : List (List OrgSeatKpis)) : Prop where
  timestamp : ∀ provider, m.connectorLastSuccessTimestampSeconds provider =
    if provider ∈ knownProviders then byProvider connector.flatten provider else none
  hasSynced : ∀ provider, m.connectorHasSynced provider =
    if provider ∈ knownProviders then connector.getLast?.map fun rows =>
      if provider ∈ rows.map ConnectorFreshness.provider then 1 else 0
    else none
  orgUsage : ∀ g ∈ usageGauges, ∀ organizationId, g.1 m organizationId =
    GaugeVec.ofRows OrgUsageKpis.organizationId g.2 usage.flatten organizationId
  orgSeats : ∀ g ∈ seatGauges, ∀ organizationId, g.1 m organizationId =
    GaugeVec.ofRows OrgSeatKpis.organizationId g.2 seats.flatten organizationId
  hasData : ∀ family, m.orgKpiHasData family =
    if family = "usage" then usage.getLast?.map fun rows => if rows = [] then 0 else 1
    else if family = "seats" then seats.getLast?.map fun rows => if rows = [] then 0 else 1
    else none

variable {m : Metrics} {connector : List (List ConnectorFreshness)}
  {usage : List (List OrgUsageKpis)} {seats : List (List OrgSeatKpis)}

theorem showsAll_new : new.ShowsAll [] [] [] := by
  constructor
  · intro provider
    simp [new, GaugeVec.new, byProvider, GaugeVec.ofRows]
  · intro provider
    simp [new, GaugeVec.new]
  · intro g hg organizationId
    obtain rfl | rfl | rfl | rfl := usageGauges_cases hg <;> rfl
  · intro g hg organizationId
    obtain rfl | rfl := seatGauges_cases hg <;> rfl
  · intro family
    simp [new, GaugeVec.new]

theorem ShowsAll.countError (h : m.ShowsAll connector usage seats) (reason : String) :
    (m.countError reason).ShowsAll connector usage seats := by
  refine ⟨h.timestamp, h.hasSynced, ?_, ?_, h.hasData⟩
  · intro g hg organizationId
    rw [← h.orgUsage g hg]
    obtain rfl | rfl | rfl | rfl := usageGauges_cases hg <;> rfl
  · intro g hg organizationId
    rw [← h.orgSeats g hg]
    obtain rfl | rfl := seatGauges_cases hg <;> rfl

/-- Only the gauges of the connectors change, and those of the known providers. -/
theorem refreshConnectorFreshness_rows (m : Metrics) (rows : List ConnectorFreshness) :
    m.refreshConnectorFreshness (.rows rows) =
      { m with
        connectorLastSuccessTimestampSeconds := fun provider =>
          if provider ∈ knownProviders then
            (byProvider rows provider).or (m.connectorLastSuccessTimestampSeconds provider)
          else m.connectorLastSuccessTimestampSeconds provider
        connectorHasSynced := fun provider =>
          if provider ∈ knownProviders then
            some (if provider ∈ rows.map ConnectorFreshness.provider then 1 else 0)
          else m.connectorHasSynced provider } := by
  have hmem (provider : String) : provider ∈ rows.map ConnectorFreshness.provider ↔
      byProvider rows provider ≠ none := by
    rw [byProvider, Ne, GaugeVec.ofRows_eq_none_iff, not_not]
  simp only [refreshConnectorFreshness, knownProviders, List.foldl_cons, List.foldl_nil,
    setFreshness, List.mem_singleton, hmem]
  cases hrow : byProvider rows "github_copilot" with
  | some seconds =>
    dsimp only
    congr 1 <;> funext provider <;> by_cases hp : provider = "github_copilot" <;> simp [hp, hrow]
  | none =>
    dsimp only
    congr 1 <;> funext provider <;> by_cases hp : provider = "github_copilot" <;> simp [hp, hrow]

theorem ShowsAll.refreshConnectorFreshness (h : m.ShowsAll connector usage seats)
    (outcome : Outcome ConnectorFreshness) :
    (m.refreshConnectorFreshness outcome).ShowsAll (connector ++ results [outcome]) usage seats := by
  cases outcome with
  | queryError =>
    rw [show results [(.queryError : Outcome ConnectorFreshness)] = [] from rfl, List.append_nil]
    exact h.countError _
  | timeout =>
    rw [show results [(.timeout : Outcome ConnectorFreshness)] = [] from rfl, List.append_nil]
    exact h.countError _
  | rows rows =>
    rw [show results [.rows rows] = [rows] from rfl, refreshConnectorFreshness_rows]
    refine ⟨?_, ?_, ?_, ?_, h.hasData⟩
    · intro provider
      have hflat : (connector ++ [rows]).flatten = connector.flatten ++ rows := by simp
      dsimp only
      rw [h.timestamp provider, hflat]
      split
      · rw [byProvider, byProvider, byProvider, GaugeVec.ofRows_append]
      · rfl
    · intro provider
      dsimp only
      rw [List.getLast?_concat, Option.map_some, h.hasSynced provider]
      split <;> rfl
    · intro g hg organizationId
      rw [← h.orgUsage g hg]
      obtain rfl | rfl | rfl | rfl := usageGauges_cases hg <;> rfl
    · intro g hg organizationId
      rw [← h.orgSeats g hg]
      obtain rfl | rfl := seatGauges_cases hg <;> rfl

/-- A loop over rows that sets a gauge at each of them leaves the series of the rows in it. -/
theorem gauge_foldl {ρ : Type} {label : ρ → String} {step : Metrics → ρ → Metrics}
    {g : (Metrics → GaugeVec) × (ρ → ℤ)}
    (hstep : ∀ m row, g.1 (step m row) = (g.1 m).set (label row) (g.2 row)) (rows : List ρ)
    (m : Metrics) (l : String) :
    g.1 (rows.foldl step m) l = (GaugeVec.ofRows label g.2 rows l).or (g.1 m l) := by
  rw [← GaugeVec.foldl_set]
  induction rows generalizing m with
  | nil => rfl
  | cons row rows ih => rw [List.foldl_cons, List.foldl_cons, ih, hstep]

/-- A gauge that a loop does not set stays as it is. -/
theorem gauge_foldl_other {ρ α : Type} (step : Metrics → ρ → Metrics) {g : Metrics → α}
    (hstep : ∀ m row, g (step m row) = g m) (rows : List ρ) (m : Metrics) :
    g (rows.foldl step m) = g m := by
  induction rows generalizing m with
  | nil => rfl
  | cons row rows ih => rw [List.foldl_cons, ih, hstep]

theorem ShowsAll.refreshOrgUsageKpis (h : m.ShowsAll connector usage seats)
    (outcome : Outcome OrgUsageKpis) :
    (m.refreshOrgUsageKpis outcome).ShowsAll connector (usage ++ results [outcome]) seats := by
  cases outcome with
  | queryError =>
    rw [show results [(.queryError : Outcome OrgUsageKpis)] = [] from rfl, List.append_nil]
    exact h.countError _
  | timeout =>
    rw [show results [(.timeout : Outcome OrgUsageKpis)] = [] from rfl, List.append_nil]
    exact h.countError _
  | rows rows =>
    rw [show results [.rows rows] = [rows] from rfl, Metrics.refreshOrgUsageKpis]
    refine ⟨?_, ?_, ?_, ?_, ?_⟩
    · intro provider
      rw [gauge_foldl_other setUsage (g := connectorLastSuccessTimestampSeconds) fun _ _ => rfl]
      exact h.timestamp provider
    · intro provider
      rw [gauge_foldl_other setUsage (g := connectorHasSynced) fun _ _ => rfl]
      exact h.hasSynced provider
    · intro g hg organizationId
      have hset : (∀ m row, g.1 (setUsage m row) = (g.1 m).set row.organizationId (g.2 row)) ∧
          ∀ data, g.1 { m with orgKpiHasData := data } = g.1 m := by
        obtain rfl | rfl | rfl | rfl := usageGauges_cases hg <;>
          exact ⟨fun _ _ => rfl, fun _ => rfl⟩
      have hflat : (usage ++ [rows]).flatten = usage.flatten ++ rows := by simp
      rw [gauge_foldl hset.1, hset.2, h.orgUsage g hg, hflat, GaugeVec.ofRows_append]
    · intro g hg organizationId
      have hkeep : (∀ m row, g.1 (setUsage m row) = g.1 m) ∧
          ∀ data, g.1 { m with orgKpiHasData := data } = g.1 m := by
        obtain rfl | rfl := seatGauges_cases hg <;> exact ⟨fun _ _ => rfl, fun _ => rfl⟩
      rw [gauge_foldl_other _ hkeep.1, hkeep.2]
      exact h.orgSeats g hg organizationId
    · intro family
      rw [gauge_foldl_other setUsage (g := orgKpiHasData) fun _ _ => rfl]
      by_cases hfamily : family = "usage"
      · subst hfamily
        simp
      · simp [hfamily, h.hasData family]

theorem ShowsAll.refreshOrgSeatKpis (h : m.ShowsAll connector usage seats)
    (outcome : Outcome OrgSeatKpis) :
    (m.refreshOrgSeatKpis outcome).ShowsAll connector usage (seats ++ results [outcome]) := by
  cases outcome with
  | queryError =>
    rw [show results [(.queryError : Outcome OrgSeatKpis)] = [] from rfl, List.append_nil]
    exact h.countError _
  | timeout =>
    rw [show results [(.timeout : Outcome OrgSeatKpis)] = [] from rfl, List.append_nil]
    exact h.countError _
  | rows rows =>
    rw [show results [.rows rows] = [rows] from rfl, Metrics.refreshOrgSeatKpis]
    refine ⟨?_, ?_, ?_, ?_, ?_⟩
    · intro provider
      rw [gauge_foldl_other setSeats (g := connectorLastSuccessTimestampSeconds) fun _ _ => rfl]
      exact h.timestamp provider
    · intro provider
      rw [gauge_foldl_other setSeats (g := connectorHasSynced) fun _ _ => rfl]
      exact h.hasSynced provider
    · intro g hg organizationId
      have hkeep : (∀ m row, g.1 (setSeats m row) = g.1 m) ∧
          ∀ data, g.1 { m with orgKpiHasData := data } = g.1 m := by
        obtain rfl | rfl | rfl | rfl := usageGauges_cases hg <;>
          exact ⟨fun _ _ => rfl, fun _ => rfl⟩
      rw [gauge_foldl_other _ hkeep.1, hkeep.2]
      exact h.orgUsage g hg organizationId
    · intro g hg organizationId
      have hset : (∀ m row, g.1 (setSeats m row) = (g.1 m).set row.organizationId (g.2 row)) ∧
          ∀ data, g.1 { m with orgKpiHasData := data } = g.1 m := by
        obtain rfl | rfl := seatGauges_cases hg <;> exact ⟨fun _ _ => rfl, fun _ => rfl⟩
      have hflat : (seats ++ [rows]).flatten = seats.flatten ++ rows := by simp
      rw [gauge_foldl hset.1, hset.2, h.orgSeats g hg, hflat, GaugeVec.ofRows_append]
    · intro family
      rw [gauge_foldl_other setSeats (g := orgKpiHasData) fun _ _ => rfl]
      by_cases hfamily : family = "seats"
      · subst hfamily
        simp
      · simp [hfamily, h.hasData family]

/-- The gauges after some scrapes, in terms of all their result sets. -/
theorem showsAll_scrapes (cal : Calendar) (tenantId : String) (scrapes : List Scrape) :
    (scrapes.foldl (Metrics.scrape cal tenantId) .new).ShowsAll
      (results (scrapes.map (Scrape.connectorOutcome tenantId)))
      (results (scrapes.map (Scrape.usageOutcome cal tenantId)))
      (results (scrapes.map (Scrape.seatsOutcome tenantId))) := by
  induction scrapes using List.reverseRecOn with
  | nil => exact showsAll_new
  | append_singleton scrapes s ih =>
    have hresults {ρ : Type} (f : Scrape → Outcome ρ) :
        results ((scrapes ++ [s]).map f) = results (scrapes.map f) ++ results [f s] := by
      rw [List.map_append, results, List.filterMap_append]
      rfl
    rw [List.foldl_append, hresults, hresults, hresults]
    exact ((ih.refreshConnectorFreshness _).refreshOrgUsageKpis _).refreshOrgSeatKpis _

/-- Every label that a result set of a family had is in the family's last one. -/
structure NoneGone (connector : List (List ConnectorFreshness)) (usage : List (List OrgUsageKpis))
    (seats : List (List OrgSeatKpis)) : Prop where
  connector : ∀ rows ∈ connector, ∀ provider ∈ knownProviders,
    provider ∈ rows.map ConnectorFreshness.provider →
      provider ∈ (connector.getLast?.getD []).map ConnectorFreshness.provider
  usage : ∀ rows ∈ usage, ∀ organizationId ∈ rows.map OrgUsageKpis.organizationId,
    organizationId ∈ (usage.getLast?.getD []).map OrgUsageKpis.organizationId
  seats : ∀ rows ∈ seats, ∀ organizationId ∈ rows.map OrgSeatKpis.organizationId,
    organizationId ∈ (seats.getLast?.getD []).map OrgSeatKpis.organizationId

theorem ShowsAll.showsConfirmed_iff (h : m.ShowsAll connector usage seats) :
    m.ShowsConfirmed connector.getLast? usage.getLast? seats.getLast? ↔
      NoneGone connector usage seats := by
  constructor
  · intro hlast
    refine ⟨?_, ?_, ?_⟩
    · intro rows hrows provider hknown
      have heq := (h.timestamp provider).symm.trans (hlast.timestamp provider)
      rw [if_pos hknown, if_pos hknown] at heq
      exact (GaugeVec.ofRows_flatten_iff connector provider).mp heq rows hrows
    · intro rows hrows organizationId
      have hmem : (orgActiveUsers, OrgUsageKpis.activeUsers) ∈ usageGauges := by simp [usageGauges]
      have heq := (h.orgUsage _ hmem organizationId).symm.trans
        (hlast.orgUsage _ hmem organizationId)
      exact (GaugeVec.ofRows_flatten_iff usage organizationId).mp heq rows hrows
    · intro rows hrows organizationId
      have hmem : (orgSeatsAssigned, fun row : OrgSeatKpis => (row.seatsAssigned : ℤ)) ∈
          seatGauges := by simp [seatGauges]
      have heq := (h.orgSeats _ hmem organizationId).symm.trans
        (hlast.orgSeats _ hmem organizationId)
      exact (GaugeVec.ofRows_flatten_iff seats organizationId).mp heq rows hrows
  · intro hnone
    refine ⟨?_, h.hasSynced, ?_, ?_, h.hasData⟩
    · intro provider
      rw [h.timestamp provider]
      split
      · next hknown =>
        exact (GaugeVec.ofRows_flatten_iff connector provider).mpr fun rows hrows =>
          hnone.connector rows hrows provider hknown
      · rfl
    · intro g hg organizationId
      rw [h.orgUsage g hg]
      exact (GaugeVec.ofRows_flatten_iff usage organizationId).mpr fun rows hrows =>
        hnone.usage rows hrows organizationId
    · intro g hg organizationId
      rw [h.orgSeats g hg]
      exact (GaugeVec.ofRows_flatten_iff seats organizationId).mpr fun rows hrows =>
        hnone.seats rows hrows organizationId

end Metrics

/-- After every sequence of scrapes, over tables that change in any way between the queries: the
gauges show the last result set of each family exactly if no known provider and no organization
has gone from the results. -/
theorem scrapes_show_confirmed_iff (cal : Calendar) (tenantId : String) (scrapes : List Scrape) :
    (scrapes.foldl (Metrics.scrape cal tenantId) .new).ShowsConfirmed
        (results (scrapes.map (Scrape.connectorOutcome tenantId))).getLast?
        (results (scrapes.map (Scrape.usageOutcome cal tenantId))).getLast?
        (results (scrapes.map (Scrape.seatsOutcome tenantId))).getLast? ↔
      Metrics.NoneGone (results (scrapes.map (Scrape.connectorOutcome tenantId)))
        (results (scrapes.map (Scrape.usageOutcome cal tenantId)))
        (results (scrapes.map (Scrape.seatsOutcome tenantId))) :=
  (Metrics.showsAll_scrapes cal tenantId scrapes).showsConfirmed_iff

/-- The tables with one report day of one organization and one of its seats. -/
def reportedDb : CopilotDb :=
  { CopilotDb.empty with
    orgDailys := ⟨[⟨"o", "acme", "77", 20670, 4, 3, 0, 0, 0, 0, 0, 0, 0, 0⟩], by decide, by decide⟩
    seatSnapshots :=
      ⟨[⟨"s", "acme", "77", 20670, "1001", "ada", none, none, none, "active"⟩], by decide,
        by decide⟩
    manifests :=
      ⟨[⟨"m", "acme", "github_copilot", "org-1", 20670, "organization-1-day", "ok", 1, 1⟩],
        by decide, by decide⟩ }

/-- The day is scraped, decommissioned, and scraped again: the flags say that there is nothing,
beside the timestamp, the users and the seat of the first scrape. -/
theorem decommissioned_series_stay :
    let scrapes : List Scrape := [⟨.answered reportedDb, .answered reportedDb, .answered reportedDb⟩,
      ⟨.answered .empty, .answered .empty, .answered .empty⟩]
    let m := scrapes.foldl (Metrics.scrape CopilotEnv.augustCalendar "acme") .new
    m.connectorHasSynced "github_copilot" = some 0 ∧
      m.connectorLastSuccessTimestampSeconds "github_copilot" = some 1785888000 ∧
      m.orgKpiHasData "usage" = some 0 ∧ m.orgActiveUsers "77" = some 4 ∧
      m.orgKpiHasData "seats" = some 0 ∧ m.orgSeatsAssigned "77" = some 1 ∧
      ¬ m.ShowsConfirmed (some []) (some []) (some []) := by
  refine ⟨by decide, by decide, by decide, by decide,
    by decide, by decide, ?_⟩
  intro hlast
  have hstale := hlast.timestamp "github_copilot"
  revert hstale
  decide

end Api

end Governance
