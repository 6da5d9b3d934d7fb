import Governance.CopilotPush.Batch
import Governance.Lib.Outcome
import Mathlib.Algebra.BigOperators.Group.List.Basic

/-!
# A batch conserves its telemetry

What becomes of every log record and of every data point in a batch of lines. Each is found once in
the payload, under a resource and a scope equal to its own, or it is counted; and what is counted
for some lines is the sum of what is counted for each.

The inventory is taken from the records, before anything is translated: `read` says what a line is,
`supportedPoints` lists the data points of a record in metrics of a supported type, `Read.counts` is
what a line ought to add to the tally. The payload is read back as a collector would, from its
JSON.
-/

namespace Governance

open Utf8Text ByteLines

namespace Batch

/-! ## Tallies add up -/

instance : Add Counts where
  add a b := ⟨a.metrics + b.metrics, a.logs + b.logs, a.unparsable + b.unparsable,
    a.unknown + b.unknown, a.empty + b.empty, a.unsupportedMetrics + b.unsupportedMetrics,
    a.droppedPoints + b.droppedPoints⟩

instance : Zero Counts where
  zero := Counts.default

theorem Counts.add_def (a b : Counts) :
    a + b = ⟨a.metrics + b.metrics, a.logs + b.logs, a.unparsable + b.unparsable,
      a.unknown + b.unknown, a.empty + b.empty, a.unsupportedMetrics + b.unsupportedMetrics,
      a.droppedPoints + b.droppedPoints⟩ := rfl

theorem Counts.zero_def : (0 : Counts) = ⟨0, 0, 0, 0, 0, 0, 0⟩ := rfl

instance : AddCommMonoid Counts where
  add_assoc a b c := by ext <;> simp only [Counts.add_def] <;> omega
  zero_add a := by ext <;> simp only [Counts.add_def, Counts.zero_def] <;> omega
  add_zero a := by ext <;> simp only [Counts.add_def, Counts.zero_def] <;> omega
  add_comm a b := by ext <;> simp only [Counts.add_def] <;> omega
  nsmul := nsmulRec

/-- What is lost adds up with the tallies. -/
theorem Counts.discarded_add (a b : Counts) : (a + b).discarded = a.discarded + b.discarded := by
  simp only [Counts.discarded, Counts.add_def]
  omega

/-! ## The inventory -/

/-- What a line turns out to be. -/
inductive Read where
  | unparsable
  | unknown
  | empty
  | log (record : LogRecord)
  | metrics (record : MetricsRecord)

variable (codec : BatchCodec)

/-- Reads one line. A record whose fields do not fit its kind is as unknown as a kind nobody
handles. -/
def read (line : Text) : Read :=
  match codec.fromStr line with
  | none => .unparsable
  | some value =>
    match classify value with
    | .metrics => (codec.metricsRecord value).elim .unknown .metrics
    | .log => (codec.logRecord value).elim .unknown .log
    | .empty => .empty
    | .unknown => .unknown

/-- The field of an OTLP metric that has the points of a type, for the supported types. -/
def field (m : Metric) : Option String :=
  match m.dataPointType with
  | some 0 => some "histogram"
  | some 2 => some "gauge"
  | some 3 => some "sum"
  | _ => none

/-- What becomes of a data point of a metric, if anything. -/
def translate (m : Metric) (point : DataPoint) : Option Json :=
  match m.dataPointType with
  | some 0 => histogramPoint codec point
  | some 2 | some 3 => numberPoint codec (m.descriptor.valueType = some 0) point
  | _ => none

/-- A data point, with where it comes from. -/
structure Sourced where
  resource : Resource
  scope : Scope
  metric : Metric
  point : DataPoint

/-- What becomes of a data point with a source. -/
def Sourced.translated (x : Sourced) : Option Json := translate codec x.metric x.point

/-- The data points of a metric, if its type is supported. -/
def sourcedPoints (r : Resource) (s : Scope) (m : Metric) : List Sourced :=
  if (field m).isSome then m.dataPoints.map fun p => ⟨r, s, m, p⟩ else []

/-- The data points of a record in metrics of a supported type. -/
def supportedPoints (r : MetricsRecord) : List Sourced :=
  r.scopeMetrics.flatMap fun sm => sm.metrics.flatMap fun m => sourcedPoints r.resource sm.scope m

/-- The metrics of a record. -/
def MetricsRecord.metrics (r : MetricsRecord) : List Metric :=
  r.scopeMetrics.flatMap ScopeMetrics.metrics

/-- What a line ought to add to the tally. A metrics line is `unknown` only if it has metrics and
none of them is unsupported or has a point. -/
def Read.counts : Read → Counts
  | .unparsable => { Counts.default with unparsable := 1 }
  | .unknown => { Counts.default with unknown := 1 }
  | .empty => { Counts.default with empty := 1 }
  | .log _ => { Counts.default with logs := 1 }
  | .metrics r => { Counts.default with
      metrics := if (supportedPoints r).any fun x => (x.translated codec).isSome then 1 else 0
      unknown := if r.metrics ≠ [] ∧ (∀ m ∈ r.metrics, (field m).isSome) ∧
        (supportedPoints r).isEmpty then 1 else 0
      unsupportedMetrics := r.metrics.countP fun m => (field m).isNone
      droppedPoints := (supportedPoints r).countP fun x => (x.translated codec).isNone }

/-- The log records of some lines. -/
def logRecords (lines : List Text) : List LogRecord :=
  lines.flatMap fun line => match read codec line with
    | .log r => [r]
    | _ => []

/-- The data points of some lines in metrics of a supported type. -/
def dataPoints (lines : List Text) : List Sourced :=
  lines.flatMap fun line => match read codec line with
    | .metrics r => supportedPoints r
    | _ => []

/-! ## Reading a payload back -/

/-- The array under a key. -/
def arrayAt (key : String) (value : Json) : List Json :=
  ((value.get key).bind Json.asArray).getD []

/-- The groups of a payload: each resource, and under it the scopes with their items. -/
def readGroups (resourceField scopeField itemField : String) (payload : Option Json) :
    List (Json × List (Json × List Json)) :=
  (payload.elim [] (arrayAt resourceField)).map fun g =>
    ((g.get "resource").getD .null, (arrayAt scopeField g).map fun s =>
      ((s.get "scope").getD .null, arrayAt itemField s))

/-- Every item of some groups, with its resource and its scope. -/
def placedItems (groups : List (Json × List (Json × List Json))) : List (Json × Json × Json) :=
  Grouping.contents (Grouping.contents id) groups

/-- A data point, with what stands around it in a payload. -/
structure Placed where
  resource : Json
  scope : Json
  name : Option Json
  description : Option Json
  unit : Option Json
  field : String
  point : Json

/-- The data points of a metric in a payload. -/
def itemPoints (x : Json × Json × Json) : List Placed :=
  ["histogram", "gauge", "sum"].flatMap fun f =>
    ((x.2.2.get f).elim [] (arrayAt "dataPoints")).map fun p =>
      ⟨x.1, x.2.1, x.2.2.get "name", x.2.2.get "description", x.2.2.get "unit", f, p⟩

/-- The metrics payload of a batch, as groups. -/
def Built.metricGroups (b : Built) : List (Json × List (Json × List Json)) :=
  readGroups "resourceMetrics" "scopeMetrics" "metrics" b.metrics

/-- The logs payload of a batch, as groups. -/
def Built.logGroups (b : Built) : List (Json × List (Json × List Json)) :=
  readGroups "resourceLogs" "scopeLogs" "logRecords" b.logs

/-! ## Metrics -/

/-- The points a metric keeps. -/
def kept (m : Metric) : List Json := m.dataPoints.filterMap (translate codec m)

/-- How many points a metric drops. -/
def dropped (m : Metric) : ℕ := m.dataPoints.countP fun p => (translate codec m p).isNone

/-- An OTLP metric with some points has just these points, under the right field. -/
theorem itemPoints_obj (r s : Json) (m : Metric) {f : String} (hf : field m = some f)
    (ps : List Json) (rest : List (String × Json)) :
    itemPoints (r, s, .obj [("name", .str m.descriptor.name),
      ("description", .str m.descriptor.description), ("unit", .str m.descriptor.unit),
      (f, .obj (("dataPoints", .arr ps) :: rest))]) =
    ps.map fun p => ⟨r, s, some (.str m.descriptor.name), some (.str m.descriptor.description),
      some (.str m.descriptor.unit), f, p⟩ := by
  have hcases : f = "histogram" ∨ f = "gauge" ∨ f = "sum" := by
    unfold field at hf
    split at hf <;> simp_all
  obtain rfl | rfl | rfl := hcases <;>
    simp [itemPoints, Json.get, arrayAt, Json.asArray, List.lookup]

/-- The end of `metrics::metric`, behind the choice of the field. -/
theorem metric_of_data {m : Metric} {f : String} (hf : field m = some f)
    (rest : List (String × Json))
    (hm : metric codec m = if (kept codec m).length = 0 then .noPoints (dropped codec m) else
      .metric (.obj [("name", .str m.descriptor.name),
        ("description", .str m.descriptor.description), ("unit", .str m.descriptor.unit),
        (f, .obj (("dataPoints", .arr (kept codec m)) :: rest))]) (dropped codec m)) :
    (kept codec m = [] ∧ metric codec m = .noPoints (dropped codec m)) ∨
      (kept codec m ≠ [] ∧ ∃ item, metric codec m = .metric item (dropped codec m) ∧
        ∀ r s, itemPoints (r, s, item) = (kept codec m).map fun p =>
          ⟨r, s, some (.str m.descriptor.name), some (.str m.descriptor.description),
            some (.str m.descriptor.unit), f, p⟩) := by
  by_cases hk : kept codec m = []
  · refine .inl ⟨hk, ?_⟩
    rw [hm, if_pos (by rw [hk]; rfl)]
  · refine .inr ⟨hk, _, ?_, fun r s => itemPoints_obj r s m hf (kept codec m) rest⟩
    rw [hm, if_neg (by rwa [List.length_eq_zero_iff])]

/-- What `metrics::metric` makes of a metric. -/
theorem metric_spec (m : Metric) :
    (field m = none ∧ metric codec m = .unsupported) ∨
    ∃ f, field m = some f ∧
      ((kept codec m = [] ∧ metric codec m = .noPoints (dropped codec m)) ∨
        (kept codec m ≠ [] ∧ ∃ item, metric codec m = .metric item (dropped codec m) ∧
          ∀ r s, itemPoints (r, s, item) = (kept codec m).map fun p =>
            ⟨r, s, some (.str m.descriptor.name), some (.str m.descriptor.description),
              some (.str m.descriptor.unit), f, p⟩)) := by
  let temporality := Json.num (.posInt (temporality m.aggregationTemporality))
  by_cases h0 : m.dataPointType = some 0
  · have ht : translate codec m = histogramPoint codec := by
      funext p
      simp only [translate, h0]
    have hf : field m = some "histogram" := by simp only [field, h0]
    refine .inr ⟨_, hf, metric_of_data codec hf [("aggregationTemporality", temporality)] ?_⟩
    simp only [metric, h0, kept, dropped, ht, histogram, points]
    rfl
  by_cases h2 : m.dataPointType = some 2
  · have ht : translate codec m = numberPoint codec (m.descriptor.valueType = some 0) := by
      funext p
      simp only [translate, h2]
    have hf : field m = some "gauge" := by simp only [field, h2]
    refine .inr ⟨_, hf, metric_of_data codec hf [] ?_⟩
    simp only [metric, h2, kept, dropped, ht, number, points]
  by_cases h3 : m.dataPointType = some 3
  · have ht : translate codec m = numberPoint codec (m.descriptor.valueType = some 0) := by
      funext p
      simp only [translate, h3]
    have hf : field m = some "sum" := by simp only [field, h3]
    refine .inr ⟨_, hf, metric_of_data codec hf [("aggregationTemporality", temporality),
      ("isMonotonic", .bool (m.isMonotonic.getD false))] ?_⟩
    simp only [metric, h3, kept, dropped, ht, number, points]
    rfl
  · -- no supported type
    refine .inl ⟨?_, ?_⟩
    · unfold field
      split <;> first | contradiction | rfl
    · unfold metric
      split <;> first | contradiction | rfl

/-- The OTLP metric that a metric becomes, if any. -/
def itemOf (m : Metric) : Option Json :=
  match metric codec m with
  | .metric item _ => some item
  | _ => none

/-- How many points a metric adds to the dropped ones. -/
def droppedOf (m : Metric) : ℕ := if (field m).isSome then dropped codec m else 0

theorem transformMetric_eq (r : Skipped × List Json) (m : Metric) :
    transformMetric codec r m =
      (⟨r.1.unsupported + (if (field m).isNone then 1 else 0), r.1.points + droppedOf codec m⟩,
        r.2 ++ (itemOf codec m).toList) := by
  obtain ⟨hf, hm⟩ | ⟨f, hf, ⟨-, hm⟩ | ⟨-, item, hm, -⟩⟩ := metric_spec codec m <;>
    simp [transformMetric, itemOf, droppedOf, hf, hm]

theorem foldl_transformMetric (ms : List Metric) (r : Skipped × List Json) :
    ms.foldl (transformMetric codec) r =
      (⟨r.1.unsupported + ms.countP fun m => (field m).isNone,
        r.1.points + (ms.map (droppedOf codec)).sum⟩, r.2 ++ ms.filterMap (itemOf codec)) := by
  induction ms generalizing r with
  | nil => simp
  | cons m ms ih =>
    rw [List.foldl_cons, ih, transformMetric_eq, List.countP_cons, List.map_cons, List.sum_cons,
      List.filterMap_cons]
    refine Prod.ext ?_ ?_
    · show Skipped.mk _ _ = Skipped.mk _ _
      congr 1 <;> simp only <;> omega
    · cases itemOf codec m <;> simp

/-- `metrics::transform`, without its accumulators. -/
theorem transformMetrics_eq (record : MetricsRecord) :
    transformMetrics codec record =
      (record.scopeMetrics.map fun sm =>
        (resource codec record.resource, scope sm.scope, sm.metrics.filterMap (itemOf codec)),
        ⟨record.metrics.countP fun m => (field m).isNone,
          (record.metrics.map (droppedOf codec)).sum⟩) := by
  have hloop : ∀ (sms : List ScopeMetrics) (gs : List Grouped) (sk : Skipped),
      sms.foldl (fun r scopeMetrics =>
        let s := scopeMetrics.metrics.foldl (transformMetric codec) (r.2, [])
        (r.1 ++ [(resource codec record.resource, scope scopeMetrics.scope, s.2)], s.1)) (gs, sk) =
      (gs ++ sms.map fun sm =>
        (resource codec record.resource, scope sm.scope, sm.metrics.filterMap (itemOf codec)),
        ⟨sk.unsupported + (sms.flatMap ScopeMetrics.metrics).countP fun m => (field m).isNone,
          sk.points + ((sms.flatMap ScopeMetrics.metrics).map (droppedOf codec)).sum⟩) := by
    intro sms
    induction sms with
    | nil => intro gs sk; simp
    | cons sm sms ih =>
      intro gs sk
      simp only [List.foldl_cons]
      rw [ih, foldl_transformMetric]
      simp only [List.flatMap_cons, List.countP_append, List.map_append, List.sum_append,
        List.map_cons, List.append_assoc, List.nil_append, List.cons_append, Nat.add_assoc]
  have h := hloop record.scopeMetrics [] ⟨0, 0⟩
  simp only [List.nil_append, Nat.zero_add] at h
  exact h

/-! ## The tally of a line -/

theorem countP_sourcedPoints (r : Resource) (s : Scope) (m : Metric) :
    (sourcedPoints r s m).countP (fun x => (x.translated codec).isNone) = droppedOf codec m := by
  unfold sourcedPoints droppedOf
  split
  · rw [List.countP_map]
    rfl
  · rfl

/-- Every dropped point of a record is counted. -/
theorem countP_supportedPoints (r : MetricsRecord) :
    (supportedPoints r).countP (fun x => (x.translated codec).isNone) =
      (r.metrics.map (droppedOf codec)).sum := by
  have hscope : ∀ sm : ScopeMetrics, (sm.metrics.flatMap fun m =>
      sourcedPoints r.resource sm.scope m).countP (fun x => (x.translated codec).isNone) =
      (sm.metrics.map (droppedOf codec)).sum := by
    intro sm
    rw [List.countP_flatMap]
    congr 1
    exact List.map_congr_left fun m _ => countP_sourcedPoints codec r.resource sm.scope m
  unfold supportedPoints MetricsRecord.metrics
  rw [List.countP_flatMap, List.map_flatMap]
  induction r.scopeMetrics with
  | nil => rfl
  | cons sm sms ih =>
    rw [List.map_cons, List.sum_cons, ih, List.flatMap_cons, List.sum_append]
    exact congrArg (· + _) (hscope sm)

/-- A metric becomes an item if it keeps a point. -/
theorem isSome_itemOf (m : Metric) :
    (itemOf codec m).isSome = ((field m).isSome && !(kept codec m).isEmpty) := by
  obtain ⟨hf, hm⟩ | ⟨f, hf, ⟨hk, hm⟩ | ⟨hk, item, hm, -⟩⟩ := metric_spec codec m
  · simp [itemOf, hf, hm]
  · simp [itemOf, hf, hm, hk]
  · simp [itemOf, hf, hm, hk]

/-- Something is produced for a record if one of its points is kept. -/
theorem produced_eq (r : MetricsRecord) :
    ((transformMetrics codec r).1.any fun g => !g.2.2.isEmpty) =
      (supportedPoints r).any fun x => (x.translated codec).isSome := by
  rw [transformMetrics_eq, Bool.eq_iff_iff, List.any_map, List.any_eq_true, List.any_eq_true]
  have hkept : ∀ m : Metric, (kept codec m).isEmpty = false ↔
      ∃ p ∈ m.dataPoints, (translate codec m p).isSome := by
    intro m
    rw [← Bool.not_eq_true, List.isEmpty_iff, kept, List.filterMap_eq_nil_iff]
    push Not
    simp only [Option.isSome_iff_ne_none]
  have hitems : ∀ sm : ScopeMetrics, (!(sm.metrics.filterMap (itemOf codec)).isEmpty) = true ↔
      ∃ m ∈ sm.metrics, (field m).isSome ∧ ∃ p ∈ m.dataPoints, (translate codec m p).isSome := by
    intro sm
    rw [Bool.not_eq_true', ← Bool.not_eq_true, List.isEmpty_iff, List.filterMap_eq_nil_iff]
    push Not
    refine exists_congr fun m => and_congr_right fun _ => ?_
    rw [← Option.isSome_iff_ne_none, isSome_itemOf, Bool.and_eq_true, Bool.not_eq_true', hkept]
  simp only [Function.comp_apply, hitems, supportedPoints, List.mem_flatMap]
  constructor
  · rintro ⟨sm, hsm, m, hm, hf, p, hp, ht⟩
    refine ⟨⟨r.resource, sm.scope, m, p⟩, ⟨sm, hsm, m, hm, ?_⟩, ht⟩
    rw [sourcedPoints, if_pos hf]
    exact List.mem_map.mpr ⟨p, hp, rfl⟩
  · rintro ⟨x, ⟨sm, hsm, m, hm, hx⟩, ht⟩
    unfold sourcedPoints at hx
    split at hx
    · obtain ⟨p, hp, rfl⟩ := List.mem_map.mp hx
      exact ⟨sm, hsm, m, hm, ‹_›, p, hp, ht⟩
    · simp at hx

theorem declared_iff (r : MetricsRecord) :
    (r.scopeMetrics.any fun scope => !scope.metrics.isEmpty) = true ↔ r.metrics ≠ [] := by
  rw [List.any_eq_true, Ne, MetricsRecord.metrics, List.flatMap_eq_nil_iff]
  push Not
  simp

/-- A record with metrics of which nothing came and nothing was counted has no points at all. -/
theorem unaccounted_iff (r : MetricsRecord)
    (hnone : ((supportedPoints r).any fun x => (x.translated codec).isSome) = false) :
    ((r.scopeMetrics.any fun scope => !scope.metrics.isEmpty) &&
      (r.metrics.countP fun m => (field m).isNone) = 0 &&
      ((supportedPoints r).countP fun x => (x.translated codec).isNone) = 0) = true ↔
    r.metrics ≠ [] ∧ (∀ m ∈ r.metrics, (field m).isSome) ∧ (supportedPoints r).isEmpty := by
  have hall : ∀ x ∈ supportedPoints r, (x.translated codec).isNone = true := by
    intro x hx
    have h := List.any_eq_false.mp hnone x hx
    simpa using h
  rw [Bool.and_eq_true, Bool.and_eq_true, declared_iff, decide_eq_true_iff, decide_eq_true_iff,
    List.countP_eq_zero, List.countP_eq_length.mpr hall, List.length_eq_zero_iff,
    List.isEmpty_iff, and_assoc]
  simp only [Bool.not_eq_true, Option.isNone_eq_false_iff]

/-- The groups a line adds to those of the metrics. -/
def Read.metricGroups : Read → List Grouped
  | .metrics r => (transformMetrics codec r).1
  | _ => []

/-- The groups a line adds to those of the logs. -/
def Read.logGroups : Read → List Grouped
  | .log r => [transformLog codec r]
  | _ => []

theorem addMetrics_eq (b : Building) (r : MetricsRecord) :
    addMetrics codec b r = ⟨b.counts + (Read.metrics r).counts codec,
      b.metricGroups ++ (transformMetrics codec r).1, b.logGroups⟩ := by
  have hsk : (transformMetrics codec r).2 = ⟨r.metrics.countP fun m => (field m).isNone,
      (supportedPoints r).countP fun x => (x.translated codec).isNone⟩ := by
    rw [transformMetrics_eq, countP_supportedPoints]
  unfold addMetrics
  simp only [produced_eq, hsk, Read.counts]
  by_cases hprod : ((supportedPoints r).any fun x => (x.translated codec).isSome) = true
  · -- something was produced, so there is a point
    have hne : ¬ (supportedPoints r).isEmpty = true := by
      intro hempty
      rw [List.isEmpty_iff.mp hempty] at hprod
      simp at hprod
    simp [hprod, hne, Counts.add_def, Counts.default]
  · have hnone := Bool.not_eq_true _ ▸ hprod
    simp only [hprod, unaccounted_iff codec r hnone]
    by_cases hlost : r.metrics ≠ [] ∧ (∀ m ∈ r.metrics, (field m).isSome) ∧
        (supportedPoints r).isEmpty
    · simp only [if_pos hlost, Counts.add_def, Counts.default]
      simp
    · simp only [if_neg hlost, Counts.add_def, Counts.default]
      simp

/-- The turn of the loop of `batch::build`, by what the line is. -/
theorem addLine_eq (b : Building) (line : Text) :
    addLine codec b line = ⟨b.counts + (read codec line).counts codec,
      b.metricGroups ++ (read codec line).metricGroups codec,
      b.logGroups ++ (read codec line).logGroups codec⟩ := by
  unfold addLine read
  cases codec.fromStr line with
  | none => simp [Read.counts, Read.metricGroups, Read.logGroups, Counts.add_def, Counts.default]
  | some value =>
    cases hk : classify value with
    | metrics =>
      cases hr : codec.metricsRecord value with
      | some r => simp [hk, hr, addMetrics_eq, Read.metricGroups, Read.logGroups]
      | none => simp [hk, hr, Read.counts, Read.metricGroups, Read.logGroups, Counts.add_def,
          Counts.default]
    | log =>
      cases hr : codec.logRecord value with
      | some r => simp [hk, hr, Read.counts, Read.metricGroups, Read.logGroups, Counts.add_def,
          Counts.default]
      | none => simp [hk, hr, Read.counts, Read.metricGroups, Read.logGroups, Counts.add_def,
          Counts.default]
    | empty =>
      simp [hk, Read.counts, Read.metricGroups, Read.logGroups, Counts.add_def, Counts.default]
    | unknown =>
      simp [hk, Read.counts, Read.metricGroups, Read.logGroups, Counts.add_def, Counts.default]

/-- The loop of `batch::build`, without its accumulators. -/
theorem foldl_addLine (lines : List Text) (b : Building) :
    lines.foldl (addLine codec) b =
      ⟨b.counts + (lines.map fun line => (read codec line).counts codec).sum,
        b.metricGroups ++ lines.flatMap fun line => (read codec line).metricGroups codec,
        b.logGroups ++ lines.flatMap fun line => (read codec line).logGroups codec⟩ := by
  induction lines generalizing b with
  | nil => simp
  | cons line lines ih =>
    rw [List.foldl_cons, ih, addLine_eq]
    simp only [List.map_cons, List.sum_cons, List.flatMap_cons, List.append_assoc, add_assoc]

theorem counts_build (lines : List Text) :
    (build codec lines).counts = (lines.map fun line => (read codec line).counts codec).sum := by
  have h := foldl_addLine codec lines ⟨.default, [], []⟩
  show (lines.foldl (addLine codec) ⟨.default, [], []⟩).counts = _
  rw [h]
  exact zero_add _

/-! ## Grouping -/

/-- Reading back the payload of some groups. -/
theorem readGroups_payload (groups : List Grouped) (resourceField : String)
    {scopeField itemField : String} (hscope : scopeField ≠ "resource")
    (hitem : itemField ≠ "scope") :
    readGroups resourceField scopeField itemField
      (payload groups scopeField itemField resourceField) = groupLoop groups := by
  have hread : (group groups scopeField itemField).map (fun g =>
      ((g.get "resource").getD .null, (arrayAt scopeField g).map fun s =>
        ((s.get "scope").getD .null, arrayAt itemField s))) = groupLoop groups := by
    unfold group
    rw [List.map_map]
    refine List.map_id'' ?_ _
    rintro ⟨r, scopes⟩
    have hscopes : scopes.map ((fun s => ((s.get "scope").getD .null, arrayAt itemField s)) ∘
        fun s => Json.obj [("scope", s.1), (itemField, .arr s.2)]) = scopes := by
      refine List.map_id'' ?_ _
      rintro ⟨s, items⟩
      simp [Json.get, arrayAt, Json.asArray, List.lookup, beq_eq_false_iff_ne.mpr hitem]
    have hfound : arrayAt scopeField (.obj [("resource", r), (scopeField, .arr (scopes.map fun s =>
        .obj [("scope", s.1), (itemField, .arr s.2)]))]) =
        scopes.map fun s => .obj [("scope", s.1), (itemField, .arr s.2)] := by
      simp [Json.get, arrayAt, Json.asArray, List.lookup, beq_eq_false_iff_ne.mpr hscope]
    simp only [Function.comp_apply]
    rw [hfound, List.map_map, hscopes]
    rfl
  unfold payload readGroups
  simp only
  split
  · rename_i hnil
    rw [hnil] at hread
    exact hread
  · rw [← hread]
    simp [arrayAt, Json.get, Json.asArray, List.lookup]

/-- The items of some groups, with their resource and scope. -/
def entryItems (entry : Grouped) : List (Json × Json × Json) :=
  entry.2.2.map fun item => (entry.1, entry.2.1, item)

/-- An item stands under a resource and a scope equal to its own. -/
def UnderOwn (z own : Json × Json × Json) : Prop :=
  Grouping.Under Json.eq z.1 own.1 ∧ Grouping.Under Json.eq z.2.1 own.2.1 ∧ z.2.2 = own.2.2

/-- Grouping loses no item, doubles none, and puts each under a resource and a scope equal to its
own. -/
theorem placedItems_groupLoop (entries : List Grouped) :
    ∃ zs, (placedItems (groupLoop entries)).Perm zs ∧
      List.Forall₂ UnderOwn zs (entries.flatMap entryItems) := by
  have hinner : ∀ (entry : Grouped) (scopes : List (Json × List Json)), ∃ ys,
      (Grouping.contents id (Grouping.addTo Json.eq entry.2.1 [] (· ++ entry.2.2) scopes)).Perm
        (Grouping.contents id scopes ++ ys) ∧
      List.Forall₂ (fun y d => Grouping.Under Json.eq y.1 entry.2.1 ∧ y.2 = d) ys entry.2.2 := by
    intro entry scopes
    refine Grouping.contents_addTo rfl (fun items => ⟨entry.2.2, .refl _, ?_⟩) entry.2.1 scopes
    exact List.forall₂_same.mpr fun _ _ => rfl
  have hstep : ∀ (groups : List (Json × List (Json × List Json))) (entry : Grouped), ∃ zs,
      (Grouping.contents (Grouping.contents id) (if entry.2.2 = [] then groups
        else Grouping.addTo Json.eq entry.1 []
          (Grouping.addTo Json.eq entry.2.1 [] (· ++ entry.2.2)) groups)).Perm
        (Grouping.contents (Grouping.contents id) groups ++ zs) ∧
      List.Forall₂ UnderOwn zs (entryItems entry) := by
    intro groups entry
    split
    · -- nothing to add: the entry is skipped
      rename_i hnil
      refine ⟨[], by rw [List.append_nil], ?_⟩
      rw [entryItems, hnil]
      exact .nil
    · have hempty : Grouping.contents id ([] : List (Json × List Json)) = [] := rfl
      obtain ⟨zs, hperm, hzs⟩ := Grouping.contents_addTo hempty (hinner entry) entry.1 groups
      refine ⟨zs, hperm, ?_⟩
      rw [entryItems, List.forall₂_map_right_iff]
      exact hzs.imp fun z d h => ⟨h.1, h.2.1, h.2.2⟩
  obtain ⟨zs, hperm, hzs⟩ := Grouping.contents_foldl hstep entries []
  exact ⟨zs, hperm, hzs⟩

/-- No two groups have equal resources, and within a group no two have equal scopes. -/
def AllSeparate (groups : List (Json × List (Json × List Json))) : Prop :=
  Grouping.Separate Json.eq groups ∧ ∀ g ∈ groups, Grouping.Separate Json.eq g.2

theorem allSeparate_groupLoop (entries : List Grouped) : AllSeparate (groupLoop entries) := by
  unfold groupLoop
  induction entries using List.reverseRecOn with
  | nil => exact ⟨List.Pairwise.nil, fun g hg => absurd hg List.not_mem_nil⟩
  | append_singleton entries entry ih =>
    rw [List.foldl_append, List.foldl_cons, List.foldl_nil]
    split
    · exact ih
    · exact ⟨Grouping.separate_addTo ih.1,
        Grouping.forall_addTo List.Pairwise.nil (fun _ h => Grouping.separate_addTo h) ih.2⟩

/-! ## Points in the payload -/

/-- A metric with where it comes from. -/
structure Source where
  resource : Resource
  scope : Scope
  metric : Metric

/-- The metrics of some lines. -/
def sources (lines : List Text) : List Source :=
  lines.flatMap fun line => match read codec line with
    | .metrics r =>
      r.scopeMetrics.flatMap fun sm => sm.metrics.map fun m => ⟨r.resource, sm.scope, m⟩
    | _ => []

/-- The item a metric becomes, with its resource and its scope. -/
def Source.item (x : Source) : Option (Json × Json × Json) :=
  (itemOf codec x.metric).map fun item =>
    (Batch.resource codec x.resource, Batch.scope x.scope, item)

/-- A data point is in the payload where it belongs. -/
structure PlacedAs (z : Placed) (x : Sourced) : Prop where
  resource : Grouping.Under Json.eq z.resource (Batch.resource codec x.resource)
  scope : Grouping.Under Json.eq z.scope (Batch.scope x.scope)
  name : z.name = some (.str x.metric.descriptor.name)
  description : z.description = some (.str x.metric.descriptor.description)
  unit : z.unit = some (.str x.metric.descriptor.unit)
  field : Batch.field x.metric = some z.field
  point : x.translated codec = some z.point

theorem entryItems_sources (lines : List Text) :
    (lines.flatMap fun line => (read codec line).metricGroups codec).flatMap entryItems =
      (sources codec lines).filterMap (Source.item codec) := by
  rw [sources, List.flatMap_assoc, List.filterMap_flatMap]
  congr 1
  funext line
  cases read codec line with
  | metrics r =>
    simp only [Read.metricGroups, transformMetrics_eq]
    rw [List.filterMap_flatMap, List.flatMap_map]
    congr 1
    funext sm
    rw [entryItems, List.filterMap_map, List.map_filterMap]
    rfl
  | _ => rfl

theorem dataPoints_sources (lines : List Text) :
    dataPoints codec lines =
      (sources codec lines).flatMap fun x => sourcedPoints x.resource x.scope x.metric := by
  rw [dataPoints, sources, List.flatMap_assoc]
  congr 1
  funext line
  cases read codec line with
  | metrics r =>
    simp only [supportedPoints]
    rw [List.flatMap_assoc]
    congr 1
    funext sm
    rw [List.flatMap_map]
  | _ => rfl

/-- The points of a metric are those the source metric keeps, in order. -/
theorem placedAs_points (x : Source) {z : Json × Json × Json} {own : Json × Json × Json}
    (hown : x.item codec = some own) (hz : UnderOwn z own) :
    List.Forall₂ (PlacedAs codec) (itemPoints z)
      ((sourcedPoints x.resource x.scope x.metric).filter fun y =>
        (y.translated codec).isSome) := by
  obtain ⟨item, hitem, rfl⟩ := Option.map_eq_some_iff.mp hown
  obtain ⟨r, s, item'⟩ := z
  obtain ⟨hr, hs, rfl⟩ := hz
  obtain ⟨hf, hm⟩ | ⟨f, hf, ⟨-, hm⟩ | ⟨-, item, hm, hpoints⟩⟩ := metric_spec codec x.metric
  · simp [itemOf, hm] at hitem
  · simp [itemOf, hm] at hitem
  · have hsame : item = item' := by simpa [itemOf, hm] using hitem
    subst hsame
    rw [hpoints, sourcedPoints, if_pos (by rw [hf]; rfl), kept, List.forall₂_map_left_iff]
    induction x.metric.dataPoints with
    | nil => exact .nil
    | cons p ps ih =>
      cases ht : translate codec x.metric p with
      | none =>
        rw [List.filterMap_cons_none ht, List.map_cons, List.filter_cons_of_neg]
        · exact ih
        · simp [Sourced.translated, ht]
      | some y =>
        rw [List.filterMap_cons_some ht, List.map_cons, List.filter_cons_of_pos]
        · exact .cons ⟨hr, hs, rfl, rfl, rfl, hf, ht⟩ ih
        · simp [Sourced.translated, ht]

/-- A metric that becomes no item has no point that is translated. -/
theorem filter_sourcedPoints_of_none (x : Source) (hnone : x.item codec = none) :
    (sourcedPoints x.resource x.scope x.metric).filter (fun y => (y.translated codec).isSome) =
      [] := by
  have hitem : itemOf codec x.metric = none := Option.map_eq_none_iff.mp hnone
  have h := isSome_itemOf codec x.metric
  rw [hitem] at h
  unfold sourcedPoints
  split
  · rename_i hf
    have hk : kept codec x.metric = [] := by simpa [hf] using h
    rw [List.filter_eq_nil_iff]
    rintro y hy
    obtain ⟨p, hp, rfl⟩ := List.mem_map.mp hy
    have := List.filterMap_eq_nil_iff.mp hk p hp
    simp [Sourced.translated, this]
  · rfl

/-- From items to points. -/
theorem placedAs_flatMap (xs : List Source) {zs : List (Json × Json × Json)}
    (h : List.Forall₂ UnderOwn zs (xs.filterMap (Source.item codec))) :
    List.Forall₂ (PlacedAs codec) (zs.flatMap itemPoints)
      ((xs.flatMap fun x => sourcedPoints x.resource x.scope x.metric).filter fun y =>
        (y.translated codec).isSome) := by
  induction xs generalizing zs with
  | nil =>
    cases h
    exact .nil
  | cons x xs ih =>
    rw [List.flatMap_cons, List.filter_append]
    cases hx : x.item codec with
    | none =>
      rw [List.filterMap_cons_none hx] at h
      rw [filter_sourcedPoints_of_none codec x hx]
      exact ih h
    | some own =>
      rw [List.filterMap_cons_some hx] at h
      obtain ⟨z, zs', hz, hzs', rfl⟩ := List.forall₂_cons_right_iff.mp h
      rw [List.flatMap_cons]
      exact List.rel_append (placedAs_points codec x hx hz) (ih hzs')

/-! ## Histograms -/

theorem lookup_append_of_notMem {entries rest : List (String × Json)} {key : String}
    (h : ∀ e ∈ entries, e.1 ≠ key) : (entries ++ rest).lookup key = rest.lookup key := by
  induction entries with
  | nil => rfl
  | cons e entries ih =>
    obtain ⟨he, hrest⟩ := List.forall_mem_cons.mp h
    rw [List.cons_append, List.lookup_cons, beq_eq_false_iff_ne.mpr he.symm]
    exact ih hrest

theorem key_of_mem_entryIf {key : String} {value : Option Json} {e : String × Json}
    (he : e ∈ entryIf key value) : e.1 = key := by
  unfold entryIf at he
  cases value with
  | none => simp at he
  | some v =>
    rw [Option.map_some, Option.toList_some, List.mem_singleton] at he
    rw [he]

/-- One bucket more than there are bounds. -/
def BucketsFit (value : Json) : Prop :=
  ∃ counts bounds, value.get "bucketCounts" = some (.arr counts) ∧
    value.get "explicitBounds" = some (.arr bounds) ∧ counts.length = bounds.length + 1

/-- The check in `points::histogram` is about what is emitted. -/
theorem bucketsFit_histogramPoint {point : DataPoint} {value : Json}
    (h : histogramPoint codec point = some value) : BucketsFit value := by
  unfold histogramPoint at h
  split at h
  · cases h
  · rename_i v _
    split at h
    · cases h
    · rename_i hlen
      cases h
      -- the keys in front of the two arrays
      have hfront : ∀ (key : String), key ∉ ["attributes", "startTimeUnixNano", "timeUnixNano",
          "count", "sum", "min", "max"] → ∀ e ∈ base codec point ++
            [("count", .str (intText (v.count.getD 0)))] ++
            entryIf "sum" (v.sum.map fun f => .num (.float f)) ++
            entryIf "min" (v.min.map fun f => .num (.float f)) ++
            entryIf "max" (v.max.map fun f => .num (.float f)), e.1 ≠ key := by
        rintro key hkey e he rfl
        apply hkey
        simp only [List.mem_append, base, insertTime, List.mem_cons, List.not_mem_nil,
          or_false] at he
        obtain ((((rfl | he | he) | rfl) | he) | he) | he := he <;>
          first | simp [key_of_mem_entryIf he] | simp
      refine ⟨v.counts.map fun n : ℕ => .str (intText n), v.boundaries.map fun f => .num (.float f),
        ?_, ?_, ?_⟩
      · show List.lookup _ _ = _
        rw [lookup_append_of_notMem (hfront "bucketCounts" (by decide))]
        rfl
      · show List.lookup _ _ = _
        rw [lookup_append_of_notMem (hfront "explicitBounds" (by decide))]
        rfl
      · rw [List.length_map, List.length_map]
        omega

/-! ## Conservation -/

/-- What `batch::build` makes of some lines accounts for all that is in them. -/
structure Conserved (lines : List Text) : Prop where
  /-- each line is counted as what it is -/
  counted : (build codec lines).counts = (lines.map fun line => (read codec line).counts codec).sum
  /-- each log record is in the payload once, under its own resource and scope -/
  logs : ∃ zs, (placedItems (build codec lines).logGroups).Perm zs ∧
    List.Forall₂ (fun z r => ∃ item, (transformLog codec r).2.2 = [item] ∧
      UnderOwn z (resource codec r.resource, scope r.instrumentationScope, item)) zs
      (logRecords codec lines)
  /-- each data point that can be translated is in the payload once, in its own metric and under
  its own resource and scope -/
  points : ∃ zs, ((placedItems (build codec lines).metricGroups).flatMap itemPoints).Perm zs ∧
    List.Forall₂ (PlacedAs codec) zs
      ((dataPoints codec lines).filter fun x => (x.translated codec).isSome)
  /-- each other data point is counted once -/
  dropped : (build codec lines).counts.droppedPoints =
    (dataPoints codec lines).countP fun x => (x.translated codec).isNone
  /-- different resources and scopes have different groups, and equal ones the same -/
  separate : AllSeparate (build codec lines).logGroups ∧
    AllSeparate (build codec lines).metricGroups
  /-- each histogram point has a bucket more than bounds -/
  buckets : ∀ z ∈ (placedItems (build codec lines).metricGroups).flatMap itemPoints,
    z.field = "histogram" → BucketsFit z.point

theorem metricGroups_build (lines : List Text) : (build codec lines).metricGroups =
    groupLoop (lines.flatMap fun line => (read codec line).metricGroups codec) := by
  show readGroups _ _ _ (payload _ _ _ _) = _
  rw [readGroups_payload _ _ (by decide) (by decide), foldl_addLine]
  rfl

theorem logGroups_build (lines : List Text) : (build codec lines).logGroups =
    groupLoop (lines.flatMap fun line => (read codec line).logGroups codec) := by
  show readGroups _ _ _ (payload _ _ _ _) = _
  rw [readGroups_payload _ _ (by decide) (by decide), foldl_addLine]
  rfl

theorem droppedPoints_sum (lines : List Text) :
    ((lines.map fun line => (read codec line).counts codec).sum).droppedPoints =
      (dataPoints codec lines).countP fun x => (x.translated codec).isNone := by
  induction lines with
  | nil => rfl
  | cons line lines ih =>
    rw [List.map_cons, List.sum_cons, dataPoints, List.flatMap_cons, List.countP_append]
    show _ + _ = _
    rw [ih]
    congr 1
    cases read codec line <;> rfl

theorem entryItems_logs (lines : List Text) :
    (lines.flatMap fun line => (read codec line).logGroups codec).flatMap entryItems =
      (logRecords codec lines).flatMap fun r => entryItems (transformLog codec r) := by
  rw [logRecords, List.flatMap_assoc, List.flatMap_assoc]
  congr 1
  funext line
  cases read codec line <;> simp [Read.logGroups]

theorem translate_of_histogram {m : Metric} (h : field m = some "histogram") :
    translate codec m = histogramPoint codec := by
  unfold field at h
  split at h
  · rename_i h0
    funext p
    simp only [translate, h0]
  all_goals simp at h

theorem conserved_build (lines : List Text) : Conserved codec lines := by
  have hpoints : ∃ zs,
      ((placedItems (build codec lines).metricGroups).flatMap itemPoints).Perm zs ∧
      List.Forall₂ (PlacedAs codec) zs
        ((dataPoints codec lines).filter fun x => (x.translated codec).isSome) := by
    obtain ⟨zs, hperm, hzs⟩ := placedItems_groupLoop
      (lines.flatMap fun line => (read codec line).metricGroups codec)
    refine ⟨zs.flatMap itemPoints, ?_, ?_⟩
    · rw [metricGroups_build]
      exact hperm.flatMap_right _
    · rw [dataPoints_sources]
      rw [entryItems_sources] at hzs
      exact placedAs_flatMap codec (sources codec lines) hzs
  refine ⟨counts_build codec lines, ?_, hpoints, ?_, ⟨?_, ?_⟩, ?_⟩
  · obtain ⟨zs, hperm, hzs⟩ := placedItems_groupLoop
      (lines.flatMap fun line => (read codec line).logGroups codec)
    refine ⟨zs, ?_, ?_⟩
    · rw [logGroups_build]
      exact hperm
    · -- a log record becomes exactly one item
      have hone : (fun r => entryItems (transformLog codec r)) = fun r =>
          [(resource codec r.resource, scope r.instrumentationScope,
            (transformLog codec r).2.2.headD .null)] := rfl
      rw [entryItems_logs, hone, ← List.map_eq_flatMap, List.forall₂_map_right_iff] at hzs
      exact hzs.imp fun z r h => ⟨_, rfl, h⟩
  · rw [counts_build, droppedPoints_sum]
  · rw [logGroups_build]
    exact allSeparate_groupLoop _
  · rw [metricGroups_build]
    exact allSeparate_groupLoop _
  · -- a histogram point in the payload is the translation of one
    intro z hz hfield
    obtain ⟨zs, hperm, hzs⟩ := hpoints
    obtain ⟨x, -, hx⟩ := hzs.exists_mem (hperm.mem_iff.mp hz)
    have hfield' : field x.metric = some "histogram" := hfield ▸ hx.field
    have hpoint := hx.point
    rw [Sourced.translated, translate_of_histogram codec hfield'] at hpoint
    exact bucketsFit_histogramPoint codec hpoint

/-! ## The journal's view

The drain is modelled on a `Reader`, which says for one line at a time what signal it has a record
for and what it loses. A batch is the sum of its lines, so this reader and `batch::build` agree. -/

/-- The signal that a line has a record for. -/
def Read.kind : Read → Option Push.Signal
  | .log _ => some .logs
  | .metrics r =>
    if (supportedPoints r).any fun x => (x.translated codec).isSome then some .metrics else none
  | _ => none

/-- The reader that a codec is. -/
def reader (digest : Bytes → String) : Push.Reader where
  digest := digest
  kind := fun text => (read codec text).kind codec
  lost := fun text => ((read codec text).counts codec).discarded

/-- The tally of a signal. -/
def Counts.signal (c : Counts) : Push.Signal → ℕ
  | .metrics => c.metrics
  | .logs => c.logs

/-- `Batch::signal`. -/
def Built.signal (b : Built) : Push.Signal → Option Json × ℕ
  | .metrics => (b.metrics, b.counts.metrics)
  | .logs => (b.logs, b.counts.logs)

/-- The loss the journal charges for some lines is what the batch of these lines discards. -/
theorem lossOf_reader (digest : Bytes → String) (lines : List Line) :
    Push.Machine.lossOf (reader codec digest).lost lines =
      (build codec (lines.map Line.text)).counts.discarded := by
  rw [counts_build, List.map_map]
  induction lines with
  | nil => rfl
  | cons line lines ih =>
    rw [List.map_cons, List.sum_cons, Counts.discarded_add, ← ih]
    rfl

theorem groupLoop_eq_nil_iff (entries : List Grouped) :
    groupLoop entries = [] ↔ ∀ entry ∈ entries, entry.2.2 = [] := by
  have hadd : ∀ {κ β : Type} (same : κ → κ → Bool) (key : κ) (empty : β) (f : β → β)
      (groups : List (κ × β)), Grouping.addTo same key empty f groups ≠ [] := by
    intro κ β same key empty f groups
    cases groups with
    | nil => exact List.cons_ne_nil _ _
    | cons g rest =>
      unfold Grouping.addTo
      split <;> exact List.cons_ne_nil _ _
  unfold groupLoop
  induction entries using List.reverseRecOn with
  | nil => simp
  | append_singleton entries entry ih =>
    rw [List.foldl_append, List.foldl_cons, List.foldl_nil, List.forall_mem_append]
    split
    · rename_i hnil
      refine ih.trans ⟨fun h => ⟨h, fun e he => ?_⟩, fun h => h.1⟩
      rw [List.mem_singleton.mp he]
      exact hnil
    · rename_i hne
      refine ⟨fun h => absurd h (hadd _ _ _ _ _), fun h => ?_⟩
      exact absurd (h.2 entry (List.mem_singleton_self _)) hne

theorem payload_eq_none_iff (groups : List Grouped) (scopeField itemField resourceField : String) :
    payload groups scopeField itemField resourceField = none ↔ ∀ g ∈ groups, g.2.2 = [] := by
  have hgroup : group groups scopeField itemField = [] ↔ groupLoop groups = [] :=
    List.map_eq_nil_iff
  rw [← groupLoop_eq_nil_iff, ← hgroup]
  unfold payload
  simp only
  split <;> simp_all

theorem Read.signal_counts (x : Read) (signal : Push.Signal) :
    (x.counts codec).signal signal = if x.kind codec = some signal then 1 else 0 := by
  cases x with
  | metrics r =>
    by_cases hany : ((supportedPoints r).any fun x => (x.translated codec).isSome) = true
    · cases signal <;> simp [Read.counts, Read.kind, Counts.signal, Counts.default, hany]
    · cases signal <;> simp [Read.counts, Read.kind, Counts.signal, Counts.default, hany]
  | _ => cases signal <;> simp [Read.counts, Read.kind, Counts.signal, Counts.default]

/-- The tally of a signal is the number of lines with a record for it. -/
theorem signal_counts_build (lines : List Text) (signal : Push.Signal) :
    (build codec lines).counts.signal signal =
      lines.countP fun line => (read codec line).kind codec = some signal := by
  rw [counts_build]
  induction lines with
  | nil => cases signal <;> rfl
  | cons line lines ih =>
    have hadd : ∀ a b : Counts, (a + b).signal signal = a.signal signal + b.signal signal := by
      intro a b
      cases signal <;> rfl
    rw [List.map_cons, List.sum_cons, hadd, ih, Read.signal_counts, List.countP_cons, add_comm]
    simp

theorem Read.metricGroups_iff (x : Read) :
    (∀ g ∈ x.metricGroups codec, g.2.2 = []) ↔ x.kind codec ≠ some .metrics := by
  cases x with
  | metrics r =>
    have h := produced_eq codec r
    rw [Bool.eq_iff_iff, List.any_eq_true] at h
    by_cases hany : ((supportedPoints r).any fun x => (x.translated codec).isSome) = true
    · obtain ⟨g, hg, hne⟩ := h.mpr hany
      simp only [Read.kind, if_pos hany, ne_eq, not_true_eq_false, iff_false]
      intro hall
      simp [hall g hg] at hne
    · simp only [Read.kind, if_neg hany]
      refine ⟨fun _ => by simp, fun _ g hg => ?_⟩
      by_contra hne
      exact hany (h.mp ⟨g, hg, by simpa using hne⟩)
  | log r => simp [Read.metricGroups, Read.kind]
  | _ => simp [Read.metricGroups, Read.kind]

theorem Read.logGroups_iff (x : Read) :
    (∀ g ∈ x.logGroups codec, g.2.2 = []) ↔ x.kind codec ≠ some .logs := by
  cases x with
  | metrics r =>
    simp only [Read.logGroups, Read.kind]
    split <;> simp
  | log r => simp [Read.logGroups, Read.kind, transformLog]
  | _ => simp [Read.logGroups, Read.kind]

/-- There is a payload for a signal if a line has a record for it. -/
theorem signal_build_eq_none_iff (lines : List Text) (signal : Push.Signal) :
    ((build codec lines).signal signal).1 = none ↔
      ∀ line ∈ lines, (read codec line).kind codec ≠ some signal := by
  have hflat : ∀ f : Text → List Grouped, (∀ g ∈ [] ++ lines.flatMap f, g.2.2 = []) ↔
      ∀ line ∈ lines, ∀ g ∈ f line, g.2.2 = [] := by
    intro f
    simp only [List.nil_append, List.mem_flatMap]
    exact ⟨fun h line hline g hg => h g ⟨line, hline, hg⟩,
      fun h g ⟨line, hline, hg⟩ => h line hline g hg⟩
  cases signal with
  | metrics =>
    show payload _ _ _ _ = none ↔ _
    rw [payload_eq_none_iff, foldl_addLine, hflat]
    simp only [Read.metricGroups_iff]
  | logs =>
    show payload _ _ _ _ = none ↔ _
    rw [payload_eq_none_iff, foldl_addLine, hflat]
    simp only [Read.logGroups_iff]

/-- `progress::build` on this reader: the records of a signal, unless there is no payload. -/
theorem build_reader (digest : Bytes → String) (lines : List Line) (signal : Push.Signal) :
    Push.build (reader codec digest) lines signal =
      ((build codec (lines.map Line.text)).signal signal).1.map fun _ =>
        ((build codec (lines.map Line.text)).signal signal).2 := by
  have hcount : lines.countP (fun line => (reader codec digest).kind line.text = some signal) =
      ((build codec (lines.map Line.text)).signal signal).2 := by
    have h := signal_counts_build codec (lines.map Line.text) signal
    rw [List.countP_map] at h
    refine Eq.trans ?_ (h.symm.trans ?_)
    · rfl
    · cases signal <;> rfl
  have hnone := signal_build_eq_none_iff codec (lines.map Line.text) signal
  unfold Push.build
  cases hp : ((build codec (lines.map Line.text)).signal signal).1 with
  | none =>
    have hzero : lines.countP (fun line => (reader codec digest).kind line.text = some signal) =
        0 := by
      rw [List.countP_eq_zero]
      intro line hline hkind
      exact hnone.mp hp line.text (List.mem_map_of_mem hline) (of_decide_eq_true hkind)
    rw [hzero]
    rfl
  | some value =>
    have hpos : lines.countP (fun line => (reader codec digest).kind line.text = some signal) ≠
        0 := by
      intro hzero
      rw [List.countP_eq_zero] at hzero
      have : ((build codec (lines.map Line.text)).signal signal).1 = none := by
        refine hnone.mpr fun text htext => ?_
        obtain ⟨line, hline, rfl⟩ := List.mem_map.mp htext
        exact fun hkind => hzero line hline (decide_eq_true hkind)
      rw [hp] at this
      cases this
    rw [hcount] at hpos ⊢
    rw [Option.map_some]
    split
    · contradiction
    · rfl

/-- Copilot batches conserve telemetry: the tallies of two batches add up to the tally of both, and
of every batch of lines each log record and each data point of a supported metric is in the payload
once or counted once. -/
theorem build_conserves :
    (∀ a b : List Text, (build codec (a ++ b)).counts =
      (build codec a).counts + (build codec b).counts) ∧
    ∀ lines : List Text, Conserved codec lines := by
  refine ⟨fun a b => ?_, conserved_build codec⟩
  rw [counts_build, counts_build, counts_build, List.map_append, List.sum_append]

end Batch

end Governance
