import Governance.CopilotPush.Journal
import Governance.Redact.Json
import Governance.Lib.Grouping

/-!
# From spool lines to OTLP payloads

`copilot/batch.rs`, `copilot/classify.rs`, `copilot/metrics.rs`, `copilot/points.rs`,
`copilot/logs.rs` and `copilot/otlp.rs`: a batch of lines becomes one payload for each signal and
a tally of what did not make it. Nothing fails; what cannot be read is counted.

Reading JSON text and the readers that `serde` derives for the records belong to other crates, and
so do the conversions between integers and doubles: a `BatchCodec` carries them. A double is its
bits. Counters are natural numbers.
-/

namespace Governance

open Utf8Text ByteLines

/-! ## How `serde_json` compares values -/

/-- `==` of two doubles that are numbers: the two zeros are equal. -/
def floatEq (a b : UInt64) : Bool := a = b || (a <<< 1 = 0 && b <<< 1 = 0)

/-- `==` of two numbers: the kinds are told apart. -/
def JsonNumber.eq : JsonNumber → JsonNumber → Bool
  | .posInt a, .posInt b => a = b
  | .negInt a, .negInt b => a = b
  | .float a, .float b => floatEq a b
  | _, _ => false

mutual

/-- `==` of two values. Objects are compared without regard to the order of their entries. -/
def Json.eq : Json → Json → Bool
  | .null, .null => true
  | .bool a, .bool b => a = b
  | .num a, .num b => a.eq b
  | .str a, .str b => a = b
  | .arr a, .arr b => Json.eqItems a b
  | .obj a, .obj b => a.length = b.length && Json.eqEntries a b
  | _, _ => false

def Json.eqItems : List Json → List Json → Bool
  | [], [] => true
  | x :: xs, y :: ys => Json.eq x y && Json.eqItems xs ys
  | _, _ => false

def Json.eqEntries : List (String × Json) → List (String × Json) → Bool
  | [], _ => true
  | (k, x) :: xs, ys =>
    (match ys.lookup k with
      | some y => Json.eq x y
      | none => false) && Json.eqEntries xs ys

end

namespace Batch

/-! ## The records of a spool line -/

/-- `record::Resource`. -/
structure Resource where
  rawAttributes : List Json

/-- `record::Scope`. -/
structure Scope where
  name : Option Text
  version : Option Text

/-- `record::DataPoint`. -/
structure DataPoint where
  attributes : List (String × Json)
  startTime : Option (List ℤ)
  endTime : Option (List ℤ)
  value : Json

/-- `record::Descriptor`. -/
structure Descriptor where
  name : Text
  description : Text
  unit : Text
  valueType : Option ℤ

/-- `record::Metric`. -/
structure Metric where
  descriptor : Descriptor
  dataPointType : Option ℤ
  aggregationTemporality : Option ℤ
  dataPoints : List DataPoint
  isMonotonic : Option Bool

/-- `record::ScopeMetrics`. -/
structure ScopeMetrics where
  scope : Scope
  metrics : List Metric

/-- `record::MetricsRecord`. -/
structure MetricsRecord where
  resource : Resource
  scopeMetrics : List ScopeMetrics

/-- `record::SpanContext`. -/
structure SpanContext where
  traceId : Option Text
  spanId : Option Text
  traceFlags : Option ℕ

/-- `record::LogRecord`. -/
structure LogRecord where
  body : Option Json
  attributes : List (String × Json)
  hrTime : Option (List ℤ)
  hrTimeObserved : Option (List ℤ)
  instrumentationScope : Scope
  resource : Resource
  spanContext : Option SpanContext

/-- `record::HistogramValue` with its `record::Buckets`. -/
structure HistogramValue where
  count : Option ℕ
  sum : Option UInt64
  min : Option UInt64
  max : Option UInt64
  boundaries : List UInt64
  counts : List ℕ

/-- The functions of other crates: the readers of JSON and of the records, an integer as a double,
and the integer a double stands for, if it is exact (`fract`, `abs` and the cast). -/
structure BatchCodec where
  fromStr : Text → Option Json
  metricsRecord : Json → Option MetricsRecord
  logRecord : Json → Option LogRecord
  histogramValue : Json → Option HistogramValue
  toF64 : ℤ → UInt64
  exactInt : UInt64 → Option ℤ

/-- `record::Kind`. -/
inductive Kind where
  | metrics
  | log
  | empty
  | unknown
  deriving DecidableEq, Repr

/-- `record::classify`. -/
def classify : Json → Kind
  | .obj [] => .empty
  | .obj entries =>
    if (entries.lookup "scopeMetrics").isSome then .metrics
    else if (entries.lookup "_body").isSome then .log
    else .unknown
  | _ => .unknown

/-! ## OTLP values -/

/-- A string of the program text. -/
def lit (s : String) : Json := .str s.toList

/-- `to_string` of an integer. -/
def intText (n : ℤ) : Text := (toString n).toList

/-- `Number::as_i64`. -/
def asI64 : JsonNumber → Option ℤ
  | .posInt n => if n < 2 ^ 63 then some n else none
  | .negInt n => some n
  | .float _ => none

variable (codec : BatchCodec)

/-- `Number::as_f64`. -/
def asF64 : JsonNumber → UInt64
  | .posInt n => codec.toF64 n
  | .negInt n => codec.toF64 n
  | .float bits => bits

mutual

/-- `otlp::any_value`. -/
def anyValue : Json → Json
  | .str text => .obj [("stringValue", .str text)]
  | .bool flag => .obj [("boolValue", .bool flag)]
  | .num number =>
    match asI64 number with
    | some integer => .obj [("intValue", .str (intText integer))]
    | none => .obj [("doubleValue", .num (.float (asF64 codec number)))]
  | .arr items => .obj [("arrayValue", .obj [("values", .arr (anyValues items))])]
  | .obj entries => .obj [("kvlistValue", .obj [("values", .arr (attributes entries))])]
  | .null => .obj []

def anyValues : List Json → List Json
  | [] => []
  | item :: items => anyValue item :: anyValues items

/-- `otlp::attributes`. -/
def attributes : List (String × Json) → List Json
  | [] => []
  | (key, value) :: rest =>
    .obj [("key", .str key.toList), ("value", anyValue value)] :: attributes rest

end

/-- `otlp::resource_attributes`. -/
def resourceAttributes (raw : List Json) : List Json :=
  raw.filterMap fun entry =>
    entry.asArray.bind fun pair =>
    (pair.head?.bind Json.asStr).map fun key =>
      .obj [("key", .str key), ("value", anyValue codec (pair[1]?.getD .null))]

/-- `otlp::resource`. -/
def resource (r : Resource) : Json :=
  .obj [("attributes", .arr (resourceAttributes codec r.rawAttributes))]

/-- An entry that is there if its value is. -/
def entryIf (key : String) (value : Option Json) : List (String × Json) :=
  (value.map fun v => (key, v)).toList

/-- `otlp::scope`. -/
def scope (s : Scope) : Json :=
  .obj (("name", .str (s.name.getD [])) :: entryIf "version" (s.version.map .str))

/-- A value that an `i64` holds. -/
def checked (n : ℤ) : Option ℤ := if -2 ^ 63 ≤ n ∧ n < 2 ^ 63 then some n else none

/-- `otlp::time_unix_nano`. -/
def timeUnixNano (time : Option (List ℤ)) : Option Text :=
  time.bind fun time =>
  time.head?.bind fun seconds =>
  (checked (seconds * 1000000000)).bind fun product =>
  (checked (product + time[1]?.getD 0)).bind fun total =>
    -- `u64::try_from`
    if 0 ≤ total then some (intText total) else none

/-- `otlp::insert_time`. -/
def insertTime (key : String) (time : Option (List ℤ)) : List (String × Json) :=
  entryIf key ((timeUnixNano time).map .str)

/-- `otlp::Grouped`. -/
abbrev Grouped := Json × Json × List Json

/-- The loop of `otlp::group`: the resources, and under each its scopes with their items. -/
def groupLoop (entries : List Grouped) : List (Json × List (Json × List Json)) :=
  entries.foldl (fun grouped entry =>
    if entry.2.2 = [] then grouped
    else Grouping.addTo Json.eq entry.1 []
      (Grouping.addTo Json.eq entry.2.1 [] (· ++ entry.2.2)) grouped) []

/-- `otlp::group`. -/
def group (entries : List Grouped) (scopeField itemField : String) : List Json :=
  (groupLoop entries).map fun g =>
    .obj [("resource", g.1), (scopeField, .arr (g.2.map fun s =>
      .obj [("scope", s.1), (itemField, .arr s.2)]))]

/-! ## Data points -/

/-- `points::base`. -/
def base (point : DataPoint) : List (String × Json) :=
  ("attributes", .arr (attributes codec point.attributes)) ::
    (insertTime "startTimeUnixNano" point.startTime ++ insertTime "timeUnixNano" point.endTime)

/-- `points::integral`. -/
def integral (preferInt : Bool) (value : JsonNumber) (number : UInt64) : Option ℤ :=
  if !preferInt then none else (asI64 value).or (codec.exactInt number)

/-- The turn of the loop of `points::number`: the point that is pushed, or `none` for a dropped
one. -/
def numberPoint (preferInt : Bool) (point : DataPoint) : Option Json :=
  match point.value with
  | .num value =>
    let number := asF64 codec value
    some (.obj (base codec point ++ match integral codec preferInt value number with
      | some integer => [("asInt", .str (intText integer))]
      | none => [("asDouble", .num (.float number))]))
  | _ => none

/-- The turn of the loop of `points::histogram`. -/
def histogramPoint (point : DataPoint) : Option Json :=
  match codec.histogramValue point.value with
  | none => none
  | some value =>
    if value.counts.length ≠ value.boundaries.length + 1 then none
    else some (.obj (base codec point ++
      [("count", .str (intText (value.count.getD 0)))] ++
      entryIf "sum" (value.sum.map fun f => .num (.float f)) ++
      entryIf "min" (value.min.map fun f => .num (.float f)) ++
      entryIf "max" (value.max.map fun f => .num (.float f)) ++
      [("bucketCounts", .arr (value.counts.map fun n : ℕ => .str (intText n))),
        ("explicitBounds", .arr (value.boundaries.map fun f => .num (.float f)))]))

/-- A loop of `points`: what is pushed, and how many points are dropped. -/
def points (translate : DataPoint → Option Json) (ps : List DataPoint) : List Json × ℕ :=
  (ps.filterMap translate, ps.countP fun p => (translate p).isNone)

/-- `points::number`. -/
def number (metric : Metric) : List Json × ℕ :=
  points (numberPoint codec (metric.descriptor.valueType = some 0)) metric.dataPoints

/-- `points::histogram`. -/
def histogram (metric : Metric) : List Json × ℕ :=
  points (histogramPoint codec) metric.dataPoints

/-! ## Metrics and logs -/

/-- `metrics::temporality`. -/
def temporality : Option ℤ → ℕ
  | some 0 => 1
  | some 1 => 2
  | _ => 0

/-- `metrics::Translated`. -/
inductive Translated where
  | metric (value : Json) (dropped : ℕ)
  | noPoints (dropped : ℕ)
  | unsupported

/-- `metrics::metric`. -/
def metric (m : Metric) : Translated :=
  let temporality := Json.num (.posInt (temporality m.aggregationTemporality))
  let data : Option (String × Json × ℕ × ℕ) :=
    match m.dataPointType with
    | some 0 =>
      let r := histogram codec m
      some ("histogram", .obj [("dataPoints", .arr r.1), ("aggregationTemporality", temporality)],
        r.2, r.1.length)
    | some 2 =>
      let r := number codec m
      some ("gauge", .obj [("dataPoints", .arr r.1)], r.2, r.1.length)
    | some 3 =>
      let r := number codec m
      some ("sum", .obj [("dataPoints", .arr r.1), ("aggregationTemporality", temporality),
        ("isMonotonic", .bool (m.isMonotonic.getD false))], r.2, r.1.length)
    | _ => none
  match data with
  | none => .unsupported
  | some (field, data, dropped, kept) =>
    if kept = 0 then .noPoints dropped
    else .metric (.obj [("name", .str m.descriptor.name),
      ("description", .str m.descriptor.description), ("unit", .str m.descriptor.unit),
      (field, data)]) dropped

/-- `metrics::Skipped`. -/
structure Skipped where
  unsupported : ℕ
  points : ℕ

/-- One turn of the inner loop of `metrics::transform`. -/
def transformMetric (r : Skipped × List Json) (source : Metric) : Skipped × List Json :=
  match metric codec source with
  | .metric value dropped => ({ r.1 with points := r.1.points + dropped }, r.2 ++ [value])
  | .noPoints dropped => ({ r.1 with points := r.1.points + dropped }, r.2)
  | .unsupported => ({ r.1 with unsupported := r.1.unsupported + 1 }, r.2)

/-- `metrics::transform`. -/
def transformMetrics (record : MetricsRecord) : List Grouped × Skipped :=
  record.scopeMetrics.foldl (fun r scopeMetrics =>
    let s := scopeMetrics.metrics.foldl (transformMetric codec) (r.2, [])
    (r.1 ++ [(resource codec record.resource, scope scopeMetrics.scope, s.2)], s.1)) ([], ⟨0, 0⟩)

/-- `logs::transform`. -/
def transformLog (record : LogRecord) : Grouped :=
  let span := record.spanContext
  (resource codec record.resource, scope record.instrumentationScope,
    [.obj (insertTime "timeUnixNano" record.hrTime ++
      insertTime "observedTimeUnixNano" record.hrTimeObserved ++
      entryIf "body" (record.body.map (anyValue codec)) ++
      [("attributes", Json.arr (attributes codec record.attributes))] ++
      entryIf "traceId" ((span.bind SpanContext.traceId).map .str) ++
      entryIf "spanId" ((span.bind SpanContext.spanId).map .str) ++
      entryIf "flags" ((span.bind SpanContext.traceFlags).map fun n => .num (.posInt n)))])

/-! ## A batch -/

/-- `batch::Counts`, without `rejected`, which is filled in elsewhere. -/
@[ext] structure Counts where
  metrics : ℕ
  logs : ℕ
  unparsable : ℕ
  unknown : ℕ
  empty : ℕ
  unsupportedMetrics : ℕ
  droppedPoints : ℕ
  deriving DecidableEq, Repr

/-- `Counts::default`. -/
def Counts.default : Counts := ⟨0, 0, 0, 0, 0, 0, 0⟩

/-- `Counts::discarded`, with nothing rejected. -/
def Counts.discarded (c : Counts) : ℕ :=
  c.unparsable + c.unknown + c.unsupportedMetrics + c.droppedPoints

/-- The state of the loop of `batch::build`. -/
structure Building where
  counts : Counts
  metricGroups : List Grouped
  logGroups : List Grouped

/-- The turn of the loop of `batch::build` for a metrics record. -/
def addMetrics (b : Building) (parsed : MetricsRecord) : Building :=
  let declared := parsed.scopeMetrics.any fun scope => !scope.metrics.isEmpty
  let r := transformMetrics codec parsed
  let counts := { b.counts with
    unsupportedMetrics := b.counts.unsupportedMetrics + r.2.unsupported
    droppedPoints := b.counts.droppedPoints + r.2.points }
  let produced := r.1.any fun g => !g.2.2.isEmpty
  let counts :=
    if produced then { counts with metrics := counts.metrics + 1 }
    else if declared && r.2.unsupported = 0 && r.2.points = 0 then
      { counts with unknown := counts.unknown + 1 }
    else counts
  { b with counts := counts, metricGroups := b.metricGroups ++ r.1 }

/-- The turn of the loop of `batch::build`. -/
def addLine (b : Building) (line : Text) : Building :=
  match codec.fromStr line with
  | none => { b with counts := { b.counts with unparsable := b.counts.unparsable + 1 } }
  | some value =>
    match classify value with
    | .metrics =>
      match codec.metricsRecord value with
      | some parsed => addMetrics codec b parsed
      | none => { b with counts := { b.counts with unknown := b.counts.unknown + 1 } }
    | .log =>
      match codec.logRecord value with
      | some parsed => { b with
          counts := { b.counts with logs := b.counts.logs + 1 }
          logGroups := b.logGroups ++ [transformLog codec parsed] }
      | none => { b with counts := { b.counts with unknown := b.counts.unknown + 1 } }
    | .empty => { b with counts := { b.counts with empty := b.counts.empty + 1 } }
    | .unknown => { b with counts := { b.counts with unknown := b.counts.unknown + 1 } }

/-- `batch::payload`. -/
def payload (groups : List Grouped) (scopeField itemField resourceField : String) : Option Json :=
  let grouped := group groups scopeField itemField
  if grouped = [] then none else some (.obj [(resourceField, .arr grouped)])

/-- `batch::Batch`. -/
structure Built where
  metrics : Option Json
  logs : Option Json
  counts : Counts

/-- `batch::build`. -/
def build (lines : List Text) : Built :=
  let b := lines.foldl (addLine codec) ⟨.default, [], []⟩
  ⟨payload b.metricGroups "scopeMetrics" "metrics" "resourceMetrics",
    payload b.logGroups "scopeLogs" "logRecords" "resourceLogs", b.counts⟩

end Batch

end Governance
