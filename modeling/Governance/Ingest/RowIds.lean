import Governance.Ingest.Confinement

/-!
# Derived row ids

`deterministic_id` hashes the trace id and the span id joined by a colon. The joined text does
not say where the first id ends, so two spans whose ids hold colons can share their row id. The
spans that do are found here, and with them the batches that a primary key refuses: `SHA-256` is
taken to tell apart the texts that are hashed.
-/

namespace Governance

open Utf8Text Database

/-- The text that is hashed. -/
def SpanKey.joined (k : SpanKey) : Text := k.traceId.toList ++ ':' :: k.spanId.toList

/-- The digits that are kept of a digest. -/
def truncatedHash (sha256 : List UInt8 → String) (t : Text) : Text :=
  (sha256 (encode t)).toList.take 24

/-- The trace id of `k'` goes on, behind a colon, with what the span id of `k` begins with. -/
def SpanKey.Overlaps (k k' : SpanKey) : Prop :=
  ∃ u : Text, k'.traceId.toList = k.traceId.toList ++ ':' :: u ∧
    k.spanId.toList = u ++ ':' :: k'.spanId.toList

/-- No two spans overlap. -/
def Unambiguous (keys : Set SpanKey) : Prop := ∀ k ∈ keys, ∀ k' ∈ keys, ¬ k.Overlaps k'

namespace SpanKey

variable {k k' : SpanKey}

theorem joined_of_overlaps (h : k.Overlaps k') : k.joined = k'.joined := by
  obtain ⟨u, htrace, hspan⟩ := h
  simp [joined, htrace, hspan]

/-- A text that is joined from two spans cuts the longer trace id at a colon. -/
theorem joined_eq_iff : k.joined = k'.joined ↔ k = k' ∨ k.Overlaps k' ∨ k'.Overlaps k := by
  constructor
  · intro h
    have hcut : ∀ {a b : SpanKey}, ∀ w, b.traceId.toList = a.traceId.toList ++ w →
        ':' :: a.spanId.toList = w ++ ':' :: b.spanId.toList → a = b ∨ a.Overlaps b := by
      intro a b w htrace hspan
      cases w with
      | nil =>
        refine .inl ?_
        rw [List.append_nil] at htrace
        rw [List.nil_append, List.cons.injEq] at hspan
        cases a
        cases b
        rw [SpanKey.mk.injEq]
        exact ⟨String.toList_injective htrace.symm, String.toList_injective hspan.2⟩
      | cons c u =>
        rw [List.cons_append, List.cons.injEq] at hspan
        exact .inr ⟨u, hspan.1 ▸ htrace, hspan.2⟩
    rcases List.append_eq_append_iff.mp h with ⟨w, htrace, hspan⟩ | ⟨w, htrace, hspan⟩
    · rcases hcut w htrace hspan with heq | hover
      · exact .inl heq
      · exact .inr (.inl hover)
    · rcases hcut w htrace hspan with heq | hover
      · exact .inl heq.symm
      · exact .inr (.inr hover)
  · rintro (rfl | hover | hover)
    · rfl
    · exact joined_of_overlaps hover
    · exact (joined_of_overlaps hover).symm

/-- A trace id is shorter than what it is continued to. -/
theorem ne_of_overlaps (h : k.Overlaps k') : k ≠ k' := by
  rintro rfl
  obtain ⟨u, htrace, -⟩ := h
  have hlen := congrArg List.length htrace
  rw [List.length_append, List.length_cons] at hlen
  omega

end SpanKey

section Ids

variable {sha256 : List UInt8 → String} {keys : Set SpanKey}

theorem deterministicId_eq_joined ( pre : String) (k : SpanKey) :
    deterministicId sha256 pre k = pre ++ "-" ++ String.ofList (truncatedHash sha256 k.joined) := by
  have hbytes : encode k.traceId.toList ++ encode [':'] ++ encode k.spanId.toList =
      encode k.joined := by
    simp [SpanKey.joined, encode]
  rw [deterministicId, hbytes]
  rfl

/-- Row ids are equal where the hashed texts are. -/
theorem deterministicId_eq_iff
    (hhash : Set.InjOn (truncatedHash sha256) (SpanKey.joined '' keys)) ( pre : String)
    {k k' : SpanKey} (hk : k ∈ keys) (hk' : k' ∈ keys) :
    deterministicId sha256 pre k = deterministicId sha256 pre k' ↔ k.joined = k'.joined := by
  rw [deterministicId_eq_joined, deterministicId_eq_joined]
  constructor
  · intro h
    have hdigits : truncatedHash sha256 k.joined = truncatedHash sha256 k'.joined := by
      have hlist := congrArg String.toList h
      simpa using hlist
    exact hhash (Set.mem_image_of_mem _ hk) (Set.mem_image_of_mem _ hk') hdigits
  · intro h
    rw [h]

theorem injOn_deterministicId_iff
    (hhash : Set.InjOn (truncatedHash sha256) (SpanKey.joined '' keys)) ( pre : String) :
    Set.InjOn (deterministicId sha256 pre) keys ↔ Unambiguous keys := by
  constructor
  · intro hinj k hk k' hk' hover
    refine SpanKey.ne_of_overlaps hover (hinj hk hk' ?_)
    exact (deterministicId_eq_iff hhash pre hk hk').mpr (SpanKey.joined_of_overlaps hover)
  · intro hun k hk k' hk' hid
    rcases SpanKey.joined_eq_iff.1 ((deterministicId_eq_iff hhash pre hk hk').mp hid) with
      heq | hover | hover
    · exact heq
    · exact (hun k hk k' hk' hover).elim
    · exact (hun k' hk' k hk hover).elim

end Ids

namespace IngestCall

/-- The spans that a table has and those of the batch, for each table. -/
def executionKeys (call : IngestCall) (db : Database) : Set SpanKey :=
  {k | k ∈ db.executions.keys ∨ k ∈ call.executionSpans}

def modelCallKeys (call : IngestCall) (db : Database) : Set SpanKey :=
  {k | k ∈ db.modelCalls.keys ∨ k ∈ call.modelCallSpans}

def toolCallKeys (call : IngestCall) (db : Database) : Set SpanKey :=
  {k | k ∈ db.toolCalls.keys ∨ k ∈ call.toolCallSpans}

variable {sha256 : List UInt8 → String} {call : IngestCall} {db : Database}

/-- On a database with derived ids, a transaction commits where no derived ids clash. -/
theorem transaction_ok_iff (hd : db.Derived sha256) (now : ℤ) :
    (∃ result db', call.transaction sha256 now db = .ok (result, db')) ↔
      NoIdClash sha256 call db := by
  constructor
  · rintro ⟨result, db', ht⟩
    exact (transaction_writes ht).noClash hd
  · intro hclash
    exact transaction_ok hd hclash now

/-- Derived ids clash where spans of one table overlap. -/
theorem noIdClash_iff {keys : Set SpanKey}
    (hhash : Set.InjOn (truncatedHash sha256) (SpanKey.joined '' keys))
    (hexec : call.executionKeys db ⊆ keys) (hmodel : call.modelCallKeys db ⊆ keys)
    (htool : call.toolCallKeys db ⊆ keys) :
    NoIdClash sha256 call db ↔ Unambiguous (call.executionKeys db) ∧
      Unambiguous (call.modelCallKeys db) ∧ Unambiguous (call.toolCallKeys db) := by
  have hsub : ∀ {part : Set SpanKey}, part ⊆ keys → ∀ pre,
      (Set.InjOn (deterministicId sha256 pre) part ↔ Unambiguous part) :=
    fun hpart pre => injOn_deterministicId_iff (hhash.mono (Set.image_mono hpart)) pre
  constructor
  · rintro ⟨h₁, h₂, h₃⟩
    exact ⟨(hsub hexec _).mp h₁, (hsub hmodel _).mp h₂, (hsub htool _).mp h₃⟩
  · rintro ⟨h₁, h₂, h₃⟩
    exact ⟨(hsub hexec _).mpr h₁, (hsub hmodel _).mpr h₂, (hsub htool _).mpr h₃⟩

end IngestCall

/-- Two spans have different row ids exactly if they do not overlap; and in every database that
ingest can reach, the next batch is refused for a row id exactly if spans of one table, stored or
in the batch, overlap. -/
theorem row_ids_differ_iff (sha256 : List UInt8 → String) (keys : Set SpanKey)
    (hhash : Set.InjOn (truncatedHash sha256) (SpanKey.joined '' keys)) :
    (∀ k ∈ keys, ∀ k' ∈ keys, k ≠ k' → ∀ pre,
      (deterministicId sha256 pre k ≠ deterministicId sha256 pre k' ↔
        ¬ k.Overlaps k' ∧ ¬ k'.Overlaps k)) ∧
    ∀ (events : List IngestEvent) (call : IngestCall),
      let db := initial.runs sha256 events
      call.executionKeys db ⊆ keys → call.modelCallKeys db ⊆ keys → call.toolCallKeys db ⊆ keys →
      let unambiguous := Unambiguous (call.executionKeys db) ∧
        Unambiguous (call.modelCallKeys db) ∧ Unambiguous (call.toolCallKeys db)
      (IngestCall.NoIdClash sha256 call db ↔ unambiguous) ∧
        ∀ now, (∃ result db', call.transaction sha256 now db = .ok (result, db')) ↔
          unambiguous := by
  refine ⟨?_, ?_⟩
  · intro k hk k' hk' hne pre
    rw [Ne, deterministicId_eq_iff hhash pre hk hk', SpanKey.joined_eq_iff, not_or, not_or]
    simp [hne]
  · intro events call db hexec hmodel htool
    have hclash := IngestCall.noIdClash_iff hhash hexec hmodel htool
    refine ⟨hclash, fun now => ?_⟩
    rw [IngestCall.transaction_ok_iff (derived_runs sha256 events) now, hclash]

/-- An execution of one span without calls. -/
def spanExecution (k : SpanKey) : ExecutionInput where
  traceId := k.traceId
  spanId := k.spanId
  userEmail := none
  startedAt := 5
  durationMs := 7
  modelCalls := []
  toolCalls := []

/-- A batch of one such execution. -/
def spanCall (k : SpanKey) : IngestCall := sampleCall "acme" "int-1" [spanExecution k]

/-- Two spans of the sample batches have row ids that differ. -/
theorem row_ids_differ_sample :
    deterministicId sampleSha256 "exec" ⟨"t1", "s1"⟩ ≠
      deterministicId sampleSha256 "exec" ⟨"t1", "s2"⟩ := by
  have hhash : Set.InjOn (truncatedHash sampleSha256)
      (SpanKey.joined '' {⟨"t1", "s1"⟩, ⟨"t1", "s2"⟩}) := by
    rw [Set.image_pair, Set.injOn_pair]
    intro h
    exact absurd h (by decide +kernel)
  have hsame : ∀ k k' : SpanKey, k.traceId = "t1" → k'.traceId = "t1" → ¬ k.Overlaps k' := by
    rintro k k' hk hk' ⟨u, htrace, -⟩
    rw [hk, hk'] at htrace
    simp at htrace
  exact ((row_ids_differ_iff sampleSha256 _ hhash).1 _ (.inl rfl) _ (.inr rfl) (by decide)
    "exec").mpr ⟨hsame _ _ rfl rfl, hsame _ _ rfl rfl⟩

/-- The spans `a:b`, `c` and `a`, `b:c` are accepted and different, and share the text that is
hashed: the batch of the second is refused for the primary key of the first. -/
theorem overlapping_spans_share_id :
    validateInput [spanExecution ⟨"a:b", "c"⟩, spanExecution ⟨"a", "b:c"⟩] = .ok () ∧
      SpanKey.joined ⟨"a:b", "c"⟩ = SpanKey.joined ⟨"a", "b:c"⟩ ∧
      deterministicId sampleSha256 "exec" ⟨"a:b", "c"⟩ =
        deterministicId sampleSha256 "exec" ⟨"a", "b:c"⟩ ∧
      ((spanCall ⟨"a", "b:c"⟩).ingestTelemetry sampleSha256
        ((spanCall ⟨"a:b", "c"⟩).ingestTelemetry sampleSha256 sampleDatabase).2).1 =
          .error (.storage .uniqueViolation) :=
  ⟨by decide +kernel, by decide +kernel, by decide +kernel, by decide +kernel⟩

end Governance
