import Governance.Ingest.Idempotence

/-!
# One credential's telemetry and another's rows

The conflict keys of the three upserts are spans, which come from the telemetry body, and they
are global: a batch that names a span of another credential rewrites that row, or leaves its
call attached to the other's execution. This module says exactly which calls stay with their
own credential.
-/

namespace Governance

/-- The credential a row of `executions` is attributed to. -/
def Execution.owner (e : Execution) : String × String := (e.tenantId, e.integrationId)

section Calls

variable {ρ γ : Type} {ix : TableIndex ρ SpanKey String}

/-- A table of calls before and after one ingest under `owner` with calls of the given spans:
calls of another's execution are unchanged, and no call of the batch is attached to one. -/
structure ConfinedCalls (parent : ρ → String) (owner : String × String) (spans : List SpanKey)
    (ingested : Prop) (executions executions' : Table Execution.index) (t t' : Table ix) :
    Prop where
  unchanged : ∀ m ∈ t.rows, (∃ e ∈ executions.rows, e.id = parent m ∧ e.owner ≠ owner) →
    m ∈ t'.rows
  attached : ingested → ∀ m ∈ t'.rows, ix.key m ∈ spans →
    ∀ e ∈ executions'.rows, e.id = parent m → e.owner = owner

/-- The stored calls with a span of the batch hang on executions of `owner`. -/
def OwnCalls (parent : ρ → String) (owner : String × String) (spans : List SpanKey)
    (executions : Table Execution.index) (t : Table ix) : Prop :=
  ∀ m ∈ t.rows, ix.key m ∈ spans → ∀ e ∈ executions.rows, e.id = parent m → e.owner = owner

end Calls

namespace IngestCall

variable (sha256 : List UInt8 → String) (call : IngestCall)

/-- The credential of a call. -/
def owner : String × String := (call.tenantId, call.integrationId)

/-- The spans of a batch, for each table. -/
def executionSpans : List SpanKey := call.executions.map ExecutionInput.key

def modelCallSpans : List SpanKey := (modelCallsOf call.executions).map fun xc => xc.2.key

def toolCallSpans : List SpanKey := (toolCallsOf call.executions).map fun xc => xc.2.key

/-- What one call does to the rows of other credentials: nothing, and none of its calls hangs on
another's execution. -/
structure Confined (db : Database) : Prop where
  executions : ∀ e ∈ db.executions.rows, e.owner ≠ call.owner →
    e ∈ (call.ingestTelemetry sha256 db).2.executions.rows
  modelCalls : ConfinedCalls ModelCall.executionId call.owner call.modelCallSpans
    (∃ result, (call.ingestTelemetry sha256 db).1 = .ok result) db.executions
    (call.ingestTelemetry sha256 db).2.executions db.modelCalls
    (call.ingestTelemetry sha256 db).2.modelCalls
  toolCalls : ConfinedCalls ToolCall.executionId call.owner call.toolCallSpans
    (∃ result, (call.ingestTelemetry sha256 db).1 = .ok result) db.executions
    (call.ingestTelemetry sha256 db).2.executions db.toolCalls
    (call.ingestTelemetry sha256 db).2.toolCalls

/-- No span of the batch is stored under another credential. -/
structure OwnSpans (db : Database) : Prop where
  executions : ∀ e ∈ db.executions.rows, Execution.index.key e ∈ call.executionSpans →
    e.owner = call.owner
  modelCalls : OwnCalls ModelCall.executionId call.owner call.modelCallSpans db.executions
    db.modelCalls
  toolCalls : OwnCalls ToolCall.executionId call.owner call.toolCallSpans db.executions
    db.toolCalls

/-- The derived ids tell the stored spans and those of the batch apart. -/
structure NoIdClash (db : Database) : Prop where
  executions : Set.InjOn (deterministicId sha256 "exec")
    {k | k ∈ db.executions.keys ∨ k ∈ call.executionSpans}
  modelCalls : Set.InjOn (deterministicId sha256 "mc")
    {k | k ∈ db.modelCalls.keys ∨ k ∈ call.modelCallSpans}
  toolCalls : Set.InjOn (deterministicId sha256 "tc")
    {k | k ∈ db.toolCalls.keys ∨ k ∈ call.toolCallSpans}

/-- The batch is valid, an attempt is reached that meets no failure of the database, and no
derived id clashes. -/
structure Accepted (db : Database) : Prop where
  valid : validateInput call.executions = .ok ()
  reached : ∃ attempt ≤ maxDeadlockRetries, call.fault attempt = none ∧
    ∀ earlier < attempt, call.fault earlier = some .deadlock
  noClash : NoIdClash sha256 call db

end IngestCall

/-! ## Derived ids -/

/-- Every stored id is the derived one. -/
structure Database.Derived (sha256 : List UInt8 → String) (db : Database) : Prop where
  executions : ∀ r ∈ db.executions.rows,
    r.id = deterministicId sha256 "exec" (Execution.index.key r)
  modelCalls : ∀ r ∈ db.modelCalls.rows,
    r.id = deterministicId sha256 "mc" (ModelCall.index.key r)
  toolCalls : ∀ r ∈ db.toolCalls.rows,
    r.id = deterministicId sha256 "tc" (ToolCall.index.key r)

open Database

namespace IngestCall

variable {sha256 : List UInt8 → String} {call : IngestCall} {db db' : Database} {now : ℤ}

theorem Writes.derived (hw : call.Writes sha256 now db db') (h : db.Derived sha256) :
    db'.Derived sha256 where
  executions := by
    refine Table.forall_upsertAll hw.executions h.executions ?_ fun _ _ r hr _ => hr
    intro row hrow
    obtain ⟨x, -, rfl⟩ := List.mem_map.mp hrow
    rfl
  modelCalls := by
    refine Table.forall_upsertAll hw.modelCalls h.modelCalls ?_ fun _ _ r hr _ => hr
    intro row hrow
    obtain ⟨xc, -, rfl⟩ := List.mem_map.mp hrow
    rfl
  toolCalls := by
    refine Table.forall_upsertAll hw.toolCalls h.toolCalls ?_ fun _ _ r hr _ => hr
    intro row hrow
    obtain ⟨xc, -, rfl⟩ := List.mem_map.mp hrow
    rfl

end IngestCall

theorem Database.derived_runs (sha256 : List UInt8 → String) (events : List IngestEvent) :
    (initial.runs sha256 events).Derived sha256 := by
  refine runs_keep (P := Derived sha256) ?_ ?_ events
  · intro db event h
    rcases apply_cases sha256 db event with hsame | ⟨call, attempt, -, -, hw⟩
    · refine ⟨?_, ?_, ?_⟩
      · rw [hsame.executions]
        exact h.executions
      · rw [hsame.modelCalls]
        exact h.modelCalls
      · rw [hsame.toolCalls]
        exact h.toolCalls
    · exact hw.derived h
  · exact ⟨fun _ h => (List.not_mem_nil h).elim, fun _ h => (List.not_mem_nil h).elim,
      fun _ h => (List.not_mem_nil h).elim⟩

/-! ## When a call is accepted -/

namespace Database

variable {db : Database}

theorem upsertExecution_ok {row : Execution} {t : Table Execution.index}
    (h : db.executions.upsert Execution.refresh row = some t) :
    ∃ db', db.upsertExecution row = .ok db' := by
  unfold upsertExecution
  split
  · next hnone => rw [hnone] at h; cases h
  · exact ⟨_, rfl⟩

theorem upsertModelCall_ok {row : ModelCall} {t : Table ModelCall.index}
    (h : db.modelCalls.upsert ModelCall.refresh row = some t)
    (hfk : row.executionId ∈ db.executions.ids) : ∃ db', db.upsertModelCall row = .ok db' := by
  unfold upsertModelCall
  split
  · next hnone => rw [hnone] at h; cases h
  · rw [dif_pos (.inr hfk)]
    exact ⟨_, rfl⟩

theorem upsertToolCall_ok {row : ToolCall} {t : Table ToolCall.index}
    (h : db.toolCalls.upsert ToolCall.refresh row = some t)
    (hfk : row.executionId ∈ db.executions.ids) : ∃ db', db.upsertToolCall row = .ok db' := by
  unfold upsertToolCall
  split
  · next hnone => rw [hnone] at h; cases h
  · rw [dif_pos (.inr hfk)]
    exact ⟨_, rfl⟩

theorem upsertModelCalls_ok {rows : List ModelCall} {t : Table ModelCall.index}
    (h : db.modelCalls.upsertAll ModelCall.refresh rows = some t)
    (hfk : ∀ row ∈ rows, row.executionId ∈ db.executions.ids) :
    ∃ db', rows.foldlM upsertModelCall db = .ok db' := by
  induction rows generalizing db with
  | nil => exact ⟨db, rfl⟩
  | cons row rows ih =>
    obtain ⟨s, hs, hrest⟩ := Table.upsertAll_cons.1 h
    obtain ⟨db₁, hok⟩ := upsertModelCall_ok hs (hfk row List.mem_cons_self)
    have hw := upsertModelCall_written hok
    have hexec : db.executions = db₁.executions := Option.some.inj hw.executions
    have hcalls : s = db₁.modelCalls := by
      obtain ⟨s', hs', hend⟩ := Table.upsertAll_cons.1 hw.modelCalls
      rw [hs] at hs'
      exact (Option.some.inj hs').trans (Option.some.inj hend)
    rw [hcalls] at hrest
    obtain ⟨db', hok'⟩ := ih hrest fun r hr => hexec ▸ hfk r (List.mem_cons_of_mem _ hr)
    exact ⟨db', by rw [List.foldlM_cons, hok]; exact hok'⟩

theorem upsertToolCalls_ok {rows : List ToolCall} {t : Table ToolCall.index}
    (h : db.toolCalls.upsertAll ToolCall.refresh rows = some t)
    (hfk : ∀ row ∈ rows, row.executionId ∈ db.executions.ids) :
    ∃ db', rows.foldlM upsertToolCall db = .ok db' := by
  induction rows generalizing db with
  | nil => exact ⟨db, rfl⟩
  | cons row rows ih =>
    obtain ⟨s, hs, hrest⟩ := Table.upsertAll_cons.1 h
    obtain ⟨db₁, hok⟩ := upsertToolCall_ok hs (hfk row List.mem_cons_self)
    have hw := upsertToolCall_written hok
    have hexec : db.executions = db₁.executions := Option.some.inj hw.executions
    have hcalls : s = db₁.toolCalls := by
      obtain ⟨s', hs', hend⟩ := Table.upsertAll_cons.1 hw.toolCalls
      rw [hs] at hs'
      exact (Option.some.inj hs').trans (Option.some.inj hend)
    rw [hcalls] at hrest
    obtain ⟨db', hok'⟩ := ih hrest fun r hr => hexec ▸ hfk r (List.mem_cons_of_mem _ hr)
    exact ⟨db', by rw [List.foldlM_cons, hok]; exact hok'⟩

end Database

namespace IngestCall

variable {sha256 : List UInt8 → String} {call : IngestCall} {db db' : Database} {now : ℤ}

/-- After its upsert an execution is there under its derived id. -/
theorem derivedId_mem_ids {user : Option String} {x : ExecutionInput}
    (hd : ∀ r ∈ db.executions.rows, r.id = deterministicId sha256 "exec" (Execution.index.key r))
    (h : db.upsertExecution (call.executionRow sha256 db.modelPricing now user x) = .ok db') :
    (∀ r ∈ db'.executions.rows, r.id = deterministicId sha256 "exec" (Execution.index.key r)) ∧
      deterministicId sha256 "exec" x.key ∈ db'.executions.ids := by
  have hw := upsertExecution_written h
  have hd' : ∀ r ∈ db'.executions.rows,
      r.id = deterministicId sha256 "exec" (Execution.index.key r) := by
    refine Table.forall_upsertAll hw.executions hd ?_ fun _ _ r hr _ => hr
    intro row hrow
    rw [List.mem_singleton.mp hrow]
    rfl
  refine ⟨hd', ?_⟩
  have hkey : x.key ∈ db'.executions.keys := (Table.keys_upsertAll hw.executions _).mpr (by simp)
  obtain ⟨r, hr, hrkey⟩ := List.mem_map.mp hkey
  rw [← hrkey, ← hd' r hr]
  exact Table.mem_ids hr

theorem ingestExecution_ok {user : Option String} {x : ExecutionInput}
    {t : Table Execution.index} {t₁ : Table ModelCall.index} {t₂ : Table ToolCall.index}
    (hd : ∀ r ∈ db.executions.rows, r.id = deterministicId sha256 "exec" (Execution.index.key r))
    (hexec : db.executions.upsert Execution.refresh
      (call.executionRow sha256 db.modelPricing now user x) = some t)
    (hmodel : db.modelCalls.upsertAll ModelCall.refresh
      (modelCallRows sha256 db.modelPricing now x) = some t₁)
    (htool : db.toolCalls.upsertAll ToolCall.refresh (toolCallRows sha256 x) = some t₂) :
    ∃ db', call.ingestExecution sha256 now user db x = .ok db' ∧
      ∀ r ∈ db'.executions.rows,
        r.id = deterministicId sha256 "exec" (Execution.index.key r) := by
  obtain ⟨db₁, hok₁⟩ := upsertExecution_ok hexec
  have hw₁ := upsertExecution_written hok₁
  obtain ⟨hd₁, hid⟩ := derivedId_mem_ids hd hok₁
  have hmodels : db.modelCalls = db₁.modelCalls := Option.some.inj hw₁.modelCalls
  have htools : db.toolCalls = db₁.toolCalls := Option.some.inj hw₁.toolCalls
  rw [hmodels] at hmodel
  obtain ⟨db₂, hok₂⟩ := upsertModelCalls_ok hmodel (by
    intro row hrow
    rw [modelCallRows_eq] at hrow
    obtain ⟨c, -, rfl⟩ := List.mem_map.mp hrow
    exact hid)
  have hw₂ : Written db₁ db₂ [] (modelCallRows sha256 db.modelPricing now x) [] :=
    foldlM_written (W := fun db db' rows => Written db db' [] rows []) Written.refl
      (fun hop hrest => (upsertModelCall_written hop).trans hrest) hok₂
  have hexec₂ : db₁.executions = db₂.executions := Option.some.inj hw₂.executions
  have htools₂ : db₁.toolCalls = db₂.toolCalls := Option.some.inj hw₂.toolCalls
  rw [htools, htools₂] at htool
  obtain ⟨db₃, hok₃⟩ := upsertToolCalls_ok htool (by
    intro row hrow
    obtain ⟨c, -, rfl⟩ := List.mem_map.mp hrow
    exact hexec₂ ▸ hid)
  have hw₃ : Written db₂ db₃ [] [] (toolCallRows sha256 x) :=
    foldlM_written (W := fun db db' rows => Written db db' [] [] rows) Written.refl
      (fun hop hrest => (upsertToolCall_written hop).trans hrest) hok₃
  have hexec₃ : db₂.executions = db₃.executions := Option.some.inj hw₃.executions
  refine ⟨db₃, ?_, ?_⟩
  · simp only [ingestExecution, hok₁, hok₂, hok₃, bind, Except.bind]
  · rw [← hexec₃, ← hexec₂]
    exact hd₁

theorem ingestExecutions_ok {user : Option String} {xs : List (ExecutionInput × Bool)}
    (result : IngestResult) {t : Table Execution.index} {t₁ : Table ModelCall.index}
    {t₂ : Table ToolCall.index}
    (hd : ∀ r ∈ db.executions.rows, r.id = deterministicId sha256 "exec" (Execution.index.key r))
    (hexec : db.executions.upsertAll Execution.refresh
      ((xs.map Prod.fst).map (call.executionRow sha256 db.modelPricing now user)) = some t)
    (hmodel : db.modelCalls.upsertAll ModelCall.refresh
      ((xs.map Prod.fst).flatMap (modelCallRows sha256 db.modelPricing now)) = some t₁)
    (htool : db.toolCalls.upsertAll ToolCall.refresh
      ((xs.map Prod.fst).flatMap (toolCallRows sha256)) = some t₂) :
    ∃ state, call.ingestExecutions sha256 now user xs (db, result) = .ok state := by
  induction xs generalizing db result with
  | nil => exact ⟨_, rfl⟩
  | cons xm xs ih =>
    obtain ⟨x, mismatch⟩ := xm
    simp only [List.map_cons, List.flatMap_cons] at hexec hmodel htool
    obtain ⟨s, hs, hexec⟩ := Table.upsertAll_cons.1 hexec
    obtain ⟨s₁, hs₁, hmodel⟩ := Table.upsertAll_append.1 hmodel
    obtain ⟨s₂, hs₂, htool⟩ := Table.upsertAll_append.1 htool
    obtain ⟨db₁, hok, hd₁⟩ := ingestExecution_ok hd hs hs₁ hs₂
    have hw := ingestExecution_written hok
    have he : s = db₁.executions := by
      obtain ⟨s', hs', hend⟩ := Table.upsertAll_cons.1 hw.executions
      rw [hs] at hs'
      exact (Option.some.inj hs').trans (Option.some.inj hend)
    have hm : s₁ = db₁.modelCalls := Option.some.inj (hs₁.symm.trans hw.modelCalls)
    have ht : s₂ = db₁.toolCalls := Option.some.inj (hs₂.symm.trans hw.toolCalls)
    rw [he, ← hw.modelPricing] at hexec
    rw [hm, ← hw.modelPricing] at hmodel
    rw [ht] at htool
    obtain ⟨state, hstate⟩ := ih _ hd₁ hexec hmodel htool
    refine ⟨state, ?_⟩
    rw [ingestExecutions, hok]
    exact hstate

/-! The rows of a batch carry its spans, and are accepted when their derived ids differ. -/

theorem keys_executionRows (sha256 : List UInt8 → String) (pricing : List ModelPricing) (now : ℤ) (user : Option String) :
    (call.executionRows sha256 pricing now user).map Execution.index.key =
      call.executionSpans := by
  rw [executionRows, List.map_map]
  rfl

theorem keys_pricedCalls (sha256 : List UInt8 → String) (pricing : List ModelPricing) (now : ℤ) :
    ((modelCallsOf call.executions).map (pricedCall sha256 pricing now)).map
      ModelCall.index.key = call.modelCallSpans := by
  rw [List.map_map]
  rfl

theorem keys_toolCalls (sha256 : List UInt8 → String) :
    ((toolCallsOf call.executions).map (toolCall sha256)).map ToolCall.index.key =
      call.toolCallSpans := by
  rw [List.map_map]
  rfl

theorem executionRows_accepted (hd : db.Derived sha256) (pricing : List ModelPricing) (now : ℤ)
    (user : Option String) :
    (db.executions.upsertAll Execution.refresh
        (call.executionRows sha256 pricing now user)).isSome ↔
      Set.InjOn (deterministicId sha256 "exec")
        {k | k ∈ db.executions.keys ∨ k ∈ call.executionSpans} := by
  rw [← keys_executionRows sha256 pricing now user]
  refine Table.upsertAll_isSome_iff hd.executions fun w hw => ?_
  obtain ⟨x, -, rfl⟩ := List.mem_map.mp hw
  rfl

theorem pricedCalls_accepted (hd : db.Derived sha256) (pricing : List ModelPricing) (now : ℤ) :
    (db.modelCalls.upsertAll ModelCall.refresh
        ((modelCallsOf call.executions).map (pricedCall sha256 pricing now))).isSome ↔
      Set.InjOn (deterministicId sha256 "mc")
        {k | k ∈ db.modelCalls.keys ∨ k ∈ call.modelCallSpans} := by
  rw [← keys_pricedCalls sha256 pricing now]
  refine Table.upsertAll_isSome_iff hd.modelCalls fun w hw => ?_
  obtain ⟨xc, -, rfl⟩ := List.mem_map.mp hw
  rfl

theorem toolCalls_accepted (hd : db.Derived sha256) :
    (db.toolCalls.upsertAll ToolCall.refresh
        ((toolCallsOf call.executions).map (toolCall sha256))).isSome ↔
      Set.InjOn (deterministicId sha256 "tc")
        {k | k ∈ db.toolCalls.keys ∨ k ∈ call.toolCallSpans} := by
  rw [← keys_toolCalls sha256]
  refine Table.upsertAll_isSome_iff hd.toolCalls fun w hw => ?_
  obtain ⟨xc, -, rfl⟩ := List.mem_map.mp hw
  rfl

theorem Writes.noClash (hw : call.Writes sha256 now db db') (hd : db.Derived sha256) :
    NoIdClash sha256 call db where
  executions := (executionRows_accepted hd _ _ _).mp (Option.isSome_of_eq_some hw.executions)
  modelCalls := (pricedCalls_accepted hd _ _).mp (Option.isSome_of_eq_some hw.modelCalls)
  toolCalls := (toolCalls_accepted hd).mp (Option.isSome_of_eq_some hw.toolCalls)

/-- Without a clash of derived ids the transaction commits. -/
theorem transaction_ok (hd : db.Derived sha256) (hclash : NoIdClash sha256 call db) (now : ℤ) :
    ∃ result db', call.transaction sha256 now db = .ok (result, db') := by
  let user := getIntegrationIdentity db.integrations call.tenantId call.integrationId
  let checked := checkEmailMismatches db.identityMaps call.mismatchQueryFails now call.tenantId
    call.provider user (call.executions.map ExecutionInput.userEmail)
  have hexec := (executionRows_accepted hd db.modelPricing now user).mpr hclash.executions
  have hmodel := (pricedCalls_accepted hd db.modelPricing now).mpr hclash.modelCalls
  have htool := (toolCalls_accepted hd).mpr hclash.toolCalls
  obtain ⟨t, ht⟩ := Option.isSome_iff_exists.mp hexec
  obtain ⟨t₁, ht₁⟩ := Option.isSome_iff_exists.mp hmodel
  obtain ⟨t₂, ht₂⟩ := Option.isSome_iff_exists.mp htool
  have hzip : (call.executions.zip checked.2.1).map Prod.fst = call.executions :=
    map_fst_zip_mismatches _ _ _ _ _ _ _
  rw [← flatMap_modelCallRows] at ht₁
  rw [← flatMap_toolCallRows] at ht₂
  rw [executionRows] at ht
  rw [← hzip] at ht ht₁ ht₂
  obtain ⟨state, hstate⟩ := ingestExecutions_ok ⟨0, 0, 0, checked.2.2, 0⟩ hd.executions ht ht₁ ht₂
  refine ⟨state.2, call.touchIntegration now state.1, ?_⟩
  show (call.ingestExecutions sha256 now user (call.executions.zip checked.2.1)
    (db, ⟨0, 0, 0, checked.2.2, 0⟩) >>= fun state =>
      pure (state.2, call.touchIntegration now state.1)) = _
  rw [hstate]
  rfl

/-- The retries reach the first attempt that meets no failure, if only deadlocks come before. -/
theorem attempts_of_reached {retries attempt : ℕ} (hle : retries ≤ maxDeadlockRetries)
    (hlo : maxDeadlockRetries - retries ≤ attempt) (hhi : attempt ≤ maxDeadlockRetries)
    (hfault : call.fault attempt = none)
    (hdead : ∀ m, maxDeadlockRetries - retries ≤ m → m < attempt → call.fault m = some .deadlock)
    {result : IngestResult}
    (ht : call.transaction sha256 (call.now attempt) db = .ok (result, db')) :
    call.attempts sha256 db retries = (.ok result, db') := by
  have hinner : call.ingestTelemetryInner sha256 attempt db = .ok (result, db') := by
    simp only [ingestTelemetryInner, hfault, ht]
  induction retries with
  | zero =>
    obtain rfl : attempt = maxDeadlockRetries := by omega
    rw [attempts, hinner]
  | succ retries ih =>
    by_cases heq : attempt = maxDeadlockRetries - (retries + 1)
    · rw [attempts, ← heq, hinner]
    · have hfirst : call.ingestTelemetryInner sha256 (maxDeadlockRetries - (retries + 1)) db =
          .error (.storage .deadlock) := by
        simp only [ingestTelemetryInner, hdead _ le_rfl (by omega)]
      rw [attempts, hfirst]
      exact ih (by omega) (by omega) fun m hm hlt => hdead m (by omega) hlt

theorem reached_of_attempts {retries : ℕ} (hle : retries ≤ maxDeadlockRetries)
    {result : IngestResult} (h : (call.attempts sha256 db retries).1 = .ok result) :
    ∃ attempt, maxDeadlockRetries - retries ≤ attempt ∧ attempt ≤ maxDeadlockRetries ∧
      call.fault attempt = none ∧
      (∀ m, maxDeadlockRetries - retries ≤ m → m < attempt → call.fault m = some .deadlock) ∧
      ∃ result db', call.transaction sha256 (call.now attempt) db = .ok (result, db') := by
  have inner {attempt : ℕ} {out : IngestResult × Database}
      (h : call.ingestTelemetryInner sha256 attempt db = .ok out) :
      call.fault attempt = none ∧ call.transaction sha256 (call.now attempt) db = .ok out := by
    unfold ingestTelemetryInner at h
    split at h
    · cases h
    · next hfault => exact ⟨hfault, h⟩
  induction retries with
  | zero =>
    unfold attempts at h
    split at h
    · next out db' hok =>
      exact ⟨_, by omega, le_rfl, (inner hok).1, fun m _ _ => by omega, out, db', (inner hok).2⟩
    · cases h
  | succ retries ih =>
    unfold attempts at h
    split at h
    · next out db' hok =>
      exact ⟨_, le_rfl, by omega, (inner hok).1, fun m _ _ => by omega, out, db', (inner hok).2⟩
    · next herr =>
      obtain ⟨attempt, hlo, hhi, hfault, hdead, out, db', ht⟩ := ih (by omega) h
      refine ⟨attempt, by omega, hhi, hfault, fun m hm hlt => ?_, out, db', ht⟩
      by_cases heq : m = maxDeadlockRetries - (retries + 1)
      · -- The attempt that was retried met the deadlock: its batch could have committed.
        subst heq
        unfold ingestTelemetryInner at herr
        split at herr
        · next e he =>
          rw [he]
          cases herr
          rfl
        · obtain ⟨out', db'', hok⟩ := transaction_congr ⟨rfl, rfl, rfl, rfl⟩
            (call.now (maxDeadlockRetries - (retries + 1)))
            (SameTelemetry.sameIndexes ⟨rfl, rfl, rfl⟩) ht
          rw [hok] at herr
          cases herr
      · exact hdead m (by omega) hlt
    · cases h

/-- On a database with derived ids, the accepted calls are those that succeed. -/
theorem succeeds_iff_accepted (hd : db.Derived sha256) :
    (∃ result, (call.ingestTelemetry sha256 db).1 = .ok result) ↔ Accepted sha256 call db := by
  constructor
  · rintro ⟨result, hresult⟩
    unfold ingestTelemetry at hresult
    split at hresult
    · cases hresult
    · next hvalid =>
      obtain ⟨attempt, -, hhi, hfault, hdead, out, db', ht⟩ := reached_of_attempts le_rfl hresult
      exact ⟨hvalid, ⟨attempt, hhi, hfault, fun m hm => hdead m (by omega) hm⟩,
        (transaction_writes ht).noClash hd⟩
  · rintro ⟨hvalid, ⟨attempt, hhi, hfault, hdead⟩, hclash⟩
    obtain ⟨result, db', ht⟩ := transaction_ok hd hclash (call.now attempt)
    refine ⟨result, ?_⟩
    simp only [ingestTelemetry, hvalid]
    rw [attempts_of_reached le_rfl (by omega) hhi hfault (fun m _ hm => hdead m hm) ht]

end IngestCall

/-! ## Confinement -/

section Calls

variable {ρ γ : Type} {ix : TableIndex ρ SpanKey String} {R : Refresh ix γ} {parent : ρ → String}
  {owner : String × String} {executions executions' : Table Execution.index} {t t' : Table ix}
  {rows : List ρ}

/-- Calls that name no span of another credential leave the others' calls, and hang on their
own executions. -/
theorem ConfinedCalls.of_own (hparent : ∀ c r, parent (R.set c r) = parent r)
    (h : t.upsertAll R rows = some t') (ingested : Prop)
    (hown : OwnCalls parent owner (rows.map ix.key) executions t)
    (hfk : ∀ m ∈ t.rows, parent m ∈ executions.ids)
    (hkept : ∀ e ∈ executions.rows, e.owner = owner →
      ∃ e' ∈ executions'.rows, e'.id = e.id ∧ e'.owner = owner)
    (hnew : ∀ w ∈ rows, ∃ e' ∈ executions'.rows, e'.id = parent w ∧ e'.owner = owner) :
    ConfinedCalls parent owner (rows.map ix.key) ingested executions executions' t t' where
  unchanged := by
    rintro m hm ⟨e, he, hid, howner⟩
    have hspan : ix.key m ∉ rows.map ix.key := fun hmem => howner (hown m hm hmem e he hid)
    have hget := Table.get?_upsertAll_of_notMem h hspan
    rw [Table.get?_key hm] at hget
    exact (Table.get?_eq_some.1 hget).1
  attached := by
    rintro - m hm hspan e he hid
    -- The execution that the call hangs on, stored or of the batch, ends up with the owner.
    suffices hgood : ∃ e' ∈ executions'.rows, e'.id = parent m ∧ e'.owner = owner by
      obtain ⟨e', he', hid', howner⟩ := hgood
      have heq : e = e' := Table.eq_of_id he he' (hid.trans hid'.symm)
      rw [heq]
      exact howner
    have hget := Table.get?_upsertAll h (ix.key m)
    rw [Table.get?_key hm] at hget
    cases hold : t.get? (ix.key m) with
    | some old =>
      obtain ⟨hmem, hkey⟩ := Table.get?_eq_some.1 hold
      rw [hold, Table.cells_some, Option.some.injEq] at hget
      have hsame : parent m = parent old := by
        rw [hget]
        cases Table.lastCols R (ix.key m) rows with
        | none => rfl
        | some c => exact hparent c old
      obtain ⟨e₀, he₀, hid₀⟩ := List.mem_map.mp (hfk old hmem)
      obtain ⟨e', he', hid', howner⟩ :=
        hkept e₀ he₀ (hown old hmem (hkey ▸ hspan) e₀ he₀ hid₀)
      exact ⟨e', he', hid'.trans (hid₀.trans hsame.symm), howner⟩
    | none =>
      rw [hold] at hget
      obtain ⟨row, pre, post, hsplit, -, -, hcell⟩ := Table.cells_none (R := R) hspan
      rw [hcell, Option.some.injEq] at hget
      have hsame : parent m = parent row := by
        rw [hget]
        cases Table.lastCols R (ix.key m) rows with
        | none => rfl
        | some c => exact hparent c row
      rw [hsame]
      exact hnew row (by simp [hsplit])

/-- Calls that are confined name no span of another credential. -/
theorem ConfinedCalls.own (hparent : ∀ c r, parent (R.set c r) = parent r)
    (h : t.upsertAll R rows = some t') {ingested : Prop} (hi : ingested)
    (hexec : ∀ e ∈ executions.rows, e.owner ≠ owner → e ∈ executions'.rows)
    (hc : ConfinedCalls parent owner (rows.map ix.key) ingested executions executions' t t') :
    OwnCalls parent owner (rows.map ix.key) executions t := by
  intro m hm hspan e he hid
  by_contra howner
  obtain ⟨m', hm', hkey, hsame⟩ := Table.upsertAll_keeps hparent h hm
  exact howner (hc.attached hi m' hm' (hkey ▸ hspan) e (hexec e he howner) (hid.trans hsame.symm))

end Calls

namespace IngestCall

variable {sha256 : List UInt8 → String} {call : IngestCall} {db db' : Database} {now : ℤ}

/-- Every execution of the batch ends up with the credential of the call. -/
theorem Writes.owner_of_mem (hw : call.Writes sha256 now db db') {e : Execution}
    (he : e ∈ db'.executions.rows) (hspan : Execution.index.key e ∈ call.executionSpans) :
    e.owner = call.owner := by
  rw [← keys_executionRows sha256 db.modelPricing now (call.boundIdentity db)] at hspan
  obtain ⟨w, hwr, -, hcols⟩ := Table.mem_of_lastCols (Table.cols_eq_lastCols hw.executions he hspan)
  obtain ⟨x, -, rfl⟩ := List.mem_map.mp hwr
  have htenant := congrArg ExecutionColumns.tenantId hcols.symm
  have hintegration := congrArg ExecutionColumns.integrationId hcols.symm
  exact Prod.ext htenant hintegration

/-- An execution of the batch is there afterwards, under its derived id. -/
theorem Writes.exists_execution (hw : call.Writes sha256 now db db') (hd : db.Derived sha256)
    {x : ExecutionInput} (hx : x ∈ call.executions) :
    ∃ e ∈ db'.executions.rows, e.id = deterministicId sha256 "exec" x.key ∧
      e.owner = call.owner := by
  have hspan : x.key ∈ call.executionSpans := List.mem_map_of_mem hx
  have hkey : x.key ∈ db'.executions.keys := by
    rw [Table.keys_upsertAll hw.executions, keys_executionRows]
    exact .inr hspan
  obtain ⟨e, he, hek⟩ := List.mem_map.mp hkey
  refine ⟨e, he, ?_, hw.owner_of_mem he (hek ▸ hspan)⟩
  rw [(hw.derived hd).executions e he, hek]

/-- An execution of the credential stays one, under its id. -/
theorem Writes.owner_kept (hw : call.Writes sha256 now db db') {e : Execution}
    (he : e ∈ db.executions.rows) (howner : e.owner = call.owner) :
    ∃ e' ∈ db'.executions.rows, e'.id = e.id ∧ e'.owner = call.owner := by
  obtain ⟨e', he', hkey, hid⟩ := Table.upsertAll_keeps (f := Execution.id) (fun _ _ => rfl)
    hw.executions he
  refine ⟨e', he', hid, ?_⟩
  by_cases hspan : Execution.index.key e' ∈ call.executionSpans
  · exact hw.owner_of_mem he' hspan
  · have hget := Table.get?_upsertAll_of_notMem hw.executions
      (keys_executionRows sha256 db.modelPricing now _ ▸ hspan)
    rw [Table.get?_key he', hkey, Table.get?_key he, Option.some.injEq] at hget
    rw [hget]
    exact howner

/-- A written batch is confined if and only if it names no span of another credential. -/
theorem Writes.confined_iff (hw : call.Writes sha256 now db db') (hd : db.Derived sha256)
    {result : IngestResult} (hrun : call.ingestTelemetry sha256 db = (.ok result, db')) :
    call.Confined sha256 db ↔ call.OwnSpans db := by
  have hok : ∃ result, (call.ingestTelemetry sha256 db).1 = .ok result := ⟨result, by rw [hrun]⟩
  have hdb : (call.ingestTelemetry sha256 db).2 = db' := by rw [hrun]
  constructor
  · rintro ⟨hexec, hmodel, htool⟩
    rw [hdb] at hexec hmodel htool
    refine ⟨?_, ?_, ?_⟩
    · intro e he hspan
      by_contra howner
      exact howner (hw.owner_of_mem (hexec e he howner) hspan)
    · rw [← keys_pricedCalls sha256 db.modelPricing now] at hmodel ⊢
      exact ConfinedCalls.own (fun _ _ => rfl) hw.modelCalls hok hexec hmodel
    · rw [← keys_toolCalls sha256] at htool ⊢
      exact ConfinedCalls.own (fun _ _ => rfl) hw.toolCalls hok hexec htool
  · rintro ⟨hexec, hmodel, htool⟩
    refine ⟨?_, ?_, ?_⟩
    · intro e he howner
      rw [hdb]
      have hspan : Execution.index.key e ∉ call.executionSpans :=
        fun hmem => howner (hexec e he hmem)
      have hget := Table.get?_upsertAll_of_notMem hw.executions
        (keys_executionRows sha256 db.modelPricing now _ ▸ hspan)
      rw [Table.get?_key he] at hget
      exact (Table.get?_eq_some.1 hget).1
    · rw [hdb]
      rw [← keys_pricedCalls sha256 db.modelPricing now] at hmodel ⊢
      refine ConfinedCalls.of_own (fun _ _ => rfl) hw.modelCalls _ hmodel db.modelCalls_fk
        (fun e he howner => hw.owner_kept he howner) ?_
      intro w hrow
      obtain ⟨⟨x, c⟩, hxc, rfl⟩ := List.mem_map.mp hrow
      obtain ⟨x', hx', hmem⟩ := List.mem_flatMap.mp hxc
      obtain ⟨c', -, hpair⟩ := List.mem_map.mp hmem
      obtain rfl : x' = x := congrArg Prod.fst hpair
      exact hw.exists_execution hd hx'
    · rw [hdb]
      rw [← keys_toolCalls sha256] at htool ⊢
      refine ConfinedCalls.of_own (fun _ _ => rfl) hw.toolCalls _ htool db.toolCalls_fk
        (fun e he howner => hw.owner_kept he howner) ?_
      intro w hrow
      obtain ⟨⟨x, c⟩, hxc, rfl⟩ := List.mem_map.mp hrow
      obtain ⟨x', hx', hmem⟩ := List.mem_flatMap.mp hxc
      obtain ⟨c', -, hpair⟩ := List.mem_map.mp hmem
      obtain rfl : x' = x := congrArg Prod.fst hpair
      exact hw.exists_execution hd hx'

/-- After any sequence of calls under any credentials, a further call touches no row of another
credential, and attaches none of its calls to another's execution, if and only if it is refused
or none of its spans is stored under another credential. -/
theorem confined_iff_ownSpans (sha256 : List UInt8 → String) (events : List IngestEvent)
    (call : IngestCall) :
    call.Confined sha256 (initial.runs sha256 events) ↔
      (Accepted sha256 call (initial.runs sha256 events) →
        call.OwnSpans (initial.runs sha256 events)) := by
  have hd := derived_runs sha256 events
  generalize initial.runs sha256 events = db at hd
  rw [← succeeds_iff_accepted hd]
  rcases ingestTelemetry_cases sha256 call db with ⟨e, he⟩ | ⟨attempt, result, db', -, ht, hok⟩
  · have hfail : ¬ ∃ result, (call.ingestTelemetry sha256 db).1 = .ok result := by
      rintro ⟨result, hresult⟩
      rw [he] at hresult
      cases hresult
    have hdb : (call.ingestTelemetry sha256 db).2 = db := by rw [he]
    constructor
    · exact fun _ hsucc => (hfail hsucc).elim
    · intro _
      refine ⟨?_, ⟨?_, fun hsucc => (hfail hsucc).elim⟩, ⟨?_, fun hsucc => (hfail hsucc).elim⟩⟩
      · rw [hdb]
        exact fun e he _ => he
      · rw [hdb]
        exact fun m hm _ => hm
      · rw [hdb]
        exact fun m hm _ => hm
  · rw [(transaction_writes ht).confined_iff hd hok]
    have hsucc : ∃ result, (call.ingestTelemetry sha256 db).1 = .ok result :=
      ⟨result, by rw [hok]⟩
    exact ⟨fun h _ => h, fun h => h hsucc⟩

/-- One tenant ingests the execution `t1:s1`; another tenant then sends the same span, and the
row becomes that tenant's. -/
theorem foreign_span_takes_row :
    ¬ (sampleCall "globex" "int-2" [sampleExecution none []]).Confined sampleSha256
      (initial.runs sampleSha256
        [.ingest (sampleCall "acme" "int-1" [sampleExecution none []])]) := by
  intro h
  have htaken : ¬ ∀ e ∈ (initial.runs sampleSha256
      [.ingest (sampleCall "acme" "int-1" [sampleExecution none []])]).executions.rows,
      e.owner ≠ ("globex", "int-2") →
      e ∈ ((sampleCall "globex" "int-2" [sampleExecution none []]).ingestTelemetry sampleSha256
        (initial.runs sampleSha256
          [.ingest (sampleCall "acme" "int-1" [sampleExecution none []])])).2.executions.rows := by
    decide +kernel
  exact htaken h.executions

end IngestCall

end Governance
