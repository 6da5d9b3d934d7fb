import Governance.Ingest.Batch

/-!
# Ingest is idempotent

The second ingest of a batch finds every key stored, so it only refreshes, and the last writer
of each key inside the batch is the same both times. Costs are among the columns that no
conflict refreshes. Whether a batch is accepted depends on keys and ids alone, so a batch that
was refused is refused again at any prices.
-/

namespace Governance

/-- The keys and ids of the three telemetry tables are the same. -/
structure Database.SameIndexes (db db' : Database) : Prop where
  executionKeys : db'.executions.keys = db.executions.keys
  executionIds : db'.executions.ids = db.executions.ids
  modelCallKeys : db'.modelCalls.keys = db.modelCalls.keys
  modelCallIds : db'.modelCalls.ids = db.modelCalls.ids
  toolCallKeys : db'.toolCalls.keys = db.toolCalls.keys
  toolCallIds : db'.toolCalls.ids = db.toolCalls.ids

namespace Database

variable {db db' s : Database}

theorem SameTelemetry.sameIndexes (h : SameTelemetry db db') : SameIndexes db db' := by
  obtain ⟨h1, h2, h3⟩ := h
  constructor <;> simp only [h1, h2, h3]

/-! ### Acceptance depends on the indexes alone -/

theorem upsertExecution_congr (hs : SameIndexes db s) {row : Execution}
    (h : db.upsertExecution row = .ok db') (row' : Execution)
    (hkey : Execution.index.key row' = Execution.index.key row) (hid : row'.id = row.id) :
    ∃ s', s.upsertExecution row' = .ok s' ∧ SameIndexes db' s' := by
  unfold upsertExecution at h
  split at h
  · cases h
  · next t ht =>
    obtain rfl := Except.ok.inj h
    obtain ⟨t', ht', hkeys, hids⟩ :=
      Table.upsert_congr hs.executionKeys hs.executionIds hkey hid ht
    unfold upsertExecution
    split
    · next hnone => rw [ht'] at hnone; cases hnone
    · next t'' ht'' =>
      obtain rfl : t' = t'' := Option.some.inj (ht'.symm.trans ht'')
      exact ⟨_, rfl, hkeys, hids, hs.modelCallKeys, hs.modelCallIds, hs.toolCallKeys,
        hs.toolCallIds⟩

theorem upsertModelCall_congr (hs : SameIndexes db s) {row : ModelCall}
    (h : db.upsertModelCall row = .ok db') (row' : ModelCall)
    (hkey : ModelCall.index.key row' = ModelCall.index.key row) (hid : row'.id = row.id)
    (hexec : row'.executionId = row.executionId) :
    ∃ s', s.upsertModelCall row' = .ok s' ∧ SameIndexes db' s' := by
  unfold upsertModelCall at h
  split at h
  · cases h
  · next t ht =>
    split at h
    · next hfk =>
      obtain rfl := Except.ok.inj h
      obtain ⟨t', ht', hkeys, hids⟩ :=
        Table.upsert_congr hs.modelCallKeys hs.modelCallIds hkey hid ht
      rw [← hkey, ← hs.modelCallKeys, ← hexec, ← hs.executionIds] at hfk
      unfold upsertModelCall
      split
      · next hnone => rw [ht'] at hnone; cases hnone
      · next t'' ht'' =>
        obtain rfl : t' = t'' := Option.some.inj (ht'.symm.trans ht'')
        rw [dif_pos hfk]
        exact ⟨_, rfl, hs.executionKeys, hs.executionIds, hkeys, hids, hs.toolCallKeys,
          hs.toolCallIds⟩
    · cases h

theorem upsertToolCall_congr (hs : SameIndexes db s) {row : ToolCall}
    (h : db.upsertToolCall row = .ok db') :
    ∃ s', s.upsertToolCall row = .ok s' ∧ SameIndexes db' s' := by
  unfold upsertToolCall at h
  split at h
  · cases h
  · next t ht =>
    split at h
    · next hfk =>
      obtain rfl := Except.ok.inj h
      obtain ⟨t', ht', hkeys, hids⟩ :=
        Table.upsert_congr hs.toolCallKeys hs.toolCallIds rfl rfl ht
      rw [← hs.toolCallKeys, ← hs.executionIds] at hfk
      unfold upsertToolCall
      split
      · next hnone => rw [ht'] at hnone; cases hnone
      · next t'' ht'' =>
        obtain rfl : t' = t'' := Option.some.inj (ht'.symm.trans ht'')
        rw [dif_pos hfk]
        exact ⟨_, rfl, hs.executionKeys, hs.executionIds, hs.modelCallKeys, hs.modelCallIds,
          hkeys, hids⟩
    · cases h

/-- The same for a loop whose rows are made from one list. -/
theorem foldlM_congr {α : Type} {op : Database → α → Except CoreError Database}
    {items : List α} (hs : SameIndexes db s) (h : items.foldlM op db = .ok db')
    (op' : Database → α → Except CoreError Database)
    (hop : ∀ db db' s a, SameIndexes db s → op db a = .ok db' →
      ∃ s', op' s a = .ok s' ∧ SameIndexes db' s') :
    ∃ s', items.foldlM op' s = .ok s' ∧ SameIndexes db' s' := by
  induction items generalizing db s with
  | nil =>
    obtain rfl := Except.ok.inj h
    exact ⟨s, rfl, hs⟩
  | cons a items ih =>
    rw [List.foldlM_cons] at h
    obtain ⟨db₁, hfirst, hrest⟩ := Except.ok_of_bind h
    obtain ⟨s₁, hs₁, hsame⟩ := hop _ _ _ _ hs hfirst
    obtain ⟨s', hs', hsame'⟩ := ih hsame hrest
    refine ⟨s', ?_, hsame'⟩
    rw [List.foldlM_cons, hs₁]
    exact hs'

end Database

open Database

namespace IngestCall

variable {sha256 : List UInt8 → String} {call call' : IngestCall} {db db' s : Database}

theorem ingestExecution_congr {now : ℤ} {user : Option String} {x : ExecutionInput}
    (hs : SameIndexes db s) (h : call.ingestExecution sha256 now user db x = .ok db')
    (call' : IngestCall) (now' : ℤ) (user' : Option String) :
    ∃ s', call'.ingestExecution sha256 now' user' s x = .ok s' ∧ SameIndexes db' s' := by
  unfold ingestExecution at h
  simp only [modelCallRows_eq, List.foldlM_map] at h
  obtain ⟨db₁, hexec, h⟩ := Except.ok_of_bind h
  obtain ⟨db₂, hmodel, htool⟩ := Except.ok_of_bind h
  obtain ⟨s₁, hs₁, hsame₁⟩ := upsertExecution_congr hs hexec
    (call'.executionRow sha256 s.modelPricing now' user' x) rfl rfl
  obtain ⟨s₂, hs₂, hsame₂⟩ := foldlM_congr hsame₁ hmodel
    (fun d c => d.upsertModelCall (pricedCall sha256 s.modelPricing now' (x, c)))
    fun _ _ _ _ hsame hop => upsertModelCall_congr hsame hop _ rfl rfl rfl
  obtain ⟨s₃, hs₃, hsame₃⟩ := foldlM_congr hsame₂ htool upsertToolCall
    fun _ _ _ _ hsame hop => upsertToolCall_congr hsame hop
  refine ⟨s₃, ?_, hsame₃⟩
  simp only [ingestExecution, modelCallRows_eq, List.foldlM_map, hs₁, bind, Except.bind]
  rw [hs₂]
  exact hs₃

theorem ingestExecutions_congr {now : ℤ} {user : Option String} {xs : List ExecutionInput}
    {flags : List Bool} (hlen : xs.length ≤ flags.length) {result out : IngestResult}
    (hs : SameIndexes db s)
    (h : call.ingestExecutions sha256 now user (xs.zip flags) (db, result) = .ok (db', out))
    (call' : IngestCall) (now' : ℤ) (user' : Option String) {flags' : List Bool}
    (hlen' : xs.length ≤ flags'.length) (result' : IngestResult) :
    ∃ state, call'.ingestExecutions sha256 now' user' (xs.zip flags') (s, result') = .ok state := by
  induction xs generalizing flags flags' db s result result' with
  | nil => exact ⟨(s, result'), rfl⟩
  | cons x xs ih =>
    cases flags with
    | nil => simp at hlen
    | cons flag flags =>
      cases flags' with
      | nil => simp at hlen'
      | cons flag' flags' =>
        simp only [List.zip_cons_cons, ingestExecutions] at h ⊢
        obtain ⟨db₁, hfirst, hrest⟩ := Except.ok_of_bind h
        obtain ⟨s₁, hs₁, hsame⟩ := ingestExecution_congr hs hfirst call' now' user'
        rw [hs₁]
        exact ih (by simpa using hlen) hsame hrest (by simpa using hlen') _

/-- Two calls of one batch under one credential. -/
structure SameBatch (call call' : IngestCall) : Prop where
  tenantId : call'.tenantId = call.tenantId
  integrationId : call'.integrationId = call.integrationId
  provider : call'.provider = call.provider
  executions : call'.executions = call.executions

theorem length_mismatches (maps : Table IdentityMap.index) (fails : Bool) (now : ℤ)
    (tenantId provider : String) (user : Option String) (xs : List ExecutionInput) :
    (checkEmailMismatches maps fails now tenantId provider user
      (xs.map ExecutionInput.userEmail)).2.1.length = xs.length := by
  simp [checkEmailMismatches]

/-- A batch that commits commits on every database with the same indexes. -/
theorem transaction_congr (hbatch : SameBatch call call') {now : ℤ} (now' : ℤ)
    {result : IngestResult} (hs : SameIndexes db s)
    (h : call.transaction sha256 now db = .ok (result, db')) :
    ∃ result' s', call'.transaction sha256 now' s = .ok (result', s') := by
  unfold transaction at h ⊢
  obtain ⟨⟨db₁, out⟩, hrun, -⟩ := Except.ok_of_bind h
  -- The flags and the identity of the second call enter only the result and the refreshed columns.
  have hagain (user' : Option String) (flags' : List Bool)
      (hlen : flags'.length = call'.executions.length) (result' : IngestResult) :
      ∃ state, call'.ingestExecutions sha256 now' user' (call'.executions.zip flags')
        (s, result') = .ok state := by
    rw [hbatch.executions] at hlen ⊢
    exact ingestExecutions_congr (length_mismatches _ _ _ _ _ _ _).ge hs hrun call' now' user'
      hlen.ge result'
  let user' := getIntegrationIdentity s.integrations call'.tenantId call'.integrationId
  let checked := checkEmailMismatches s.identityMaps call'.mismatchQueryFails now'
    call'.tenantId call'.provider user' (call'.executions.map ExecutionInput.userEmail)
  obtain ⟨state, hstate⟩ := hagain user' checked.2.1 (length_mismatches _ _ _ _ _ _ _)
    ⟨0, 0, 0, checked.2.2, 0⟩
  refine ⟨state.2, call'.touchIntegration now' state.1, ?_⟩
  show (call'.ingestExecutions sha256 now' user' (call'.executions.zip checked.2.1)
    (s, ⟨0, 0, 0, checked.2.2, 0⟩) >>= fun state =>
      pure (state.2, call'.touchIntegration now' state.1)) = _
  rw [hstate]
  rfl

/-! ### The second ingest -/

/-- A batch written again, at any prices and any time, changes nothing. -/
theorem Writes.again (hbatch : SameBatch call call') {now now' : ℤ} {s' : Database}
    (h : call.Writes sha256 now db db') (hs : SameTelemetry s db')
    (huser : call'.boundIdentity s = call.boundIdentity db)
    (h' : call'.Writes sha256 now' s s') : SameTelemetry s' db' where
  executions := by
    have hrows : List.Forall₂ (fun w w' => Execution.index.key w = Execution.index.key w' ∧
          Execution.refresh.cols w = Execution.refresh.cols w')
        (call.executionRows sha256 db.modelPricing now (call.boundIdentity db))
        (call'.executionRows sha256 s.modelPricing now' (call'.boundIdentity s)) := by
      unfold executionRows
      rw [hbatch.executions, List.forall₂_map_left_iff, List.forall₂_map_right_iff,
        List.forall₂_same, huser]
      intro x _
      refine ⟨rfl, ?_⟩
      simp only [executionRow, Execution.refresh, hbatch.tenantId, hbatch.integrationId,
        hbatch.provider]
    have hidem := Table.upsertAll_idem hrows h.executions
    rw [← hs.executions, h'.executions, hs.executions] at hidem
    exact Option.some.inj hidem
  modelCalls := by
    have hrows : List.Forall₂ (fun w w' => ModelCall.index.key w = ModelCall.index.key w' ∧
          ModelCall.refresh.cols w = ModelCall.refresh.cols w')
        ((modelCallsOf call.executions).map (pricedCall sha256 db.modelPricing now))
        ((modelCallsOf call'.executions).map (pricedCall sha256 s.modelPricing now')) := by
      rw [hbatch.executions, List.forall₂_map_left_iff, List.forall₂_map_right_iff,
        List.forall₂_same]
      exact fun xc _ => ⟨rfl, rfl⟩
    have hidem := Table.upsertAll_idem hrows h.modelCalls
    rw [← hs.modelCalls, h'.modelCalls, hs.modelCalls] at hidem
    exact Option.some.inj hidem
  toolCalls := by
    have hrows : List.Forall₂ (fun w w' => ToolCall.index.key w = ToolCall.index.key w' ∧
          ToolCall.refresh.cols w = ToolCall.refresh.cols w')
        ((toolCallsOf call.executions).map (toolCall sha256))
        ((toolCallsOf call'.executions).map (toolCall sha256)) := by
      rw [hbatch.executions, List.forall₂_same]
      exact fun row _ => ⟨rfl, rfl⟩
    have hidem := Table.upsertAll_idem hrows h.toolCalls
    rw [← hs.toolCalls, h'.toolCalls, hs.toolCalls] at hidem
    exact Option.some.inj hidem

/-- A call that is repeated, at whatever prices, leaves the tables as the first one left them,
provided that the first one succeeded or met no failure of the database. -/
theorem ingestTelemetry_again (hbatch : SameBatch call call')
    (hfirst : (∃ result, (call.ingestTelemetry sha256 db).1 = .ok result) ∨ call.fault 0 = none)
    (hs : SameTelemetry s (call.ingestTelemetry sha256 db).2)
    (huser : call'.boundIdentity s = call.boundIdentity db) :
    SameTelemetry (call'.ingestTelemetry sha256 s).2 (call.ingestTelemetry sha256 db).2 := by
  rcases ingestTelemetry_cases sha256 call' s with ⟨e', he'⟩ | ⟨now', r', s', hvalid', ht', hok'⟩
  · rw [he']
    exact hs
  rcases ingestTelemetry_cases sha256 call db with ⟨e, he⟩ | ⟨now, r, db', -, ht, hok⟩
  · -- The first call was refused on keys and ids, so the second cannot have committed.
    exfalso
    have hfault : call.fault 0 = none := by
      refine hfirst.resolve_left ?_
      rintro ⟨r, hr⟩
      rw [he] at hr
      cases hr
    have hback : SameBatch call' call :=
      ⟨hbatch.tenantId.symm, hbatch.integrationId.symm, hbatch.provider.symm,
        hbatch.executions.symm⟩
    rw [he] at hs
    obtain ⟨r, db', ht⟩ := transaction_congr hback (call.now 0) hs.sameIndexes ht'
    rw [hbatch.executions] at hvalid'
    rw [ingestTelemetry_of_transaction hvalid' hfault ht] at he
    cases he
  · rw [hok] at hs ⊢
    rw [hok']
    exact Writes.again hbatch (transaction_writes ht) hs huser (transaction_writes ht')

end IngestCall

/-! ### Costs -/

/-- Every stored cost is kept, with the ids of its row. -/
structure Database.CostsKept (db db' : Database) : Prop where
  executions : ∀ r ∈ db.executions.rows, ∃ r' ∈ db'.executions.rows,
    Execution.index.key r' = Execution.index.key r ∧
      (r'.id, r'.estimatedCostMicroUsd) = (r.id, r.estimatedCostMicroUsd)
  modelCalls : ∀ r ∈ db.modelCalls.rows, ∃ r' ∈ db'.modelCalls.rows,
    ModelCall.index.key r' = ModelCall.index.key r ∧
      (r'.id, r'.executionId, r'.costMicroUsd) = (r.id, r.executionId, r.costMicroUsd)

namespace Database

variable {sha256 : List UInt8 → String}

theorem CostsKept.refl (db : Database) : CostsKept db db :=
  ⟨fun r hr => ⟨r, hr, rfl, rfl⟩, fun r hr => ⟨r, hr, rfl, rfl⟩⟩

theorem CostsKept.apply {db db' : Database} (h : CostsKept db db') (event : IngestEvent) :
    CostsKept db (db'.apply sha256 event) := by
  rcases apply_cases sha256 db' event with hsame | ⟨call, now, -, -, hw⟩
  · refine ⟨?_, ?_⟩
    · rw [hsame.executions]
      exact h.executions
    · rw [hsame.modelCalls]
      exact h.modelCalls
  · refine ⟨?_, ?_⟩
    · intro r hr
      obtain ⟨r', hr', hkey, hcost⟩ := h.executions r hr
      obtain ⟨r'', hr'', hkey', hcost'⟩ := Table.upsertAll_keeps
        (f := fun r => (r.id, r.estimatedCostMicroUsd)) (fun _ _ => rfl) hw.executions hr'
      exact ⟨r'', hr'', hkey'.trans hkey, hcost'.trans hcost⟩
    · intro r hr
      obtain ⟨r', hr', hkey, hcost⟩ := h.modelCalls r hr
      obtain ⟨r'', hr'', hkey', hcost'⟩ := Table.upsertAll_keeps
        (f := fun r => (r.id, r.executionId, r.costMicroUsd)) (fun _ _ => rfl) hw.modelCalls hr'
      exact ⟨r'', hr'', hkey'.trans hkey, hcost'.trans hcost⟩

/-- Ingest is idempotent: a batch that is ingested, and after any change of the other tables
that leaves the integration's bound identity ingested again, leaves the telemetry tables as the
first ingest left them. No run changes a stored cost, and a call that fails changes nothing. -/
theorem ingest_idempotent (sha256 : List UInt8 → String) (db : Database) :
    (∀ (call call' : IngestCall) (pricing : List ModelPricing) (integrations : List Integration)
        (maps : Table IdentityMap.index) (tenants : List String), call.SameBatch call' →
      (∃ result, (call.ingestTelemetry sha256 db).1 = .ok result) ∨ call.fault 0 = none →
      getIntegrationIdentity integrations call.tenantId call.integrationId =
        getIntegrationIdentity db.integrations call.tenantId call.integrationId →
      let once := (call.ingestTelemetry sha256 db).2
      let twice :=
        (call'.ingestTelemetry sha256 (once.administer pricing integrations maps tenants)).2
      SameTelemetry twice once) ∧
    (∀ events : List IngestEvent, CostsKept db (db.runs sha256 events)) ∧
    ∀ (call : IngestCall) (e : CoreError), (call.ingestTelemetry sha256 db).1 = .error e →
      (call.ingestTelemetry sha256 db).2 = db := by
  refine ⟨?_, ?_, ?_⟩
  · intro call call' pricing integrations maps tenants hbatch hfirst huser
    refine IngestCall.ingestTelemetry_again hbatch hfirst ⟨rfl, rfl, rfl⟩ ?_
    rw [IngestCall.boundIdentity, IngestCall.boundIdentity, hbatch.tenantId, hbatch.integrationId]
    exact huser
  · intro events
    exact runs_keep (P := CostsKept db) (fun _ event h => h.apply event) (CostsKept.refl db) events
  · intro call e he
    rcases IngestCall.ingestTelemetry_cases sha256 call db with ⟨e', he'⟩ | ⟨_, r, db', -, -, hok⟩
    · rw [he']
    · rw [hok] at he
      cases he

/-- A batch that carries the execution `t1:s1` twice with one model call, ingested again after
the prices were dropped: one execution and one model call, priced as at first. -/
theorem ingest_idempotent_repeatedSpan :
    let call := sampleCall "acme" "int-1"
      [sampleExecution (some "a") ["s2"], sampleExecution none ["s2"]]
    let once := (call.ingestTelemetry sampleSha256 sampleDatabase).2
    once.executions.rows.map Execution.estimatedCostMicroUsd = [some 23] ∧
      once.modelCalls.rows.map ModelCall.costMicroUsd = [some 23] ∧
      SameTelemetry (call.ingestTelemetry sampleSha256 (once.administer []
        sampleDatabase.integrations Table.empty [])).2 once :=
  ⟨by decide, by decide,
    (ingest_idempotent sampleSha256 sampleDatabase).1 _ _ [] sampleDatabase.integrations
      Table.empty [] ⟨rfl, rfl, rfl, rfl⟩ (.inr rfl) rfl⟩

end Database

end Governance
