import Governance.Ingest.Batch

/-!
# The estimate of an execution

`estimated_cost_micro_usd` is computed from the input that creates the row, before the calls are
stored, and no conflict refreshes it. It is the total of the stored calls as long as the calls
of an execution arrive with it, once, under spans of their own.
-/

namespace Governance

namespace Database

/-- Every estimate is the total of the costs of the model calls that reference the execution. -/
def Agrees (db : Database) : Prop :=
  ∀ e ∈ db.executions.rows, e.estimatedCostMicroUsd =
    totalCost ((db.modelCalls.rows.filter fun m => m.executionId = e.id).map
      ModelCall.costMicroUsd)

/-- What agreement reads of an execution and of a model call. -/
def estimates (db : Database) : List (String × Option ℤ) :=
  db.executions.rows.map fun e => (e.id, e.estimatedCostMicroUsd)

def callCosts (db : Database) : List (String × Option ℤ) :=
  db.modelCalls.rows.map fun m => (m.executionId, m.costMicroUsd)

/-- The costs recorded for an execution. -/
def costsFor (costs : List (String × Option ℤ)) (executionId : String) : List (Option ℤ) :=
  (costs.filter fun c => c.1 = executionId).map Prod.snd

theorem agrees_iff {db : Database} :
    db.Agrees ↔ ∀ p ∈ db.estimates, p.2 = totalCost (costsFor db.callCosts p.1) := by
  have hcosts (i : String) : costsFor db.callCosts i =
      (db.modelCalls.rows.filter fun m => m.executionId = i).map ModelCall.costMicroUsd := by
    simp only [costsFor, callCosts, List.filter_map, List.map_map]
    rfl
  simp only [Agrees, estimates, List.forall_mem_map, hcosts]

theorem agrees_initial : initial.Agrees := fun _ h => (List.not_mem_nil h).elim

end Database

open Database

/-- The executions of a batch whose calls arrive whole, given the stored keys of `executions` and
`model_calls`: a new execution brings new spans only, each once, and a known execution brings no
new span. -/
def Whole (executions modelCalls : List SpanKey) : List ExecutionInput → Prop
  | [] => True
  | x :: xs =>
    (x.key ∉ executions ∧ (x.modelCalls.map ModelCallInput.key).Nodup ∧
        (∀ c ∈ x.modelCalls, c.key ∉ modelCalls) ∧
        Whole (executions ++ [x.key]) (modelCalls ++ x.modelCalls.map ModelCallInput.key) xs) ∨
      (x.key ∈ executions ∧ (∀ c ∈ x.modelCalls, c.key ∈ modelCalls) ∧
        Whole executions modelCalls xs)

instance Whole.decidable : ∀ (executions modelCalls : List SpanKey) (xs : List ExecutionInput),
    Decidable (Whole executions modelCalls xs)
  | _, _, [] => isTrue trivial
  | executions, modelCalls, x :: xs =>
    have := Whole.decidable (executions ++ [x.key])
      (modelCalls ++ x.modelCalls.map ModelCallInput.key) xs
    have := Whole.decidable executions modelCalls xs
    inferInstanceAs (Decidable (_ ∨ _))

/-- Every batch of a run is whole at the database it meets. -/
def Database.WholeRun (sha256 : List UInt8 → String) (db : Database) : List IngestEvent → Prop
  | [] => True
  | .ingest call :: events =>
    Whole db.executions.keys db.modelCalls.keys call.executions ∧
      WholeRun sha256 (db.apply sha256 (.ingest call)) events
  | event :: events => WholeRun sha256 (db.apply sha256 event) events

namespace IngestCall

variable {sha256 : List UInt8 → String} {call : IngestCall} {db db' : Database}

/-- A new execution with new calls: its estimate is the total of the rows added for it. -/
theorem ingestExecution_agrees_new {now : ℤ} {user : Option String} {x : ExecutionInput}
    (h : call.ingestExecution sha256 now user db x = .ok db') (hdb : db.Agrees)
    (hx : x.key ∉ db.executions.keys) (hnodup : (x.modelCalls.map ModelCallInput.key).Nodup)
    (hnew : ∀ c ∈ x.modelCalls, c.key ∉ db.modelCalls.keys) :
    db'.Agrees ∧ db'.executions.keys = db.executions.keys ++ [x.key] ∧
      db'.modelCalls.keys = db.modelCalls.keys ++ x.modelCalls.map ModelCallInput.key := by
  have hw := ingestExecution_written h
  rw [modelCallRows_eq] at hw
  have hkeys : (x.modelCalls.map fun c => pricedCall sha256 db.modelPricing now (x, c)).map
      ModelCall.index.key = x.modelCalls.map ModelCallInput.key := by
    rw [List.map_map]
    rfl
  have hexec := Table.upsertAll_of_new (by simpa using hx) (by simp) hw.executions
  have hcalls := Table.upsertAll_of_new (by simpa using hnew) (hkeys ▸ hnodup) hw.modelCalls
  have hest : db'.estimates = db.estimates ++ [(deterministicId sha256 "exec" x.key,
      totalCost (x.modelCalls.map (calculateModelCost db.modelPricing now)))] := by
    simp [estimates, hexec, executionRow]
  have hcosts : db'.callCosts = db.callCosts ++ x.modelCalls.map fun c =>
      (deterministicId sha256 "exec" x.key, calculateModelCost db.modelPricing now c) := by
    simp only [callCosts, hcalls, List.map_append, List.map_map]
    rfl
  -- The id of the new row is taken by no row, so no stored call references it.
  have hfresh : deterministicId sha256 "exec" x.key ∉ db.executions.ids := by
    obtain ⟨s, hs, -⟩ := Table.upsertAll_cons.1 hw.executions
    exact Table.id_notMem_of_upsert hs hx
  refine ⟨agrees_iff.2 fun p hp => ?_, ?_, ?_⟩
  · rw [hest, List.mem_append, List.mem_singleton] at hp
    rw [hcosts, costsFor, List.filter_append, List.map_append]
    rcases hp with hp | rfl
    · have hne : p.1 ≠ deterministicId sha256 "exec" x.key := by
        rintro heq
        obtain ⟨e, he, rfl⟩ := List.mem_map.mp hp
        exact hfresh (heq ▸ Table.mem_ids he)
      have hnone : ((x.modelCalls.map fun c => (deterministicId sha256 "exec" x.key,
          calculateModelCost db.modelPricing now c)).filter fun c => c.1 = p.1) = [] := by
        simp [Ne.symm hne]
      rw [hnone, List.map_nil, List.append_nil]
      exact agrees_iff.1 hdb p hp
    · have hnone : (db.callCosts.filter fun c => c.1 = deterministicId sha256 "exec" x.key) = [] := by
        rw [List.filter_eq_nil_iff]
        intro c hc
        obtain ⟨m, hm, rfl⟩ := List.mem_map.mp hc
        intro heq
        exact hfresh (of_decide_eq_true heq ▸ db.modelCalls_fk m hm)
      rw [hnone, List.map_nil, List.nil_append, List.filter_eq_self.mpr (by simp), List.map_map]
      rfl
  · simp only [Table.keys, hexec, List.map_append]
    rfl
  · simp only [Table.keys, hcalls, List.map_append, hkeys]

/-- A known execution with known calls: no cost and no reference changes. -/
theorem ingestExecution_agrees_known {now : ℤ} {user : Option String} {x : ExecutionInput}
    (h : call.ingestExecution sha256 now user db x = .ok db') (hdb : db.Agrees)
    (hx : x.key ∈ db.executions.keys) (hknown : ∀ c ∈ x.modelCalls, c.key ∈ db.modelCalls.keys) :
    db'.Agrees ∧ db'.executions.keys = db.executions.keys ∧
      db'.modelCalls.keys = db.modelCalls.keys := by
  have hw := ingestExecution_written h
  rw [modelCallRows_eq] at hw
  obtain ⟨hest, hkeys⟩ := Table.map_upsertAll_of_mem
    (f := fun e : Execution => (e.id, e.estimatedCostMicroUsd)) (fun _ _ => rfl)
    (by simpa using hx) hw.executions
  obtain ⟨hcosts, hkeys'⟩ := Table.map_upsertAll_of_mem
    (f := fun m : ModelCall => (m.executionId, m.costMicroUsd)) (fun _ _ => rfl)
    (by simpa using hknown) hw.modelCalls
  refine ⟨agrees_iff.2 ?_, hkeys, hkeys'⟩
  rw [show db'.estimates = db.estimates from hest, show db'.callCosts = db.callCosts from hcosts]
  exact agrees_iff.1 hdb

theorem ingestExecutions_agrees {now : ℤ} {user : Option String}
    {xs : List (ExecutionInput × Bool)} {result result' : IngestResult}
    (h : call.ingestExecutions sha256 now user xs (db, result) = .ok (db', result'))
    (hdb : db.Agrees)
    (hwhole : Whole db.executions.keys db.modelCalls.keys (xs.map Prod.fst)) : db'.Agrees := by
  induction xs generalizing db result with
  | nil =>
    obtain ⟨rfl, -⟩ := Prod.mk.inj (Except.ok.inj h)
    exact hdb
  | cons xm xs ih =>
    obtain ⟨x, mismatch⟩ := xm
    rw [ingestExecutions] at h
    obtain ⟨db₁, hx, hrest⟩ := Except.ok_of_bind h
    rcases hwhole with ⟨hnewx, hnodup, hnew, hwhole⟩ | ⟨hknownx, hknown, hwhole⟩
    · obtain ⟨hagrees, hkeys, hkeys'⟩ := ingestExecution_agrees_new hx hdb hnewx hnodup hnew
      refine ih hrest hagrees ?_
      rw [hkeys, hkeys']
      exact hwhole
    · obtain ⟨hagrees, hkeys, hkeys'⟩ := ingestExecution_agrees_known hx hdb hknownx hknown
      refine ih hrest hagrees ?_
      rw [hkeys, hkeys']
      exact hwhole

/-- A call with a whole batch keeps agreement, whatever its outcome. -/
theorem ingestTelemetry_agrees (hdb : db.Agrees)
    (hwhole : Whole db.executions.keys db.modelCalls.keys call.executions) :
    (call.ingestTelemetry sha256 db).2.Agrees := by
  rcases ingestTelemetry_cases sha256 call db with ⟨e, he⟩ | ⟨attempt, r, db', -, ht, hok⟩
  · rw [he]
    exact hdb
  · rw [hok]
    unfold transaction at ht
    obtain ⟨⟨db₁, out⟩, hrun, hret⟩ := Except.ok_of_bind ht
    obtain rfl : call.touchIntegration _ db₁ = db' := (Prod.mk.inj (Except.ok.inj hret)).2
    have hagrees : db₁.Agrees := by
      refine ingestExecutions_agrees hrun hdb ?_
      rw [map_fst_zip_mismatches]
      exact hwhole
    exact hagrees

end IngestCall

namespace Database

variable {sha256 : List UInt8 → String}

theorem WholeRun.agrees {db : Database} {events : List IngestEvent}
    (hwhole : db.WholeRun sha256 events) (hdb : db.Agrees) : (db.runs sha256 events).Agrees := by
  induction events generalizing db with
  | nil => exact hdb
  | cons event events ih =>
    cases event with
    | ingest call =>
      exact ih hwhole.2 (IngestCall.ingestTelemetry_agrees hdb hwhole.1)
    | administer modelPricing integrations identityMaps tenants => exact ih hwhole hdb

/-! ### Where an estimate comes from -/

/-- `e` was created in the run by the first input of its key, and its estimate is the total of
that input's model calls at the prices of that transaction. -/
def CreatedIn (sha256 : List UInt8 → String) (events : List IngestEvent) (e : Execution) : Prop :=
  ∃ (before : List IngestEvent) (call : IngestCall) (after : List IngestEvent) (attempt : ℕ)
      (earlier : List ExecutionInput) (x : ExecutionInput) (later : List ExecutionInput),
    events = before ++ .ingest call :: after ∧
      Execution.index.key e ∉ (initial.runs sha256 before).executions.keys ∧
      call.executions = earlier ++ x :: later ∧ x.key = Execution.index.key e ∧
      Execution.index.key e ∉ earlier.map ExecutionInput.key ∧
      e.estimatedCostMicroUsd = totalCost (x.modelCalls.map
        (calculateModelCost (initial.runs sha256 before).modelPricing (call.now attempt)))

/-- A row written by one call was stored with the same estimate, or is that of the first input
of its key. -/
theorem estimate_of_writes {call : IngestCall} {now : ℤ} {db db' : Database}
    (hw : call.Writes sha256 now db db') {e : Execution} (he : e ∈ db'.executions.rows) :
    (∃ old ∈ db.executions.rows, Execution.index.key old = Execution.index.key e ∧
        old.estimatedCostMicroUsd = e.estimatedCostMicroUsd) ∨
      (Execution.index.key e ∉ db.executions.keys ∧
        ∃ (earlier : List ExecutionInput) (x : ExecutionInput) (later : List ExecutionInput),
          call.executions = earlier ++ x :: later ∧ x.key = Execution.index.key e ∧
            Execution.index.key e ∉ earlier.map ExecutionInput.key ∧
            e.estimatedCostMicroUsd =
              totalCost (x.modelCalls.map (calculateModelCost db.modelPricing now))) := by
  have hget := Table.get?_upsertAll hw.executions (Execution.index.key e)
  rw [Table.get?_key he] at hget
  cases hold : db.executions.get? (Execution.index.key e) with
  | some old =>
    refine .inl ?_
    obtain ⟨hmem, hkey⟩ := Table.get?_eq_some.1 hold
    refine ⟨old, hmem, hkey, ?_⟩
    rw [hold, Table.cells_some, Option.some.injEq] at hget
    rw [hget]
    cases Table.lastCols Execution.refresh (Execution.index.key e)
        (call.executionRows sha256 db.modelPricing now (call.boundIdentity db)) with
    | none => rfl
    | some c => rfl
  | none =>
    refine .inr ⟨Table.get?_eq_none.1 hold, ?_⟩
    rw [hold] at hget
    have hmem : Execution.index.key e ∈
        (call.executionRows sha256 db.modelPricing now (call.boundIdentity db)).map
          Execution.index.key := by
      by_contra hn
      rw [Table.cells_of_notMem _ hn] at hget
      cases hget
    obtain ⟨row, pre, post, hsplit, hkey, hpre, hcell⟩ :=
      Table.cells_none (R := Execution.refresh) hmem
    rw [hcell, Option.some.injEq] at hget
    obtain ⟨earlier, rest, hxs, hearlier, hrest⟩ := List.map_eq_append_iff.mp hsplit
    obtain ⟨x, later, hcons, hrow, -⟩ := List.map_eq_cons_iff.mp hrest
    refine ⟨earlier, x, later, hxs.trans (by rw [hcons]), ?_, ?_, ?_⟩
    · rw [← hkey, ← hrow, IngestCall.key_executionRow]
    · intro hin
      apply hpre
      rw [← hearlier, List.map_map]
      exact hin
    · have hest : e.estimatedCostMicroUsd = row.estimatedCostMicroUsd := by
        rw [hget]
        cases Table.lastCols Execution.refresh (Execution.index.key e)
            (call.executionRows sha256 db.modelPricing now (call.boundIdentity db)) with
        | none => rfl
        | some c => rfl
      rw [hest, ← hrow]
      rfl

theorem createdIn_of_mem (events : List IngestEvent) {e : Execution}
    (he : e ∈ (initial.runs sha256 events).executions.rows) : CreatedIn sha256 events e := by
  induction events using List.reverseRecOn generalizing e with
  | nil => exact (List.not_mem_nil he).elim
  | append_singleton events event ih =>
    -- A row that was there carries its origin over; the run only grows at its end.
    have carry {old : Execution} (hold : old ∈ (initial.runs sha256 events).executions.rows)
        (hkey : Execution.index.key old = Execution.index.key e)
        (hest : old.estimatedCostMicroUsd = e.estimatedCostMicroUsd) :
        CreatedIn sha256 (events ++ [event]) e := by
      obtain ⟨before, call, after, attempt, earlier, x, later, hev, hnew, hxs, hx, hfirst, hcost⟩ :=
        ih hold
      refine ⟨before, call, after ++ [event], attempt, earlier, x, later, ?_, hkey ▸ hnew, hxs,
        hx.trans hkey, hkey ▸ hfirst, hest.symm.trans hcost⟩
      rw [hev, List.append_assoc, List.cons_append]
    rw [runs_append] at he
    rcases apply_cases sha256 (initial.runs sha256 events) event with
      hsame | ⟨call, attempt, rfl, -, hw⟩
    · rw [show (initial.runs sha256 events).runs sha256 [event] =
        (initial.runs sha256 events).apply sha256 event from rfl, hsame.executions] at he
      exact carry he rfl rfl
    · rcases estimate_of_writes hw he with
        ⟨old, hold, hkey, hest⟩ | ⟨hnew, earlier, x, later, hxs, hx, hfirst, hcost⟩
      · exact carry hold hkey hest
      · exact ⟨events, call, [], attempt, earlier, x, later, rfl, hnew, hxs, hx, hfirst, hcost⟩

/-- After every run, the estimate of an execution is the total of the model calls of the input
that created its row, at the prices in force then: the saturating sum, unknown if one cost is.
In every run whose batches are whole it is also the total of the stored calls that reference
it. -/
theorem estimate_of_creation (sha256 : List UInt8 → String) (events : List IngestEvent) :
    (∀ e ∈ (initial.runs sha256 events).executions.rows, CreatedIn sha256 events e) ∧
      (initial.WholeRun sha256 events → (initial.runs sha256 events).Agrees) :=
  ⟨fun _ he => createdIn_of_mem events he, fun hwhole => hwhole.agrees agrees_initial⟩

/-- The prices are set, and the execution `t1:s1` arrives with the given spans in each batch. -/
def sampleRun (batches : List (List String)) : List IngestEvent :=
  .administer samplePricing [⟨"int-1", "acme", some "u1", none⟩] Table.empty ["acme"] ::
    batches.map fun spans => .ingest (sampleCall "acme" "int-1" [sampleExecution none spans])

/-- An execution that arrives twice with its two calls. -/
theorem estimate_of_creation_replayed :
    initial.WholeRun sampleSha256 (sampleRun [["s2", "s3"], ["s2", "s3"]]) ∧
      (initial.runs sampleSha256 (sampleRun [["s2", "s3"], ["s2", "s3"]])).Agrees := by
  have hwhole : initial.WholeRun sampleSha256 (sampleRun [["s2", "s3"], ["s2", "s3"]]) :=
    ⟨by decide +kernel, by decide +kernel, trivial⟩
  exact ⟨hwhole, (estimate_of_creation sampleSha256 _).2 hwhole⟩

/-- An execution that arrives without calls, and again with one: the estimate stays zero beside a
stored call of 23 micro-dollars. -/
theorem late_call_not_in_estimate :
    ¬ (initial.runs sampleSha256 (sampleRun [[], ["s2"]])).Agrees := by
  unfold Agrees
  decide +kernel

end Database

end Governance
