import Governance.Lib.Outcome
import Governance.Ingest.Telemetry

/-!
# What one ingest writes

A call either fails and leaves the database, or writes each of the three tables by one list of
upserts: the loop interleaves them, but they meet only in the foreign keys.
-/

namespace Governance

/-- `db'` is `db` with the three lists of rows upserted, at the same prices. -/
structure Database.Written (db db' : Database) (executions : List Execution)
    (modelCalls : List ModelCall) (toolCalls : List ToolCall) : Prop where
  executions : db.executions.upsertAll Execution.refresh executions = some db'.executions
  modelCalls : db.modelCalls.upsertAll ModelCall.refresh modelCalls = some db'.modelCalls
  toolCalls : db.toolCalls.upsertAll ToolCall.refresh toolCalls = some db'.toolCalls
  modelPricing : db'.modelPricing = db.modelPricing

namespace Database

variable {db db₁ db' : Database}

theorem Written.refl (db : Database) : Written db db [] [] [] :=
  ⟨rfl, rfl, rfl, rfl⟩

theorem Written.trans {xs xs' : List Execution} {ms ms' : List ModelCall} {ts ts' : List ToolCall}
    (h : Written db db₁ xs ms ts) (h' : Written db₁ db' xs' ms' ts') :
    Written db db' (xs ++ xs') (ms ++ ms') (ts ++ ts') where
  executions := Table.upsertAll_append.2 ⟨_, h.executions, h'.executions⟩
  modelCalls := Table.upsertAll_append.2 ⟨_, h.modelCalls, h'.modelCalls⟩
  toolCalls := Table.upsertAll_append.2 ⟨_, h.toolCalls, h'.toolCalls⟩
  modelPricing := h'.modelPricing.trans h.modelPricing

theorem upsertExecution_written {row : Execution} (h : db.upsertExecution row = .ok db') :
    Written db db' [row] [] [] := by
  unfold upsertExecution at h
  split at h
  · cases h
  · next executions hrow =>
    obtain rfl := Except.ok.inj h
    exact ⟨Table.upsertAll_cons.2 ⟨_, hrow, rfl⟩, rfl, rfl, rfl⟩

theorem upsertModelCall_written {row : ModelCall} (h : db.upsertModelCall row = .ok db') :
    Written db db' [] [row] [] := by
  unfold upsertModelCall at h
  split at h
  · cases h
  · next modelCalls hrow =>
    split at h
    · obtain rfl := Except.ok.inj h
      exact ⟨rfl, Table.upsertAll_cons.2 ⟨_, hrow, rfl⟩, rfl, rfl⟩
    · cases h

theorem upsertToolCall_written {row : ToolCall} (h : db.upsertToolCall row = .ok db') :
    Written db db' [] [] [row] := by
  unfold upsertToolCall at h
  split at h
  · cases h
  · next toolCalls hrow =>
    split at h
    · obtain rfl := Except.ok.inj h
      exact ⟨rfl, rfl, Table.upsertAll_cons.2 ⟨_, hrow, rfl⟩, rfl⟩
    · cases h

end Database

open Database Utf8Text

/-- A loop over rows, each of which is written as one row. -/
theorem foldlM_written {ρ : Type} {op : Database → ρ → Except CoreError Database}
    {W : Database → Database → List ρ → Prop} (hrefl : ∀ db, W db db [])
    (hcons : ∀ {db db₁ db' row rows}, op db row = .ok db₁ → W db₁ db' rows →
      W db db' (row :: rows))
    {rows : List ρ} {db db' : Database} (h : rows.foldlM op db = .ok db') : W db db' rows := by
  induction rows generalizing db with
  | nil =>
    obtain rfl := Except.ok.inj h
    exact hrefl db
  | cons row rows ih =>
    rw [List.foldlM_cons] at h
    obtain ⟨db₁, hop, hrest⟩ := Except.ok_of_bind h
    exact hcons hop (ih hrest)

namespace IngestCall

variable {sha256 : List UInt8 → String} {call : IngestCall} {db db' : Database}

theorem ingestExecution_written {now : ℤ} {user : Option String} {x : ExecutionInput}
    (h : call.ingestExecution sha256 now user db x = .ok db') :
    Written db db' [call.executionRow sha256 db.modelPricing now user x]
      (modelCallRows sha256 db.modelPricing now x) (toolCallRows sha256 x) := by
  unfold ingestExecution at h
  obtain ⟨db₁, hexec, h⟩ := Except.ok_of_bind h
  obtain ⟨db₂, hmodel, htool⟩ := Except.ok_of_bind h
  have hmodel : Written db₁ db₂ [] (modelCallRows sha256 db.modelPricing now x) [] :=
    foldlM_written (W := fun db db' rows => Written db db' [] rows []) Written.refl
      (fun hop hrest => (upsertModelCall_written hop).trans hrest) hmodel
  have htool : Written db₂ db' [] [] (toolCallRows sha256 x) :=
    foldlM_written (W := fun db db' rows => Written db db' [] [] rows) Written.refl
      (fun hop hrest => (upsertToolCall_written hop).trans hrest) htool
  simpa using ((upsertExecution_written hexec).trans hmodel).trans htool

theorem ingestExecutions_written {now : ℤ} {user : Option String}
    {xs : List (ExecutionInput × Bool)} {result result' : IngestResult}
    (h : call.ingestExecutions sha256 now user xs (db, result) = .ok (db', result')) :
    Written db db'
      ((xs.map Prod.fst).map (call.executionRow sha256 db.modelPricing now user))
      ((xs.map Prod.fst).flatMap (modelCallRows sha256 db.modelPricing now))
      ((xs.map Prod.fst).flatMap (toolCallRows sha256)) := by
  induction xs generalizing db result with
  | nil =>
    obtain ⟨rfl, -⟩ := Prod.mk.inj (Except.ok.inj h)
    exact Written.refl db
  | cons xm xs ih =>
    obtain ⟨x, mismatch⟩ := xm
    rw [ingestExecutions] at h
    obtain ⟨db₁, hx, hrest⟩ := Except.ok_of_bind h
    have hfirst := ingestExecution_written hx
    have hrest := ih hrest
    rw [hfirst.modelPricing] at hrest
    simpa using hfirst.trans hrest

/-- The flags of the mismatch check are as many as the executions, so `zip` drops none. -/
theorem map_fst_zip_mismatches (maps : Table IdentityMap.index) (fails : Bool) (now : ℤ)
    (tenantId provider : String) (user : Option String) (xs : List ExecutionInput) :
    (xs.zip (checkEmailMismatches maps fails now tenantId provider user
      (xs.map ExecutionInput.userEmail)).2.1).map Prod.fst = xs := by
  apply List.map_fst_zip
  simp [checkEmailMismatches]

/-- The rows that one call writes to `executions`, at prices `pricing`. -/
def executionRows (sha256 : List UInt8 → String) (call : IngestCall) (pricing : List ModelPricing)
    (now : ℤ) (user : Option String) : List Execution :=
  call.executions.map (call.executionRow sha256 pricing now user)

/-- The identity that one call stamps. -/
def boundIdentity (call : IngestCall) (db : Database) : Option String :=
  getIntegrationIdentity db.integrations call.tenantId call.integrationId

/-- The model calls of a batch, each with its execution. -/
def modelCallsOf (xs : List ExecutionInput) : List (ExecutionInput × ModelCallInput) :=
  xs.flatMap fun x => x.modelCalls.map fun c => (x, c)

/-- The tool calls of a batch, each with its execution. -/
def toolCallsOf (xs : List ExecutionInput) : List (ExecutionInput × ToolCallInput) :=
  xs.flatMap fun x => x.toolCalls.map fun c => (x, c)

/-- The row written for a model call of a batch. -/
def pricedCall (sha256 : List UInt8 → String) (pricing : List ModelPricing) (now : ℤ)
    (xc : ExecutionInput × ModelCallInput) : ModelCall :=
  modelCallRow sha256 (deterministicId sha256 "exec" xc.1.key) xc.2
    (calculateModelCost pricing now xc.2)

/-- The row written for a tool call of a batch. -/
def toolCall (sha256 : List UInt8 → String) (xc : ExecutionInput × ToolCallInput) : ToolCall :=
  toolCallRow sha256 (deterministicId sha256 "exec" xc.1.key) xc.2

@[simp] theorem key_executionRow (pricing : List ModelPricing) (now : ℤ) (user : Option String)
    (x : ExecutionInput) :
    Execution.index.key (call.executionRow sha256 pricing now user x) = x.key := rfl

@[simp] theorem key_pricedCall (pricing : List ModelPricing) (now : ℤ)
    (xc : ExecutionInput × ModelCallInput) :
    ModelCall.index.key (pricedCall sha256 pricing now xc) = xc.2.key := rfl

@[simp] theorem key_toolCall (xc : ExecutionInput × ToolCallInput) :
    ToolCall.index.key (toolCall sha256 xc) = xc.2.key := rfl

theorem modelCallRows_eq (pricing : List ModelPricing) (now : ℤ) (x : ExecutionInput) :
    modelCallRows sha256 pricing now x =
      x.modelCalls.map fun c => pricedCall sha256 pricing now (x, c) := by
  have hzip : x.modelCalls.zip (x.modelCalls.map (calculateModelCost pricing now)) =
      x.modelCalls.map fun c => (c, calculateModelCost pricing now c) :=
    List.map_prod_left_eq_zip.symm
  simp only [modelCallRows, hzip, List.map_map]
  rfl

theorem flatMap_modelCallRows (pricing : List ModelPricing) (now : ℤ) (xs : List ExecutionInput) :
    xs.flatMap (modelCallRows sha256 pricing now) =
      (modelCallsOf xs).map (pricedCall sha256 pricing now) := by
  simp only [modelCallsOf, List.map_flatMap, List.map_map]
  congr 1
  funext x
  exact modelCallRows_eq pricing now x

theorem flatMap_toolCallRows (xs : List ExecutionInput) :
    xs.flatMap (toolCallRows sha256) = (toolCallsOf xs).map (toolCall sha256) := by
  simp only [toolCallsOf, List.map_flatMap, List.map_map]
  rfl

/-- The rows of the batch of `call`, upserted at the time `now` into `db`. -/
def Writes (sha256 : List UInt8 → String) (call : IngestCall) (now : ℤ) (db db' : Database) :
    Prop :=
  Written db db' (call.executionRows sha256 db.modelPricing now (call.boundIdentity db))
    ((modelCallsOf call.executions).map (pricedCall sha256 db.modelPricing now))
    ((toolCallsOf call.executions).map (toolCall sha256))

/-- A transaction that commits wrote the rows of its batch. -/
theorem transaction_writes {now : ℤ} {result : IngestResult}
    (h : call.transaction sha256 now db = .ok (result, db')) :
    call.Writes sha256 now db db' := by
  unfold transaction at h
  obtain ⟨⟨db₁, result₁⟩, hrun, hret⟩ := Except.ok_of_bind h
  have hw := ingestExecutions_written hrun
  simp only [map_fst_zip_mismatches, flatMap_modelCallRows, flatMap_toolCallRows] at hw
  obtain rfl : call.touchIntegration now db₁ = db' := (Prod.mk.inj (Except.ok.inj hret)).2
  exact ⟨hw.executions, hw.modelCalls, hw.toolCalls, hw.modelPricing⟩

/-- The retries end in a failure that changed nothing or in one committed transaction. -/
theorem attempts_cases (sha256 : List UInt8 → String) (call : IngestCall) (db : Database)
    (retries : ℕ) :
    (∃ e, call.attempts sha256 db retries = (.error e, db)) ∨
      ∃ attempt result db', call.transaction sha256 (call.now attempt) db = .ok (result, db') ∧
        call.attempts sha256 db retries = (.ok result, db') := by
  have inner (attempt : ℕ) {result : IngestResult} {db' : Database}
      (h : call.ingestTelemetryInner sha256 attempt db = .ok (result, db')) :
      call.transaction sha256 (call.now attempt) db = .ok (result, db') := by
    unfold ingestTelemetryInner at h
    split at h
    · cases h
    · exact h
  induction retries with
  | zero =>
    unfold attempts
    split
    · next result db' h => exact .inr ⟨_, result, db', inner _ h, rfl⟩
    · next e h => exact .inl ⟨e, rfl⟩
  | succ retries ih =>
    unfold attempts
    split
    · next result db' h => exact .inr ⟨_, result, db', inner _ h, rfl⟩
    · exact ih
    · next e _ h => exact .inl ⟨e, rfl⟩

/-- A call fails and changes nothing, or its batch is valid and one transaction wrote it. -/
theorem ingestTelemetry_cases (sha256 : List UInt8 → String) (call : IngestCall) (db : Database) :
    (∃ e, call.ingestTelemetry sha256 db = (.error e, db)) ∨
      ∃ attempt result db', validateInput call.executions = .ok () ∧
        call.transaction sha256 (call.now attempt) db = .ok (result, db') ∧
        call.ingestTelemetry sha256 db = (.ok result, db') := by
  unfold ingestTelemetry
  split
  · next e h => exact .inl ⟨e, rfl⟩
  · next h =>
    rcases attempts_cases sha256 call db maxDeadlockRetries with
      herr | ⟨attempt, result, db', ht, ha⟩
    · exact .inl herr
    · exact .inr ⟨attempt, result, db', h, ht, ha⟩

/-- A call whose transaction commits at the first attempt returns what it wrote. -/
theorem ingestTelemetry_of_transaction (hvalid : validateInput call.executions = .ok ())
    (hfault : call.fault 0 = none) {result : IngestResult}
    (h : call.transaction sha256 (call.now 0) db = .ok (result, db')) :
    call.ingestTelemetry sha256 db = (.ok result, db') := by
  have hinner : call.ingestTelemetryInner sha256 (maxDeadlockRetries - (2 + 1)) db =
      .ok (result, db') := by
    simp only [ingestTelemetryInner, maxDeadlockRetries, Nat.sub_self, hfault, h]
  simp only [ingestTelemetry, hvalid]
  show call.attempts sha256 db (2 + 1) = _
  rw [attempts, hinner]

end IngestCall

/-- The three telemetry tables are the same, row by row. -/
structure Database.SameTelemetry (db db' : Database) : Prop where
  executions : db.executions = db'.executions
  modelCalls : db.modelCalls = db'.modelCalls
  toolCalls : db.toolCalls = db'.toolCalls

/-! ## Runs -/

/-- What happens to the database between two looks at it: a call of ingest under any credential,
or another part of the program changing the tables that ingest only reads. -/
inductive IngestEvent where
  | ingest (call : IngestCall)
  | administer (modelPricing : List ModelPricing) (integrations : List Integration)
      (identityMaps : Table IdentityMap.index) (tenants : List String)

namespace Database

/-- Another part of the program changes the tables that ingest only reads. -/
def administer (db : Database) (modelPricing : List ModelPricing)
    (integrations : List Integration) (identityMaps : Table IdentityMap.index)
    (tenants : List String) : Database :=
  { db with
    modelPricing := modelPricing
    integrations := integrations
    identityMaps := identityMaps
    tenants := tenants }

def apply (sha256 : List UInt8 → String) (db : Database) : IngestEvent → Database
  | .ingest call => (call.ingestTelemetry sha256 db).2
  | .administer modelPricing integrations identityMaps tenants =>
    db.administer modelPricing integrations identityMaps tenants

/-- The database after a sequence of events. -/
def runs (sha256 : List UInt8 → String) (db : Database) (events : List IngestEvent) : Database :=
  events.foldl (apply sha256) db

/-- The database before the first call. -/
def initial : Database where
  executions := Table.empty
  modelCalls := Table.empty
  toolCalls := Table.empty
  modelPricing := []
  integrations := []
  identityMaps := Table.empty
  tenants := []
  modelCalls_fk := fun _ h => (List.not_mem_nil h).elim
  toolCalls_fk := fun _ h => (List.not_mem_nil h).elim

/-- An event leaves the telemetry tables, or writes the batch of one call. -/
theorem apply_cases (sha256 : List UInt8 → String) (db : Database) (event : IngestEvent) :
    SameTelemetry (db.apply sha256 event) db ∨
      ∃ call attempt, event = .ingest call ∧ validateInput call.executions = .ok () ∧
        call.Writes sha256 (call.now attempt) db (db.apply sha256 event) := by
  cases event with
  | administer modelPricing integrations identityMaps tenants => exact .inl ⟨rfl, rfl, rfl⟩
  | ingest call =>
    rcases IngestCall.ingestTelemetry_cases sha256 call db with
      ⟨e, he⟩ | ⟨attempt, result, db', hvalid, ht, hok⟩
    · refine .inl ?_
      simp only [apply, he]
      exact ⟨rfl, rfl, rfl⟩
    · refine .inr ⟨call, attempt, rfl, hvalid, ?_⟩
      simp only [apply, hok]
      exact IngestCall.transaction_writes ht

theorem runs_append (sha256 : List UInt8 → String) (db : Database) ( pre post : List IngestEvent) :
    db.runs sha256 (pre ++ post) = (db.runs sha256 pre).runs sha256 post := by
  simp only [runs, List.foldl_append]

/-- What every event keeps holds after every run. -/
theorem runs_keep {sha256 : List UInt8 → String} {P : Database → Prop}
    (hstep : ∀ db event, P db → P (db.apply sha256 event)) {db : Database} (h : P db)
    (events : List IngestEvent) : P (db.runs sha256 events) := by
  induction events generalizing db with
  | nil => exact h
  | cons event events ih => exact ih (hstep db event h)

end Database

/-! ## Sample values -/

/-- SHA-256 on the few span keys of the sample batches. -/
def sampleSha256 (bytes : List UInt8) : String :=
  if bytes = encode "t1:s1".toList then
    "611122acf4d89ef91e596ef47e70bfc4b5c46aa86f716b4e324d0e42055bc795"
  else if bytes = encode "t1:s2".toList then
    "96f2fc949537617e2fcb8c06c007dc19895ccd9f1dff9a15a40bcc363ac729e1"
  else if bytes = encode "t1:s3".toList then
    "5188bfd88747f666de200fdd04c028df34d92d264ecdb26d8d29fe096671d526"
  else "25dc31bf3dc76300d926373f550e781b13bde183a671c0565e4fbc2f59274cf9"

/-- Two micro-dollars for an input token and three for an output token of the model `m`. -/
def samplePricing : List ModelPricing := [⟨"m", 2000000, 3000000, 0, none⟩]

/-- A call of the model `m` with ten input tokens and one output token. -/
def sampleModelCall (spanId : String) : ModelCallInput := ⟨"t1", spanId, "m", some 10, some 1⟩

/-- The execution `t1:s1` with the model calls of the given spans. -/
def sampleExecution (userEmail : Option String) (spans : List String) : ExecutionInput where
  traceId := "t1"
  spanId := "s1"
  userEmail := userEmail
  startedAt := 5
  durationMs := 7
  modelCalls := spans.map sampleModelCall
  toolCalls := []

/-- A call of the given tenant and integration that meets no failure. -/
def sampleCall (tenantId integrationId : String) (executions : List ExecutionInput) :
    IngestCall where
  tenantId := tenantId
  integrationId := integrationId
  provider := "claude-code"
  executions := executions
  now := fun _ => 10
  fault := fun _ => none
  mismatchQueryFails := false

/-- Two integrations of two tenants, and the prices. -/
def sampleDatabase : Database :=
  Database.initial.administer samplePricing
    [⟨"int-1", "acme", some "u1", none⟩, ⟨"int-2", "globex", some "u2", none⟩] Table.empty
    ["acme", "globex"]

end Governance
