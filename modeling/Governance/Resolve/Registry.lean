import Governance.Resolve.Handle
import Governance.Lib.Base64

/-!
# The registry behind the table

`governance-core/src/credential.rs` over the tables of `governance.cstack`: an integration is
issued for an application and one of its environments, under the tenant of the application. The
procedure reads the one, reads the other, inserts a row and reads it back, each in a transaction
of its own, and whoever is signed in may write applications and environments meanwhile. Nothing
deletes a row of these tables.

The table that `Resolve.State` has by the hash is the join that `resolve` makes of these.
-/

namespace Governance

namespace Resolve

/-! ## Issuing -/

/-- A row of `applications`. -/
structure ApplicationRow where
  tenantId : String
  name : String
  owner : Option String
  deriving DecidableEq

/-- A row of `environments`. -/
structure EnvironmentRow where
  tenantId : String
  applicationId : String
  name : String
  deriving DecidableEq

/-- `IssueIntegrationCredentialInput`. -/
structure IssueInput where
  applicationId : String
  provider : String
  environmentId : String
  contentCapture : Option String
  internalUserId : Option String
  deriving DecidableEq

/-- A row of `integrations`, without the times that others write. -/
structure Integration where
  id : String
  tenantId : String
  applicationId : String
  environmentId : String
  provider : String
  credentialPrefix : String
  credentialHash : String
  status : IntegrationStatus
  contentCapture : String
  internalUserId : Option String
  revokedAt : Option ℕ
  deriving DecidableEq

/-- The row as it was inserted. -/
def Integration.asIssued (row : Integration) : Integration :=
  { row with status := .active, revokedAt := none }

/-- `CratestackError`, as far as the procedure raises it. -/
inductive CratestackError where
  | validation (text : String)
  | internal (text : String)
  | database
  deriving DecidableEq

def secretPrefix : String := "gov_"

def displayPrefixLen : ℕ := 12

def defaultContentCapture : String := "metadata_only"

/-- The engine `URL_SAFE_NO_PAD`. -/
def urlSafeNoPad (bytes : List UInt8) : List Char :=
  ((Base64.base64 bytes).filter (· ≠ '=')).map fun c =>
    if c = '+' then '-' else if c = '/' then '_' else c

/-- `generate_secret`, on the bytes that are drawn. -/
def generateSecret (bytes : Vector UInt8 32) : String :=
  secretPrefix ++ String.ofList (urlSafeNoPad bytes.toList)

/-- `display_prefix`. -/
def displayPrefix (secret : String) : String := String.ofList (secret.toList.take displayPrefixLen)

/-- The row that `issue` inserts. -/
def IssueInput.row (cfg : Config) (args : IssueInput) (tenantId id secret : String) :
    Integration where
  id := id
  tenantId := tenantId
  applicationId := args.applicationId
  environmentId := args.environmentId
  provider := args.provider
  credentialPrefix := displayPrefix secret
  credentialHash := cfg.hashSecret secret
  status := .active
  contentCapture := args.contentCapture.getD defaultContentCapture
  internalUserId := args.internalUserId
  revokedAt := none

/-- Where a call of `issue` stands. -/
inductive Issuing where
  | reading (args : IssueInput)
  | checking (args : IssueInput) (tenantId : String)
  | inserting (args : IssueInput) (tenantId : String)
  | rereading (id secret : String)
  | answered (integration : Integration) (secret : String)
  | failed (error : CratestackError)
  deriving DecidableEq

/-- The tables and the calls of `issue`. -/
structure Registry where
  now : ℕ
  applications : String → Option ApplicationRow
  environments : String → Option EnvironmentRow
  integrations : List Integration
  calls : ℕ → Option Issuing

namespace Registry

def empty : Registry := ⟨0, fun _ => none, fun _ => none, [], fun _ => none⟩

/-- A call moves on. -/
def set (reg : Registry) (call : ℕ) (stage : Issuing) : Registry :=
  { reg with calls := Function.update reg.calls call (some stage) }

/-- The application is looked up. -/
def checkApplication (reg : Registry) (args : IssueInput) : Issuing :=
  match reg.applications args.applicationId with
  | none => .failed (.validation "application not found")
  | some application => .checking args application.tenantId

/-- The environment is looked up, and must be one of the application. -/
def checkEnvironment (reg : Registry) (args : IssueInput) (tenantId : String) : Issuing :=
  match reg.environments args.environmentId with
  | none => .failed (.validation "environment not found")
  | some environment =>
    if environment.applicationId ≠ args.applicationId then
      .failed (.validation "environment does not belong to the given application")
    else .inserting args tenantId

/-- The row is read back. -/
def reread (reg : Registry) (id secret : String) : Issuing :=
  match reg.integrations.find? fun integration => integration.id = id with
  | none => .failed (.internal "just-inserted integration not found")
  | some integration => .answered integration secret

/-- The statement of `revoke`. -/
def revoked (now : ℕ) (id : String) (integration : Integration) : Integration :=
  if integration.id = id ∧ integration.status = .active then
    { integration with status := .revoked, revokedAt := some now }
  else integration

/-- What can happen next. A call carries whether the database answers, and what is drawn for its
row; the `put` steps are the creates and updates of the generated routes. -/
inductive Step where
  | putApplication (id : String) (row : ApplicationRow)
  | putEnvironment (id : String) (row : EnvironmentRow)
  | issue (call : ℕ) (args : IssueInput)
  | readApplication (call : ℕ) (answers : Bool)
  | readEnvironment (call : ℕ) (answers : Bool)
  | csprngFails (call : ℕ) (error : String)
  | insert (call : ℕ) (id : String) (bytes : Vector UInt8 32) (answers : Bool)
  | reread (call : ℕ) (answers : Bool)
  | revoke (id : String)
  | tick (elapsed : ℕ)

/-- One step. A step that cannot happen changes nothing. -/
def step (cfg : Config) (reg : Registry) : Step → Registry
  | .putApplication id row =>
    { reg with applications := Function.update reg.applications id (some row) }
  | .putEnvironment id row =>
    { reg with environments := Function.update reg.environments id (some row) }
  | .issue call args => if reg.calls call = none then reg.set call (.reading args) else reg
  | .readApplication call answers =>
    match reg.calls call with
    | some (.reading args) =>
      reg.set call (if answers then reg.checkApplication args else .failed .database)
    | _ => reg
  | .readEnvironment call answers =>
    match reg.calls call with
    | some (.checking args tenantId) =>
      reg.set call (if answers then reg.checkEnvironment args tenantId else .failed .database)
    | _ => reg
  | .csprngFails call error =>
    match reg.calls call with
    | some (.inserting _ _) => reg.set call (.failed (.internal ("csprng failure: " ++ error)))
    | _ => reg
  | .insert call id bytes answers =>
    match reg.calls call with
    | some (.inserting args tenantId) =>
      -- The id is the primary key. A commit whose answer gets lost is an insert that is answered,
      -- and then a `reread` that is not.
      if answers ∧ id ∉ reg.integrations.map Integration.id then
        { reg.set call (.rereading id (generateSecret bytes)) with
          integrations :=
            reg.integrations ++ [args.row cfg tenantId id (generateSecret bytes)] }
      else reg.set call (.failed .database)
    | _ => reg
  | .reread call answers =>
    match reg.calls call with
    | some (.rereading id secret) =>
      reg.set call (if answers then reg.reread id secret else .failed .database)
    | _ => reg
  | .revoke id => { reg with integrations := reg.integrations.map (revoked reg.now id) }
  | .tick elapsed => { reg with now := reg.now + elapsed }

/-- A run. -/
def run (cfg : Config) (steps : List Step) : Registry := steps.foldl (step cfg) empty

/-! ## What `resolve` reads -/

/-- A row, joined with its environment. -/
def joined (reg : Registry) (row : Integration) : Option IntegrationRow :=
  (reg.environments row.environmentId).map fun environment =>
    ⟨⟨row.tenantId, row.applicationId, environment.name, row.id⟩, row.status, row.revokedAt⟩

/-- The query of `resolve`: a row with the hash. -/
def table (reg : Registry) (hash : String) : Option IntegrationRow :=
  (reg.integrations.filter fun row => row.credentialHash = hash).findSome? reg.joined

/-- The registry as `Resolve.State` sees it. -/
def state (reg : Registry) : State := ⟨reg.now, reg.table, fun _ => none, fun _ => none⟩

/-! ## What a step does -/

section Steps

variable {cfg : Config} {reg : Registry} {a : Step} {call : ℕ} {row : Integration}

/-- What a call may have come to by its own step, from what it was before. -/
inductive Moves (reg : Registry) (call : ℕ) : Issuing → Prop where
  | reading (args : IssueInput) : reg.calls call = none → Moves reg call (.reading args)
  | checking (args : IssueInput) (application : ApplicationRow) :
    reg.calls call = some (.reading args) →
      reg.applications args.applicationId = some application →
        Moves reg call (.checking args application.tenantId)
  | inserting (args : IssueInput) (tenantId : String) (environment : EnvironmentRow) :
    reg.calls call = some (.checking args tenantId) →
      reg.environments args.environmentId = some environment →
        environment.applicationId = args.applicationId → Moves reg call (.inserting args tenantId)
  | rereading (args : IssueInput) (tenantId id : String) (bytes : Vector UInt8 32) :
    reg.calls call = some (.inserting args tenantId) →
      Moves reg call (.rereading id (generateSecret bytes))
  | answered (id secret : String) (integration : Integration) :
    reg.calls call = some (.rereading id secret) → integration ∈ reg.integrations →
      integration.id = id → Moves reg call (.answered integration secret)
  | failed (error : CratestackError) : Moves reg call (.failed error)

@[simp] theorem calls_set (stage : Issuing) :
    (reg.set call stage).calls = Function.update reg.calls call (some stage) := rfl

@[simp] theorem integrations_set (stage : Issuing) :
    (reg.set call stage).integrations = reg.integrations := rfl

theorem moves_checkApplication {args : IssueInput} (h : reg.calls call = some (.reading args)) :
    Moves reg call (reg.checkApplication args) := by
  unfold checkApplication
  split
  · exact .failed _
  · next application happlication => exact .checking args application h happlication

theorem moves_checkEnvironment {args : IssueInput} {tenantId : String}
    (h : reg.calls call = some (.checking args tenantId)) :
    Moves reg call (reg.checkEnvironment args tenantId) := by
  unfold checkEnvironment
  split
  · exact .failed _
  · next environment henvironment =>
    split
    · exact .failed _
    · next happlication =>
      exact .inserting args tenantId environment h henvironment (not_not.mp happlication)

theorem moves_reread {id secret : String} (h : reg.calls call = some (.rereading id secret)) :
    Moves reg call (reg.reread id secret) := by
  unfold Registry.reread
  split
  · exact .failed _
  · next integration hfind =>
    exact .answered id secret integration h (List.mem_of_find?_eq_some hfind)
      (by simpa using List.find?_some hfind)

/-- A call that is set is where it was set to, and the others are where they were. -/
theorem moves_of_set {call' : ℕ} {stage stage' : Issuing} (hmoves : Moves reg call' stage')
    (h : Function.update reg.calls call' (some stage') call = some stage) :
    reg.calls call = some stage ∨ Moves reg call stage := by
  rw [Function.update_apply] at h
  split at h
  · next heq =>
    obtain rfl := Option.some.inj h
    exact .inr (heq ▸ hmoves)
  · exact .inl h

theorem calls_step {stage : Issuing} (h : (step cfg reg a).calls call = some stage) :
    reg.calls call = some stage ∨ Moves reg call stage := by
  cases a with
  | putApplication id row => exact .inl h
  | putEnvironment id row => exact .inl h
  | revoke id => exact .inl h
  | tick elapsed => exact .inl h
  | issue call' args =>
    simp only [step] at h
    split at h
    · next hnone => exact moves_of_set (.reading args hnone) h
    · exact .inl h
  | readApplication call' answers =>
    simp only [step] at h
    split at h
    · next args hcall =>
      refine moves_of_set ?_ h
      split
      · exact moves_checkApplication hcall
      · exact .failed _
    · exact .inl h
  | readEnvironment call' answers =>
    simp only [step] at h
    split at h
    · next args tenantId hcall =>
      refine moves_of_set ?_ h
      split
      · exact moves_checkEnvironment hcall
      · exact .failed _
    · exact .inl h
  | csprngFails call' error =>
    simp only [step] at h
    split at h
    · exact moves_of_set (.failed _) h
    · exact .inl h
  | insert call' id bytes answers =>
    simp only [step] at h
    split at h
    · next args tenantId hcall =>
      split at h
      · exact moves_of_set (.rereading args tenantId id bytes hcall) h
      · exact moves_of_set (.failed _) h
    · exact .inl h
  | reread call' answers =>
    simp only [step] at h
    split at h
    · next id secret hcall =>
      refine moves_of_set ?_ h
      split
      · exact moves_reread hcall
      · exact .failed _
    · exact .inl h

/-- The rows change only by one that is inserted, and by a revocation. -/
theorem integrations_step (cfg : Config) (reg : Registry) (a : Step) :
    ((∀ id, a ≠ .revoke id) ∧ (step cfg reg a).integrations = reg.integrations) ∨
    (∃ call id bytes args tenantId, a = .insert call id bytes true ∧
      reg.calls call = some (.inserting args tenantId) ∧
      id ∉ reg.integrations.map Integration.id ∧
      (step cfg reg a).integrations =
        reg.integrations ++ [args.row cfg tenantId id (generateSecret bytes)]) ∨
    ∃ id, a = .revoke id ∧
      (step cfg reg a).integrations = reg.integrations.map (revoked reg.now id) := by
  cases a with
  | revoke id => exact .inr (.inr ⟨id, rfl, rfl⟩)
  | insert call id bytes answers =>
    cases hcall : reg.calls call with
    | none => exact .inl ⟨fun id => by simp, by simp only [step, hcall]⟩
    | some stage =>
      cases stage with
      | inserting args tenantId =>
        by_cases hinsert : answers ∧ id ∉ reg.integrations.map Integration.id
        · obtain ⟨rfl, hid⟩ := hinsert
          refine .inr (.inl ⟨call, id, bytes, args, tenantId, rfl, hcall, hid, ?_⟩)
          simp only [step, hcall, hid, not_false_eq_true, and_self, if_true]
        · refine .inl ⟨fun id => by simp, ?_⟩
          simp only [step, hcall, if_neg hinsert, integrations_set]
      | _ => exact .inl ⟨fun id => by simp, by simp only [step, hcall]⟩
  | _ =>
    refine .inl ⟨fun id => by simp, ?_⟩
    simp only [step]
    repeat' split
    all_goals rfl

/-- An insert that goes through. -/
theorem step_insert {id tenantId : String} {bytes : Vector UInt8 32} {args : IssueInput}
    (hcall : reg.calls call = some (.inserting args tenantId))
    (hid : id ∉ reg.integrations.map Integration.id) :
    (step cfg reg (.insert call id bytes true)).integrations =
      reg.integrations ++ [args.row cfg tenantId id (generateSecret bytes)] := by
  simp only [step, hcall, hid, not_false_eq_true, and_self, if_true]

@[simp] theorem revoked_id (now : ℕ) (id : String) : (revoked now id row).id = row.id := by
  unfold revoked
  split
  · rfl
  · rfl

@[simp] theorem revoked_credentialHash (now : ℕ) (id : String) :
    (revoked now id row).credentialHash = row.credentialHash := by
  unfold revoked
  split
  · rfl
  · rfl

theorem revoked_environmentId (now : ℕ) (id : String) :
    (revoked now id row).environmentId = row.environmentId := by
  unfold revoked
  split
  · rfl
  · rfl

@[simp] theorem asIssued_revoked (now : ℕ) (id : String) :
    (revoked now id row).asIssued = row.asIssued := by
  unfold revoked
  split
  · rfl
  · rfl

theorem revoked_of_ne {now : ℕ} {id : String} (h : row.id ≠ id) : revoked now id row = row :=
  if_neg fun hboth => h hboth.1

theorem status_revoked_self (now : ℕ) : (revoked now row.id row).status = .revoked := by
  unfold revoked
  split
  · rfl
  · next hne =>
    cases hstatus : row.status with
    | active => exact absurd ⟨rfl, hstatus⟩ hne
    | revoked => rfl

end Steps

/-! ## What a run has issued -/

section Runs

variable {cfg : Config} {steps more : List Step} {call : ℕ} {args : IssueInput}
  {tenantId : String} {row : Integration}

theorem run_concat (cfg : Config) (steps : List Step) (a : Step) :
    run cfg (steps ++ [a]) = step cfg (run cfg steps) a := by
  simp only [run, List.foldl_append, List.foldl_cons, List.foldl_nil]

theorem run_append (cfg : Config) (before after : List Step) :
    run cfg (before ++ after) = after.foldl (step cfg) (run cfg before) := by
  simp only [run, List.foldl_append]

/-- The call has read its application, which was then under the tenant. -/
def ReadTenant (cfg : Config) (steps : List Step) (call : ℕ) (args : IssueInput)
    (tenantId : String) : Prop :=
  ∃ before application, before <+: steps ∧
    (run cfg before).calls call = some (.reading args) ∧
    (run cfg before).applications args.applicationId = some application ∧
    application.tenantId = tenantId

/-- After that the call has read its environment, which then belonged to the application. -/
def Admitted (cfg : Config) (steps : List Step) (call : ℕ) (args : IssueInput)
    (tenantId : String) : Prop :=
  ∃ before environment, before <+: steps ∧ ReadTenant cfg before call args tenantId ∧
    (run cfg before).calls call = some (.checking args tenantId) ∧
    (run cfg before).environments args.environmentId = some environment ∧
    environment.applicationId = args.applicationId

theorem ReadTenant.append (h : ReadTenant cfg steps call args tenantId) (more : List Step) :
    ReadTenant cfg (steps ++ more) call args tenantId := by
  obtain ⟨before, application, hprefix, hread⟩ := h
  exact ⟨before, application, hprefix.trans (List.prefix_append steps more), hread⟩

theorem Admitted.append (h : Admitted cfg steps call args tenantId) (more : List Step) :
    Admitted cfg (steps ++ more) call args tenantId := by
  obtain ⟨before, environment, hprefix, hread⟩ := h
  exact ⟨before, environment, hprefix.trans (List.prefix_append steps more), hread⟩

theorem readTenant_run (h : (run cfg steps).calls call = some (.checking args tenantId)) :
    ReadTenant cfg steps call args tenantId := by
  induction steps using List.reverseRecOn with
  | nil => cases h
  | append_singleton steps a ih =>
    rw [run_concat] at h
    rcases calls_step h with hbefore | hmoves
    · exact (ih hbefore).append [a]
    · cases hmoves with
      | checking _ application hcall happlication =>
        exact ⟨steps, application, List.prefix_append steps [a], hcall, happlication, rfl⟩

theorem admitted_run (h : (run cfg steps).calls call = some (.inserting args tenantId)) :
    Admitted cfg steps call args tenantId := by
  induction steps using List.reverseRecOn with
  | nil => cases h
  | append_singleton steps a ih =>
    rw [run_concat] at h
    rcases calls_step h with hbefore | hmoves
    · exact (ih hbefore).append [a]
    · cases hmoves with
      | inserting _ _ environment hcall henvironment happlication =>
        exact ⟨steps, environment, List.prefix_append steps [a], readTenant_run hcall, hcall,
          henvironment, happlication⟩

/-- A call inserts the row in the run, and what has become of it since. -/
def Issued (cfg : Config) (steps : List Step) (row : Integration) : Prop :=
  ∃ before call args tenantId bytes after,
    steps = before ++ Step.insert call row.id bytes true :: after ∧
    (run cfg before).calls call = some (.inserting args tenantId) ∧
    row.id ∉ (run cfg before).integrations.map Integration.id ∧
    row.asIssued = args.row cfg tenantId row.id (generateSecret bytes) ∧
    (Step.revoke row.id ∉ after → row = row.asIssued) ∧
    (Step.revoke row.id ∈ after → row.status = .revoked)

theorem Issued.concat {a : Step} (h : Issued cfg steps row) (ha : a ≠ .revoke row.id) :
    Issued cfg (steps ++ [a]) row := by
  obtain ⟨before, call, args, tenantId, bytes, after, rfl, hcall, hid, hrow, hkept, hgone⟩ := h
  refine ⟨before, call, args, tenantId, bytes, after ++ [a], ?_, hcall, hid, hrow, ?_, ?_⟩
  · rw [List.append_assoc, List.cons_append]
  · exact fun hafter => hkept fun hmem => hafter (List.mem_append_left _ hmem)
  · intro hafter
    rcases List.mem_append.mp hafter with hmem | hmem
    · exact hgone hmem
    · exact absurd (List.mem_singleton.mp hmem).symm ha

theorem Issued.revoke (h : Issued cfg steps row) (now : ℕ) (id : String) :
    Issued cfg (steps ++ [Step.revoke id]) (revoked now id row) := by
  by_cases heq : row.id = id
  · obtain rfl := heq
    obtain ⟨before, call, args, tenantId, bytes, after, rfl, hcall, hid, hrow, -, -⟩ := h
    refine ⟨before, call, args, tenantId, bytes, after ++ [.revoke row.id], ?_, hcall, ?_, ?_,
      ?_, fun _ => status_revoked_self now⟩
    · rw [revoked_id, List.append_assoc, List.cons_append]
    · rwa [revoked_id]
    · rwa [asIssued_revoked, revoked_id]
    · rw [revoked_id]
      exact fun hafter => absurd (List.mem_append_right _ List.mem_cons_self) hafter
  · rw [revoked_of_ne heq]
    exact h.concat fun hrevoke => heq (Step.revoke.inj hrevoke).symm

/-- Every row of the table was inserted by a call, and is active until it is revoked. -/
theorem issued_run (h : row ∈ (run cfg steps).integrations) : Issued cfg steps row := by
  induction steps using List.reverseRecOn generalizing row with
  | nil => cases h
  | append_singleton steps a ih =>
    rw [run_concat] at h
    rcases integrations_step cfg (run cfg steps) a with ⟨hrevoke, heq⟩ |
      ⟨call, id, bytes, args, tenantId, rfl, hcall, hid, heq⟩ | ⟨id, rfl, heq⟩
    · rw [heq] at h
      exact (ih h).concat (hrevoke row.id)
    · -- The last step inserts: the row is an old one, or this is its insert.
      rw [heq] at h
      rcases List.mem_append.mp h with hold | hnew
      · exact (ih hold).concat (by simp)
      · obtain rfl := List.mem_singleton.mp hnew
        exact ⟨steps, call, args, tenantId, bytes, [], rfl, hcall, hid, rfl, fun _ => rfl,
          fun hmem => absurd hmem List.not_mem_nil⟩
    · rw [heq] at h
      obtain ⟨old, hold, rfl⟩ := List.mem_map.mp h
      exact (ih hold).revoke _ id

/-- A row that is not revoked stays as it is. -/
theorem mem_foldl {reg : Registry} {after : List Step} (h : row ∈ reg.integrations)
    (hafter : .revoke row.id ∉ after) : row ∈ (after.foldl (step cfg) reg).integrations := by
  induction after generalizing reg with
  | nil => exact h
  | cons a after ih =>
    refine ih ?_ fun hmem => hafter (List.mem_cons_of_mem _ hmem)
    rcases integrations_step cfg reg a with
      ⟨-, heq⟩ | ⟨call, id, bytes, args, tenantId, -, -, -, heq⟩ | ⟨id, rfl, heq⟩
    · exact heq ▸ h
    · rw [heq]
      exact List.mem_append_left _ h
    · rw [heq]
      have hne : row.id ≠ id := fun hid => hafter (hid ▸ List.mem_cons_self)
      exact List.mem_map.mpr ⟨row, h, revoked_of_ne hne⟩

/-- The row was inserted by a call in the run, and nobody has revoked it since. -/
def Stands (cfg : Config) (steps : List Step) (row : Integration) : Prop :=
  ∃ before call args tenantId bytes after,
    steps = before ++ Step.insert call row.id bytes true :: after ∧
    (run cfg before).calls call = some (.inserting args tenantId) ∧
    row.id ∉ (run cfg before).integrations.map Integration.id ∧
    row = args.row cfg tenantId row.id (generateSecret bytes) ∧ Step.revoke row.id ∉ after

theorem mem_active_iff :
    row ∈ (run cfg steps).integrations ∧ row.status = .active ↔ Stands cfg steps row := by
  constructor
  · rintro ⟨hmem, hactive⟩
    obtain ⟨before, call, args, tenantId, bytes, after, hsteps, hcall, hid, hrow, hkept,
      hgone⟩ := issued_run hmem
    -- A row that is revoked never gets active again.
    have hafter : .revoke row.id ∉ after := by
      intro hrevoke
      rw [hgone hrevoke] at hactive
      cases hactive
    exact ⟨before, call, args, tenantId, bytes, after, hsteps, hcall, hid,
      (hkept hafter).trans hrow, hafter⟩
  · rintro ⟨before, call, args, tenantId, bytes, after, rfl, hcall, hid, hrow, hafter⟩
    have hmem : row ∈ (step cfg (run cfg before)
        (.insert call row.id bytes true)).integrations := by
      rw [step_insert hcall hid, ← hrow]
      exact List.mem_append_right _ List.mem_cons_self
    refine ⟨?_, by rw [hrow]; rfl⟩
    rw [run_append, List.foldl_cons]
    exact mem_foldl hmem hafter

/-! ## Which secrets are accepted -/

/-- The bytes that are drawn for a row. -/
def Step.drawn : Step → Option (Vector UInt8 32)
  | .insert _ _ bytes _ => some bytes
  | _ => none

/-- The hashes of the secrets that are drawn in a run. -/
def hashes (cfg : Config) (steps : List Step) : List String :=
  (steps.filterMap Step.drawn).map fun bytes => cfg.hashSecret (generateSecret bytes)

theorem hashes_append (cfg : Config) (steps more : List Step) :
    hashes cfg (steps ++ more) = hashes cfg steps ++ hashes cfg more := by
  simp only [hashes, List.filterMap_append, List.map_append]

/-- The hashes of the rows after a step are old, or of what the step draws. -/
theorem sublist_step (cfg : Config) (reg : Registry) (a : Step) :
    ((step cfg reg a).integrations.map Integration.credentialHash).Sublist
      (reg.integrations.map Integration.credentialHash ++ hashes cfg [a]) := by
  rcases integrations_step cfg reg a with
    ⟨-, heq⟩ | ⟨call, id, bytes, args, tenantId, rfl, -, -, heq⟩ | ⟨id, rfl, heq⟩
  · rw [heq]
    exact List.sublist_append_left _ _
  · rw [heq, List.map_append]
    exact List.Sublist.refl _
  · rw [heq, List.map_map]
    have hsame : Integration.credentialHash ∘ revoked reg.now id =
        Integration.credentialHash := by
      funext row
      exact revoked_credentialHash _ id
    rw [hsame]
    exact List.sublist_append_left _ _

theorem sublist_hashes (cfg : Config) (steps : List Step) :
    ((run cfg steps).integrations.map Integration.credentialHash).Sublist (hashes cfg steps) := by
  induction steps using List.reverseRecOn with
  | nil => exact List.Sublist.refl []
  | append_singleton steps a ih =>
    rw [run_concat, hashes_append]
    exact (sublist_step cfg (run cfg steps) a).trans (ih.append (List.Sublist.refl _))

/-- With no hash drawn twice a row of the join is found by its hash. -/
theorem table_eq_some_iff (hfresh : (hashes cfg steps).Nodup) {hash : String}
    {found : IntegrationRow} : (run cfg steps).table hash = some found ↔
      ∃ row ∈ (run cfg steps).integrations, row.credentialHash = hash ∧
        (run cfg steps).joined row = some found := by
  have hnodup := (sublist_hashes cfg steps).nodup hfresh
  constructor
  · intro h
    obtain ⟨row, hmem, hjoined⟩ := List.exists_of_findSome?_eq_some h
    obtain ⟨hmem, hhash⟩ := List.mem_filter.mp hmem
    exact ⟨row, hmem, of_decide_eq_true hhash, hjoined⟩
  · rintro ⟨row, hmem, hhash, hjoined⟩
    have hin : row ∈ (run cfg steps).integrations.filter fun row => row.credentialHash = hash :=
      List.mem_filter.mpr ⟨hmem, decide_eq_true hhash⟩
    cases htable : (run cfg steps).table hash with
    | none => exact absurd (List.findSome?_eq_none_iff.mp htable row hin) (by simp [hjoined])
    | some other =>
      obtain ⟨row', hmem', hjoined'⟩ := List.exists_of_findSome?_eq_some htable
      obtain ⟨hmem', hhash'⟩ := List.mem_filter.mp hmem'
      -- Two rows with the hash would have drawn it twice.
      have hsame : row' = row :=
        List.inj_on_of_nodup_map hnodup hmem' hmem ((of_decide_eq_true hhash').trans hhash.symm)
      rw [← hjoined', hsame, hjoined]

/-- `resolve` answers with a row of the table that is active. -/
theorem resolve_eq_some_iff {answers : Bool} {presented : String} {identity : ResolvedIdentity} :
    (run cfg steps).state.resolve cfg answers presented = some identity ↔ answers = true ∧
      ∃ found, (run cfg steps).table (cfg.hashSecret presented) = some found ∧
        found.status = .active ∧ found.identity = identity := by
  unfold State.resolve
  split
  · next hanswers =>
    simp only [hanswers, true_and, state]
    split
    · next found htable => simp [htable]
    · next htable => simp [htable]
  · next hanswers => simp [hanswers]

/-- Which secrets are accepted, and as whom: those of the rows that a call of `issue` inserted and
nobody has revoked since, under the present name of their environment. -/
theorem resolve_iff_stands (hfresh : (hashes cfg steps).Nodup) {presented : String}
    {identity : ResolvedIdentity} :
    (run cfg steps).state.resolve cfg true presented = some identity ↔
      ∃ row environment, Stands cfg steps row ∧
        row.credentialHash = cfg.hashSecret presented ∧
        (run cfg steps).environments row.environmentId = some environment ∧
        identity = ⟨row.tenantId, row.applicationId, environment.name, row.id⟩ := by
  rw [resolve_eq_some_iff]
  constructor
  · rintro ⟨-, found, htable, hactive, rfl⟩
    obtain ⟨row, hmem, hhash, hjoined⟩ := (table_eq_some_iff hfresh).mp htable
    obtain ⟨environment, henvironment, rfl⟩ := Option.map_eq_some_iff.mp hjoined
    exact ⟨row, environment, mem_active_iff.mp ⟨hmem, hactive⟩, hhash, henvironment, rfl⟩
  · rintro ⟨row, environment, hstands, hhash, henvironment, rfl⟩
    obtain ⟨hmem, hactive⟩ := mem_active_iff.mpr hstands
    refine ⟨rfl, ⟨_, row.status, row.revokedAt⟩, (table_eq_some_iff hfresh).mpr
      ⟨row, hmem, hhash, ?_⟩, hactive, rfl⟩
    rw [joined, henvironment, Option.map_some]

end Runs

/-- One call of `issue`, for an environment of the shop. -/
def shopArgs : IssueInput := ⟨"shop", "copilot", "shop-prod", none, none⟩

/-- The run of that call up to its insert. -/
def shopAdmitted : List Step :=
  [.putApplication "shop" ⟨"acme", "Shop", none⟩,
    .putEnvironment "shop-prod" ⟨"acme", "shop", "prod"⟩, .issue 0 shopArgs,
    .readApplication 0 true, .readEnvironment 0 true]

/-- That call, with its insert. -/
def shopIssued : List Step := shopAdmitted ++ [Step.insert 0 "c1" (Vector.replicate 32 0) true]

theorem nodup_hashes_shop : (hashes ⟨60, 5, id⟩ shopIssued).Nodup := List.nodup_singleton _

theorem resolve_iff_stands_shop : (run ⟨60, 5, id⟩ shopIssued).state.resolve ⟨60, 5, id⟩ true
    (generateSecret (Vector.replicate 32 0)) = some ⟨"acme", "shop", "prod", "c1"⟩ := by
  refine (resolve_iff_stands nodup_hashes_shop).mpr
    ⟨shopArgs.row ⟨60, 5, id⟩ "acme" "c1" (generateSecret (Vector.replicate 32 0)),
      ⟨"acme", "shop", "prod"⟩, ?_, rfl, rfl, rfl⟩
  exact ⟨shopAdmitted, 0, shopArgs, "acme", Vector.replicate 32 0, [], rfl, rfl,
    List.not_mem_nil, rfl, List.not_mem_nil⟩

/-- Whom a secret is accepted as was settled when it was issued, whatever other calls and writers
did in between: the tenant is the one that the application was under when the call read it, and
the environment belonged to the application when the call read that, both before the insert. -/
theorem resolve_admitted {cfg : Config} {steps : List Step} {answers : Bool} {presented : String}
    {identity : ResolvedIdentity}
    (h : (run cfg steps).state.resolve cfg answers presented = some identity) :
    ∃ before call args bytes after environment,
      steps = before ++ Step.insert call identity.integrationId bytes true :: after ∧
      Step.revoke identity.integrationId ∉ after ∧
      cfg.hashSecret (generateSecret bytes) = cfg.hashSecret presented ∧
      args.applicationId = identity.applicationId ∧
      Admitted cfg before call args identity.tenantId ∧
      (run cfg steps).environments args.environmentId = some environment ∧
      environment.name = identity.environment := by
  obtain ⟨-, found, htable, hactive, rfl⟩ := resolve_eq_some_iff.mp h
  obtain ⟨row, hfound, hjoined⟩ := List.exists_of_findSome?_eq_some htable
  obtain ⟨hmem, hhash⟩ := List.mem_filter.mp hfound
  obtain ⟨environment, henvironment, rfl⟩ := Option.map_eq_some_iff.mp hjoined
  obtain ⟨before, call, args, tenantId, bytes, after, hsteps, hcall, -, hrow, hafter⟩ :=
    mem_active_iff.mp ⟨hmem, hactive⟩
  have happlication : args.applicationId = row.applicationId := by rw [hrow]; rfl
  have htenant : tenantId = row.tenantId := by rw [hrow]; rfl
  have hbytes : cfg.hashSecret (generateSecret bytes) = row.credentialHash := by rw [hrow]; rfl
  have henvironmentId : args.environmentId = row.environmentId := by rw [hrow]; rfl
  exact ⟨before, call, args, bytes, after, environment, hsteps, hafter,
    hbytes.trans (of_decide_eq_true hhash), happlication, htenant ▸ admitted_run hcall,
    henvironmentId ▸ henvironment, rfl⟩

theorem resolve_admitted_shop : ∃ before call args bytes after environment,
    shopIssued = before ++ Step.insert call "c1" bytes true :: after ∧ Step.revoke "c1" ∉ after ∧
    generateSecret bytes = generateSecret (Vector.replicate 32 0) ∧
    args.applicationId = "shop" ∧ Admitted ⟨60, 5, id⟩ before call args "acme" ∧
    (run ⟨60, 5, id⟩ shopIssued).environments args.environmentId = some environment ∧
    environment.name = "prod" := by
  have htable : (run ⟨60, 5, id⟩ shopIssued).table (generateSecret (Vector.replicate 32 0)) =
      some ⟨⟨"acme", "shop", "prod", "c1"⟩, .active, none⟩ :=
    (table_eq_some_iff nodup_hashes_shop).mpr ⟨_, List.mem_cons_self, rfl, rfl⟩
  have hresolve : (run ⟨60, 5, id⟩ shopIssued).state.resolve ⟨60, 5, id⟩ true
      (generateSecret (Vector.replicate 32 0)) = some ⟨"acme", "shop", "prod", "c1"⟩ :=
    resolve_eq_some_iff.mpr ⟨rfl, _, htable, rfl, rfl⟩
  exact resolve_admitted hresolve

end Registry

end Resolve

end Governance
