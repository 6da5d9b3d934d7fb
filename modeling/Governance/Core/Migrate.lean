import Governance.Core.Schema

/-!
# Migrations and decommissioning

`governance-core/src/migrate.rs` with the `up.sql` of the five migrations, and the drop loop of
`governance-ctl`'s `decommission`. Tables are tracked by the recorded migrations, triggers by
their number alone, and `decommission` drops tables without touching either record.

Statements are modelled by the tables they create and the tables they need. Their columns are
left out: every migration runs once, on tables without rows.
-/

namespace Governance

namespace Migrate

/-- The tables of the schema; each of them carries `updated_at`. -/
inductive TableName where
  | applications
  | identityMaps
  | ingestManifests
  | integrations
  | tenants
  | environments
  | executions
  | modelCalls
  | toolCalls
  | modelPricing
  | copilotOrgDailys
  | copilotUserDailys
  | copilotRepoDailys
  | copilotUserTeams
  | copilotSeatSnapshots
  deriving DecidableEq

open TableName

/-- The entries of `migrations`. -/
inductive Migration where
  | init
  | integrationCredentialFields
  | environmentModel
  | telemetryModels
  | copilotUsageModels
  deriving DecidableEq

/-- The id of a migration. -/
def Migration.id : Migration → String
  | .init => "20260802000939_init"
  | .integrationCredentialFields => "20260802051051_integration_credential_fields"
  | .environmentModel => "20260802142154_environment_model"
  | .telemetryModels => "20260803000001_telemetry_models"
  | .copilotUsageModels => "20260804114257_copilot_usage_models"

/-- A statement of a migration: it creates a table, ties a table to one it references, or works
on tables that have to be there. -/
inductive Statement where
  | createTable (table : TableName)
  | addForeignKey (table references : TableName)
  | alterTable (table : TableName)
  | createIndex (table : TableName)
  | copyRows (tables : List TableName)
  deriving DecidableEq

open Statement

/-- The statements of the `up.sql` of a migration. -/
def Migration.up : Migration → List Statement
  | .init =>
    [createTable applications, createTable identityMaps, createTable ingestManifests,
      createTable integrations, createTable tenants, addForeignKey applications tenants,
      addForeignKey integrations applications, addForeignKey integrations tenants,
      addForeignKey identityMaps tenants, createIndex applications, createIndex identityMaps,
      createIndex ingestManifests]
  | .integrationCredentialFields =>
    [alterTable integrations, alterTable integrations, alterTable integrations]
  | .environmentModel =>
    [createTable environments, copyRows [environments, applications, integrations],
      alterTable integrations, copyRows [integrations, environments], alterTable integrations,
      alterTable applications, alterTable integrations, addForeignKey environments tenants,
      addForeignKey environments applications, addForeignKey integrations environments,
      createIndex applications, createIndex environments]
  | .telemetryModels =>
    [createTable executions, createTable modelCalls, createTable toolCalls,
      createTable modelPricing, addForeignKey modelCalls executions,
      addForeignKey toolCalls executions, createIndex executions, createIndex modelCalls,
      createIndex toolCalls, createIndex modelPricing, alterTable integrations]
  | .copilotUsageModels =>
    [createTable copilotOrgDailys, createTable copilotRepoDailys,
      createTable copilotSeatSnapshots, createTable copilotUserDailys,
      createTable copilotUserTeams, createIndex copilotOrgDailys, createIndex copilotUserDailys,
      createIndex copilotRepoDailys, createIndex copilotUserTeams,
      createIndex copilotSeatSnapshots]

/-- `migrations`. -/
def migrations : List Migration :=
  [.init, .integrationCredentialFields, .environmentModel, .telemetryModels, .copilotUsageModels]

/-- The catalog: the tables, their foreign keys, the tables that have their `touch_updated_at`
trigger, and what `cratestack_migrations` records. -/
structure Catalog where
  tables : Finset TableName
  foreignKeys : Finset (TableName × TableName)
  triggers : Finset TableName
  recorded : List Migration

/-- The empty database. -/
def Catalog.empty : Catalog := ⟨∅, ∅, ∅, []⟩

/-- A statement, or its failure. -/
def Statement.exec (db : Catalog) : Statement → Option Catalog
  | createTable table =>
    if table ∈ db.tables then none else some { db with tables := insert table db.tables }
  | addForeignKey table references =>
    if table ∈ db.tables ∧ references ∈ db.tables then
      some { db with foreignKeys := insert (table, references) db.foreignKeys }
    else none
  | alterTable table => if table ∈ db.tables then some db else none
  | createIndex table => if table ∈ db.tables then some db else none
  | copyRows tables => if ∀ table ∈ tables, table ∈ db.tables then some db else none

/-- The statements of one transaction. -/
def execAll (statements : List Statement) (db : Catalog) : Option Catalog :=
  statements.foldlM Statement.exec db

/-- `apply_pending`: every migration that is not recorded, each in a transaction with its record.
An attempt can end early, after some migrations. -/
def applyPending (limit : Option ℕ) :
    List Migration → Catalog → Except StorageError (List String) × Catalog
  | [], db => (.ok [], db)
  | m :: ms, db =>
    if m ∈ db.recorded then applyPending limit ms db
    else if limit = some 0 then (.error .other, db)
    else match execAll m.up db with
      | none => (.error .other, db)
      | some db' =>
        match applyPending (limit.map (· - 1)) ms
            { db' with recorded := db'.recorded ++ [m] } with
        | (.ok ids, db) => (.ok (m.id :: ids), db)
        | (.error e, db) => (.error e, db)

/-- A pair of statements of `TOUCH_UPDATED_AT`. Dropping a trigger that is not there, or on a
table that is not there, is a notice; creating one needs the table. -/
def reinstallTrigger (db : Catalog) (table : TableName) : Option Catalog :=
  if table ∈ db.tables then
    some { db with triggers := insert table (db.triggers.erase table) }
  else none

/-- The tables of `TOUCH_UPDATED_AT`, in its order. -/
def touchedTables : List TableName :=
  [applications, identityMaps, ingestManifests, integrations, tenants, environments, executions,
    modelCalls, toolCalls, modelPricing, copilotOrgDailys, copilotUserDailys, copilotRepoDailys,
    copilotUserTeams, copilotSeatSnapshots]

/-- `TOUCH_UPDATED_AT`, which PostgreSQL runs as one transaction. -/
def touchUpdatedAt (db : Catalog) : Option Catalog := touchedTables.foldlM reinstallTrigger db

/-- `EXPECTED_TOUCH_TRIGGERS`. -/
def expectedTouchTriggers : ℕ := 15

/-- `TRIGGERS_INSTALLED`. -/
def Catalog.triggersInstalled (db : Catalog) : ℕ := db.triggers.card

/-- Where an attempt to migrate is cut off. -/
inductive Fault where
  | lock
  | apply (limit : ℕ)
  | count
  | script
  | unlock
  deriving DecidableEq

/-- The number of migrations after which an attempt is cut off. -/
def applyLimit : Option Fault → Option ℕ
  | some (.apply limit) => some limit
  | _ => none

/-- The last statement of `run`. -/
def unlock (fault : Option Fault) (applied : List String) (db : Catalog) :
    Except StorageError (List String) × Catalog :=
  if fault = some .unlock then (.error .other, db) else (.ok applied, db)

/-- `run` from the count of the triggers on. -/
def installTriggers (fault : Option Fault) (applied : List String) (db : Catalog) :
    Except StorageError (List String) × Catalog :=
  if fault = some .count then (.error .other, db)
  else if db.triggersInstalled < expectedTouchTriggers then
    if fault = some .script then (.error .other, db)
    else match touchUpdatedAt db with
      | none => (.error .other, db)
      | some db' => unlock fault applied db'
  else unlock fault applied db

/-- `run`. -/
def run (fault : Option Fault) (db : Catalog) : Except StorageError (List String) × Catalog :=
  if fault = some .lock then (.error .other, db)
  else match applyPending (applyLimit fault) migrations db with
    | (.error e, db) => (.error e, db)
    | (.ok applied, db) => installTriggers fault applied db

/-! ## Decommissioning -/

/-- `COPILOT_DAY_TABLES`. -/
def copilotDayTables : List TableName :=
  [copilotOrgDailys, copilotUserDailys, copilotRepoDailys, copilotSeatSnapshots]

/-- `SHARED_TABLES`. -/
def sharedTables : List TableName := [modelCalls, toolCalls, executions]

/-- `DROP TABLE IF EXISTS`: a table that another one references is not dropped, and the triggers
and foreign keys of a table go with it. -/
def dropTable (db : Catalog) (table : TableName) : Option Catalog :=
  if table ∈ db.tables then
    if ∃ fk ∈ db.foreignKeys, fk.2 = table ∧ fk.1 ≠ table then none
    else some
      { db with
        tables := db.tables.erase table
        foreignKeys := db.foreignKeys.filter fun fk => fk.1 ≠ table
        triggers := db.triggers.erase table }
  else some db

/-- A call of `decommission`: its arguments, the freeze switch, what the verification of the
archive says, and whether the transaction goes through. -/
structure Decommission where
  confirm : Bool
  freezeWrites : Bool
  verified : Bool
  includeSharedTables : Bool
  committed : Bool

/-- The tables that a call drops, in order. -/
def Decommission.dropped (call : Decommission) : List TableName :=
  copilotDayTables ++ if call.includeSharedTables then sharedTables else []

/-- `decommission`. Verification reads `ingest_manifests`. -/
def decommission (call : Decommission) (db : Catalog) : Option (List TableName) × Catalog :=
  if call.confirm ∧ ¬ call.freezeWrites ∧ ingestManifests ∈ db.tables ∧ call.verified then
    match call.dropped.foldlM dropTable db with
    | none => (none, db)
    | some db' => if call.committed then (some call.dropped, db') else (none, db)
  else (none, db)

/-- What an operator can do. -/
inductive Operation where
  | migrate (fault : Option Fault)
  | decommission (call : Decommission)

def Operation.perform (db : Catalog) : Operation → Catalog
  | .migrate fault => (run fault db).2
  | .decommission call => (Migrate.decommission call db).2

/-- The database after some operations. -/
def operations (ops : List Operation) : Catalog := ops.foldl Operation.perform Catalog.empty

/-! ## What a statement changes -/

/-- The migration that creates a table. -/
def TableName.creator : TableName → Migration
  | applications => .init
  | identityMaps => .init
  | ingestManifests => .init
  | integrations => .init
  | tenants => .init
  | environments => .environmentModel
  | executions => .telemetryModels
  | modelCalls => .telemetryModels
  | toolCalls => .telemetryModels
  | modelPricing => .telemetryModels
  | copilotOrgDailys => .copilotUsageModels
  | copilotUserDailys => .copilotUsageModels
  | copilotRepoDailys => .copilotUsageModels
  | copilotUserTeams => .copilotUsageModels
  | copilotSeatSnapshots => .copilotUsageModels

theorem createTable_mem_up {m : Migration} {t : TableName} :
    createTable t ∈ m.up ↔ t.creator = m := by
  cases m <;> cases t <;> decide

theorem mem_migrations (m : Migration) : m ∈ migrations := by
  cases m <;> decide

theorem mem_touchedTables (t : TableName) : t ∈ touchedTables := by
  cases t <;> decide

theorem exec_some {db db' : Catalog} {st : Statement} (h : st.exec db = some db') :
    (∀ t, t ∈ db'.tables ↔ t ∈ db.tables ∨ createTable t = st) ∧ db'.triggers = db.triggers ∧
      db'.recorded = db.recorded := by
  cases st with
  | createTable table =>
    simp only [Statement.exec] at h
    split at h
    · cases h
    · obtain rfl := Option.some.inj h
      refine ⟨fun t => ?_, rfl, rfl⟩
      rw [Finset.mem_insert, or_comm, createTable.injEq]
  | addForeignKey table references =>
    simp only [Statement.exec] at h
    split at h
    · obtain rfl := Option.some.inj h
      exact ⟨fun t => by simp, rfl, rfl⟩
    · cases h
  | _ =>
    simp only [Statement.exec] at h
    split at h
    · obtain rfl := Option.some.inj h
      exact ⟨fun t => by simp, rfl, rfl⟩
    · cases h

theorem execAll_some {statements : List Statement} {db db' : Catalog}
    (h : execAll statements db = some db') :
    (∀ t, t ∈ db'.tables ↔ t ∈ db.tables ∨ createTable t ∈ statements) ∧
      db'.triggers = db.triggers ∧ db'.recorded = db.recorded := by
  induction statements generalizing db with
  | nil =>
    obtain rfl := Option.some.inj h
    exact ⟨fun t => by simp, rfl, rfl⟩
  | cons st statements ih =>
    obtain ⟨db₁, hst, hrest⟩ := Option.bind_eq_some_iff.mp h
    obtain ⟨htables, htriggers, hrecorded⟩ := exec_some hst
    obtain ⟨htables', htriggers', hrecorded'⟩ := ih hrest
    refine ⟨fun t => ?_, htriggers'.trans htriggers, hrecorded'.trans hrecorded⟩
    rw [htables', htables, or_assoc, List.mem_cons]

/-- Which statements run on some tables. -/
def admits : List Statement → List TableName → Bool
  | [], _ => true
  | st :: statements, tables =>
    match st with
    | createTable table => table ∉ tables && admits statements (table :: tables)
    | addForeignKey table references =>
      (table ∈ tables && references ∈ tables) && admits statements tables
    | alterTable table => table ∈ tables && admits statements tables
    | createIndex table => table ∈ tables && admits statements tables
    | copyRows copied => copied.all (· ∈ tables) && admits statements tables

/-- Statements that run on some tables run on a database that has just these. -/
theorem execAll_of_admits {statements : List Statement} {tables : List TableName} {db : Catalog}
    (hadmits : admits statements tables) (htables : ∀ t, t ∈ db.tables ↔ t ∈ tables) :
    ∃ db', execAll statements db = some db' := by
  induction statements generalizing tables db with
  | nil => exact ⟨db, rfl⟩
  | cons st statements ih =>
    have hstep {db₁ : Catalog} {tables₁ : List TableName} (hst : st.exec db = some db₁)
        (hrest : admits statements tables₁) (htables₁ : ∀ t, t ∈ db₁.tables ↔ t ∈ tables₁) :
        ∃ db', execAll (st :: statements) db = some db' := by
      obtain ⟨db', hdb'⟩ := ih hrest htables₁
      exact ⟨db', Option.bind_eq_some_iff.mpr ⟨db₁, hst, hdb'⟩⟩
    cases st with
    | createTable table =>
      simp only [admits, Bool.and_eq_true, decide_eq_true_eq] at hadmits
      refine hstep (if_neg ((htables table).not.mpr hadmits.1)) hadmits.2 fun t => ?_
      rw [Finset.mem_insert, List.mem_cons, htables]
    | addForeignKey table references =>
      simp only [admits, Bool.and_eq_true, decide_eq_true_eq] at hadmits
      refine hstep (if_pos ⟨?_, ?_⟩) hadmits.2 htables
      · exact (htables table).mpr hadmits.1.1
      · exact (htables references).mpr hadmits.1.2
    | alterTable table =>
      simp only [admits, Bool.and_eq_true, decide_eq_true_eq] at hadmits
      exact hstep (if_pos ((htables table).mpr hadmits.1)) hadmits.2 htables
    | createIndex table =>
      simp only [admits, Bool.and_eq_true, decide_eq_true_eq] at hadmits
      exact hstep (if_pos ((htables table).mpr hadmits.1)) hadmits.2 htables
    | copyRows copied =>
      simp only [admits, Bool.and_eq_true, List.all_eq_true, decide_eq_true_eq] at hadmits
      exact hstep (if_pos fun t ht => (htables t).mpr (hadmits.1 t ht)) hadmits.2 htables

/-! ## What holds of every database -/

/-- Migrations are recorded in their order, and what is there was created by a recorded one. -/
structure Consistent (db : Catalog) : Prop where
  ordered : db.recorded <+: migrations
  owned : ∀ t ∈ db.tables, t.creator ∈ db.recorded
  triggered : db.triggers ⊆ db.tables

/-- Every table of a recorded migration is there. -/
def Complete (db : Catalog) : Prop :=
  ∀ m ∈ db.recorded, ∀ t, createTable t ∈ m.up → t ∈ db.tables

/-- The catalog with one more migration applied and recorded. -/
theorem Consistent.record {db db' : Catalog} (h : Consistent db) {m : Migration}
    {rest : List Migration} (hrest : db.recorded ++ m :: rest = migrations)
    (hexec : execAll m.up db = some db') :
    Consistent { db' with recorded := db'.recorded ++ [m] } := by
  obtain ⟨htables, htriggers, hrecorded⟩ := execAll_some hexec
  refine ⟨⟨rest, ?_⟩, ?_, ?_⟩
  · dsimp only
    rw [hrecorded, List.append_assoc, List.singleton_append, hrest]
  · intro t ht
    dsimp only
    rw [hrecorded, List.mem_append, List.mem_singleton]
    rcases (htables t).mp ht with hold | hnew
    · exact .inl (h.owned t hold)
    · exact .inr (createTable_mem_up.1 hnew)
  · intro t ht
    rw [htriggers] at ht
    exact (htables t).mpr (.inl (h.triggered ht))

/-- Recorded migrations are passed over. -/
theorem applyPending_recorded {limit : Option ℕ} {db : Catalog} {before : List Migration}
    (rest : List Migration) (h : ∀ m ∈ before, m ∈ db.recorded) :
    applyPending limit (before ++ rest) db = applyPending limit rest db := by
  induction before with
  | nil => rfl
  | cons m before ih =>
    rw [List.cons_append, applyPending, if_pos (h m List.mem_cons_self),
      ih fun m' hm' => h m' (List.mem_cons_of_mem _ hm')]

theorem notMem_recorded {db : Catalog} {m : Migration} {rest : List Migration}
    (hrest : db.recorded ++ m :: rest = migrations) : m ∉ db.recorded := by
  have hnodup : migrations.Nodup := by decide
  rw [← hrest, List.nodup_append] at hnodup
  intro hm
  exact hnodup.2.2 m hm m List.mem_cons_self rfl

/-- `apply_pending` on what is pending: the catalog stays consistent, a success leaves nothing
pending, and no table of a recorded migration comes back. -/
theorem applyPending_keeps (limit : Option ℕ) {rest : List Migration} {db : Catalog}
    (h : Consistent db) (hrest : db.recorded ++ rest = migrations) :
    Consistent (applyPending limit rest db).2 ∧
      (∀ t, t.creator ∈ db.recorded → t ∈ (applyPending limit rest db).2.tables → t ∈ db.tables) ∧
      ∀ ids, (applyPending limit rest db).1 = .ok ids →
        (applyPending limit rest db).2.recorded = migrations := by
  induction rest generalizing limit db with
  | nil =>
    rw [List.append_nil] at hrest
    exact ⟨h, fun _ _ ht => ht, fun _ _ => hrest⟩
  | cons m rest ih =>
    have hnew := notMem_recorded hrest
    rw [applyPending, if_neg hnew]
    split
    · exact ⟨h, fun _ _ ht => ht, fun ids hids => by cases hids⟩
    · split
      · exact ⟨h, fun _ _ ht => ht, fun ids hids => by cases hids⟩
      · next db' hexec =>
        obtain ⟨htables, -, hrecorded⟩ := execAll_some hexec
        have hnext : (db'.recorded ++ [m]) ++ rest = migrations := by
          rw [hrecorded, List.append_assoc, List.singleton_append, hrest]
        obtain ⟨hcons, hback, hall⟩ := ih (limit.map (· - 1)) (h.record hrest hexec) hnext
        -- A table of a recorded migration is none of this migration's.
        have hback' : ∀ t, t.creator ∈ db.recorded →
            t ∈ (applyPending (limit.map (· - 1)) rest
              { db' with recorded := db'.recorded ++ [m] }).2.tables → t ∈ db.tables := by
          intro t ht hmem
          have hlater : t.creator ∈ db'.recorded ++ [m] := by
            rw [hrecorded]
            exact List.mem_append_left _ ht
          rcases (htables t).mp (hback t hlater hmem) with hold | hcreated
          · exact hold
          · rw [createTable_mem_up.1 hcreated] at ht
            exact absurd ht hnew
        split
        · next ids db₂ hpending =>
          rw [hpending] at hcons hback' hall
          exact ⟨hcons, hback', fun _ _ => hall ids rfl⟩
        · next e db₂ hpending =>
          rw [hpending] at hcons hback'
          exact ⟨hcons, hback', fun ids hids => by cases hids⟩

/-- The trigger script reinstalls the trigger of every table in its list, or fails at a table
that is not there. -/
theorem reinstall_some {tables : List TableName} {db db' : Catalog}
    (h : tables.foldlM reinstallTrigger db = some db') :
    (∀ t ∈ tables, t ∈ db.tables) ∧ db'.tables = db.tables ∧ db'.recorded = db.recorded ∧
      ∀ t, t ∈ db'.triggers ↔ t ∈ db.triggers ∨ t ∈ tables := by
  induction tables generalizing db with
  | nil =>
    obtain rfl := Option.some.inj h
    simp
  | cons table tables ih =>
    obtain ⟨db₁, hfirst, hrest⟩ := Option.bind_eq_some_iff.mp h
    unfold reinstallTrigger at hfirst
    split at hfirst
    · next hthere =>
      obtain rfl := Option.some.inj hfirst
      obtain ⟨hall, htables, hrecorded, htriggers⟩ := ih hrest
      refine ⟨?_, htables, hrecorded, fun t => ?_⟩
      · intro t ht
        rcases List.mem_cons.mp ht with rfl | ht
        · exact hthere
        · exact hall t ht
      · rw [htriggers, Finset.mem_insert, Finset.mem_erase, List.mem_cons]
        by_cases heq : t = table
        · simp [heq]
        · simp [heq]
    · cases hfirst

theorem exists_reinstall {tables : List TableName} (db : Catalog)
    (h : ∀ t ∈ tables, t ∈ db.tables) : ∃ db', tables.foldlM reinstallTrigger db = some db' := by
  induction tables generalizing db with
  | nil => exact ⟨db, rfl⟩
  | cons table tables ih =>
    obtain ⟨db', hdb'⟩ := ih { db with triggers := insert table (db.triggers.erase table) }
      fun t ht => h t (List.mem_cons_of_mem _ ht)
    refine ⟨db', Option.bind_eq_some_iff.mpr ⟨_, ?_, hdb'⟩⟩
    exact if_pos (h table List.mem_cons_self)

/-- The triggers are all installed if and only if there are as many as expected. -/
theorem triggersInstalled_iff {db : Catalog} :
    expectedTouchTriggers ≤ db.triggersInstalled ↔ ∀ t, t ∈ db.triggers := by
  have hcard : touchedTables.toFinset.card = expectedTouchTriggers := by decide
  have hsub : db.triggers ⊆ touchedTables.toFinset := fun t _ =>
    List.mem_toFinset.mpr (mem_touchedTables t)
  constructor
  · intro h t
    rw [← hcard] at h
    rw [Finset.eq_of_subset_of_card_le hsub h]
    exact List.mem_toFinset.mpr (mem_touchedTables t)
  · intro h
    rw [← hcard]
    exact Finset.card_le_card fun t _ => h t

/-- What is installed after the count stays within the tables, and a success without every
table is impossible. -/
theorem Consistent.installTriggers {db : Catalog} (h : Consistent db) (fault : Option Fault)
    (applied : List String) : Consistent (Migrate.installTriggers fault applied db).2 := by
  have hunlock {db : Catalog} (h : Consistent db) : Consistent (unlock fault applied db).2 := by
    unfold unlock
    split
    · exact h
    · exact h
  unfold Migrate.installTriggers
  split
  · exact h
  split
  · split
    · exact h
    · split
      · exact h
      · next db' hscript =>
        obtain ⟨hall, htables, hrecorded, htriggers⟩ := reinstall_some hscript
        refine hunlock ⟨hrecorded ▸ h.ordered, ?_, ?_⟩
        · rw [htables, hrecorded]
          exact h.owned
        · intro t ht
          rw [htables]
          exact hall t (mem_touchedTables t)
  · exact hunlock h

theorem Consistent.run {db : Catalog} (h : Consistent db) (fault : Option Fault) :
    Consistent (Migrate.run fault db).2 := by
  obtain ⟨rest, hrest⟩ := h.ordered
  have hpending (limit : Option ℕ) : Consistent (applyPending limit migrations db).2 := by
    rw [← hrest, applyPending_recorded rest fun _ hm => hm]
    exact (applyPending_keeps limit h hrest).1
  unfold Migrate.run
  split
  · exact h
  · have hcons := hpending (applyLimit fault)
    split
    · next e db' happly =>
      rw [happly] at hcons
      exact hcons
    · next applied db' happly =>
      rw [happly] at hcons
      exact hcons.installTriggers fault applied

theorem Consistent.dropTable {db db' : Catalog} (h : Consistent db) {table : TableName}
    (hdrop : Migrate.dropTable db table = some db') : Consistent db' := by
  unfold Migrate.dropTable at hdrop
  split at hdrop
  · split at hdrop
    · cases hdrop
    · obtain rfl := Option.some.inj hdrop
      refine ⟨h.ordered, ?_, ?_⟩
      · intro t ht
        exact h.owned t (Finset.mem_of_mem_erase ht)
      · exact Finset.erase_subset_erase table h.triggered
  · obtain rfl := Option.some.inj hdrop
    exact h

theorem Consistent.dropAll {tables : List TableName} {db db' : Catalog} (h : Consistent db)
    (hdrop : tables.foldlM Migrate.dropTable db = some db') : Consistent db' := by
  induction tables generalizing db with
  | nil =>
    obtain rfl := Option.some.inj hdrop
    exact h
  | cons table tables ih =>
    obtain ⟨db₁, hfirst, hrest⟩ := Option.bind_eq_some_iff.mp hdrop
    exact ih (h.dropTable hfirst) hrest

theorem Consistent.perform {db : Catalog} (h : Consistent db) (op : Operation) :
    Consistent (op.perform db) := by
  cases op with
  | migrate fault => exact h.run fault
  | decommission call =>
    simp only [Operation.perform, Migrate.decommission]
    split
    · split
      · exact h
      · next db' hdrop =>
        split
        · exact h.dropAll hdrop
        · exact h
    · exact h

theorem consistent_operations (ops : List Operation) : Consistent (operations ops) := by
  have hrun (db : Catalog) (h : Consistent db) : Consistent (ops.foldl Operation.perform db) := by
    induction ops generalizing db with
    | nil => exact h
    | cons op ops ih => exact ih _ (h.perform op)
  refine hrun _ ⟨List.nil_prefix, ?_, ?_⟩
  · intro t ht
    cases ht
  · exact Finset.Subset.refl _

/-! ## Running the migrations again -/

/-- The tables that some migrations create. -/
def createdBy (ms : List Migration) : List TableName := touchedTables.filter (·.creator ∈ ms)

theorem mem_createdBy {ms : List Migration} {t : TableName} :
    t ∈ createdBy ms ↔ t.creator ∈ ms := by
  simp [createdBy, mem_touchedTables]

/-- Each migration runs on the tables of those before it. -/
theorem admits_next {before rest : List Migration} {m : Migration}
    (h : before ++ m :: rest = migrations) : admits m.up (createdBy before) := by
  have hall : ∀ i < 5, ∀ m ∈ migrations[i]?, admits m.up (createdBy (migrations.take i)) := by
    decide
  have hlen : before.length < 5 := by
    have hlength := congrArg List.length h
    simp only [List.length_append, List.length_cons, migrations] at hlength
    simp at hlength
    omega
  have hm : m ∈ migrations[before.length]? := by
    rw [← h]
    simp
  have htake : migrations.take before.length = before := by
    rw [← h]
    simp
  have hadmits := hall before.length hlen m hm
  rwa [htake] at hadmits

/-- From a complete catalog everything that is pending is applied. -/
theorem applyPending_complete {rest : List Migration} {db : Catalog} (h : Consistent db)
    (hcomplete : Complete db) (hrest : db.recorded ++ rest = migrations) :
    ∃ ids db', applyPending none rest db = (.ok ids, db') ∧ Complete db' ∧
      db'.recorded = migrations := by
  induction rest generalizing db with
  | nil =>
    rw [List.append_nil] at hrest
    exact ⟨[], db, rfl, hcomplete, hrest⟩
  | cons m rest ih =>
    have htables : ∀ t, t ∈ db.tables ↔ t ∈ createdBy db.recorded := by
      intro t
      rw [mem_createdBy]
      constructor
      · exact h.owned t
      · intro ht
        exact hcomplete _ ht t (createTable_mem_up.2 rfl)
    obtain ⟨db', hexec⟩ := execAll_of_admits (admits_next hrest) htables
    obtain ⟨hafter, -, hrecorded⟩ := execAll_some hexec
    have hcomplete' : Complete { db' with recorded := db'.recorded ++ [m] } := by
      intro m' hm' t ht
      rw [hrecorded, List.mem_append, List.mem_singleton] at hm'
      rcases hm' with hold | rfl
      · exact (hafter t).mpr (.inl (hcomplete m' hold t ht))
      · exact (hafter t).mpr (.inr ht)
    have hnext : (db'.recorded ++ [m]) ++ rest = migrations := by
      rw [hrecorded, List.append_assoc, List.singleton_append, hrest]
    obtain ⟨ids, db₂, happly, hend⟩ := ih (h.record hrest hexec) hcomplete' hnext
    refine ⟨m.id :: ids, db₂, ?_, hend⟩
    rw [applyPending, if_neg (notMem_recorded hrest), if_neg (by simp), hexec]
    simp only [Option.map_none, happly]

/-- In every database that migrations, decommissioning and cut-off attempts of either can leave,
running the migrations succeeds and leaves every table with its trigger if and only if every
table of a recorded migration is still there. -/
theorem migrate_reruns_iff (ops : List Operation) :
    (∃ applied db', run none (operations ops) = (.ok applied, db') ∧
        ∀ t ∈ db'.tables, t ∈ db'.triggers) ↔
      Complete (operations ops) := by
  have h := consistent_operations ops
  obtain ⟨rest, hrest⟩ := h.ordered
  have hskip : applyPending none migrations (operations ops) =
      applyPending none rest (operations ops) := by
    rw [← hrest, applyPending_recorded rest fun _ hm => hm]
  have hlimit : applyLimit none = none := rfl
  constructor
  · rintro ⟨applied, db', hrun, -⟩ m hm t hcreated
    by_contra hmissing
    obtain ⟨hcons, hback, -⟩ := applyPending_keeps none h hrest
    simp only [run, reduceCtorEq, if_false, hlimit, hskip] at hrun
    split at hrun
    · cases (Prod.mk.inj hrun).1
    · next ids db₁ happly =>
      rw [happly] at hcons hback
      have hgone : t ∉ db₁.tables := fun ht =>
        hmissing (hback t (createTable_mem_up.1 hcreated ▸ hm) ht)
      -- Its trigger is missing too, so the script runs, and fails at the table.
      have hfew : db₁.triggersInstalled < expectedTouchTriggers := by
        by_contra hmany
        exact hgone (hcons.triggered (triggersInstalled_iff.1 (not_lt.mp hmany) t))
      simp only [installTriggers, reduceCtorEq, if_false, if_pos hfew] at hrun
      split at hrun
      · cases (Prod.mk.inj hrun).1
      · next db₂ hscript => exact hgone ((reinstall_some hscript).1 t (mem_touchedTables t))
  · intro hcomplete
    obtain ⟨ids, db₁, happly, hcomplete₁, hrecorded⟩ := applyPending_complete h hcomplete hrest
    have hall : ∀ t, t ∈ db₁.tables := fun t =>
      hcomplete₁ t.creator (hrecorded ▸ mem_migrations _) t (createTable_mem_up.2 rfl)
    simp only [run, reduceCtorEq, if_false, hlimit, hskip, happly, installTriggers]
    by_cases hfew : db₁.triggersInstalled < expectedTouchTriggers
    · obtain ⟨db₂, hscript⟩ := exists_reinstall db₁ fun t (_ : t ∈ touchedTables) => hall t
      obtain ⟨-, -, -, htriggers⟩ := reinstall_some hscript
      refine ⟨ids, db₂, ?_, fun t _ => (htriggers t).mpr (.inr (mem_touchedTables t))⟩
      rw [if_pos hfew, touchUpdatedAt, hscript]
      rfl
    · refine ⟨ids, db₁, ?_, fun t _ => triggersInstalled_iff.1 (not_lt.mp hfew) t⟩
      rw [if_neg hfew]
      rfl

/-- A verified decommissioning of the Copilot tables. -/
def dropCopilotTables : Decommission := ⟨true, false, true, false, true⟩

/-- After a migration and a decommissioning the migrations cannot be run again. -/
theorem decommission_blocks_migrate :
    (run none Catalog.empty).1 = .ok (migrations.map Migration.id) ∧
      (decommission dropCopilotTables (operations [.migrate none])).1 = some copilotDayTables ∧
      (run none (operations [.migrate none, .decommission dropCopilotTables])).1 =
        .error .other := by
  decide +kernel

end Migrate

end Governance
