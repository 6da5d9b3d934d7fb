import Governance.Core.Schema

/-!
# The identity directory

`identity.rs`: the identity bound to an integration, the live mismatch check, the directory
sync, and the mapping that `verify_attribution` resolves for a stored execution.
-/

namespace Governance

/-- `get_integration_identity`. -/
def getIntegrationIdentity (integrations : List Integration) (tenantId integrationId : String) :
    Option String :=
  (integrations.find? fun r => r.id = integrationId ∧ r.tenantId = tenantId).bind
    Integration.internalUserId

namespace IdentityMap

/-- `ORDER BY valid_from DESC`. -/
def orderByValidFromDesc (rows : List IdentityMap) : List IdentityMap :=
  rows.insertionSort fun a b => b.validFrom ≤ a.validFrom

/-- The row decoded as `(String, String)`: a null `internal_user_id` is a decode error. -/
def decode (r : IdentityMap) : Except CoreError (String × String) :=
  match r.internalUserId with
  | some user => .ok (r.providerUserId, user)
  | none => .error (.storage .decode)

end IdentityMap

open IdentityMap

/-- The rows fetched into a `HashMap` with `entry(..).or_insert(..)`: the first of a key stays. -/
def firstOf (rows : List (String × String)) (providerUserId : String) : Option String :=
  (rows.find? fun r => r.1 = providerUserId).map Prod.snd

/-- `check_email_mismatches`, with whether the query failed. -/
def checkEmailMismatches (identityMaps : Table IdentityMap.index) (queryFails : Bool) (now : ℤ)
    (tenantId provider : String) (tokenUserId : Option String)
    (payloadEmails : List (Option String)) : Option String × List Bool × Bool :=
  let uniqueEmails := (payloadEmails.filterMap id).dedup
  let queried : Except CoreError (List (String × String)) :=
    if uniqueEmails = [] then .ok []
    else if queryFails then .error (.storage .other)
    else
      (orderByValidFromDesc (identityMaps.rows.filter fun r => r.tenantId = tenantId ∧
        r.provider = provider ∧ r.providerUserId ∈ uniqueEmails ∧
        r.validTo.all fun t => now < t)).mapM decode
  let (emailMappings, queryFailed) :=
    match queried with
    | .ok rows => (rows, false)
    | .error _ => ([], true)
  let mismatches := payloadEmails.map fun email? =>
    match tokenUserId, email? with
    | some tokenId, some email => (firstOf emailMappings email).any fun mapped => mapped ≠ tokenId
    | _, _ => false
  (tokenUserId, mismatches, queryFailed)

/-! ## The directory sync -/

/-- `DirectoryEntry`. -/
structure DirectoryEntry where
  providerUserId : String
  internalUserId : String
  deriving DecidableEq

/-- `IdentitySyncReport`. -/
structure IdentitySyncReport where
  inserted : ℕ
  repointed : ℕ
  unchanged : ℕ
  deriving DecidableEq

/-- What one sync runs with: its arguments, the transaction's `now()`, the ids that `cuid2`
draws, the tenants that the foreign key finds, and the database failure that it meets, if any. -/
structure SyncCall where
  tenantId : String
  provider : String
  entries : List DirectoryEntry
  now : ℤ
  cuid : ℕ → String
  tenants : List String
  fault : Option StorageError

namespace SyncCall

/-- The row inserted for the entry number `n`. -/
def directoryRow (c : SyncCall) (n : ℕ) (entry : DirectoryEntry) : IdentityMap where
  id := "idmap-" ++ c.cuid n
  tenantId := c.tenantId
  provider := c.provider
  providerUserId := entry.providerUserId
  internalUserId := some entry.internalUserId
  mappingSource := "key_directory"
  validFrom := c.now
  validTo := none

/-- `insert_identity_map`. -/
def insertIdentityMap (c : SyncCall) (n : ℕ) (entry : DirectoryEntry)
    (maps : Table IdentityMap.index) : Except CoreError (Table IdentityMap.index) :=
  match maps.insert (c.directoryRow n entry) with
  | none => .error (.storage .uniqueViolation)
  | some maps' =>
    if c.tenantId ∈ c.tenants then .ok maps' else .error (.storage .foreignKeyViolation)

/-- The row as `close_active_identity_map` leaves it. -/
def closeRow (c : SyncCall) (providerUserId : String) (r : IdentityMap) : IdentityMap :=
  if r.tenantId = c.tenantId ∧ r.provider = c.provider ∧ r.providerUserId = providerUserId ∧
      r.validTo = none then
    { r with validTo := some c.now }
  else r

/-- `close_active_identity_map`. -/
def closeActiveIdentityMap (c : SyncCall) (providerUserId : String)
    (maps : Table IdentityMap.index) : Table IdentityMap.index :=
  maps.update (c.closeRow providerUserId)
    (fun r => by unfold closeRow; split <;> rfl) (fun r => by unfold closeRow; split <;> rfl)

/-- The loop over the entries, against the mappings that were active when it began. -/
def syncEntries (c : SyncCall) (active : List (String × String)) :
    ℕ → List DirectoryEntry → Table IdentityMap.index × IdentitySyncReport →
      Except CoreError (Table IdentityMap.index × IdentitySyncReport)
  | _, [], state => .ok state
  | n, entry :: entries, (maps, report) =>
    match firstOf active entry.providerUserId with
    | none => do
      let maps ← c.insertIdentityMap n entry maps
      c.syncEntries active (n + 1) entries
        (maps, { report with inserted := report.inserted + 1 })
    | some current =>
      if current = entry.internalUserId then
        c.syncEntries active (n + 1) entries
          (maps, { report with unchanged := report.unchanged + 1 })
      else do
        let maps ← c.insertIdentityMap n entry
          (c.closeActiveIdentityMap entry.providerUserId maps)
        c.syncEntries active (n + 1) entries
          (maps, { report with repointed := report.repointed + 1 })

/-- The transaction of `sync_identity_directory`. -/
def transaction (c : SyncCall) (maps : Table IdentityMap.index) :
    Except CoreError (Table IdentityMap.index × IdentitySyncReport) := do
  let activeRows ← (orderByValidFromDesc (maps.rows.filter fun r => r.tenantId = c.tenantId ∧
    r.provider = c.provider ∧ r.validTo = none)).mapM decode
  c.syncEntries activeRows 0 c.entries (maps, ⟨0, 0, 0⟩)

/-- `sync_identity_directory`: an error rolls the transaction back. -/
def syncIdentityDirectory (c : SyncCall)
    (maps : Table IdentityMap.index) :
    Except CoreError IdentitySyncReport × Table IdentityMap.index :=
  match c.fault with
  | some e => (.error (.storage e), maps)
  | none =>
    match c.transaction maps with
    | .ok (maps', report) => (.ok report, maps')
    | .error e => (.error e, maps)

/-- The table after a sequence of syncs. -/
def runs (maps : Table IdentityMap.index) : List SyncCall → Table IdentityMap.index
  | [] => maps
  | c :: calls => runs (c.syncIdentityDirectory maps).2 calls

end SyncCall

/-! ## Attribution of stored executions -/

/-- The condition of the subquery of `verify_attribution`: validity is closed at `valid_from`
and open at `valid_to`. -/
def IdentityMap.validFor (e : Execution) (email : String) (r : IdentityMap) : Bool :=
  r.tenantId = e.tenantId && r.provider = e.provider && r.providerUserId = email &&
    r.validFrom ≤ e.startedAt && r.validTo.all fun t => e.startedAt < t

/-- The mapping that `verify_attribution` resolves for an execution. -/
def resolveMapping (maps : Table IdentityMap.index) (e : Execution) : Option IdentityMap :=
  e.userEmail.bind fun email =>
    (orderByValidFromDesc (maps.rows.filter (validFor e email))).head?

/-- The filter of the `mismatched` count: a comparison with null is not true. -/
def mismatched (maps : Table IdentityMap.index) (e : Execution) : Bool :=
  e.userEmail.isSome &&
    match e.internalUserId, (resolveMapping maps e).bind IdentityMap.internalUserId with
    | some user, some mapped => user ≠ mapped
    | _, _ => false

/-- `ProviderAttribution`. -/
structure ProviderAttribution where
  provider : String
  attributed : ℕ
  unattributed : ℕ
  mismatched : ℕ
  deriving DecidableEq

/-- `verify_attribution`. -/
def verifyAttribution (executions : List Execution) (maps : Table IdentityMap.index)
    (tenantId : String) : List ProviderAttribution :=
  let rows := executions.filter fun e => e.tenantId = tenantId
  ((rows.map Execution.provider).dedup.insertionSort (· ≤ ·)).map fun provider =>
    let group := rows.filter fun e => e.provider = provider
    { provider := provider
      attributed := group.countP fun e => e.internalUserId.isSome
      unattributed := group.countP fun e => e.internalUserId.isNone
      mismatched := group.countP (Governance.mismatched maps) }

/-! ## A sync leaves the past alone -/

/-- A mapping apart from the end of its validity. -/
def IdentityMap.openEnded (r : IdentityMap) : IdentityMap := { r with validTo := none }

/-- The mappings valid for an execution, apart from when they end. -/
def pastMappings (e : Execution) (email : String) (maps : Table IdentityMap.index) :
    List IdentityMap :=
  (maps.rows.filter (validFor e email)).map openEnded

/-- What is resolved depends only on the mappings that were valid. -/
theorem resolveMapping_openEnded (maps : Table IdentityMap.index) (e : Execution) :
    (resolveMapping maps e).map openEnded =
      e.userEmail.bind fun email => (orderByValidFromDesc (pastMappings e email maps)).head? := by
  cases he : e.userEmail with
  | none => simp [resolveMapping, he]
  | some email =>
    simp only [resolveMapping, he, Option.bind_some, pastMappings, orderByValidFromDesc]
    rw [← List.map_insertionSort (fun a b : IdentityMap => b.validFrom ≤ a.validFrom)
      (fun a b : IdentityMap => b.validFrom ≤ a.validFrom) openEnded, List.head?_map]
    intro a _ b _
    rfl

/-- Two tables with the same past resolve an execution alike. -/
theorem resolveMapping_congr {maps maps' : Table IdentityMap.index} {e : Execution}
    (h : ∀ email, pastMappings e email maps' = pastMappings e email maps) :
    (resolveMapping maps' e).map openEnded = (resolveMapping maps e).map openEnded := by
  rw [resolveMapping_openEnded, resolveMapping_openEnded]
  congr 1
  funext email
  rw [h email]

namespace SyncCall

variable {c : SyncCall} {e : Execution} {email : String}

/-- A row that a sync closes was open for every earlier instant and still is. -/
theorem validFor_closeRow (h : e.startedAt < c.now) (providerUserId : String) (r : IdentityMap) :
    validFor e email (c.closeRow providerUserId r) = validFor e email r := by
  unfold closeRow
  split
  · next hr =>
    obtain ⟨-, -, -, hopen⟩ := hr
    simp [validFor, hopen, h]
  · rfl

theorem openEnded_closeRow (providerUserId : String) (r : IdentityMap) :
    (c.closeRow providerUserId r).openEnded = r.openEnded := by
  unfold closeRow
  split <;> rfl

theorem pastMappings_close (h : e.startedAt < c.now) (providerUserId : String)
    (maps : Table IdentityMap.index) :
    pastMappings e email (c.closeActiveIdentityMap providerUserId maps) =
      pastMappings e email maps := by
  simp only [pastMappings, closeActiveIdentityMap, Table.rows_update, List.filter_map,
    List.map_map]
  congr 1
  · funext r
    exact openEnded_closeRow providerUserId r
  · congr 1
    funext r
    exact validFor_closeRow h providerUserId r

/-- A row that a sync opens begins after every earlier instant. -/
theorem pastMappings_insert (h : e.startedAt < c.now) {n : ℕ} {entry : DirectoryEntry}
    {maps maps' : Table IdentityMap.index} (hins : c.insertIdentityMap n entry maps = .ok maps') :
    pastMappings e email maps' = pastMappings e email maps := by
  unfold insertIdentityMap at hins
  split at hins
  · cases hins
  · next maps'' hrow =>
    split at hins
    · obtain rfl := Except.ok.inj hins
      obtain ⟨-, -, hrows⟩ := Table.insert_eq_some.1 hrow
      have hlate : ¬ c.now ≤ e.startedAt := by omega
      simp [pastMappings, hrows, validFor, directoryRow, hlate]
    · cases hins

theorem pastMappings_syncEntries (h : e.startedAt < c.now) {active : List (String × String)}
    {entries : List DirectoryEntry} {n : ℕ} {maps maps' : Table IdentityMap.index}
    {report report' : IdentitySyncReport}
    (hrun : c.syncEntries active n entries (maps, report) = .ok (maps', report')) :
    pastMappings e email maps' = pastMappings e email maps := by
  induction entries generalizing n maps report with
  | nil =>
    obtain ⟨rfl, -⟩ := Prod.mk.inj (Except.ok.inj hrun)
    rfl
  | cons entry entries ih =>
    rw [syncEntries] at hrun
    split at hrun
    · cases hins : c.insertIdentityMap n entry maps with
      | error err => rw [hins] at hrun; cases hrun
      | ok maps₁ =>
        rw [hins] at hrun
        rw [ih hrun, pastMappings_insert h hins]
    · split at hrun
      · exact ih hrun
      · cases hins : c.insertIdentityMap n entry
            (c.closeActiveIdentityMap entry.providerUserId maps) with
        | error err => rw [hins] at hrun; cases hrun
        | ok maps₁ =>
          rw [hins] at hrun
          rw [ih hrun, pastMappings_insert h hins, pastMappings_close h]

/-- One sync, whatever its outcome, leaves the mappings of every earlier instant. -/
theorem pastMappings_sync (h : e.startedAt < c.now) (maps : Table IdentityMap.index) :
    pastMappings e email (c.syncIdentityDirectory maps).2 = pastMappings e email maps := by
  unfold syncIdentityDirectory
  split
  · rfl
  · split
    · next maps' report hrun =>
      cases hdec : ((orderByValidFromDesc (maps.rows.filter fun r => r.tenantId = c.tenantId ∧
          r.provider = c.provider ∧ r.validTo = none)).mapM decode) with
      | error err => rw [transaction, hdec] at hrun; cases hrun
      | ok active =>
        rw [transaction, hdec] at hrun
        exact pastMappings_syncEntries h hrun
    · rfl

theorem runs_append (maps : Table IdentityMap.index) (pre post : List SyncCall) :
    runs maps (pre ++ post) = runs (runs maps pre) post := by
  induction pre generalizing maps with
  | nil => rfl
  | cons c pre ih => exact ih _

/-- Syncs that all come later leave the mappings of an instant. -/
theorem pastMappings_runs {calls : List SyncCall} (h : ∀ c ∈ calls, e.startedAt < c.now)
    (maps : Table IdentityMap.index) :
    pastMappings e email (runs maps calls) = pastMappings e email maps := by
  induction calls generalizing maps with
  | nil => rfl
  | cons c calls ih =>
    rw [runs, ih fun c' hc' => h c' (List.mem_cons_of_mem _ hc')]
    exact pastMappings_sync (h c List.mem_cons_self) maps

/-- In every sequence of syncs at increasing times, the mapping resolved for an execution that
started before one of them is the same row before that sync, after it and after all that follow,
and so is whether the execution counts as mismatched. -/
theorem runs_keep_resolved (maps : Table IdentityMap.index) (pre : List SyncCall) (c : SyncCall)
    (post : List SyncCall) (hincr : (pre ++ c :: post).Pairwise fun a b => a.now < b.now)
    (e : Execution) (he : e.startedAt < c.now) :
    (resolveMapping (runs maps (pre ++ c :: post)) e).map openEnded =
        (resolveMapping (runs maps pre) e).map openEnded ∧
      mismatched (runs maps (pre ++ c :: post)) e = mismatched (runs maps pre) e := by
  have hlate : ∀ c' ∈ c :: post, e.startedAt < c'.now := by
    intro c' hc'
    rcases List.mem_cons.mp hc' with rfl | hpost
    · exact he
    · have hafter := (List.pairwise_append.mp hincr).2.1
      have := List.rel_of_pairwise_cons hafter hpost
      omega
  have hresolve : (resolveMapping (runs maps (pre ++ c :: post)) e).map openEnded =
      (resolveMapping (runs maps pre) e).map openEnded := by
    apply resolveMapping_congr
    intro email
    rw [runs_append, pastMappings_runs hlate]
  refine ⟨hresolve, ?_⟩
  -- The comparison reads the user of the resolved row, which an end of validity does not touch.
  have huser (o : Option IdentityMap) :
      o.bind IdentityMap.internalUserId = (o.map openEnded).bind IdentityMap.internalUserId := by
    cases o <;> rfl
  rw [mismatched, mismatched, huser, hresolve, ← huser]

/-- A sync of one principal at time `now`. -/
def pointing (user cuid : String) (now : ℤ) : SyncCall where
  tenantId := "acme"
  provider := "copilot"
  entries := [⟨"ada@acme.example", user⟩]
  now := now
  cuid := fun _ => cuid
  tenants := ["acme"]
  fault := none

/-- An execution of that principal at time 15. -/
def adaAt15 : Execution :=
  { id := "exec-1", tenantId := "acme", integrationId := "int-1", provider := "copilot"
    traceId := "t", spanId := "s", userEmail := some "ada@acme.example"
    internalUserId := some "u1", startedAt := 15, durationMs := 0
    estimatedCostMicroUsd := none, rawBackend := none, rawSchemaVersion := 1 }

/-- A principal mapped at 10 and pointed to another user at 20: an execution of time 15 resolves
to the first user before and after. -/
theorem runs_keep_resolved_repointed :
    ((resolveMapping (runs Table.empty [pointing "u1" "a" 10]) adaAt15).bind
        IdentityMap.internalUserId = some "u1") ∧
      (runs Table.empty [pointing "u1" "a" 10, pointing "u2" "b" 20]).rows.length = 2 ∧
      (resolveMapping (runs Table.empty [pointing "u1" "a" 10, pointing "u2" "b" 20])
          adaAt15).map openEnded =
        (resolveMapping (runs Table.empty [pointing "u1" "a" 10]) adaAt15).map openEnded :=
  ⟨by decide, by decide,
    (runs_keep_resolved Table.empty [pointing "u1" "a" 10] (pointing "u2" "b" 20) []
      (by decide) adaAt15 (by decide)).1⟩

end SyncCall

end Governance
