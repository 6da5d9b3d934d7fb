import Governance.Core.Directory
import Governance.Ingest.Batch

/-!
# The live and the historical mismatch check

The live check reads every mapping that has not ended, for all emails of a batch at once; the
historical one reads, for one execution, the mappings that had begun and had not ended. Where the
two count differently on executions that start when the live check runs.
-/

namespace Governance

open IdentityMap IngestCall

namespace MismatchCheck

/-- The mappings of a principal that have not ended at `now`. -/
def unexpired (maps : Table IdentityMap.index) (tenantId provider : String) (now : ℤ)
    (email : String) : List IdentityMap :=
  maps.rows.filter fun r => r.tenantId = tenantId ∧ r.provider = provider ∧
    r.providerUserId = email ∧ r.validTo.all fun t => now < t

/-- The mappings that have begun at `now`. -/
def begun (now : ℤ) (rows : List IdentityMap) : List IdentityMap :=
  rows.filter fun r => r.validFrom ≤ now

/-- Some mapping has not begun at `now`. -/
def NotYetValid (now : ℤ) (rows : List IdentityMap) : Prop := ∃ r ∈ rows, now < r.validFrom

instance (now : ℤ) (rows : List IdentityMap) : Decidable (NotYetValid now rows) :=
  inferInstanceAs (Decidable (∃ r ∈ rows, now < r.validFrom))

/-- Every mapping names a user. -/
def Readable (rows : List IdentityMap) : Prop := ∀ r ∈ rows, r.internalUserId.isSome

instance (rows : List IdentityMap) : Decidable (Readable rows) :=
  inferInstanceAs (Decidable (∀ r ∈ rows, r.internalUserId.isSome))

/-- A mapping names another user than the token. -/
def contradicts (tokenUserId : Option String) (mapping : Option IdentityMap) : Bool :=
  match tokenUserId, mapping.bind internalUserId with
  | some user, some mapped => user ≠ mapped
  | _, _ => false

variable {maps : Table IdentityMap.index} {tenantId provider : String} {now : ℤ}
  {tokenUserId : Option String} {emails : List (Option String)}

theorem begun_of_not_notYetValid {rows : List IdentityMap} (h : ¬ NotYetValid now rows) :
    begun now rows = rows := by
  rw [begun, List.filter_eq_self]
  intro r hr
  simpa using not_lt.mp fun hlate => h ⟨r, hr, hlate⟩

/-! ## The live check -/

/-- The rows of the batched query. -/
def queriedRows (maps : Table IdentityMap.index) (tenantId provider : String) (now : ℤ)
    (emails : List (Option String)) : List IdentityMap :=
  maps.rows.filter fun r => r.tenantId = tenantId ∧ r.provider = provider ∧
    r.providerUserId ∈ (emails.filterMap id).dedup ∧ r.validTo.all fun t => now < t

theorem readable_queriedRows_iff :
    Readable (queriedRows maps tenantId provider now emails) ↔
      ∀ email ∈ emails.filterMap id, Readable (unexpired maps tenantId provider now email) := by
  simp only [Readable, queriedRows, unexpired, List.mem_filter, List.mem_dedup, decide_eq_true_eq]
  constructor
  · rintro h email hemail r ⟨hr, htenant, hprovider, rfl, hto⟩
    exact h r ⟨hr, htenant, hprovider, hemail, hto⟩
  · rintro h r ⟨hr, htenant, hprovider, hemail, hto⟩
    exact h _ hemail r ⟨hr, htenant, hprovider, rfl, hto⟩

/-- What the batched query and the first-wins map find for an email of the batch is its mapping
that begins last. -/
theorem firstOf_queriedRows {pairs : List (String × String)}
    (h : (orderByValidFromDesc (queriedRows maps tenantId provider now emails)).mapM decode =
      .ok pairs) {email : String} (hemail : email ∈ emails.filterMap id) :
    firstOf pairs email =
      (latest (unexpired maps tenantId provider now email)).bind internalUserId := by
  rw [firstOf_mapM_decode h, orderByValidFromDesc, StableSort.find?_insertionSort, queriedRows,
    List.filter_filter, latest, orderByValidFromDesc, unexpired]
  congr 4
  funext r
  by_cases hp : r.providerUserId = email
  · have hmem : email ∈ (emails.filterMap id).dedup := List.mem_dedup.mpr hemail
    simp only [hp, hmem, decide_true, Bool.true_and, true_and]
  · simp [hp]

/-- The flag of one email when the query can be read. -/
theorem flag_eq_contradicts (o : Option IdentityMap) (user : String) :
    ((o.bind internalUserId).any fun mapped => mapped ≠ user) = contradicts (some user) o := by
  unfold contradicts
  cases o.bind internalUserId with
  | none => rfl
  | some mapped => simp [eq_comm]

theorem mapM_orderByValidFromDesc_isOk {rows : List IdentityMap} :
    (∃ pairs, (orderByValidFromDesc rows).mapM decode = .ok pairs) ↔ Readable rows := by
  rw [mapM_decode_isOk, Readable]
  simp only [orderByValidFromDesc, List.mem_insertionSort]

/-- The live check counts the emails whose mapping that begins last contradicts the token, and
none at all when one of the mappings it reads names no user. -/
theorem count_checkEmailMismatches (maps : Table IdentityMap.index) (tenantId provider : String)
    (now : ℤ) (tokenUserId : Option String) (emails : List (Option String)) :
    (checkEmailMismatches maps false now tenantId provider tokenUserId emails).2.1.count true =
      if Readable (queriedRows maps tenantId provider now emails) then
        (emails.filterMap id).countP fun email =>
          contradicts tokenUserId (latest (unexpired maps tenantId provider now email))
      else 0 := by
  cases tokenUserId with
  | none =>
    have hnone : (fun email => contradicts none
        (latest (unexpired maps tenantId provider now email))) = fun _ => false := by
      funext email
      rfl
    simp [checkEmailMismatches, hnone, List.count_replicate]
  | some user =>
    -- The flags, with the mappings that the query yields named.
    have hflags (mappings : List (String × String)) :
        ((emails.map fun email? => match some user, email? with
          | some tokenId, some email =>
            (firstOf mappings email).any fun mapped => mapped ≠ tokenId
          | _, _ => false).count true) =
          (emails.filterMap id).countP fun email =>
            (firstOf mappings email).any fun mapped => mapped ≠ user := by
      rw [List.count_eq_countP, List.countP_map, List.countP_filterMap]
      congr 1
      funext email?
      cases email? <;> simp
    refine (hflags _).trans ?_
    by_cases hempty : (emails.filterMap id).dedup = []
    · rw [(List.dedup_eq_nil _).mp hempty, List.countP_nil, List.countP_nil, ite_self]
    rw [if_neg hempty]
    by_cases hread : Readable (queriedRows maps tenantId provider now emails)
    · obtain ⟨pairs, hpairs⟩ := mapM_orderByValidFromDesc_isOk.2 hread
      rw [if_pos hread]
      simp only [Bool.false_eq_true, if_false]
      rw [← queriedRows, hpairs]
      refine List.countP_congr fun email hemail => ?_
      rw [firstOf_queriedRows hpairs hemail, flag_eq_contradicts]
    · rw [if_neg hread]
      have herror : ∀ pairs, (orderByValidFromDesc
          (queriedRows maps tenantId provider now emails)).mapM decode ≠ .ok pairs :=
        fun pairs hpairs => hread (mapM_orderByValidFromDesc_isOk.1 ⟨pairs, hpairs⟩)
      simp only [Bool.false_eq_true, if_false]
      rw [← queriedRows]
      cases hq : (orderByValidFromDesc
          (queriedRows maps tenantId provider now emails)).mapM decode with
      | ok pairs => exact absurd hq (herror pairs)
      | error e => simp [firstOf]

/-! ## The historical check -/

/-- The mapping resolved for an execution that starts at `now` is the one that begins last among
those that have begun. -/
theorem mismatched_eq_contradicts {e : Execution} (hstart : e.startedAt = now) :
    mismatched maps e = e.userEmail.any fun email =>
      contradicts e.internalUserId
        (latest (begun now (unexpired maps e.tenantId e.provider now email))) := by
  rw [mismatched, resolveMapping]
  cases e.userEmail with
  | none => rfl
  | some email =>
    have hrows : maps.rows.filter (validFor e email) =
        begun now (unexpired maps e.tenantId e.provider now email) := by
      rw [begun, unexpired, List.filter_filter]
      congr 1
      funext r
      simp only [validFor, hstart, Bool.decide_and, Bool.decide_eq_true]
      grind
    rw [Option.bind_some, hrows]
    rfl

/-- The mismatches of executions of one tenant and provider are all in one group. -/
theorem sum_mismatched {rows : List Execution}
    (hrows : ∀ e ∈ rows, e.tenantId = tenantId ∧ e.provider = provider) :
    ((verifyAttribution rows maps tenantId).map ProviderAttribution.mismatched).sum =
      rows.countP (mismatched maps) := by
  have htenant : (rows.filter fun e => e.tenantId = tenantId) = rows :=
    List.filter_eq_self.mpr fun e he => by simpa using (hrows e he).1
  have hprovider : (rows.filter fun e => e.provider = provider) = rows :=
    List.filter_eq_self.mpr fun e he => by simpa using (hrows e he).2
  simp only [verifyAttribution, htenant]
  cases rows with
  | nil => rfl
  | cons e rest =>
    have hmap : (e :: rest).map Execution.provider =
        List.replicate (rest.length + 1) provider := by
      rw [List.eq_replicate_iff, List.length_map, List.length_cons]
      refine ⟨rfl, fun p hp => ?_⟩
      obtain ⟨e', he', rfl⟩ := List.mem_map.mp hp
      exact (hrows e' he').2
    rw [hmap, List.replicate_dedup (Nat.succ_ne_zero _)]
    simp only [List.insertionSort_cons, List.insertionSort_nil, List.orderedInsert_nil,
      List.map_cons, List.map_nil, List.sum_singleton, hprovider]

/-- The historical check counts the emails whose mapping that begins last, of those that have
begun, contradicts the token. -/
theorem sum_mismatched_executionRows (sha256 : List UInt8 → String) (call : IngestCall)
    (pricing : List ModelPricing) (maps : Table IdentityMap.index) (tokenUserId : Option String)
    (hstart : ∀ x ∈ call.executions, x.startedAt = now) :
    ((verifyAttribution (call.executionRows sha256 pricing now tokenUserId) maps
        call.tenantId).map ProviderAttribution.mismatched).sum =
      (call.executions.filterMap ExecutionInput.userEmail).countP fun email =>
        contradicts tokenUserId
          (latest (begun now (unexpired maps call.tenantId call.provider now email))) := by
  have hrows : ∀ e ∈ call.executionRows sha256 pricing now tokenUserId,
      e.tenantId = call.tenantId ∧ e.provider = call.provider := by
    intro e he
    obtain ⟨x, -, rfl⟩ := List.mem_map.mp he
    exact ⟨rfl, rfl⟩
  rw [sum_mismatched hrows, executionRows, List.countP_map, List.countP_filterMap]
  refine List.countP_congr fun x hx => ?_
  rw [Function.comp_apply, mismatched_eq_contradicts (hstart x hx)]
  simp only [executionRow]
  cases x.userEmail <;> rfl

/-! ## The same count -/

/-- When the two checks count alike. With readable mappings only the emails with a mapping that
has not begun can differ, and among them as many latest mappings as valid ones contradict the
token; with an unreadable one the live check counts nothing, and no valid mapping contradicts. -/
structure CountsAlike (maps : Table IdentityMap.index) (tenantId provider : String) (now : ℤ)
    (tokenUserId : Option String) (emails : List String) : Prop where
  readable : (∀ email ∈ emails, Readable (unexpired maps tenantId provider now email)) →
    let later := emails.filter fun email =>
      NotYetValid now (unexpired maps tenantId provider now email)
    (later.countP fun email =>
        contradicts tokenUserId (latest (unexpired maps tenantId provider now email))) =
      later.countP fun email =>
        contradicts tokenUserId (latest (begun now (unexpired maps tenantId provider now email)))
  unreadable : (∃ email ∈ emails, ¬ Readable (unexpired maps tenantId provider now email)) →
    ∀ email ∈ emails,
      ¬ contradicts tokenUserId (latest (begun now (unexpired maps tenantId provider now email)))

/-- Counts of two properties that agree outside a part are equal if they are equal on the part. -/
theorem countP_eq_iff_filter {α : Type} {l : List α} {p q r : α → Bool}
    (h : ∀ a ∈ l, ¬ r a → p a = q a) :
    l.countP p = l.countP q ↔ (l.filter r).countP p = (l.filter r).countP q := by
  have hout : (l.filter fun a => !r a).countP p = (l.filter fun a => !r a).countP q :=
    List.countP_congr fun a ha => by
      obtain ⟨hal, hra⟩ := List.mem_filter.mp ha
      rw [h a hal (by simpa using hra)]
  rw [List.countP_eq_countP_filter_add l p r, List.countP_eq_countP_filter_add l q r, hout,
    Nat.add_right_cancel_iff]

/-- For executions that start when the live check runs, it raises as many flags as the historical
check counts mismatches exactly if the mappings of their emails count alike. -/
theorem count_eq_sum_iff (sha256 : List UInt8 → String) (call : IngestCall)
    (pricing : List ModelPricing) (maps : Table IdentityMap.index) (now : ℤ)
    (tokenUserId : Option String) (hstart : ∀ x ∈ call.executions, x.startedAt = now) :
    (checkEmailMismatches maps false now call.tenantId call.provider tokenUserId
        (call.executions.map ExecutionInput.userEmail)).2.1.count true =
      ((verifyAttribution (call.executionRows sha256 pricing now tokenUserId) maps
        call.tenantId).map ProviderAttribution.mismatched).sum ↔
    CountsAlike maps call.tenantId call.provider now tokenUserId
      (call.executions.filterMap ExecutionInput.userEmail) := by
  have hemails : (call.executions.map ExecutionInput.userEmail).filterMap id =
      call.executions.filterMap ExecutionInput.userEmail := by
    rw [List.filterMap_map]
    rfl
  rw [count_checkEmailMismatches, sum_mismatched_executionRows sha256 call pricing maps tokenUserId
    hstart, hemails]
  split
  · next hread =>
    rw [readable_queriedRows_iff, hemails] at hread
    rw [countP_eq_iff_filter (r := fun email =>
      NotYetValid now (unexpired maps call.tenantId call.provider now email))]
    · constructor
      · exact fun hcount => ⟨fun _ => hcount, fun ⟨email, hemail, hnot⟩ =>
          absurd (hread email hemail) hnot⟩
      · exact fun halike => halike.readable hread
    · -- Where every mapping has begun, both checks look at the same ones.
      intro email _ hbegun
      rw [begun_of_not_notYetValid (by simpa using hbegun)]
  · next hread =>
    rw [readable_queriedRows_iff, hemails] at hread
    have hsome : ∃ email ∈ call.executions.filterMap ExecutionInput.userEmail,
        ¬ Readable (unexpired maps call.tenantId call.provider now email) := by
      simpa only [not_forall, exists_prop] using hread
    rw [eq_comm, List.countP_eq_zero]
    exact ⟨fun hnone => ⟨fun hall => absurd hall hread, fun _ => hnone⟩,
      fun halike => halike.unreadable hsome⟩

/-! ## What an ingest reports and stores -/

section Ingest

variable {sha256 : List UInt8 → String} {call : IngestCall} {db db' : Database}

theorem identityMismatches_ingestExecutions {user : Option String}
    {xs : List (ExecutionInput × Bool)} {result result' : IngestResult}
    (h : call.ingestExecutions sha256 now user xs (db, result) = .ok (db', result')) :
    result'.identityMismatches = result.identityMismatches + (xs.map Prod.snd).count true := by
  induction xs generalizing db result with
  | nil =>
    obtain ⟨-, rfl⟩ := Prod.mk.inj (Except.ok.inj h)
    simp
  | cons xm xs ih =>
    obtain ⟨x, mismatch⟩ := xm
    rw [ingestExecutions] at h
    obtain ⟨db₁, -, hrest⟩ := Except.ok_of_bind h
    rw [ih hrest]
    cases mismatch <;> simp; omega

/-- A batch of new and distinct spans that all start at `now`: the mismatches that the ingest
reports are the flags, and the rows that it stored are the ones that the historical check reads
for the batch, so the two counts agree exactly if the mappings count alike. -/
theorem reported_eq_mismatched_iff {result : IngestResult}
    (h : call.transaction sha256 now db = .ok (result, db'))
    (hfails : call.mismatchQueryFails = false)
    (hstart : ∀ x ∈ call.executions, x.startedAt = now)
    (hnew : ∀ x ∈ call.executions, x.key ∉ db.executions.keys)
    (hdistinct : (call.executions.map ExecutionInput.key).Nodup) :
    (result.identityMismatches =
        ((verifyAttribution (db'.executions.rows.filter fun r =>
            Execution.index.key r ∈ call.executions.map ExecutionInput.key) db.identityMaps
          call.tenantId).map ProviderAttribution.mismatched).sum ↔
      CountsAlike db.identityMaps call.tenantId call.provider now (call.boundIdentity db)
        (call.executions.filterMap ExecutionInput.userEmail)) := by
  have hkeys : (call.executionRows sha256 db.modelPricing now (call.boundIdentity db)).map
      Execution.index.key = call.executions.map ExecutionInput.key := by
    rw [executionRows, List.map_map]
    rfl
  have hstored : (db'.executions.rows.filter fun r =>
      Execution.index.key r ∈ call.executions.map ExecutionInput.key) =
      call.executionRows sha256 db.modelPricing now (call.boundIdentity db) := by
    have hwrites := (transaction_writes h).executions
    rw [Table.upsertAll_of_new (fun row hrow => ?_) (hkeys ▸ hdistinct) hwrites,
      List.filter_append]
    · have hold : (db.executions.rows.filter fun r =>
          Execution.index.key r ∈ call.executions.map ExecutionInput.key) = [] := by
        rw [List.filter_eq_nil_iff]
        intro r hr hmem
        obtain ⟨x, hx, hkey⟩ := List.mem_map.mp (of_decide_eq_true hmem)
        exact hnew x hx (hkey ▸ Table.mem_keys hr)
      rw [hold, List.nil_append, List.filter_eq_self]
      intro r hr
      rw [← hkeys]
      exact decide_eq_true (List.mem_map_of_mem hr)
    · obtain ⟨x, hx, rfl⟩ := List.mem_map.mp hrow
      exact hnew x hx
  unfold transaction at h
  obtain ⟨⟨db₁, result₁⟩, hrun, hret⟩ := Except.ok_of_bind h
  obtain rfl : result₁ = result := (Prod.mk.inj (Except.ok.inj hret)).1
  have hcount := identityMismatches_ingestExecutions hrun
  rw [Nat.zero_add, List.map_snd_zip (by simp [checkEmailMismatches]), hfails] at hcount
  rw [hcount, hstored]
  exact count_eq_sum_iff sha256 call db.modelPricing db.identityMaps now
    (call.boundIdentity db) hstart

end Ingest

/-- The two checks give one number exactly if the mappings count alike: on executions that start
when the live check runs, and on what an ingest reports and stores of a batch of new spans. -/
theorem flags_eq_mismatched_iff (sha256 : List UInt8 → String) (call : IngestCall) (now : ℤ)
    (hstart : ∀ x ∈ call.executions, x.startedAt = now) :
    (∀ pricing maps tokenUserId,
      (checkEmailMismatches maps false now call.tenantId call.provider tokenUserId
          (call.executions.map ExecutionInput.userEmail)).2.1.count true =
        ((verifyAttribution (call.executionRows sha256 pricing now tokenUserId) maps
          call.tenantId).map ProviderAttribution.mismatched).sum ↔
      CountsAlike maps call.tenantId call.provider now tokenUserId
        (call.executions.filterMap ExecutionInput.userEmail)) ∧
    ∀ db db' result, call.transaction sha256 now db = .ok (result, db') →
      call.mismatchQueryFails = false → (∀ x ∈ call.executions, x.key ∉ db.executions.keys) →
      (call.executions.map ExecutionInput.key).Nodup →
      (result.identityMismatches =
          ((verifyAttribution (db'.executions.rows.filter fun r =>
              Execution.index.key r ∈ call.executions.map ExecutionInput.key) db.identityMaps
            call.tenantId).map ProviderAttribution.mismatched).sum ↔
        CountsAlike db.identityMaps call.tenantId call.provider now (call.boundIdentity db)
          (call.executions.filterMap ExecutionInput.userEmail)) :=
  ⟨fun pricing maps tokenUserId => count_eq_sum_iff sha256 call pricing maps now tokenUserId hstart,
    fun _ _ _ hrun hfails hnew hdistinct =>
      reported_eq_mismatched_iff hrun hfails hstart hnew hdistinct⟩

/-- A mapping of one principal. -/
def adaMapping (id : String) (user : Option String) (validFrom : ℤ) (validTo : Option ℤ) :
    IdentityMap where
  id := id
  tenantId := "acme"
  provider := "claude_code"
  providerUserId := "ada@acme.example"
  internalUserId := user
  mappingSource := "oauth"
  validFrom := validFrom
  validTo := validTo

/-- Mapped to one user until 30 and to another from 30 on. -/
def handedOver : Table IdentityMap.index where
  rows := [adaMapping "idmap-1" (some "u1") 10 (some 30), adaMapping "idmap-2" (some "u2") 30 none]
  keys_nodup := by decide
  ids_nodup := by decide

/-- One execution of the principal that starts at `now`. -/
def adaCall (now : ℤ) : IngestCall where
  tenantId := "acme"
  integrationId := "int-1"
  provider := "claude_code"
  executions := [{ traceId := "t", spanId := "s", userEmail := some "ada@acme.example"
                   startedAt := now, durationMs := 0, modelCalls := [], toolCalls := [] }]
  now := fun _ => now
  fault := fun _ => none
  mismatchQueryFails := false

/-- After the hand-over both checks find the mismatch of the first user's token. -/
theorem flags_eq_mismatched_handedOver :
    (checkEmailMismatches handedOver false 40 "acme" "claude_code" (some "u1")
        [some "ada@acme.example"]).2.1.count true =
      ((verifyAttribution ((adaCall 40).executionRows (fun _ => "") [] 40 (some "u1")) handedOver
        "acme").map ProviderAttribution.mismatched).sum := by
  refine ((flags_eq_mismatched_iff (fun _ => "") (adaCall 40) 40 (by decide)).1 [] handedOver
    (some "u1")).mpr ⟨fun _ => by decide, ?_⟩
  intro hunreadable
  exact absurd hunreadable (by decide)

/-- Before the hand-over the live check already compares with the second user and raises a flag
for the first user's own execution, which the historical check does not count. -/
theorem later_mapping_raises_flag :
    (checkEmailMismatches handedOver false 20 "acme" "claude_code" (some "u1")
        [some "ada@acme.example"]).2.1.count true = 1 ∧
      ((verifyAttribution ((adaCall 20).executionRows (fun _ => "") [] 20 (some "u1")) handedOver
        "acme").map ProviderAttribution.mismatched).sum = 0 :=
  ⟨by decide, by decide⟩

end MismatchCheck

end Governance
