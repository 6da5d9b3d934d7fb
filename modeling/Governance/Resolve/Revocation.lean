import Governance.Resolve.Handle

/-!
# Revocation and the cache

How long a revoked credential is still allowed. An entry is served for the TTL, so the bound is
the TTL exactly as long as no answer is inserted for a credential that was revoked since it was
read. Denials are never inserted, so no rejection outlives its own request.
-/

namespace Governance

namespace Resolve

/-- The credential with this hash is active. -/
def State.Active (s : State) (hash : String) : Prop :=
  ∃ row, s.integrations hash = some row ∧ row.status = .active

/-- The credential with this hash was revoked at a time. -/
def State.RevokedAt (s : State) (hash : String) (time : ℕ) : Prop :=
  ∃ row, s.integrations hash = some row ∧ row.revokedAt = some time

/-- The times that a phase carries are past, and no answer is older than it may be. -/
def PhaseOk (cfg : Config) (s : State) : Phase → Prop
  | .waiting _ => True
  | .querying _ lookedUp => lookedUp ≤ s.now
  | .inserting credential lookedUp _ =>
    lookedUp ≤ s.now ∧ ∀ time, s.RevokedAt (cfg.hashSecret credential) time → lookedUp ≤ time
  | .allowed credential lookedUp _ =>
    lookedUp ≤ s.now ∧ ∀ time, s.RevokedAt (cfg.hashSecret credential) time → lookedUp ≤ time + cfg.ttl
  | .denied _ => True

/-- What holds while no stale answer is inserted. -/
structure Bounded (cfg : Config) (s : State) : Prop where
  past : ∀ hash time, s.RevokedAt hash time → time ≤ s.now ∧ ¬ s.Active hash
  cached : ∀ hash identity insertedAt, s.cache hash = some (identity, insertedAt) →
    insertedAt ≤ s.now ∧ ∀ time, s.RevokedAt hash time → insertedAt ≤ time
  phases : ∀ r phase, s.requests r = some phase → PhaseOk cfg s phase

/-- The answer that a step inserts, if it inserts one, is for a credential that is active. -/
def FreshInsert (cfg : Config) (s : State) : Step → Prop
  | .insert r => ∀ credential lookedUp identity,
    s.requests r = some (.inserting credential lookedUp identity) →
      s.Active (cfg.hashSecret credential)
  | _ => True

/-- Every insert of a run is fresh. -/
def FreshInserts (cfg : Config) (s : State) (steps : List Step) : Prop :=
  ∀ before a after, steps = before ++ a :: after → FreshInsert cfg (run cfg s before) a

/-! ## One step -/

section Steps

variable {cfg : Config} {s s' : State} {a : Step} {hash : String} {time : ℕ}

theorem now_le_step (cfg : Config) (s : State) (a : Step) : s.now ≤ (step cfg s a).now := by
  cases a with
  | tick elapsed => exact Nat.le_add_right _ _
  | _ =>
    simp only [step]
    repeat' split
    all_goals exact le_rfl

/-- The table changes only by an integration that is issued or revoked. -/
theorem integrations_step (cfg : Config) (s : State) (a : Step) :
    (step cfg s a).integrations = s.integrations ∨
    (∃ hash identity, s.integrations hash = none ∧ (step cfg s a).integrations =
      Function.update s.integrations hash (some ⟨identity, .active, none⟩)) ∨
    ∃ integrationId, (step cfg s a).integrations = fun hash =>
      (s.integrations hash).map (IntegrationRow.revoke integrationId s.now) := by
  cases a with
  | issue hash identity =>
    simp only [step]
    split
    · next hnone => exact .inr (.inl ⟨hash, identity, hnone, rfl⟩)
    · exact .inl rfl
  | revoke integrationId => exact .inr (.inr ⟨integrationId, rfl⟩)
  | _ =>
    left
    simp only [step]
    repeat' split
    all_goals rfl

/-- A revocation is old, or commits now. -/
theorem revokedAt_step (h : (step cfg s a).RevokedAt hash time) :
    s.RevokedAt hash time ∨ s.now ≤ time := by
  obtain ⟨row, hrow, hat⟩ := h
  rcases integrations_step cfg s a with
    heq | ⟨hash', identity, -, heq⟩ | ⟨integrationId, heq⟩
  · exact .inl ⟨row, heq ▸ hrow, hat⟩
  · rw [heq, Function.update_apply] at hrow
    split at hrow
    · obtain rfl := Option.some.inj hrow
      cases hat
    · exact .inl ⟨row, hrow, hat⟩
  · rw [heq] at hrow
    obtain ⟨old, hold, rfl⟩ := Option.map_eq_some_iff.mp hrow
    unfold IntegrationRow.revoke at hat
    split at hat
    · exact .inr (Option.some.inj hat).le
    · exact .inl ⟨old, hold, hat⟩

theorem past_step (h : ∀ hash time, s.RevokedAt hash time → time ≤ s.now ∧ ¬ s.Active hash) :
    ∀ hash time, (step cfg s a).RevokedAt hash time →
      time ≤ (step cfg s a).now ∧ ¬ (step cfg s a).Active hash := by
  rintro hash time ⟨row, hrow, hat⟩
  have hnow := now_le_step cfg s a
  rcases integrations_step cfg s a with
    heq | ⟨hash', identity, -, heq⟩ | ⟨integrationId, heq⟩
  · simp only [State.Active, heq]
    obtain ⟨hpast, hinactive⟩ := h hash time ⟨row, heq ▸ hrow, hat⟩
    exact ⟨hpast.trans hnow, hinactive⟩
  · simp only [State.Active, heq]
    rw [heq, Function.update_apply] at hrow
    split at hrow
    · obtain rfl := Option.some.inj hrow
      cases hat
    · next hne =>
      obtain ⟨hpast, hinactive⟩ := h hash time ⟨row, hrow, hat⟩
      refine ⟨hpast.trans hnow, ?_⟩
      rw [Function.update_of_ne hne]
      exact hinactive
  · simp only [State.Active, heq]
    rw [heq] at hrow
    obtain ⟨old, hold, rfl⟩ := Option.map_eq_some_iff.mp hrow
    rw [hold]
    unfold IntegrationRow.revoke at hat ⊢
    split at hat
    · next hmatch =>
      refine ⟨(Option.some.inj hat).ge.trans hnow, ?_⟩
      simp only [Option.map_some, Option.some.injEq, exists_eq_left', if_pos hmatch]
      rintro ⟨⟩
    · next hmatch =>
      obtain ⟨hpast, hinactive⟩ := h hash time ⟨old, hold, hat⟩
      refine ⟨hpast.trans hnow, ?_⟩
      simp only [Option.map_some, Option.some.injEq, exists_eq_left', if_neg hmatch]
      exact fun hactive => hinactive ⟨old, hold, hactive⟩

/-- A phase stays right while the clock runs and only new revocations come. -/
theorem PhaseOk.mono {phase : Phase} (h : PhaseOk cfg s phase) (hnow : s.now ≤ s'.now)
    (hrevoked : ∀ hash time, s'.RevokedAt hash time → s.RevokedAt hash time ∨ s.now ≤ time) :
    PhaseOk cfg s' phase := by
  cases phase with
  | waiting credential => trivial
  | querying credential lookedUp => exact le_trans h hnow
  | inserting credential lookedUp identity =>
    refine ⟨h.1.trans hnow, ?_⟩
    intro time ht
    rcases hrevoked _ _ ht with hold | hnew
    · exact h.2 time hold
    · exact h.1.trans hnew
  | allowed credential lookedUp identity =>
    refine ⟨h.1.trans hnow, ?_⟩
    intro time ht
    rcases hrevoked _ _ ht with hold | hnew
    · exact h.2 time hold
    · exact (h.1.trans hnew).trans (Nat.le_add_right _ _)
  | denied reason => trivial

/-- Where a request can stand after a step. -/
theorem requests_step_cases {r : ℕ} {phase : Phase}
    (h : (step cfg s a).requests r = some phase) :
    s.requests r = some phase ∨ (∃ req : Inbound, phase = req.enter) ∨
      (∃ credential identity, s.get cfg (cfg.cacheKey credential) = some identity ∧
        phase = .allowed credential s.now identity) ∨
      (∃ credential, phase = .querying credential s.now) ∨
      (∃ credential lookedUp identity answers,
        s.requests r = some (.querying credential lookedUp) ∧
          s.resolve cfg answers credential = some identity ∧
          phase = .inserting credential lookedUp identity) ∨
      (∃ reason, phase = .denied reason) ∨
      ∃ credential lookedUp identity,
        s.requests r = some (.inserting credential lookedUp identity) ∧
          phase = .allowed credential lookedUp identity := by
  by_cases howner : a.owner = some r
  · cases a with
    | issue hash identity => cases howner
    | revoke integrationId => cases howner
    | evict key => cases howner
    | tick elapsed => cases howner
    | arrive r' req =>
      obtain rfl := Option.some.inj howner
      simp only [step] at h
      split at h
      · rw [requests_set_self, Option.some.injEq] at h
        exact .inr (.inl ⟨req, h.symm⟩)
      · exact .inl h
    | lookup r' =>
      obtain rfl := Option.some.inj howner
      simp only [step] at h
      split at h
      · next credential hwaiting =>
        split at h
        · next identity hget =>
          rw [requests_set_self, Option.some.injEq] at h
          exact .inr (.inr (.inl ⟨credential, identity, hget, h.symm⟩))
        · rw [requests_set_self, Option.some.injEq] at h
          exact .inr (.inr (.inr (.inl ⟨credential, h.symm⟩)))
      · exact .inl h
    | read r' answers =>
      obtain rfl := Option.some.inj howner
      simp only [step] at h
      split at h
      · next credential lookedUp hquerying =>
        split at h
        · split at h
          · next identity hresolve =>
            rw [requests_set_self, Option.some.injEq] at h
            exact .inr (.inr (.inr (.inr (.inl
              ⟨credential, lookedUp, identity, answers, hquerying, hresolve, h.symm⟩))))
          · rw [requests_set_self, Option.some.injEq] at h
            exact .inr (.inr (.inr (.inr (.inr (.inl ⟨_, h.symm⟩)))))
        · exact .inl h
      · exact .inl h
    | expire r' =>
      obtain rfl := Option.some.inj howner
      simp only [step] at h
      split at h
      · split at h
        · rw [requests_set_self, Option.some.injEq] at h
          exact .inr (.inr (.inr (.inr (.inr (.inl ⟨_, h.symm⟩)))))
        · exact .inl h
      · exact .inl h
    | insert r' =>
      obtain rfl := Option.some.inj howner
      simp only [step] at h
      split at h
      · next credential lookedUp identity hinserting =>
        have hset : (s.set r' (.allowed credential lookedUp identity)).requests r' = _ :=
          requests_set_self _
        exact .inr (.inr (.inr (.inr (.inr (.inr ⟨credential, lookedUp, identity, hinserting,
          Option.some.inj (h.symm.trans hset)⟩)))))
      · exact .inl h
  · rw [requests_step howner] at h
    exact .inl h

theorem phaseOk_enter (req : Inbound) : PhaseOk cfg s req.enter := by
  unfold Inbound.enter
  split
  · trivial
  · split
    · split
      · trivial
      · trivial
    · trivial

/-- What is read is active. -/
theorem active_of_resolve {answers : Bool} {credential : String} {identity : ResolvedIdentity}
    (h : s.resolve cfg answers credential = some identity) :
    s.Active (cfg.hashSecret credential) := by
  unfold State.resolve at h
  split at h
  · split at h
    · next row hrow =>
      split at h
      · next hactive => exact ⟨row, hrow, hactive⟩
      · cases h
    · cases h
  · cases h

/-- Where a request stands after a step is right in the state before. -/
theorem phaseOk_step (h : Bounded cfg s) {r : ℕ} {phase : Phase}
    (hphase : (step cfg s a).requests r = some phase) : PhaseOk cfg s phase := by
  rcases requests_step_cases hphase with hold | ⟨req, rfl⟩ | ⟨credential, identity, hget, rfl⟩ |
    ⟨credential, rfl⟩ | ⟨credential, lookedUp, identity, answers, hquerying, hresolve, rfl⟩ |
    ⟨reason, rfl⟩ | ⟨credential, lookedUp, identity, hinserting, rfl⟩
  · exact h.phases r phase hold
  · exact phaseOk_enter req
  · -- The entry is no older than the TTL, and older than any revocation.
    refine ⟨le_rfl, ?_⟩
    intro time ht
    unfold State.get at hget
    split at hget
    · next identity' insertedAt hcache =>
      split at hget
      · next hserved =>
        have hinserted := (h.cached _ _ _ hcache).2 time ht
        omega
      · cases hget
    · cases hget
  · exact le_refl s.now
  · refine ⟨h.phases r _ hquerying, ?_⟩
    intro time ht
    exact absurd (active_of_resolve hresolve) (h.past _ _ ht).2
  · trivial
  · obtain ⟨hnow, hread⟩ := h.phases r _ hinserting
    refine ⟨hnow, ?_⟩
    intro time ht
    exact (hread time ht).trans (Nat.le_add_right _ _)

/-- The entries of the cache after a step are old, or were inserted now and are fresh. -/
theorem cache_step (h : Bounded cfg s) (hfresh : FreshInsert cfg s a)
    {identity : ResolvedIdentity} {insertedAt : ℕ}
    (hcache : (step cfg s a).cache hash = some (identity, insertedAt)) :
    insertedAt ≤ s.now ∧ ∀ time, s.RevokedAt hash time → insertedAt ≤ time := by
  cases a with
  | insert r =>
    simp only [step] at hcache
    split at hcache
    · next credential lookedUp identity' hinserting =>
      simp only [Function.update_apply] at hcache
      split at hcache
      · next hkey =>
        obtain ⟨-, rfl⟩ := Prod.mk.inj (Option.some.inj hcache)
        refine ⟨le_rfl, ?_⟩
        intro time ht
        have hactive := hfresh credential lookedUp identity' hinserting
        exact absurd (hkey ▸ hactive) (h.past _ _ ht).2
      · exact h.cached _ _ _ hcache
    · exact h.cached _ _ _ hcache
  | evict key =>
    simp only [step, Function.update_apply] at hcache
    split at hcache
    · cases hcache
    · exact h.cached _ _ _ hcache
  | _ =>
    refine h.cached hash identity insertedAt ?_
    simp only [step] at hcache
    repeat' split at hcache
    all_goals exact hcache

theorem Bounded.step (h : Bounded cfg s) (hfresh : FreshInsert cfg s a) :
    Bounded cfg (Resolve.step cfg s a) where
  past := past_step h.past
  cached := by
    intro hash identity insertedAt hcache
    obtain ⟨hnow, hold⟩ := cache_step h hfresh hcache
    refine ⟨hnow.trans (now_le_step cfg s a), ?_⟩
    intro time ht
    rcases revokedAt_step ht with hrevoked | hnew
    · exact hold time hrevoked
    · exact hnow.trans hnew
  phases := by
    intro r phase hphase
    exact (phaseOk_step h hphase).mono (now_le_step cfg s a) fun _ _ => revokedAt_step

end Steps

/-! ## Runs -/

section Runs

variable {cfg : Config} {s : State}

theorem bounded_empty (cfg : Config) : Bounded cfg State.empty where
  past := by
    rintro hash time ⟨row, hrow, -⟩
    cases hrow
  cached := by
    intro hash identity insertedAt h
    cases h
  phases := by
    intro r phase h
    cases h

theorem Bounded.run {steps : List Step} (h : Bounded cfg s) (hfresh : FreshInserts cfg s steps) :
    Bounded cfg (Resolve.run cfg s steps) := by
  induction steps generalizing s with
  | nil => exact h
  | cons a steps ih =>
    refine ih (h.step (hfresh [] a steps rfl)) ?_
    intro before b after heq
    exact hfresh (a :: before) b after (by rw [heq, List.cons_append])

theorem FreshInserts.cons {a : Step} {steps : List Step} (ha : FreshInsert cfg s a)
    (h : FreshInserts cfg (Resolve.step cfg s a) steps) : FreshInserts cfg s (a :: steps) := by
  intro before b after heq
  cases before with
  | nil =>
    obtain ⟨rfl, rfl⟩ := List.cons.inj heq
    exact ha
  | cons a' before =>
    obtain ⟨rfl, hsteps⟩ := List.cons.inj heq
    exact h before b after hsteps

/-- A request whose credential is active when the database answers, in time, is allowed, whatever
other requests do in between. -/
theorem allowed_of_active {r : ℕ} {credential : String}
    (hwaiting : s.requests r = some (.waiting credential)) {before between behind : List Step}
    (hbefore : ∀ a ∈ before, a.owner ≠ some r) (hbetween : ∀ a ∈ between, a.owner ≠ some r)
    (hbehind : ∀ a ∈ behind, a.owner ≠ some r)
    (hactive : (run cfg s (before ++ Step.lookup r :: between)).Active (cfg.hashSecret credential))
    (htime : (run cfg s (before ++ Step.lookup r :: between)).now ≤
      (run cfg s before).now + cfg.resolveTimeout) :
    ∃ lookedUp identity,
      (run cfg s (before ++ Step.lookup r :: between ++ Step.read r true :: behind ++
        [Step.insert r])).requests r = some (.allowed credential lookedUp identity) := by
  have hstart : (run cfg s before).requests r = some (.waiting credential) := by
    rw [requests_run hbefore, hwaiting]
  simp only [run_append, run_cons, run_nil] at hactive htime ⊢
  generalize run cfg s before = s₁ at *
  -- The request before its read: let through by the cache, or waiting for the database.
  have hlooked : (run cfg (step cfg s₁ (.lookup r)) between).requests r =
      (step cfg s₁ (.lookup r)).requests r := requests_run hbetween
  generalize hs₂ : run cfg (step cfg s₁ (.lookup r)) between = s₂ at *
  have hread (phase : Phase) (h : (step cfg s₂ (.read r true)).requests r = some phase) :
      (run cfg (step cfg s₂ (.read r true)) behind).requests r = some phase := by
    rw [requests_run hbehind, h]
  generalize hs₃ : run cfg (step cfg s₂ (.read r true)) behind = s₃ at *
  cases hget : s₁.get cfg (cfg.cacheKey credential) with
  | some identity =>
    simp only [step, hstart, hget, requests_set_self] at hlooked
    have hthrough : s₃.requests r = some (.allowed credential s₁.now identity) := by
      apply hread
      simp only [step, hlooked]
    exact ⟨s₁.now, identity, by simp only [step, hthrough]⟩
  | none =>
    simp only [step, hstart, hget, requests_set_self] at hlooked
    obtain ⟨row, hrow, hstatus⟩ := hactive
    have hresolve : s₂.resolve cfg true credential = some row.identity := by
      simp [State.resolve, hrow, hstatus]
    have hanswered : s₃.requests r = some (.inserting credential s₁.now row.identity) := by
      apply hread
      simp only [step, hlooked, if_pos htime, hresolve, requests_set_self]
    refine ⟨s₁.now, row.identity, ?_⟩
    simp only [step, hanswered]
    exact requests_set_self _

end Runs

/-- In every interleaving of requests, revocations, database errors, evictions and the clock:
if no answer is inserted for a credential that was revoked since it was read, a request that
was allowed for a revoked credential had reached the lookup within the TTL of the revocation.
And after any interleaving at all, a request whose credential is active when the database
answers, in time, is allowed. -/
theorem revocation_bounded_and_denials_forgotten (cfg : Config) (steps : List Step) :
    (FreshInserts cfg State.empty steps → ∀ r credential lookedUp identity time,
      (run cfg State.empty steps).requests r = some (.allowed credential lookedUp identity) →
        (run cfg State.empty steps).RevokedAt (cfg.hashSecret credential) time →
          lookedUp ≤ time + cfg.ttl) ∧
      ∀ r credential (before between behind : List Step),
        (run cfg State.empty steps).requests r = some (.waiting credential) →
        (∀ a ∈ before ++ between ++ behind, a.owner ≠ some r) →
        (run cfg State.empty (steps ++ before ++ .lookup r :: between)).Active
          (cfg.hashSecret credential) →
        (run cfg State.empty (steps ++ before ++ .lookup r :: between)).now ≤
          (run cfg State.empty (steps ++ before)).now + cfg.resolveTimeout →
        ∃ lookedUp identity, (run cfg State.empty (steps ++ before ++ .lookup r :: between ++
          .read r true :: behind ++ [.insert r])).requests r =
            some (.allowed credential lookedUp identity) := by
  constructor
  · intro hfresh r credential lookedUp identity time hallowed hrevoked
    exact (((bounded_empty cfg).run hfresh).phases r _ hallowed).2 time hrevoked
  · intro r credential before between behind hwaiting howner hactive htime
    simp only [List.append_assoc, run_append cfg State.empty steps] at hactive htime ⊢
    have hrun := allowed_of_active hwaiting
      (fun a ha => howner a (List.mem_append_left _ (List.mem_append_left _ ha)))
      (fun a ha => howner a (List.mem_append_left _ (List.mem_append_right _ ha)))
      (fun a ha => howner a (List.mem_append_right _ ha)) hactive htime
    simp only [List.append_assoc] at hrun
    exact hrun

/-! ## An answer that is inserted late -/

/-- A TTL of a minute, a timeout of five seconds, and texts for their own hashes. -/
def minuteConfig : Config := ⟨60, 5, id⟩

def agentIdentity : ResolvedIdentity := ⟨"acme", "agents", "prod", "int-1"⟩

def agentRequest : Inbound := ⟨some "Bearer sa-token", true, some "gov_secret"⟩

/-- The first request reads, and inserts at once. -/
def promptInsert : List Step :=
  [.issue "gov_secret" agentIdentity, .arrive 1 agentRequest, .lookup 1, .read 1 true, .insert 1,
    .revoke "int-1", .tick 60, .arrive 2 agentRequest, .lookup 2]

theorem freshInserts_prompt : FreshInserts minuteConfig State.empty promptInsert := by
  refine .cons trivial (.cons trivial (.cons trivial (.cons trivial (.cons ?_ (.cons trivial
    (.cons trivial (.cons trivial (.cons trivial ?_))))))))
  · intro credential lookedUp identity h
    have hphase := Option.some.inj h
    obtain ⟨rfl, -, -⟩ := Phase.inserting.inj hphase
    exact ⟨_, rfl, rfl⟩
  · intro before b after heq
    cases before with
    | nil => cases heq
    | cons a before => cases heq

theorem revocation_bounded_for_prompt_insert :
    (run minuteConfig State.empty promptInsert).requests 2 =
        some (.allowed "gov_secret" 60 agentIdentity) ∧
      (run minuteConfig State.empty promptInsert).RevokedAt "gov_secret" 0 ∧ 60 ≤ 0 + 60 := by
  refine ⟨by decide, ⟨_, rfl, rfl⟩, ?_⟩
  exact (revocation_bounded_and_denials_forgotten minuteConfig promptInsert).1 freshInserts_prompt 2
    "gov_secret" 60 agentIdentity 0 (by decide) ⟨_, rfl, rfl⟩

/-- The first request reads before the revocation and inserts three seconds after it. The
second reaches the lookup more than the TTL after the revocation, and is allowed. -/
theorem late_insert_outlives_bound :
    let s := run minuteConfig State.empty
      [.issue "gov_secret" agentIdentity, .arrive 1 agentRequest, .lookup 1, .read 1 true,
        .revoke "int-1", .tick 3, .insert 1, .tick 60, .arrive 2 agentRequest, .lookup 2]
    s.requests 2 = some (.allowed "gov_secret" 63 agentIdentity) ∧
      s.RevokedAt "gov_secret" 0 ∧ 0 + minuteConfig.ttl < 63 := by
  exact ⟨by decide, ⟨_, rfl, rfl⟩, by decide⟩

end Resolve

end Governance
