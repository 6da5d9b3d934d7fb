import Mathlib

/-!
# Resolving a credential

`lightbridge-governance/src/resolve.rs` over `governance-core/src/credential.rs`: `handle` looks a
credential up in the in-process cache, asks the database on a miss, and inserts the answer.
Requests run concurrently, so the three are steps of their own, and revocations, the clock and
the evictions of the cache come between them.

An integration is found by the hash of its secret. Secrets are random, so no two integrations
share one, and the table is a function of the hash.
-/

namespace Governance

namespace Resolve

/-- `ResolvedIdentity`. -/
structure ResolvedIdentity where
  tenantId : String
  applicationId : String
  environment : String
  integrationId : String
  deriving DecidableEq

/-- The column `status` of `integrations`. -/
inductive IntegrationStatus where
  | active
  | revoked
  deriving DecidableEq

/-- A row of `integrations`, joined with its environment. -/
structure IntegrationRow where
  identity : ResolvedIdentity
  status : IntegrationStatus
  revokedAt : Option ℕ
  deriving DecidableEq

/-- `RejectReason`. -/
inductive RejectReason where
  | missingToken
  | tokenReviewFailed
  | malformedBody
  | credentialRejected
  | timeout
  deriving DecidableEq

/-- The parts of `ResolveState` that do not change, and SHA-256 as a hex text. -/
structure Config where
  ttl : ℕ
  resolveTimeout : ℕ
  sha256Hex : String → String

/-- `cache_key`. -/
def Config.cacheKey (cfg : Config) (credential : String) : String := cfg.sha256Hex credential

/-- `hash_secret`. -/
def Config.hashSecret (cfg : Config) (secret : String) : String := cfg.sha256Hex secret

/-- A request, with what TokenReview and the JSON reader say about it. -/
structure Inbound where
  authorization : Option String
  tokenReview : Bool
  credential : Option String

/-- `extract_bearer_token`. -/
def Inbound.extractBearerToken (req : Inbound) : Option String :=
  req.authorization.bind fun header =>
    if "Bearer ".toList.isPrefixOf header.toList then
      some (String.ofList (header.toList.drop 7))
    else none

/-- Where a request stands. From the cache lookup on it carries the time of the lookup. -/
inductive Phase where
  | waiting (credential : String)
  | querying (credential : String) (lookedUp : ℕ)
  | inserting (credential : String) (lookedUp : ℕ) (identity : ResolvedIdentity)
  | allowed (credential : String) (lookedUp : ℕ) (identity : ResolvedIdentity)
  | denied (reason : RejectReason)
  deriving DecidableEq

/-- The checks of `handle` before the lookup. -/
def Inbound.enter (req : Inbound) : Phase :=
  match req.extractBearerToken with
  | none => .denied .missingToken
  | some _ =>
    if req.tokenReview then
      match req.credential with
      | none => .denied .malformedBody
      | some credential => .waiting credential
    else .denied .tokenReviewFailed

/-- The clock, the table, the cache with the time of each insert, and the requests. -/
structure State where
  now : ℕ
  integrations : String → Option IntegrationRow
  cache : String → Option (ResolvedIdentity × ℕ)
  requests : ℕ → Option Phase

/-- The state when the process starts, on a database without integrations. -/
def State.empty : State := ⟨0, fun _ => none, fun _ => none, fun _ => none⟩

/-- What can happen next. `read` carries whether the database answers, and `evict` is the cache
making room. -/
inductive Step where
  | arrive (r : ℕ) (req : Inbound)
  | lookup (r : ℕ)
  | read (r : ℕ) (answers : Bool)
  | expire (r : ℕ)
  | insert (r : ℕ)
  | issue (hash : String) (identity : ResolvedIdentity)
  | revoke (integrationId : String)
  | evict (key : String)
  | tick (elapsed : ℕ)

/-- `revoke`: `UPDATE integrations .. WHERE id = $1 AND status = 'active'`. -/
def IntegrationRow.revoke (integrationId : String) (now : ℕ) (row : IntegrationRow) :
    IntegrationRow :=
  if row.identity.integrationId = integrationId ∧ row.status = .active then
    { row with status := .revoked, revokedAt := some now }
  else row

/-- `credential::resolve`; a database error is a rejection. -/
def State.resolve (cfg : Config) (s : State) (answers : Bool) (presented : String) :
    Option ResolvedIdentity :=
  if answers then
    match s.integrations (cfg.hashSecret presented) with
    | some row => if row.status = .active then some row.identity else none
    | none => none
  else none

/-- `Cache::get`: an entry is served within the TTL of its insert. -/
def State.get (cfg : Config) (s : State) (key : String) : Option ResolvedIdentity :=
  match s.cache key with
  | some (identity, insertedAt) => if s.now ≤ insertedAt + cfg.ttl then some identity else none
  | none => none

/-- A request moves on. -/
def State.set (s : State) (r : ℕ) (phase : Phase) : State :=
  { s with requests := Function.update s.requests r (some phase) }

/-- One step. A step that cannot happen changes nothing. -/
def step (cfg : Config) (s : State) : Step → State
  | .arrive r req => if s.requests r = none then s.set r req.enter else s
  | .lookup r =>
    match s.requests r with
    | some (.waiting credential) =>
      match s.get cfg (cfg.cacheKey credential) with
      | some identity => s.set r (.allowed credential s.now identity)
      | none => s.set r (.querying credential s.now)
    | _ => s
  | .read r answers =>
    match s.requests r with
    | some (.querying credential lookedUp) =>
      if s.now ≤ lookedUp + cfg.resolveTimeout then
        match s.resolve cfg answers credential with
        | some identity => s.set r (.inserting credential lookedUp identity)
        | none => s.set r (.denied .credentialRejected)
      else s
    | _ => s
  | .expire r =>
    match s.requests r with
    | some (.querying _ lookedUp) =>
      if lookedUp + cfg.resolveTimeout ≤ s.now then s.set r (.denied .timeout) else s
    | _ => s
  | .insert r =>
    match s.requests r with
    | some (.inserting credential lookedUp identity) =>
      { s.set r (.allowed credential lookedUp identity) with
        cache := Function.update s.cache (cfg.cacheKey credential) (some (identity, s.now)) }
    | _ => s
  | .issue hash identity =>
    if s.integrations hash = none then
      { s with integrations := Function.update s.integrations hash (some ⟨identity, .active, none⟩) }
    else s
  | .revoke integrationId =>
    { s with integrations := fun hash =>
        (s.integrations hash).map (IntegrationRow.revoke integrationId s.now) }
  | .evict key => { s with cache := Function.update s.cache key none }
  | .tick elapsed => { s with now := s.now + elapsed }

/-- The state after some steps. -/
def run (cfg : Config) (s : State) (steps : List Step) : State := steps.foldl (step cfg) s

/-- The request whose step it is. -/
def Step.owner : Step → Option ℕ
  | .arrive r _ => some r
  | .lookup r => some r
  | .read r _ => some r
  | .expire r => some r
  | .insert r => some r
  | _ => none

/-! ## What a step does -/

section Steps

variable {cfg : Config} {s : State} {r : ℕ}

@[simp] theorem requests_set_self (phase : Phase) : (s.set r phase).requests r = some phase := by
  simp [State.set]

theorem requests_set_of_ne {r' : ℕ} (phase : Phase) (h : r' ≠ r) :
    (s.set r phase).requests r' = s.requests r' := by
  simp [State.set, h]

@[simp] theorem run_nil : run cfg s [] = s := rfl

@[simp] theorem run_cons (a : Step) (steps : List Step) :
    run cfg s (a :: steps) = run cfg (step cfg s a) steps := rfl

theorem run_append (cfg : Config) (s : State) (before after : List Step) :
    run cfg s (before ++ after) = run cfg (run cfg s before) after := by
  rw [run, List.foldl_append]
  rfl

/-- A step of another request, or of none, leaves a request where it is. -/
theorem requests_step {a : Step} (h : a.owner ≠ some r) :
    (step cfg s a).requests r = s.requests r := by
  cases a with
  | issue hash identity =>
    simp only [step]
    split
    · rfl
    · rfl
  | revoke integrationId => rfl
  | evict key => rfl
  | tick elapsed => rfl
  | arrive r' req =>
    have hne : r ≠ r' := fun heq => h (congrArg some heq.symm)
    simp only [step]
    split
    · exact requests_set_of_ne _ hne
    · rfl
  | lookup r' =>
    have hne : r ≠ r' := fun heq => h (congrArg some heq.symm)
    simp only [step]
    split
    · split
      · exact requests_set_of_ne _ hne
      · exact requests_set_of_ne _ hne
    · rfl
  | read r' answers =>
    have hne : r ≠ r' := fun heq => h (congrArg some heq.symm)
    simp only [step]
    split
    · split
      · split
        · exact requests_set_of_ne _ hne
        · exact requests_set_of_ne _ hne
      · rfl
    · rfl
  | expire r' =>
    have hne : r ≠ r' := fun heq => h (congrArg some heq.symm)
    simp only [step]
    split
    · split
      · exact requests_set_of_ne _ hne
      · rfl
    · rfl
  | insert r' =>
    have hne : r ≠ r' := fun heq => h (congrArg some heq.symm)
    simp only [step]
    split
    · exact requests_set_of_ne _ hne
    · rfl

theorem requests_run {steps : List Step} (h : ∀ a ∈ steps, a.owner ≠ some r) :
    (run cfg s steps).requests r = s.requests r := by
  induction steps generalizing s with
  | nil => rfl
  | cons a steps ih =>
    rw [run_cons, ih fun b hb => h b (List.mem_cons_of_mem _ hb),
      requests_step (h a List.mem_cons_self)]

end Steps

end Resolve

end Governance
