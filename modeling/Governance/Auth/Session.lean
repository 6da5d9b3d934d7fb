import Governance.Core.Schema

/-!
# The session cache

`governance-auth/src/cache.rs`, `freshness.rs` and the commands of `oauth/` over the session of
one issuer and one client. Every file-system operation and every exchange with the token endpoint
is a step of its own; any number of processes run, and each can be killed at any point.

`load` moves a session that an older build left at the cache path, and it is the only operation of
`configure`, which does not take the lock.
-/

namespace Governance

namespace Session

/-- `CachedSession`, with `issuer` and `client_id` fixed. -/
structure CachedSession where
  accessToken : String
  refreshToken : Option String
  expiresAt : ℕ
  lifetimeSecs : Option ℕ
  deriving DecidableEq

/-- `SKEW_SECONDS`. -/
def skewSeconds : ℕ := 30

inductive Freshness where
  | skew
  | outlivesCache (windowSecs : ℕ)
  deriving DecidableEq

/-- The freshness of `token` and `otel headers`. -/
def Freshness.forHelper (debounceMs : ℕ) : Freshness := .outlivesCache (debounceMs / 1000)

def Freshness.requiredRemainingSecs (freshness : Freshness) (session : CachedSession) : ℕ :=
  match freshness with
  | .skew => skewSeconds
  | .outlivesCache windowSecs =>
    let required := u64SaturatingAdd windowSecs skewSeconds
    match session.lifetimeSecs with
    | none => required
    | some lifetime =>
      let cap := max (lifetime / 2) skewSeconds
      if required ≤ cap then required else cap

def CachedSession.isFreshFor (session : CachedSession) (now minRemainingSecs : ℕ) : Bool :=
  u64SaturatingAdd now minRemainingSecs < session.expiresAt

/-- `RawTokenResponse`. -/
structure TokenResponse where
  accessToken : String
  refreshToken : Option String
  expiresIn : Option ℕ
  deriving DecidableEq

def intoSession (now : ℕ) (response : TokenResponse) : CachedSession :=
  let lifetimeSecs := response.expiresIn.getD 60
  { accessToken := response.accessToken
    refreshToken := response.refreshToken
    expiresAt := u64SaturatingAdd now lifetimeSecs
    lifetimeSecs := some lifetimeSecs }

/-- `token_endpoint::refresh`, after the response: the token that was sent is kept when the
response has none. -/
def refreshed (now : ℕ) (response : TokenResponse) (token : String) : CachedSession :=
  let session := intoSession now response
  { session with refreshToken := some (session.refreshToken.getD token) }

/-- `token`, `otel headers` and `copilot push` are all `current_session`. -/
inductive Command where
  | login
  | currentSession (freshness : Freshness)
  | refresh
  | configure
  | logout
  deriving DecidableEq

/-- Where an invocation stands, named for the operation that comes next. -/
inductive Phase where
  | idle
  | locking (c : Command)
  | checking (c : Command)
  | checkingLegacy (c : Command)
  | readingLegacy (c : Command)
  | writingCopy (c : Command) (bytes : CachedSession)
  | renamingCopy (c : Command)
  | verifying (c : Command)
  | unlinking (c : Command)
  | fallingBack (c : Command)
  | reading (c : Command)
  | loaded (c : Command) (session : Option CachedSession)
  | exchanging (c : Command) (token : String)
  | authorizing
  | writingTmp (c : Command) (session : CachedSession)
  | renamingTmp (c : Command) (session : CachedSession)
  | clearing
  | clearingLegacy
  | unlocking
  deriving DecidableEq

/-- The clock, the files at the state path, at the cache path and at the temporary path that
`store` and the migration share, the lock, and the invocations. The authorization server's part
is the tokens it has issued and those that an exchange has rotated. `stored` is what `store` put
at the state path last, or what was there at the start, until a `logout` has cleared it. -/
structure State where
  now : ℕ
  session : Option CachedSession
  legacy : Option CachedSession
  tmp : Option CachedSession
  lock : Option ℕ
  phase : ℕ → Phase
  issued : List String
  rotated : List String
  stored : Option CachedSession

def CachedSession.tokens (session : CachedSession) : List String := session.refreshToken.toList

/-- No invocation yet, with what earlier ones and older builds have left. -/
def State.initial (session legacy tmp : Option CachedSession) : State where
  now := 0
  session := session
  legacy := legacy
  tmp := tmp
  lock := none
  phase := fun _ => .idle
  issued := (session.toList ++ legacy.toList).flatMap CachedSession.tokens
  rotated := []
  stored := session.or legacy

/-- One operation of one invocation, the death of one, or time that passes. `io` is the next
file-system operation, and whether it succeeds; an operation that finds no file fails. -/
inductive Action where
  | start (p : ℕ) (c : Command)
  | acquire (p : ℕ)
  | io (p : ℕ) (ok : Bool)
  | decide (p : ℕ)
  | exchange (p : ℕ) (answer : Option TokenResponse)
  | authorize (p : ℕ) (answer : Option TokenResponse)
  | release (p : ℕ)
  | kill (p : ℕ)
  | tick (elapsed : ℕ)
  deriving DecidableEq

def State.set (s : State) (p : ℕ) (phase : Phase) : State :=
  { s with phase := Function.update s.phase p phase }

/-- Where a command goes when it has failed or is done. -/
def Command.finish : Command → Phase
  | .configure => .idle
  | _ => .unlocking

/-- `refresh_or_fail`, up to the request. -/
def refreshOrFail (c : Command) (session : CachedSession) : Phase :=
  match session.refreshToken with
  | none => c.finish
  | some token => .exchanging c token

/-- What a command does with the answer of `load`. -/
def afterLoad (now : ℕ) (c : Command) (session : Option CachedSession) : Phase :=
  match c, session with
  | .logout, _ => .clearing
  | .currentSession freshness, some session =>
    if session.isFreshFor now (freshness.requiredRemainingSecs session) then c.finish
    else refreshOrFail c session
  | .refresh, some session => refreshOrFail c session
  | _, _ => c.finish

/-- The next file-system operation of an invocation. -/
def State.io (s : State) (p : ℕ) (ok : Bool) : State :=
  match s.phase p with
  | .locking _ => if ok then s else s.set p .idle
  | .checking c =>
    -- `exists` answers no when it cannot tell.
    if ok ∧ s.session ≠ none then s.set p (.reading c) else s.set p (.checkingLegacy c)
  | .checkingLegacy c =>
    if ok ∧ s.legacy ≠ none then s.set p (.readingLegacy c) else s.set p (.reading c)
  | .readingLegacy c =>
    match ok, s.legacy with
    | true, some bytes => s.set p (.writingCopy c bytes)
    | _, _ => s.set p (.fallingBack c)
  | .writingCopy c bytes =>
    if ok then { s.set p (.renamingCopy c) with tmp := some bytes }
    else s.set p (.fallingBack c)
  | .renamingCopy c =>
    match ok, s.tmp with
    | true, some bytes => { s.set p (.verifying c) with session := some bytes, tmp := none }
    | _, _ => s.set p (.fallingBack c)
  | .verifying c =>
    if ok ∧ s.session ≠ none then s.set p (.unlinking c) else s.set p (.fallingBack c)
  | .unlinking c =>
    if ok ∧ s.legacy ≠ none then { s.set p (.reading c) with legacy := none }
    else s.set p (.fallingBack c)
  | .fallingBack c => if ok then s.set p (.loaded c s.legacy) else s.set p c.finish
  | .reading c => if ok then s.set p (.loaded c s.session) else s.set p c.finish
  | .writingTmp c session =>
    if ok then { s.set p (.renamingTmp c session) with tmp := some session }
    else { s.set p c.finish with tmp := none }
  | .renamingTmp c session =>
    match ok, s.tmp with
    | true, some bytes =>
      { s.set p c.finish with session := some bytes, tmp := none, stored := some session }
    | _, _ => { s.set p c.finish with tmp := none }
  | .clearing => if ok then { s.set p .clearingLegacy with session := none } else s.set p .unlocking
  | .clearingLegacy =>
    if ok then { s.set p .unlocking with legacy := none, stored := none }
    else s.set p .unlocking
  | _ => s

/-- The server answers with a refresh token that it has not issued before. -/
def State.Issues (s : State) (response : TokenResponse) : Prop :=
  ∀ token ∈ response.refreshToken, token ∉ s.issued

instance (s : State) (response : TokenResponse) : Decidable (s.Issues response) :=
  inferInstanceAs (Decidable (∀ token ∈ response.refreshToken, token ∉ s.issued))

/-- One step. An action that the invocation is not up to changes nothing. -/
def step (s : State) : Action → State
  | .start p c =>
    match s.phase p with
    | .idle => s.set p (if c = .configure then .checking c else .locking c)
    | _ => s
  | .acquire p =>
    match s.phase p, s.lock with
    | .locking c, none =>
      { s.set p (if c = .login then .authorizing else .checking c) with lock := some p }
    | _, _ => s
  | .io p ok => s.io p ok
  | .decide p =>
    match s.phase p with
    | .loaded c session => s.set p (afterLoad s.now c session)
    | _ => s
  | .exchange p answer =>
    match s.phase p, answer with
    | .exchanging c token, some response =>
      if s.Issues response then
        { s.set p (.writingTmp c (refreshed s.now response token)) with
          issued := response.refreshToken.toList ++ s.issued
          -- A response without a token leaves the one that was sent in force.
          rotated := if response.refreshToken = none then s.rotated else token :: s.rotated }
      else s
    | .exchanging c _, none => s.set p c.finish
    | _, _ => s
  | .authorize p answer =>
    match s.phase p, answer with
    | .authorizing, some response =>
      if s.Issues response then
        { s.set p (.writingTmp .login (intoSession s.now response)) with
          issued := response.refreshToken.toList ++ s.issued }
      else s
    | .authorizing, none => s.set p .unlocking
    | _, _ => s
  | .release p =>
    match s.phase p with
    | .unlocking => { s.set p .idle with lock := none }
    | _ => s
  | .kill p => { s.set p .idle with lock := if s.lock = some p then none else s.lock }
  | .tick elapsed => { s with now := s.now + elapsed }

def runFrom (s : State) (actions : List Action) : State := actions.foldl step s

/-- The refresh token that an action sends to the token endpoint. -/
def State.sends (s : State) : Action → Option String
  | .exchange p _ =>
    match s.phase p with
    | .exchanging _ token => some token
    | _ => none
  | _ => none

/-- The session that an action returns from `load`. -/
def State.loads (s : State) : Action → Option CachedSession
  | .io p true =>
    match s.phase p with
    | .fallingBack _ => s.legacy
    | .reading _ => s.session
    | _ => none
  | _ => none

/-- `store` does not fail, and no process is killed between a successful refresh and its store. -/
def State.storeCompletes (s : State) : Action → Bool
  | .io p ok =>
    match s.phase p with
    | .writingTmp _ _ => ok
    | .renamingTmp _ _ => ok && s.tmp.isSome
    | _ => true
  | .kill p =>
    match s.phase p with
    | .writingTmp c _ => c = .login
    | .renamingTmp c _ => c = .login
    | _ => true
  | _ => true

end Session

end Governance
