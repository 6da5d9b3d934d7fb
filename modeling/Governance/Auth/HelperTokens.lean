import Governance.Auth.Session

/-!
# Tokens that are handed to a cache

`current_session` as a sequence of calls. The lock is held for the whole of a call, so calls do not
overlap; the clock is read once to judge the cached session and once more to stamp a refreshed one.
The server issues tokens of one lifetime.

The demand on the remaining life of a token is capped at half the lifetime it records: as long as
the caller's window fits below the cap a token outlives it, and a token is always kept for half its
lifetime.
-/

namespace Governance

namespace Session

/-- A reading of `now_unix`: `SystemTime` counts the seconds in an `i64`. -/
structure Reading where
  secs : ℕ
  lt : secs < 2 ^ 63

/-- A call of `current_session`: the reading that judges the cached session, the answer of the token
endpoint where it is asked (`none` where the exchange fails), and the reading that stamps it. -/
structure Call where
  freshness : Freshness
  checked : Reading
  response : Option TokenResponse
  minted : Reading

inductive CallOutcome where
  | cached (session : CachedSession)
  | refreshed (session : CachedSession)
  | failed
  deriving DecidableEq

/-- `current_session`. -/
def currentSession (cache : Option CachedSession) (call : Call) : CallOutcome :=
  match cache with
  | none => .failed
  | some session =>
    if session.isFreshFor call.checked.secs (call.freshness.requiredRemainingSecs session) then
      .cached session
    else
      -- `refresh_or_fail`
      match session.refreshToken, call.response with
      | some token, some response => .refreshed (refreshed call.minted.secs response token)
      | _, _ => .failed

/-- The cache behind a call. -/
def cacheAfterCall (cache : Option CachedSession) (call : Call) : Option CachedSession :=
  match currentSession cache call with
  | .refreshed session => some session
  | _ => cache

/-- The cache behind some calls. -/
def cacheAfter (cache : Option CachedSession) (calls : List Call) : Option CachedSession :=
  calls.foldl cacheAfterCall cache

/-- No reading is earlier than one that was taken before it. -/
structure Chronological (calls : List Call) : Prop where
  within : ∀ c ∈ calls, c.checked.secs ≤ c.minted.secs
  between : calls.Pairwise fun c c' => c.minted.secs ≤ c'.checked.secs

/-- Every answer is a token of this lifetime. A server that leaves `expires_in` out is taken to
issue tokens of 60 seconds. -/
def IssuesLifetime (lifetime : ℕ) (calls : List Call) : Prop :=
  ∀ c ∈ calls, ∀ response ∈ c.response, response.expiresIn.getD 60 = lifetime

/-- The session records this lifetime, or none, as older builds do. -/
def CachedSession.MintedWith (session : CachedSession) (lifetime : ℕ) : Prop :=
  ∀ recorded ∈ session.lifetimeSecs, recorded = lifetime

/-! ## One call -/

theorem u64SaturatingAdd_lt (a b : ℕ) : u64SaturatingAdd a b < 2 ^ 64 := by
  rw [u64SaturatingAdd]
  omega

/-- The demand is met by a token whose lifetime is twice the demand. -/
theorem requiredRemainingSecs_forHelper {debounceMs lifetime : ℕ} {session : CachedSession}
    (hsession : session.MintedWith lifetime) (hlifetime : lifetime < 2 ^ 64)
    (hfits : 2 * (debounceMs / 1000 + skewSeconds) ≤ lifetime) :
    (Freshness.forHelper debounceMs).requiredRemainingSecs session =
      debounceMs / 1000 + skewSeconds := by
  have hsum : u64SaturatingAdd (debounceMs / 1000) skewSeconds =
      debounceMs / 1000 + skewSeconds := by
    rw [u64SaturatingAdd]
    omega
  simp only [Freshness.forHelper, Freshness.requiredRemainingSecs, hsum]
  cases hrecorded : session.lifetimeSecs with
  | none => rfl
  | some recorded =>
    obtain rfl := hsession recorded hrecorded
    exact if_pos (by omega)

/-- The demand on a token is at most half the lifetime that it records. -/
theorem requiredRemainingSecs_le_half {lifetime : ℕ} {session : CachedSession}
    (freshness : Freshness) (hrecorded : session.lifetimeSecs = some lifetime)
    (hlifetime : 60 ≤ lifetime) : freshness.requiredRemainingSecs session ≤ lifetime / 2 := by
  cases freshness with
  | skew =>
    simp only [Freshness.requiredRemainingSecs, skewSeconds]
    omega
  | outlivesCache windowSecs =>
    simp only [Freshness.requiredRemainingSecs, hrecorded, ← min_def]
    have hcap : max (lifetime / 2) skewSeconds = lifetime / 2 := by
      rw [skewSeconds]
      omega
    rw [hcap]
    exact min_le_right _ _

theorem requiredRemainingSecs_lt (freshness : Freshness) (session : CachedSession) :
    freshness.requiredRemainingSecs session < 2 ^ 64 := by
  cases freshness with
  | skew =>
    show skewSeconds < 2 ^ 64
    decide
  | outlivesCache windowSecs =>
    have hsum := u64SaturatingAdd_lt windowSecs skewSeconds
    simp only [Freshness.requiredRemainingSecs]
    cases session.lifetimeSecs with
    | none => exact hsum
    | some lifetime =>
      simp only [← min_def]
      exact (min_le_left _ _).trans_lt hsum

theorem currentSession_eq_cached {cache : Option CachedSession} {call : Call}
    {session : CachedSession} (h : currentSession cache call = .cached session) :
    cache = some session ∧
      session.isFreshFor call.checked.secs (call.freshness.requiredRemainingSecs session) := by
  cases cache with
  | none => cases h
  | some session' =>
    simp only [currentSession] at h
    split at h
    · next hfresh =>
      obtain rfl := CallOutcome.cached.inj h
      exact ⟨rfl, hfresh⟩
    · split at h <;> cases h

theorem currentSession_eq_refreshed {cache : Option CachedSession} {call : Call}
    {session : CachedSession} (h : currentSession cache call = .refreshed session) :
    ∃ old token response, cache = some old ∧ old.refreshToken = some token ∧
      call.response = some response ∧
      ¬ old.isFreshFor call.checked.secs (call.freshness.requiredRemainingSecs old) ∧
      session = refreshed call.minted.secs response token := by
  cases cache with
  | none => cases h
  | some old =>
    simp only [currentSession] at h
    split at h
    · cases h
    · next hstale =>
      split at h
      · next token response htoken hresponse =>
        exact ⟨old, token, response, rfl, htoken, hresponse, hstale,
          (CallOutcome.refreshed.inj h).symm⟩
      · cases h

/-- A call exchanges the token that an invocation exchanges, and stores what it stores. -/
theorem currentSession_of_exchanging {session : CachedSession} {call : Call} {token : String}
    {response : TokenResponse} (hresponse : call.response = some response)
    (h : afterLoad call.checked.secs (.currentSession call.freshness) (some session) =
      .exchanging (.currentSession call.freshness) token) :
    currentSession (some session) call =
      .refreshed (refreshed call.minted.secs response token) := by
  simp only [afterLoad] at h
  split at h
  · cases h
  · next hstale =>
    rw [refreshOrFail] at h
    split at h
    · cases h
    · next token' htoken =>
      obtain rfl := (Phase.exchanging.inj h).2
      simp only [currentSession, htoken, hresponse, if_neg hstale]

/-! ## Some calls -/

theorem cacheAfter_concat (cache : Option CachedSession) (calls : List Call) (call : Call) :
    cacheAfter cache (calls ++ [call]) = cacheAfterCall (cacheAfter cache calls) call :=
  List.foldl_concat ..

theorem cacheAfter_append (cache : Option CachedSession) (calls calls' : List Call) :
    cacheAfter cache (calls ++ calls') = cacheAfter (cacheAfter cache calls) calls' :=
  List.foldl_append

/-- What holds of the cached session and is kept by refreshing it holds behind every call. -/
theorem cacheAfter_induction {P : CachedSession → Prop} {calls : List Call}
    (hrefresh : ∀ c ∈ calls, ∀ response ∈ c.response, ∀ token,
      P (refreshed c.minted.secs response token))
    {cache : Option CachedSession} (hcache : ∀ session ∈ cache, P session) :
    ∀ session ∈ cacheAfter cache calls, P session := by
  induction calls generalizing cache with
  | nil => exact hcache
  | cons call calls ih =>
    apply ih
    · intro c hc
      exact hrefresh c (List.mem_cons_of_mem call hc)
    · intro session hsession
      rw [cacheAfterCall] at hsession
      split at hsession
      · next session' houtcome =>
        obtain ⟨old, token, response, -, -, hresponse, -, rfl⟩ :=
          currentSession_eq_refreshed houtcome
        obtain rfl := Option.some.inj hsession
        exact hrefresh call List.mem_cons_self response hresponse token
      · exact hcache session hsession

theorem mintedWith_cacheAfter {lifetime : ℕ} {start : CachedSession} {calls : List Call}
    (hstart : start.MintedWith lifetime) (hserver : IssuesLifetime lifetime calls) :
    ∀ session ∈ cacheAfter (some start) calls, session.MintedWith lifetime := by
  apply cacheAfter_induction
  · intro c hc response hresponse token recorded hrecorded
    rw [← hserver c hc response hresponse]
    exact (Option.some.inj hrecorded).symm
  · intro session hsession
    obtain rfl := Option.some.inj hsession
    exact hstart

/-- Where every answer is stamped at `minted` or later, a session that records the lifetime and
expires a lifetime behind `minted` is only replaced by others that do. -/
theorem kept_cacheAfter {lifetime minted : ℕ} {calls : List Call}
    (hserver : IssuesLifetime lifetime calls) (hclock : ∀ c ∈ calls, minted ≤ c.minted.secs)
    {session : CachedSession} (hrecorded : session.lifetimeSecs = some lifetime)
    (hexpires : u64SaturatingAdd minted lifetime ≤ session.expiresAt) :
    ∀ session' ∈ cacheAfter (some session) calls, session'.lifetimeSecs = some lifetime ∧
      u64SaturatingAdd minted lifetime ≤ session'.expiresAt := by
  apply cacheAfter_induction
  · intro c hc response hresponse token
    have hissued := hserver c hc response hresponse
    refine ⟨congrArg some hissued, ?_⟩
    have hlater := hclock c hc
    simp only [refreshed, intoSession, hissued, u64SaturatingAdd]
    omega
  · intro session' hsession'
    obtain rfl := Option.some.inj hsession'
    exact ⟨hrecorded, hexpires⟩

/-- A token whose lifetime is at least twice a caller's demand is handed out with more than the
demand left, on a call that reads the clock at `call.checked`, and at `call.minted` where it
refreshes. -/
theorem outlives_window {lifetime debounceMs : ℕ} {cache : Option CachedSession} {call : Call}
    (hcache : ∀ session ∈ cache, session.MintedWith lifetime) (hlifetime : lifetime < 2 ^ 64)
    (hserver : ∀ response ∈ call.response, response.expiresIn.getD 60 = lifetime)
    (hcall : call.freshness = .forHelper debounceMs)
    (hfits : 2 * (debounceMs / 1000 + skewSeconds) ≤ lifetime) (session : CachedSession) :
    (currentSession cache call = .cached session →
      call.checked.secs + (debounceMs / 1000 + skewSeconds) < session.expiresAt) ∧
    (currentSession cache call = .refreshed session →
      call.minted.secs + (debounceMs / 1000 + skewSeconds) < session.expiresAt) := by
  constructor
  · intro houtcome
    obtain ⟨hcached, hfresh⟩ := currentSession_eq_cached houtcome
    have hclock := call.checked.lt
    rw [hcall, requiredRemainingSecs_forHelper (hcache session hcached) hlifetime hfits] at hfresh
    have hlt := of_decide_eq_true hfresh
    rw [u64SaturatingAdd] at hlt
    omega
  · intro houtcome
    obtain ⟨old, token, response, -, -, hresponse, -, rfl⟩ := currentSession_eq_refreshed houtcome
    have hclock := call.minted.lt
    have hskew : 0 < skewSeconds := by decide
    simp only [refreshed, intoSession, hserver response hresponse, u64SaturatingAdd]
    omega

/-- A refresh that finds a session of the lifetime `lifetime` comes half of it after the session was
minted, or later. -/
theorem half_lifetime_kept {lifetime minted : ℕ} {old : CachedSession} {call : Call}
    (hlifetime : lifetime < 2 ^ 64) (hlong : 60 ≤ lifetime)
    (hrecorded : old.lifetimeSecs = some lifetime)
    (hexpires : u64SaturatingAdd minted lifetime ≤ old.expiresAt)
    (hstale : ¬ old.isFreshFor call.checked.secs (call.freshness.requiredRemainingSecs old)) :
    lifetime ≤ 2 * (call.checked.secs - minted) := by
  have hdemand := requiredRemainingSecs_le_half call.freshness hrecorded hlong
  have hclock := call.checked.lt
  have hexpired : old.expiresAt ≤
      u64SaturatingAdd call.checked.secs (call.freshness.requiredRemainingSecs old) := by
    apply not_lt.mp
    intro hlt
    exact hstale (decide_eq_true hlt)
  rw [u64SaturatingAdd] at hexpired hexpires
  omega

/-- Over every sequence of calls, whatever window each caller has: a session returned to a caller
that caches it outlives the caller's window and the skew, if twice that fits into the lifetime; two
refreshes are half a lifetime apart; and no sum wraps. -/
theorem helper_tokens_outlive_cache {lifetime : ℕ} {start : CachedSession} {calls : List Call}
    (hlifetime : lifetime < 2 ^ 64) (hstart : start.MintedWith lifetime)
    (hserver : IssuesLifetime lifetime calls) (hclock : Chronological calls) :
    (∀ before call after debounceMs, calls = before ++ call :: after →
      call.freshness = .forHelper debounceMs →
      2 * (debounceMs / 1000 + skewSeconds) ≤ lifetime → ∀ session,
      (currentSession (cacheAfter (some start) before) call = .cached session →
        call.checked.secs + (debounceMs / 1000 + skewSeconds) < session.expiresAt) ∧
      (currentSession (cacheAfter (some start) before) call = .refreshed session →
        call.minted.secs + (debounceMs / 1000 + skewSeconds) < session.expiresAt)) ∧
    (60 ≤ lifetime → ∀ before first between second after session session',
      calls = before ++ first :: (between ++ second :: after) →
      currentSession (cacheAfter (some start) before) first = .refreshed session →
      currentSession (cacheAfter (some start) (before ++ first :: between)) second =
        .refreshed session' →
      lifetime ≤ 2 * (second.checked.secs - first.minted.secs)) ∧
    ∀ (freshness : Freshness) (session : CachedSession) (now : ℕ) (response : TokenResponse),
      freshness.requiredRemainingSecs session < 2 ^ 64 ∧
      u64SaturatingAdd now (freshness.requiredRemainingSecs session) < 2 ^ 64 ∧
      (intoSession now response).expiresAt < 2 ^ 64 := by
  refine ⟨?_, ?_, ?_⟩
  · rintro before call after debounceMs rfl hcall hfits session
    apply outlives_window _ hlifetime _ hcall hfits session
    · apply mintedWith_cacheAfter hstart
      intro c hc
      exact hserver c (List.mem_append_left _ hc)
    · exact hserver call (List.mem_append_right _ List.mem_cons_self)
  · rintro hlong before first between second after session session' rfl hfirst hsecond
    -- what the first refresh stores, and that the calls between the two keep it or mint it anew
    have hstored : cacheAfter (some start) (before ++ first :: between) =
        cacheAfter (some session) between := by
      rw [List.append_cons, cacheAfter_append, cacheAfter_concat, cacheAfterCall, hfirst]
    rw [hstored] at hsecond
    obtain ⟨-, token, response, -, -, hresponse, -, rfl⟩ := currentSession_eq_refreshed hfirst
    obtain ⟨old, token', response', hold, -, -, hstale, -⟩ := currentSession_eq_refreshed hsecond
    have hissued := hserver first (List.mem_append_right _ List.mem_cons_self) response hresponse
    have hlater : ∀ c ∈ between, first.minted.secs ≤ c.minted.secs := by
      intro c hc
      have horder := (List.pairwise_cons.mp (List.pairwise_append.mp hclock.between).2.1).1 c
        (List.mem_append_left _ hc)
      have hwithin := hclock.within c (List.mem_append_right _
        (List.mem_cons_of_mem _ (List.mem_append_left _ hc)))
      exact horder.trans hwithin
    have hbetween : IssuesLifetime lifetime between := by
      intro c hc
      exact hserver c (List.mem_append_right _
        (List.mem_cons_of_mem _ (List.mem_append_left _ hc)))
    have hexpires : u64SaturatingAdd first.minted.secs lifetime ≤
        (refreshed first.minted.secs response token).expiresAt := by
      rw [← hissued]
      rfl
    obtain ⟨hrecorded, hexpires⟩ :=
      kept_cacheAfter hbetween hlater (congrArg some hissued) hexpires old hold
    exact half_lifetime_kept hlifetime hlong hrecorded hexpires hstale
  · intro freshness session now response
    exact ⟨requiredRemainingSecs_lt freshness session, u64SaturatingAdd_lt _ _,
      u64SaturatingAdd_lt _ _⟩

/-- Tokens of five minutes, and a helper whose output is cached for two: the first call finds 100
seconds left and refreshes, and so does the last. -/
def twoRefreshes : List Call :=
  [⟨.forHelper 120000, ⟨900, by decide⟩, some ⟨"b", some "rb", some 300⟩, ⟨901, by decide⟩⟩,
    ⟨.skew, ⟨1000, by decide⟩, none, ⟨1000, by decide⟩⟩,
    ⟨.forHelper 120000, ⟨1060, by decide⟩, some ⟨"c", none, some 300⟩, ⟨1060, by decide⟩⟩]

theorem helper_tokens_outlive_cache_twoRefreshes :
    currentSession (some ⟨"a", some "ra", 1000, some 300⟩) twoRefreshes[0] =
      .refreshed ⟨"b", some "rb", 1201, some 300⟩ ∧
    901 + 150 < 1201 ∧
    300 ≤ 2 * (1060 - 901) := by
  have hruns := @helper_tokens_outlive_cache 300 ⟨"a", some "ra", 1000, some 300⟩ twoRefreshes
    (by decide)
    (fun recorded hrecorded => (Option.some.inj hrecorded).symm)
    (by
      intro c hc response hresponse
      fin_cases hc <;> cases hresponse <;> rfl)
    ⟨by decide, by decide⟩
  have hfirst : currentSession (some ⟨"a", some "ra", 1000, some 300⟩) twoRefreshes[0] =
      .refreshed ⟨"b", some "rb", 1201, some 300⟩ := by decide +kernel
  refine ⟨hfirst, ?_, ?_⟩
  · exact (hruns.1 [] twoRefreshes[0] _ 120000 rfl rfl (by decide) _).2 hfirst
  · exact hruns.2.1 (by decide) [] twoRefreshes[0] [twoRefreshes[1]] twoRefreshes[2] []
      ⟨"b", some "rb", 1201, some 300⟩ ⟨"c", some "rb", 1360, some 300⟩ rfl hfirst
      (by decide +kernel)

end Session

end Governance
