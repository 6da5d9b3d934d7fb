import Governance.Auth.Session

/-!
# Signing in with a device code

`oauth/device.rs`: `poll` asks the token endpoint whether the user has signed in, again and again
until the device code expires, and slower each time the endpoint says so. Times are in milliseconds
on one clock. The other party is any state machine, and what the network and the timer add is any
delay.

`Grant` is the authorization server of a device code as it should be: it answers a poll that comes
too early with `slow_down`. `poll` never does that to it, and a user who signs in early enough is
signed in.
-/

namespace Governance

open Session

namespace DeviceFlow

/-- What comes of a request to the token endpoint: no response, or whether its status is a success
with what its body is as a `TokenErrorBody` and as a `RawTokenResponse`. -/
inductive TokenAnswer where
  | noResponse
  | response (success : Bool) (asError : Option (Option String)) (asToken : Option TokenResponse)

/-- `token_endpoint::request`, with the `code` of its error. -/
def request : TokenAnswer → Except (Option String) TokenResponse
  | .noResponse => .error none
  | .response false asError _ => .error (asError.getD none)
  | .response true _ none => .error none
  | .response true _ (some token) => .ok token

/-- An `interval`, in seconds. -/
structure PollInterval where
  secs : ℕ
  pos : 0 < secs

namespace PollInterval

/-- `device.interval.max(1)`. -/
def ofDevice (interval : ℕ) : PollInterval := ⟨max interval 1, by omega⟩

/-- `interval += Duration::from_secs(5)`. -/
def slower (interval : PollInterval) : PollInterval := ⟨interval.secs + 5, by omega⟩

def ms (interval : PollInterval) : ℕ := 1000 * interval.secs

theorem ms_pos (interval : PollInterval) : 0 < interval.ms := by
  have hpos := interval.pos
  unfold ms
  omega

end PollInterval

/-- The `DeviceAuthorizationResponse`, without the codes. -/
structure Device where
  expiresIn : ℕ
  interval : ℕ

variable {σ : Type}

/-- What `poll` runs against: the server, how long each sleep is overslept and each poll is under
way there and back, and the time of day. -/
structure Surroundings (σ : Type) where
  server : σ → ℕ → TokenAnswer × σ
  overslept : ℕ → ℕ
  there : ℕ → ℕ
  back : ℕ → ℕ
  timeOfDay : ℕ → ℕ

/-- A poll that was sent, after a sleep of `interval`. -/
structure Poll where
  interval : PollInterval
  sentAt : ℕ
  arrivedAt : ℕ
  answeredAt : ℕ
  answer : TokenAnswer

inductive LoginEnd where
  | session (session : CachedSession)
  | expired
  | failed (code : Option String)

/-- The loop of `poll`, from its turn `n` on. -/
def pollLoop (env : Surroundings σ) (deadline n : ℕ) (s : σ) (clock : ℕ) (interval : PollInterval) :
    List Poll × LoginEnd :=
  let sentAt := clock + interval.ms + env.overslept n
  if deadline ≤ sentAt then ([], .expired)
  else
    let arrivedAt := sentAt + env.there n
    let answered := env.server s arrivedAt
    let answeredAt := arrivedAt + env.back n
    let poll := ⟨interval, sentAt, arrivedAt, answeredAt, answered.1⟩
    match request answered.1 with
    | .ok token => ([poll], .session (intoSession (env.timeOfDay answeredAt) token))
    | .error code =>
      if code = some "authorization_pending" then
        let rest := pollLoop env deadline (n + 1) answered.2 answeredAt interval
        (poll :: rest.1, rest.2)
      else if code = some "slow_down" then
        let rest := pollLoop env deadline (n + 1) answered.2 answeredAt interval.slower
        (poll :: rest.1, rest.2)
      else ([poll], .failed code)
termination_by deadline - clock
decreasing_by all_goals have hpos := interval.ms_pos; omega

/-- `poll`, started at some time. -/
def poll (env : Surroundings σ) (device : Device) (s : σ) (start : ℕ) : List Poll × LoginEnd :=
  pollLoop env (start + 1000 * device.expiresIn) 0 s start (.ofDevice device.interval)

/-! ## What any server sees -/

/-- The interval after an answer that does not end the loop. -/
def nextInterval (p : Poll) : Option PollInterval :=
  match request p.answer with
  | .error code =>
    if code = some "authorization_pending" then some p.interval
    else if code = some "slow_down" then some p.interval.slower
    else none
  | .ok _ => none

/-- Polls that start with a sleep of `interval` at `clock`, each the sleep that the answer before
asks for after it, and none from `deadline` on. -/
def Paced (deadline : ℕ) : ℕ → PollInterval → List Poll → Prop
  | _, _, [] => True
  | clock, interval, p :: rest =>
    p.interval = interval ∧ clock + interval.ms ≤ p.sentAt ∧ p.sentAt ≤ p.answeredAt ∧
      p.sentAt < deadline ∧
      (rest ≠ [] → ∃ next, nextInterval p = some next ∧ Paced deadline p.answeredAt next rest)

/-- How the last answer decides the end. -/
def EndsBy (env : Surroundings σ) (polls : List Poll) : LoginEnd → Prop
  | .session session => ∃ p token, polls.getLast? = some p ∧ request p.answer = .ok token ∧
      session = intoSession (env.timeOfDay p.answeredAt) token
  | .failed code => ∃ p, polls.getLast? = some p ∧ request p.answer = .error code ∧
      nextInterval p = none
  | .expired => ∀ p ∈ polls, ∃ next, nextInterval p = some next

theorem nextInterval_pending {p : Poll}
    (h : request p.answer = .error (some "authorization_pending")) :
    nextInterval p = some p.interval := by
  rw [nextInterval, h]
  exact if_pos rfl

theorem nextInterval_slowDown {p : Poll} (h : request p.answer = .error (some "slow_down")) :
    nextInterval p = some p.interval.slower := by
  rw [nextInterval, h]
  exact if_neg (by decide)

theorem nextInterval_le {p : Poll} {next : PollInterval} (h : nextInterval p = some next) :
    p.interval.ms ≤ next.ms := by
  unfold nextInterval at h
  split at h
  · split at h
    · rw [Option.some.inj h]
    · split at h
      · rw [← Option.some.inj h]
        exact Nat.mul_le_mul_left 1000 (Nat.le_add_right p.interval.secs 5)
      · cases h
  · cases h

/-- One more poll, sent in time. -/
theorem Paced.cons {deadline clock overslept there back : ℕ} {interval : PollInterval}
    {answer : TokenAnswer} {rest : List Poll}
    (hbefore : ¬ deadline ≤ clock + interval.ms + overslept)
    (hrest : rest ≠ [] → ∃ next,
      nextInterval ⟨interval, clock + interval.ms + overslept,
          clock + interval.ms + overslept + there, clock + interval.ms + overslept + there + back,
          answer⟩ = some next ∧
        Paced deadline (clock + interval.ms + overslept + there + back) next rest) :
    Paced deadline clock interval
      (⟨interval, clock + interval.ms + overslept, clock + interval.ms + overslept + there,
        clock + interval.ms + overslept + there + back, answer⟩ :: rest) := by
  refine ⟨rfl, Nat.le_add_right _ _, ?_, Nat.lt_of_not_le hbefore, hrest⟩
  dsimp only
  omega

theorem pollLoop_paced (env : Surroundings σ) (deadline n : ℕ) (s : σ) (clock : ℕ)
    (interval : PollInterval) :
    Paced deadline clock interval (pollLoop env deadline n s clock interval).1 := by
  fun_induction pollLoop env deadline n s clock interval with
  | case1 => trivial
  | case2 n s clock interval sentAt hbefore arrivedAt answered answeredAt poll token hanswer =>
    exact Paced.cons hbefore fun hne => absurd rfl hne
  | case3 n s clock interval sentAt hbefore arrivedAt answered answeredAt poll rest hanswer ih =>
    exact Paced.cons hbefore fun _ => ⟨interval, nextInterval_pending hanswer, ih⟩
  | case4 n s clock interval sentAt hbefore arrivedAt answered answeredAt poll rest hanswer _ ih =>
    exact Paced.cons hbefore fun _ => ⟨interval.slower, nextInterval_slowDown hanswer, ih⟩
  | case5 n s clock interval sentAt hbefore arrivedAt answered answeredAt poll code hanswer =>
    exact Paced.cons hbefore fun hne => absurd rfl hne

theorem EndsBy.cons {env : Surroundings σ} {p : Poll} {polls : List Poll} {e : LoginEnd}
    (hp : ∃ next, nextInterval p = some next) (h : EndsBy env polls e) :
    EndsBy env (p :: polls) e := by
  have hlast : ∀ q, polls.getLast? = some q → (p :: polls).getLast? = some q := by
    intro q hq
    rw [List.getLast?_cons, hq]
    rfl
  cases e with
  | session session =>
    obtain ⟨q, token, hq, hrest⟩ := h
    exact ⟨q, token, hlast q hq, hrest⟩
  | expired => exact List.forall_mem_cons.mpr ⟨hp, h⟩
  | failed code =>
    obtain ⟨q, hq, hrest⟩ := h
    exact ⟨q, hlast q hq, hrest⟩

theorem pollLoop_endsBy (env : Surroundings σ) (deadline n : ℕ) (s : σ) (clock : ℕ)
    (interval : PollInterval) :
    EndsBy env (pollLoop env deadline n s clock interval).1
      (pollLoop env deadline n s clock interval).2 := by
  fun_induction pollLoop env deadline n s clock interval with
  | case1 => exact List.forall_mem_nil _
  | case2 n s clock interval sentAt hbefore arrivedAt answered answeredAt poll token hanswer =>
    exact ⟨poll, token, rfl, hanswer, rfl⟩
  | case3 n s clock interval sentAt hbefore arrivedAt answered answeredAt poll rest hanswer ih =>
    exact ih.cons ⟨interval, nextInterval_pending hanswer⟩
  | case4 n s clock interval sentAt hbefore arrivedAt answered answeredAt poll rest hanswer _ ih =>
    exact ih.cons ⟨interval.slower, nextInterval_slowDown hanswer⟩
  | case5 n s clock interval sentAt hbefore arrivedAt answered answeredAt poll code hanswer hp hs =>
    refine ⟨poll, rfl, hanswer, ?_⟩
    rw [nextInterval, show request poll.answer = .error code from hanswer]
    dsimp only
    rw [if_neg hp, if_neg hs]

/-- There is no time for more polls. -/
theorem Paced.length {deadline clock : ℕ} {interval : PollInterval} {polls : List Poll}
    (h : Paced deadline clock interval polls) (hne : polls ≠ []) :
    clock + polls.length * interval.ms < deadline := by
  induction polls generalizing clock interval with
  | nil => exact absurd rfl hne
  | cons p rest ih =>
    obtain ⟨rfl, hslept, hanswered, hbefore, hrest⟩ := h
    rw [List.length_cons, Nat.succ_mul]
    by_cases hend : rest = []
    · subst hend
      simp only [List.length_nil, Nat.zero_mul, Nat.zero_add]
      omega
    · obtain ⟨next, hnext, hpaced⟩ := hrest hend
      have hmore := ih hpaced hend
      have hslower : rest.length * p.interval.ms ≤ rest.length * next.ms :=
        Nat.mul_le_mul_left _ (nextInterval_le hnext)
      omega

/-- Whatever the server answers and however long that takes: each poll is sent an interval after
the answer to the one before, five seconds more after each `slow_down`, and before the device code
expires; so there are at most as many as intervals fit in. A session comes from a token that the
last poll got, and only an answer that is neither `authorization_pending` nor `slow_down` ends the
login early. -/
theorem poll_paced (env : Surroundings σ) (device : Device) (s : σ) (start : ℕ) :
    Paced (start + 1000 * device.expiresIn) start (.ofDevice device.interval)
        (poll env device s start).1 ∧
      EndsBy env (poll env device s start).1 (poll env device s start).2 ∧
      (poll env device s start).1.length * max device.interval 1 ≤ device.expiresIn := by
  have hpaced := pollLoop_paced env (start + 1000 * device.expiresIn) 0 s start
    (.ofDevice device.interval)
  refine ⟨hpaced, pollLoop_endsBy .., ?_⟩
  by_cases hnone : (poll env device s start).1 = []
  · rw [hnone, List.length_nil, Nat.zero_mul]
    exact Nat.zero_le _
  · have hlength := hpaced.length hnone
    have hms : (PollInterval.ofDevice device.interval).ms = 1000 * max device.interval 1 := rfl
    rw [hms, Nat.mul_left_comm] at hlength
    have hpolls : (pollLoop env (start + 1000 * device.expiresIn) 0 s start
        (.ofDevice device.interval)).1 = (poll env device s start).1 := rfl
    rw [hpolls] at hlength
    omega

/-! ## A server that keeps to the protocol -/

/-- A device code, as its server has it. -/
structure Grant where
  interval : ℕ
  expiresAt : ℕ
  lastPoll : Option ℕ
  approvedAt : Option ℕ
  token : TokenResponse

def refusal (code : String) : TokenAnswer := .response false (some (some code)) none

/-- The answer to a poll that arrives at some time: `slow_down` where it comes too early. -/
def Grant.serve (g : Grant) (now : ℕ) : TokenAnswer × Grant :=
  let polled := { g with lastPoll := some now }
  if g.expiresAt ≤ now then (refusal "expired_token", polled)
  else if g.lastPoll.any fun last => decide (now < last + 1000 * g.interval) then
    (refusal "slow_down", { polled with interval := g.interval + 5 })
  else if g.approvedAt.any fun t => decide (t ≤ now) then
    (.response true none (some g.token), polled)
  else (refusal "authorization_pending", polled)

/-- A poll that is neither too early nor too late is told whether the user has signed in. -/
theorem Grant.serve_eq {g : Grant} {now a : ℕ} (hlast : ∀ last, g.lastPoll = some last →
      last + 1000 * g.interval ≤ now) (hexpires : now < g.expiresAt)
    (happroved : g.approvedAt = some a) :
    g.serve now = (if a ≤ now then .response true none (some g.token)
      else refusal "authorization_pending", { g with lastPoll := some now }) := by
  have hearly : ¬ (g.lastPoll.any fun last => decide (now < last + 1000 * g.interval)) = true := by
    cases hpoll : g.lastPoll with
    | none => exact Bool.false_ne_true
    | some last =>
      have := hlast last hpoll
      simp only [Option.any_some, decide_eq_true_eq]
      omega
  unfold serve
  dsimp only
  rw [if_neg (by omega), if_neg hearly, happroved]
  simp only [Option.any_some, decide_eq_true_eq]
  split <;> rfl

/-- Bounds the delay from one answer of the server to the next poll, but for the sleep. -/
structure LagBound (env : Surroundings σ) (lag : ℕ) : Prop where
  first : env.overslept 0 + env.there 0 ≤ lag
  next : ∀ n, env.back n + env.overslept (n + 1) + env.there (n + 1) ≤ lag

/-- The grant before a turn of the loop whose poll it will take: approved, no slower than the loop,
and in force for the time that the turn takes from `base` on. -/
structure Ready (env : Surroundings Grant) (base lag a : ℕ) (interval : PollInterval) (n : ℕ)
    (g : Grant) (clock : ℕ) : Prop where
  approved : g.approvedAt = some a
  notSlower : g.interval ≤ interval.secs
  earlier : ∀ last, g.lastPoll = some last → last ≤ clock
  soon : clock + env.overslept n + env.there n ≤ base + lag
  inForce : base + interval.ms + lag < g.expiresAt

variable {env : Surroundings Grant} {base lag a n clock : ℕ} {interval : PollInterval} {g : Grant}

/-- The server's answer in such a turn. -/
theorem Ready.serve (h : Ready env base lag a interval n g clock)
    (henv : env.server = Grant.serve) :
    env.server g (clock + interval.ms + env.overslept n + env.there n) =
      (if a ≤ clock + interval.ms + env.overslept n + env.there n then
          .response true none (some g.token)
        else refusal "authorization_pending",
        { g with lastPoll := some (clock + interval.ms + env.overslept n + env.there n) }) := by
  have hsoon := h.soon
  have hinForce := h.inForce
  rw [henv]
  refine Grant.serve_eq (fun last hpolled => ?_) (by omega) h.approved
  have hslower : 1000 * g.interval ≤ interval.ms := Nat.mul_le_mul_left _ h.notSlower
  have hbefore := h.earlier last hpolled
  omega

/-- While the user has not signed in, the next turn is such a turn as well. -/
theorem Ready.next (h : Ready env base lag a interval n g clock) (hlag : LagBound env lag)
    (ha : a ≤ base) (hpending : ¬ a ≤ clock + interval.ms + env.overslept n + env.there n) :
    Ready env base lag a interval (n + 1)
      { g with lastPoll := some (clock + interval.ms + env.overslept n + env.there n) }
      (clock + interval.ms + env.overslept n + env.there n + env.back n) where
  approved := h.approved
  notSlower := h.notSlower
  earlier := by
    rintro last hlast
    rw [← Option.some.inj hlast]
    exact Nat.le_add_right _ _
  soon := by
    have hnext := hlag.next n
    omega
  inForce := h.inForce

theorem request_refusal (code : String) : request (refusal code) = .error (some code) := rfl

/-- From such a turn on, the loop ends with the token and never slows down. -/
theorem pollLoop_grant (henv : env.server = Grant.serve) (hlag : LagBound env lag) (ha : a ≤ base)
    {deadline : ℕ} (h : Ready env base lag a interval n g clock)
    (hdeadline : g.expiresAt ≤ deadline) :
    ∃ now, (pollLoop env deadline n g clock interval).2 = .session (intoSession now g.token) ∧
      ∀ p ∈ (pollLoop env deadline n g clock interval).1, p.interval = interval := by
  fun_induction pollLoop env deadline n g clock interval with
  | case1 n g clock interval sentAt hlate =>
    have hlate : deadline ≤ clock + interval.ms + env.overslept n := hlate
    have hsoon := h.soon
    have hinForce := h.inForce
    omega
  | case2 n g clock interval sentAt hbefore arrivedAt answered answeredAt poll token hanswer =>
    have hserved : answered = _ := h.serve henv
    rw [hserved] at hanswer
    split at hanswer
    · obtain rfl := Except.ok.inj hanswer
      exact ⟨_, rfl, List.forall_mem_singleton.mpr rfl⟩
    · cases hanswer
  | case3 n g clock interval sentAt hbefore arrivedAt answered answeredAt poll rest hanswer ih =>
    have hserved : answered = _ := h.serve henv
    rw [hserved] at hanswer
    split at hanswer
    · cases hanswer
    · next hpending =>
      rw [hserved] at ih
      obtain ⟨now, hsession, hintervals⟩ := ih (h.next hlag ha hpending) hdeadline
      refine ⟨now, ?_, List.forall_mem_cons.mpr ⟨rfl, ?_⟩⟩
      · simpa only [rest, hserved] using hsession
      · simpa only [rest, hserved] using hintervals
  | case4 n g clock interval sentAt hbefore arrivedAt answered answeredAt poll rest hanswer _ ih =>
    have hserved : answered = _ := h.serve henv
    rw [hserved] at hanswer
    split at hanswer
    · cases hanswer
    · rw [request_refusal] at hanswer
      exact absurd (Option.some.inj (Except.error.inj hanswer)) (by decide)
  | case5 n g clock interval sentAt hbefore arrivedAt answered answeredAt poll code hanswer hcode =>
    have hserved : answered = _ := h.serve henv
    rw [hserved] at hanswer
    split at hanswer
    · cases hanswer
    · rw [request_refusal] at hanswer
      exact absurd (Except.error.inj hanswer).symm hcode

/-- A user who signs in is signed in, if a poll fits in between that and the end of the device code,
whatever the delays up to `lag`. The server never has to ask for fewer polls. -/
theorem poll_signs_in (henv : env.server = Grant.serve) (hlag : LagBound env lag) (device : Device)
    (start : ℕ) (hnew : g.lastPoll = none) (hinterval : g.interval ≤ max device.interval 1)
    (happroved : g.approvedAt = some a)
    (hsoon : max start a + 1000 * max device.interval 1 + lag < g.expiresAt)
    (hexpires : g.expiresAt ≤ start + 1000 * device.expiresIn) :
    ∃ now, (poll env device g start).2 = .session (intoSession now g.token) ∧
      ∀ p ∈ (poll env device g start).1, p.interval = .ofDevice device.interval := by
  have hready : Ready env (max start a) lag a (.ofDevice device.interval) 0 g start := by
    constructor
    case approved => exact happroved
    case notSlower => exact hinterval
    case earlier =>
      intro last hlast
      rw [hnew] at hlast
      cases hlast
    case soon =>
      have hfirst := hlag.first
      have hstart : start ≤ max start a := le_max_left _ _
      omega
    case inForce => exact hsoon
  exact pollLoop_grant henv hlag (le_max_right _ _) hready hexpires

/-- A device code that the user approves after twelve seconds. -/
def approvedGrant : Grant where
  interval := 5
  expiresAt := 600000
  lastPoll := none
  approvedAt := some 12000
  token := ⟨"access", some "refresh", some 300⟩

/-- A network that takes 40 milliseconds each way, and a timer that is 3 late. -/
def approvedSurroundings : Surroundings Grant where
  server := Grant.serve
  overslept := fun _ => 3
  there := fun _ => 40
  back := fun _ => 40
  timeOfDay := fun now => 1700000000 + now / 1000

theorem poll_signs_in_approved :
    ∃ now, (poll approvedSurroundings ⟨600, 5⟩ approvedGrant 0).2 =
        .session (intoSession now approvedGrant.token) ∧
      ∀ p ∈ (poll approvedSurroundings ⟨600, 5⟩ approvedGrant 0).1, p.interval = .ofDevice 5 :=
  poll_signs_in rfl ⟨by decide, fun _ => Nat.le_refl 83⟩ ⟨600, 5⟩ 0 rfl (by decide) rfl
    (by decide) (by decide)

end DeviceFlow

end Governance
