import Governance.Copilot.Client

/-!
# The editor's retries

`ide/vscode/src/retry.ts`: `fetchWithRetry` tries a request again like `send_with_retry`, of which
it is a port, but not past an abort, and for a chat only after `429`. A model that the gateway has
begun to answer is not asked again: `chatTrace` never repeats a request that got any other answer,
or none. For the catalogue it does what `send_with_retry` does, where `Retry-After` is a plain
number.
-/

namespace Governance

open Utf8Text Retry Http

namespace FetchWithRetry

/-- `RetryMode`. -/
inductive RetryMode where
  | transient
  | throttleOnly
  deriving DecidableEq

/-- `RETRY_BASE_DELAY_MS`. -/
def retryBaseDelayMs : ℕ := 500

/-- `RETRY_MAX_DELAY_MS`. -/
def retryMaxDelayMs : ℕ := 30000

/-- `MAX_ATTEMPTS`. -/
def defaultMaxAttempts : ℕ := 3

/-- `Number`, of a text that is not empty, where that is a whole number that is not negative.
`other` is what it makes of a text that is not all digits. -/
def wholeNumber (other : Text → Option ℕ) (t : Text) : Option ℕ :=
  if t.all Char.isDigit then some (t.foldl (fun n c => 10 * n + (c.toNat - '0'.toNat)) 0)
  else other t

/-- The exponential backoff of `retryDelay`. -/
def backoff (attempt : ℕ) : ℕ := min (retryBaseDelayMs * 2 ^ (attempt - 1)) retryMaxDelayMs

variable (other : Text → Option ℕ)

/-- `retryDelay`. -/
def retryDelay (attempt : ℕ) (retryAfter : Option Text) : ℕ :=
  match retryAfter with
  | none => backoff attempt
  | some header =>
    if Utf8Text.trim header = [] then backoff attempt
    else
      match wholeNumber other (Utf8Text.trim header) with
      | some secs => min (secs * 1000) retryMaxDelayMs
      | none => backoff attempt

/-- `isRetryableStatus`. -/
def isRetryableStatus (status : ℕ) : Bool := status = 429 || (500 ≤ status && status < 600)

/-- The wait after an outcome that `fetchWithRetry` tries again. -/
def again (retryOn : RetryMode) (attempt : ℕ) : Outcome → Option ℕ
  | .response status retryAfter =>
    if isRetryableStatus status && (status = 429 || retryOn = .transient) then
      some (retryDelay other attempt retryAfter)
    else none
  | .aborted => none
  | .unreachable | .otherError =>
    if retryOn = .transient then some (retryDelay other attempt none) else none

/-- `fetch` with a signal: an abort ends it at once. -/
def fetch (server : ℕ → ℕ → Outcome × ℕ) (abortAt : Option ℕ) (attempt clock : ℕ) : Outcome × ℕ :=
  let answered := server attempt clock
  match abortAt with
  | none => answered
  | some t => if t ≤ clock + answered.2 then (.aborted, t - clock) else answered

/-- `fetchWithRetry`, started at some time. -/
def fetchWithRetry (retryOn : RetryMode) (maxAttempts : ℕ) (server : ℕ → ℕ → Outcome × ℕ)
    (abortAt : Option ℕ) (start : ℕ) : Trace Outcome :=
  loop (again other retryOn) (fetch server abortAt) abortAt (maxAttempts - 1) 1 start

/-- When the signal of `requestSignal` aborts. -/
def requestSignal (timeoutMs : ℕ) (cancelAt : Option ℕ) (start : ℕ) : ℕ :=
  min (start + timeoutMs) (cancelAt.getD (start + timeoutMs))

/-- The requests of one chat response. -/
def chatTrace (server : ℕ → ℕ → Outcome × ℕ) (timeoutMs : ℕ) (cancelAt : Option ℕ) (start : ℕ) :
    Trace Outcome :=
  fetchWithRetry other .throttleOnly defaultMaxAttempts server
    (some (requestSignal timeoutMs cancelAt start)) start

/-! ## A chat is asked once -/

theorem backoff_le (attempt : ℕ) : backoff attempt ≤ retryMaxDelayMs := min_le_right _ _

theorem retryDelay_le (attempt : ℕ) (retryAfter : Option Text) :
    retryDelay other attempt retryAfter ≤ retryMaxDelayMs := by
  unfold retryDelay
  cases retryAfter with
  | none => exact backoff_le attempt
  | some header =>
    dsimp only
    split
    · exact backoff_le attempt
    · cases wholeNumber other (Utf8Text.trim header) with
      | none => exact backoff_le attempt
      | some secs => exact min_le_right _ _

theorem again_le {retryOn : RetryMode} {attempt wait : ℕ} {o : Outcome}
    (h : again other retryOn attempt o = some wait) : wait ≤ retryMaxDelayMs := by
  have hdelay : ∀ (retried : Bool) retryAfter,
      (if retried then some (retryDelay other attempt retryAfter) else none) = some wait →
        wait ≤ retryMaxDelayMs := by
    intro retried retryAfter hwait
    cases retried with
    | false => cases hwait
    | true =>
      rw [← Option.some.inj hwait]
      exact retryDelay_le other attempt retryAfter
  cases o with
  | response status retryAfter => exact hdelay _ _ h
  | aborted => cases h
  | unreachable => exact hdelay (decide (retryOn = .transient)) none (by simpa [again] using h)
  | otherError => exact hdelay (decide (retryOn = .transient)) none (by simpa [again] using h)

/-- Under `throttle-only` nothing but `429` is tried again. -/
theorem again_throttleOnly {attempt : ℕ} {o : Outcome}
    (h : (again other .throttleOnly attempt o).isSome) :
    ∃ retryAfter, o = .response 429 retryAfter := by
  cases o with
  | response status retryAfter =>
    refine ⟨retryAfter, ?_⟩
    dsimp only [again] at h
    split at h
    · next hstatus =>
      have hne : ¬ RetryMode.throttleOnly = .transient := by decide
      simp only [hne, decide_false, Bool.or_false, Bool.and_eq_true, decide_eq_true_eq] at hstatus
      rw [hstatus.2]
    · cases h
  | aborted => cases h
  | unreachable => cases h
  | otherError => cases h

/-- An abort ends the request that is under way. -/
theorem fetch_ends (server : ℕ → ℕ → Outcome × ℕ) (t attempt clock : ℕ) :
    clock + (fetch server (some t) attempt clock).2 ≤ max clock t := by
  unfold fetch
  dsimp only
  split
  · dsimp only
    omega
  · omega

/-- What holds of the requests of a chat response. -/
structure AskedOnce (trace : Trace Outcome) (timeoutMs : ℕ) (cancelAt : Option ℕ) (start : ℕ) :
    Prop where
  attempts : trace.attempts.length ≤ defaultMaxAttempts
  /-- Whatever is sent again was answered with `429`. -/
  throttled : ∀ a ∈ trace.attempts.dropLast, ∃ retryAfter, a.outcome = .response 429 retryAfter
  waits : ∀ w ∈ trace.waits, w ≤ retryMaxDelayMs
  timeout : trace.endsAt ≤ start + timeoutMs
  cancelled : ∀ t, cancelAt = some t →
    trace.endsAt ≤ max start t ∧ ∀ a ∈ trace.attempts.tail, a.sentAt < t

/-- The gateway is not asked again for an answer that it may have begun, and `requestTimeoutMs` and
the user's cancellation bound the requests and the waits between them. -/
theorem chat_asked_once (server : ℕ → ℕ → Outcome × ℕ) (timeoutMs : ℕ) (cancelAt : Option ℕ)
    (start : ℕ) :
    AskedOnce (chatTrace other server timeoutMs cancelAt start) timeoutMs cancelAt start := by
  have hends : (chatTrace other server timeoutMs cancelAt start).endsAt ≤
      max start (requestSignal timeoutMs cancelAt start) :=
    endsAt_le rfl (fetch_ends server _) (defaultMaxAttempts - 1) 1 start
  constructor
  case attempts => exact length_attempts_le (defaultMaxAttempts - 1) 1 start
  case throttled =>
    intro a ha
    obtain ⟨attempt, hagain⟩ := retried_of_mem_dropLast (defaultMaxAttempts - 1) 1 start a ha
    exact again_throttleOnly other hagain
  case waits =>
    intro w hw
    obtain ⟨attempt, o, hagain⟩ := waits_of_policy (defaultMaxAttempts - 1) 1 start w hw
    exact again_le other hagain
  case timeout =>
    refine hends.trans (max_le (Nat.le_add_right _ _) ?_)
    exact min_le_left _ _
  case cancelled =>
    rintro t rfl
    have hsignal : requestSignal timeoutMs (some t) start ≤ t := min_le_right _ _
    refine ⟨hends.trans (max_le_max (le_refl _) hsignal), fun a ha => ?_⟩
    exact (sentAt_lt rfl (defaultMaxAttempts - 1) 1 start a ha).trans_le hsignal

/-! ## The port -/

/-- A `Retry-After` header that `Number` and `parse::<u64>` read alike. -/
def ReadAlike (header : Text) : Prop :=
  Utf8Text.trim header ≠ [] →
    wholeNumber other (Utf8Text.trim header) = Otlp.parseU64 (String.ofList (Utf8Text.trim header))

/-- What comes of a request that `fetchWithRetry` and `send_with_retry` take alike. -/
def TakenAlike : Outcome → Prop
  | .response _ (some header) => ReadAlike other header
  | .otherError => False
  | _ => True

/-- A number of seconds that fits in 64 bits is read alike. -/
theorem readAlike_digits {header : Text} (hdigits : (Utf8Text.trim header).all Char.isDigit = true)
    (hfits : (Utf8Text.trim header).foldl (fun n c => 10 * n + (c.toNat - '0'.toNat)) 0 < 2 ^ 64) :
    ReadAlike other header := by
  intro hne
  have hplain : ∀ c rest, Utf8Text.trim header = c :: rest → c ≠ '+' := by
    rintro c rest htrim rfl
    rw [htrim] at hdigits
    simp at hdigits
  unfold wholeNumber Otlp.parseU64
  rw [String.toList_ofList, if_pos hdigits]
  split
  · next rest htrim => exact absurd rfl (hplain _ _ htrim)
  · rw [if_neg (by simp [hne, hdigits]), if_pos hfits]

theorem backoff_eq (attempt : ℕ) : backoff attempt = GithubClient.backoff attempt := by
  unfold backoff GithubClient.backoff
  unfold retryBaseDelayMs retryMaxDelayMs GithubClient.retryBaseDelay GithubClient.retryMaxDelay
  omega

theorem retryDelay_eq {header : Text} (h : ReadAlike other header) (attempt : ℕ) :
    retryDelay other attempt (some header) = GithubClient.retryDelay attempt (some header) := by
  have hblank : Otlp.parseU64 (String.ofList []) = none := by decide
  unfold retryDelay GithubClient.retryDelay
  simp only [Option.bind_some]
  by_cases hne : Utf8Text.trim header = []
  · rw [if_pos hne, hne, hblank]
    exact backoff_eq attempt
  · rw [if_neg hne, h hne]
    cases Otlp.parseU64 (String.ofList (Utf8Text.trim header)) with
    | none => exact backoff_eq attempt
    | some secs => exact congrArg (min · 30000) (Nat.mul_comm secs 1000)

theorem again_transient {o : Outcome} (h : TakenAlike other o) (attempt : ℕ) :
    again other .transient attempt o = GithubClient.again attempt o := by
  have hdelay : ∀ retryAfter, TakenAlike other (.response 0 retryAfter) →
      retryDelay other attempt retryAfter = GithubClient.retryDelay attempt retryAfter := by
    intro retryAfter halike
    cases retryAfter with
    | none => exact backoff_eq attempt
    | some header => exact retryDelay_eq other halike attempt
  cases o with
  | response status retryAfter =>
    have halike : TakenAlike other (.response 0 retryAfter) := by
      cases retryAfter with
      | none => trivial
      | some header => exact h
    have hstatus : isRetryableStatus status = GithubClient.isRetryableStatus status :=
      Bool.or_comm _ _
    simp only [again, GithubClient.again, hdelay retryAfter halike, hstatus, decide_true,
      Bool.or_true, Bool.and_true]
  | aborted => rfl
  | unreachable =>
    rw [again, if_pos rfl, hdelay none trivial]
    rfl
  | otherError => exact h.elim

/-- Where no abort comes between, `fetchWithRetry` as the catalogue uses it sends what
`send_with_retry` sends, waits as long, and ends alike. -/
theorem fetchWithRetry_eq_sendWithRetry {server : ℕ → ℕ → Outcome × ℕ}
    (halike : ∀ attempt clock, TakenAlike other (server attempt clock).1) (start : ℕ) :
    fetchWithRetry other .transient defaultMaxAttempts server none start =
      GithubClient.sendWithRetry server start :=
  loop_congr (fun attempt clock => again_transient other (halike attempt clock) attempt)
    (defaultMaxAttempts - 1) 1 start

/-- A gateway that is overloaded for a while. -/
theorem fetchWithRetry_eq_sendWithRetry_overloaded :
    fetchWithRetry (fun _ => none) .transient defaultMaxAttempts
        (fun attempt _ => if attempt = 1 then (.response 503 (some ['7']), 20)
          else (.response 200 none, 30)) none 0 =
      GithubClient.sendWithRetry
        (fun attempt _ => if attempt = 1 then (.response 503 (some ['7']), 20)
          else (.response 200 none, 30)) 0 := by
  refine fetchWithRetry_eq_sendWithRetry _ (fun attempt clock => ?_) 0
  by_cases hfirst : attempt = 1
  · rw [if_pos hfirst]
    exact readAlike_digits _ (by decide) (by decide)
  · rw [if_neg hfirst]
    trivial

end FetchWithRetry

end Governance
