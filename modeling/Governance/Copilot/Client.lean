import Governance.Lib.Retry
import Governance.Otel.Enrich

/-!
# Requests that are tried again

`client.rs`: `send_with_retry` sends a request up to three times, while GitHub answers with `429` or
a server error or cannot be reached, and waits in between for what `Retry-After` says or for twice
as long as before. Times are in milliseconds.
-/

namespace Governance

open Utf8Text Retry

namespace Http

/-- What comes of one request: a status with its `Retry-After` header, if that is a text, or no
response. `unreachable` is a connection that was not made or that timed out. -/
inductive Outcome where
  | response (status : ℕ) (retryAfter : Option Text)
  | aborted
  | unreachable
  | otherError
  deriving DecidableEq

end Http

open Http

namespace GithubClient

/-- `MAX_ATTEMPTS`. -/
def maxAttempts : ℕ := 3

/-- `RETRY_BASE_DELAY`. -/
def retryBaseDelay : ℕ := 500

/-- `RETRY_MAX_DELAY`. -/
def retryMaxDelay : ℕ := 30000

/-- `is_retryable_status`. -/
def isRetryableStatus (status : ℕ) : Bool := (500 ≤ status && status < 600) || status = 429

/-- The exponential backoff of `retry_delay`. -/
def backoff (attempt : ℕ) : ℕ :=
  min (retryBaseDelay * min (2 ^ (attempt - 1)) (2 ^ 32 - 1)) retryMaxDelay

/-- `retry_delay`. -/
def retryDelay (attempt : ℕ) (retryAfter : Option Text) : ℕ :=
  match retryAfter.bind fun s => Otlp.parseU64 (String.ofList (Utf8Text.trim s)) with
  | some secs => min (1000 * secs) retryMaxDelay
  | none => backoff attempt

/-- The wait after an outcome that `send_with_retry` tries again. -/
def again (attempt : ℕ) : Outcome → Option ℕ
  | .response status retryAfter =>
    if isRetryableStatus status then some (retryDelay attempt retryAfter) else none
  | .unreachable => some (retryDelay attempt none)
  | .aborted | .otherError => none

/-- `send_with_retry`, started at some time. -/
def sendWithRetry (answer : ℕ → ℕ → Outcome × ℕ) (start : ℕ) : Trace Outcome :=
  loop again answer none (maxAttempts - 1) 1 start

end GithubClient

end Governance
