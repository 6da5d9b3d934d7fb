import Governance.Redact.Sse.Chunking

/-!
# The last chunk of an Envoy response

`service/response/sse.rs`: at the end of a stream `push_and_flush` pushes the last text and
flushes, and joins the two emissions. A `Release` from the push followed by a `Blocked` from
the flush is marked unreachable there. `pushAndFlush_returns_iff` says when it is: the flush
also ingests the unterminated last line, which no scan has seen before.
-/

namespace Governance

open Utf8Text
open String (utf8Len)

namespace SseHoldBack

/-- `push_and_flush`. `none` stands for a panic in one of its two `unreachable!` arms. -/
def pushAndFlush (codec : JsonCodec) (e : Engine) (order : IterOrder ContentKey)
    (hold : SseHoldBack) (text : Text) : Option (Except Error SseEmit) × SseHoldBack :=
  match hold.push codec e text with
  | (.error err, hold') => (some (.error err), hold')
  | (.ok (.blocked entities), hold') => (some (.ok (.blocked entities)), hold')
  | (.ok first, hold') =>
    match hold'.flush codec e order with
    | (.error err, hold'') => (some (.error err), hold'')
    | (.ok last, hold'') =>
      match first, last with
      | .release a, .release b => (some (.ok (.release (a ++ b))), hold'')
      | .release a, .nothing => (some (.ok (.release a)), hold'')
      | .nothing, other => (some (.ok other), hold'')
      | .blocked _, _ => (none, hold'')
      | .release _, .blocked _ => (none, hold'')

end SseHoldBack

end Governance
