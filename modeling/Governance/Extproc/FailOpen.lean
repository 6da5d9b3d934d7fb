import Governance.Extproc.Answers

/-!
# Failing open after chunks were withheld

On a profile that does not fail closed, a chunk that cannot be decided is answered with a plain
`Continue`, and Envoy delivers that chunk as it came. The chunks before it are gone: while they were
accumulated each was answered with an empty body. So the client gets the original response if and
only if nothing was withheld before (`NothingWithheld`).
-/

namespace Governance

open Utf8Text

namespace Extproc

variable (env : ExtEnv)

/-- The state of a response behind its headers. -/
def responseStart (headers : Option (List HeaderValue)) : ResponseState :=
  (ResponseState.new env.window).setModeFromHeaders headers

variable {env} (hopen : env.engine.profile.failClosed = false)

/-- What is received is sent or in the buffer; what is in the buffer stays there. -/
structure Accounted (buf buf' sent received : Bytes) : Prop where
  length : sent.length + buf'.length = buf.length + received.length
  empty : buf' = [] → buf = [] ∧ sent = received

end Extproc

end Governance
