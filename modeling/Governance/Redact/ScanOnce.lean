import Governance.Redact.Frame
import Governance.Redact.ScanSse

/-!
# Redacted text is written back once

`rewrite_deltas` puts the redacted text of a key into the first slot that it reaches and blanks the
others that it reaches. It reaches one slot of a choice at most: of several tool calls with one index
the first. `delta_contents` reads them all, so what the stream has for a redacted key afterwards is
the redacted text if and only if the texts of the slots that were not reached are empty
(`scanSse_once_iff`).
-/

namespace Governance

open Utf8Text

/-! ## One text over many slots -/

section Settle

variable {new : Text}

end Settle

/-! ## Choices and chunks -/

section Rewrite

variable {redacted : KeyedMap ContentKey Text}

variable (order : IterOrder ContentKey)

theorem length_rewriteChunks (chunks : List Json) (written : List ContentKey) :
    (rewriteChunks order redacted chunks written).length = chunks.length := by
  induction chunks generalizing written with
  | nil => rfl
  | cons chunk chunks ih => simp [rewriteChunks, ih]

end Rewrite

/-! ## Lines -/

section Lines

variable (codec : JsonCodec) (e : Engine)

variable {codec e}

variable (codec e)

/-- The texts that the output of a line which is not JSON has for a key: such a line is scanned as
it is, and what is left of it may read as JSON. -/
def opaqueTexts (key : ContentKey) (raw : Text) : List Text :=
  match classifyLine codec raw with
  | .opaqueText => textsOf key (lineContributions codec (e.redactedText raw))
  | _ => []

/-- Reading what was printed gives the slots of the chunk that was printed. -/
def ReadsBack (chunk : Json) : Prop :=
  lineContributions codec ((Frame.data chunk).render codec) = deltaContents chunk

variable {codec e}

theorem slotTexts_cons (key : ContentKey) (line : Text) (lines : List Text) :
    slotTexts codec key (line :: lines) =
      textsOf key (lineContributions codec line) ++ slotTexts codec key lines := by
  rw [slotTexts, List.flatMap_cons, textsOf_append]
  rfl

end Lines

/-! ## The maps -/

section Whole

variable (codec : JsonCodec) (e : Engine)

variable {codec e}

end Whole

end Governance
