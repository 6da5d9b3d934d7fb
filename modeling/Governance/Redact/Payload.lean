import Governance.Redact.Slots

/-!
# Whole request and response bodies

`payload.rs`: the walkers that decide which strings of an OpenAI body are user content, and
scan them in place. `requestTexts` and `responseTexts` list those strings. `scanRequest_report`
and `scanResponse_report` say that the engine is asked about exactly these, in this order,
whatever it answers.
-/

namespace Governance

open Utf8Text

/-- `payload::ScanReport`. -/
structure ScanReport where
  blocked : List String
  redactions : ℕ
  scannedFields : ℕ
  deriving DecidableEq, Repr

namespace ScanReport

/-- `ScanReport::default`. -/
def default : ScanReport := ⟨[], 0, 0⟩

/-- `ScanReport::is_blocked`. -/
def isBlocked (r : ScanReport) : Bool := !r.blocked.isEmpty

/-- The report after `ScanReport::merge_verdict`. -/
def mergeVerdict (r : ScanReport) : Verdict → ScanReport
  | .clean => { r with scannedFields := r.scannedFields + 1 }
  | .redacted _ count =>
    { r with scannedFields := r.scannedFields + 1, redactions := r.redactions + count }
  | .blocked entities =>
    { r with scannedFields := r.scannedFields + 1, blocked := sortDedup (r.blocked ++ entities) }

end ScanReport

/-- The replacement `ScanReport::merge_verdict` answers. -/
def Verdict.replacement : Verdict → Option Text
  | .redacted text _ => some text
  | _ => none

/-- A walk over a value that may rewrite it and adds to a report. -/
def Walk := Json → ScanReport → Except Error (Json × ScanReport)

namespace Walk

/-- One walk after the other, over one value. -/
def andThen (f g : Walk) : Walk := fun v report =>
  match f v report with
  | .error err => .error err
  | .ok (v', report') => g v' report'

/-- The walk of the first entry of `key` among some entries. -/
def entry (key : String) (f : Walk) :
    List (String × Json) → ScanReport → Except Error (List (String × Json) × ScanReport)
  | [], report => .ok ([], report)
  | (k, v) :: rest, report =>
    if k = key then (f v report).map fun r => ((k, r.1) :: rest, r.2)
    else (entry key f rest report).map fun r => ((k, v) :: r.1, r.2)

/-- A walk of the value `Value::get_mut` finds under `key`, if there is one. -/
def inKey (key : String) (f : Walk) : Walk
  | .obj entries, report => (entry key f entries report).map fun r => (.obj r.1, r.2)
  | v, report => .ok (v, report)

/-- The walk of each element in turn. -/
def items (f : Walk) : List Json → ScanReport → Except Error (List Json × ScanReport)
  | [], report => .ok ([], report)
  | x :: xs, report =>
    match f x report with
    | .error err => .error err
    | .ok (x', report') => (items f xs report').map fun r => (x' :: r.1, r.2)

/-- A walk of the elements of a value that is an array. -/
def inArray (f : Walk) : Walk
  | .arr xs, report => (items f xs report).map fun r => (.arr r.1, r.2)
  | v, report => .ok (v, report)

end Walk

/-- `scan_slot`. -/
def scanSlot (e : Engine) : Walk
  | .str text, report =>
    match e.scan text with
    | .error err => .error err
    | .ok verdict =>
      .ok ((verdict.replacement.map Json.str).getD (.str text), report.mergeVerdict verdict)
  | slot, report => .ok (slot, report)

/-- `scan_content`. -/
def scanContent (e : Engine) : Walk
  | .arr parts, report => Walk.inArray (Walk.inKey "text" (scanSlot e)) (.arr parts) report
  | other, report => scanSlot e other report

/-- `scan_string_or_array`. -/
def scanStringOrArray (e : Engine) : Walk
  | .arr items, report => Walk.inArray (scanSlot e) (.arr items) report
  | other, report => scanSlot e other report

/-- `scan_message`. -/
def scanMessage (e : Engine) : Walk :=
  Walk.andThen (Walk.inKey "content" (scanContent e))
    (Walk.inKey "tool_calls" (Walk.inArray
      (Walk.inKey "function" (Walk.inKey "arguments" (scanSlot e)))))

/-- `scan_request`. -/
def scanRequest (e : Engine) (body : Json) : Except Error (Json × ScanReport) :=
  Walk.andThen (Walk.inKey "messages" (Walk.inArray (scanMessage e)))
    (Walk.andThen (Walk.inKey "input" (scanStringOrArray e))
      (Walk.inKey "prompt" (scanStringOrArray e))) body .default

/-- The turn of `scan_response` for one choice. -/
def scanChoice (e : Engine) : Walk :=
  Walk.andThen (Walk.inKey "message" (scanMessage e)) (Walk.inKey "text" (scanStringOrArray e))

/-- `scan_response`. -/
def scanResponse (e : Engine) (body : Json) : Except Error (Json × ScanReport) :=
  Walk.inKey "choices" (Walk.inArray (scanChoice e)) body .default

/-! ## The strings a walk hands to the engine -/

/-- The text of a slot, if it holds a string. -/
def slotText (v : Json) : List Text := v.asStr.toList

/-- The texts of a `content` field. -/
def contentTexts : Json → List Text
  | .arr parts => parts.flatMap fun part => (part.get "text").elim [] slotText
  | other => slotText other

/-- The texts of a string or of an array of strings. -/
def stringOrArrayTexts : Json → List Text
  | .arr items => items.flatMap slotText
  | other => slotText other

/-- The texts of the elements of a value that is an array. -/
def itemTexts (g : Json → List Text) (v : Json) : List Text := (v.asArray.getD []).flatMap g

/-- The texts under one key. -/
def keyTexts (key : String) (g : Json → List Text) (v : Json) : List Text := (v.get key).elim [] g

/-- The texts of a chat message. -/
def messageTexts (message : Json) : List Text :=
  keyTexts "content" contentTexts message ++
    keyTexts "tool_calls" (itemTexts (keyTexts "function" (keyTexts "arguments" slotText))) message

/-- The texts of a choice of a buffered response. -/
def choiceTexts (choice : Json) : List Text :=
  keyTexts "message" messageTexts choice ++ keyTexts "text" stringOrArrayTexts choice

/-- The texts of a response body. -/
def responseTexts (body : Json) : List Text := keyTexts "choices" (itemTexts choiceTexts) body

/-- The texts of a request body. -/
def requestTexts (body : Json) : List Text :=
  keyTexts "messages" (itemTexts messageTexts) body ++
    (keyTexts "input" stringOrArrayTexts body ++ keyTexts "prompt" stringOrArrayTexts body)

/-- The engine's answers to some texts, folded into a report. -/
def scanTexts (e : Engine) : List Text → ScanReport → Except Error ScanReport
  | [], report => .ok report
  | text :: rest, report =>
    match e.scan text with
    | .error err => .error err
    | .ok verdict => scanTexts e rest (report.mergeVerdict verdict)

theorem scanTexts_append (e : Engine) (as bs : List Text) (report : ScanReport) :
    scanTexts e (as ++ bs) report = (scanTexts e as report).bind (scanTexts e bs) := by
  induction as generalizing report with
  | nil => rfl
  | cons a as ih =>
    rw [List.cons_append, scanTexts, scanTexts]
    cases e.scan a with
    | error err => rfl
    | ok verdict => exact ih _

namespace Walk

/-- The walk `f` hands exactly the texts `g` finds to the engine. -/
def Scans (e : Engine) (f : Walk) (g : Json → List Text) : Prop :=
  ∀ v report, (f v report).map Prod.snd = scanTexts e (g v) report

/-- A walk leaves what `g` finds as it was. -/
def Keeps (f : Walk) (g : Json → List Text) : Prop :=
  ∀ v report v' report', f v report = .ok (v', report') → g v' = g v

variable {e : Engine} {f f' : Walk} {g g' : Json → List Text}

theorem Scans.andThen (hf : Scans e f g) (hf' : Scans e f' g') (hkeep : Keeps f g') :
    Scans e (f.andThen f') fun v => g v ++ g' v := by
  intro v report
  rw [scanTexts_append, ← hf v report, Walk.andThen]
  cases h : f v report with
  | error err => rfl
  | ok r =>
    obtain ⟨v', report'⟩ := r
    show (f' v' report').map Prod.snd = scanTexts e (g' v) report'
    rw [hf' v' report', hkeep v report v' report' h]

theorem Scans.inKey (hf : Scans e f g) (key : String) : Scans e (inKey key f) (keyTexts key g) := by
  intro v report
  cases v with
  | obj entries =>
    have hentry : (Walk.entry key f entries report).map Prod.snd =
        scanTexts e ((entries.lookup key).elim [] g) report := by
      induction entries with
      | nil => rfl
      | cons kv rest ih =>
        obtain ⟨k, v⟩ := kv
        by_cases hk : k = key
        · subst hk
          rw [Walk.entry, if_pos rfl, List.lookup_cons_self, Option.elim_some, ← hf v report]
          cases f v report <;> rfl
        · rw [Walk.entry, if_neg hk, List.lookup, beq_eq_false_iff_ne.mpr (Ne.symm hk), ← ih]
          cases Walk.entry key f rest report <;> rfl
    rw [keyTexts, Json.get, ← hentry, Walk.inKey]
    cases Walk.entry key f entries report <;> rfl
  | _ => rfl

theorem Scans.items (hf : Scans e f g) (xs : List Json) (report : ScanReport) :
    (items f xs report).map Prod.snd = scanTexts e (xs.flatMap g) report := by
  induction xs generalizing report with
  | nil => rfl
  | cons x xs ih =>
    rw [List.flatMap_cons, scanTexts_append, ← hf x report, Walk.items]
    cases f x report with
    | error err => rfl
    | ok r =>
      obtain ⟨x', report'⟩ := r
      show _ = scanTexts e (xs.flatMap g) report'
      rw [← ih report']
      show ((Walk.items f xs report').map _).map Prod.snd = _
      cases Walk.items f xs report' <;> rfl

theorem Scans.inArray (hf : Scans e f g) : Scans e (inArray f) (itemTexts g) := by
  intro v report
  cases v with
  | arr xs =>
    show _ = scanTexts e (xs.flatMap g) report
    rw [← hf.items xs report, Walk.inArray]
    cases Walk.items f xs report <;> rfl
  | _ => rfl

/-- A walk under one key does not show under another. -/
theorem get_of_inKey {key other : String} (hne : other ≠ key) {v v' : Json}
    {report report' : ScanReport} (h : inKey key f v report = .ok (v', report')) :
    v'.get other = v.get other := by
  cases v with
  | obj entries =>
    rw [inKey] at h
    cases hentry : entry key f entries report with
    | error err => simp [hentry, Except.map] at h
    | ok r =>
      obtain ⟨entries', report''⟩ := r
      rw [hentry] at h
      obtain ⟨rfl, rfl⟩ : Json.obj entries' = v' ∧ report'' = report' := by
        simpa [Except.map] using h
      rw [Json.get, Json.get]
      clear h
      induction entries generalizing entries' with
      | nil =>
        obtain ⟨rfl, -⟩ : [] = entries' ∧ report = report'' := by simpa [entry] using hentry
        rfl
      | cons kv rest ih =>
        obtain ⟨k, x⟩ := kv
        unfold entry at hentry
        split at hentry
        · next hk =>
          cases hx : f x report with
          | error err => simp [hx, Except.map] at hentry
          | ok r =>
            obtain ⟨rfl, -⟩ : (k, r.1) :: rest = entries' ∧ r.2 = report'' := by
              simpa [hx, Except.map] using hentry
            have hko : (other == k) = false := beq_eq_false_iff_ne.mpr (by rw [hk]; exact hne)
            simp [List.lookup, hko]
        · cases hrest : entry key f rest report with
          | error err => simp [hrest, Except.map] at hentry
          | ok r =>
            obtain ⟨rfl, hreport⟩ : (k, x) :: r.1 = entries' ∧ r.2 = report'' := by
              simpa [hrest, Except.map] using hentry
            have hih := ih r.1 (by rw [hrest, ← hreport])
            by_cases hko : other = k
            · simp [List.lookup, hko]
            · simpa [List.lookup, beq_eq_false_iff_ne.mpr hko] using hih
  | _ =>
    obtain ⟨rfl, -⟩ := by simpa [inKey] using h
    rfl

theorem keeps_inKey {key other : String} (hne : other ≠ key) (f : Walk) (g : Json → List Text) :
    Keeps (inKey key f) (keyTexts other g) := by
  intro v report v' report' h
  rw [keyTexts, keyTexts, get_of_inKey hne h]

end Walk

section Scans

variable (e : Engine)

theorem scanSlot_scans : (Walk.Scans e (scanSlot e) slotText) := by
  intro v report
  cases v with
  | str text =>
    show _ = scanTexts e [text] report
    simp only [scanSlot, scanTexts]
    cases e.scan text <;> rfl
  | _ => rfl

theorem scanContent_scans : (Walk.Scans e (scanContent e) contentTexts) := by
  intro v report
  cases v with
  | arr parts => exact ((scanSlot_scans e).inKey "text").inArray (.arr parts) report
  | null => exact scanSlot_scans e .null report
  | bool b => exact scanSlot_scans e (.bool b) report
  | num n => exact scanSlot_scans e (.num n) report
  | str t => exact scanSlot_scans e (.str t) report
  | obj entries => exact scanSlot_scans e (.obj entries) report

theorem scanStringOrArray_scans : (Walk.Scans e (scanStringOrArray e) stringOrArrayTexts) := by
  intro v report
  cases v with
  | arr items => exact (scanSlot_scans e).inArray (.arr items) report
  | null => exact scanSlot_scans e .null report
  | bool b => exact scanSlot_scans e (.bool b) report
  | num n => exact scanSlot_scans e (.num n) report
  | str t => exact scanSlot_scans e (.str t) report
  | obj entries => exact scanSlot_scans e (.obj entries) report

theorem scanMessage_scans : (Walk.Scans e (scanMessage e) messageTexts) :=
  ((scanContent_scans e).inKey "content").andThen
    ((((scanSlot_scans e).inKey "arguments").inKey "function").inArray.inKey "tool_calls")
    (Walk.keeps_inKey (by decide) _ _)

theorem scanChoice_scans : (Walk.Scans e (scanChoice e) choiceTexts) :=
  ((scanMessage_scans e).inKey "message").andThen ((scanStringOrArray_scans e).inKey "text")
    (Walk.keeps_inKey (by decide) _ _)

/-- `scan_response` asks the engine about the response's texts, and reports its answers. -/
theorem scanResponse_report (body : Json) :
    (scanResponse e body).map Prod.snd = scanTexts e (responseTexts body) .default :=
  (scanChoice_scans e).inArray.inKey "choices" body .default

/-- `scan_request` asks the engine about the request's texts, and reports its answers. -/
theorem scanRequest_report (body : Json) :
    (scanRequest e body).map Prod.snd = scanTexts e (requestTexts body) .default := by
  have hrest := ((scanStringOrArray_scans e).inKey "input").andThen
    ((scanStringOrArray_scans e).inKey "prompt") (Walk.keeps_inKey (by decide) _ _)
  refine ((scanMessage_scans e).inArray.inKey "messages").andThen hrest ?_ body .default
  intro v report v' report' h
  have hinput := Walk.keeps_inKey (by decide : "input" ≠ "messages") _ stringOrArrayTexts
    v report v' report' h
  have hprompt := Walk.keeps_inKey (by decide : "prompt" ≠ "messages") _ stringOrArrayTexts
    v report v' report' h
  simp only [hinput, hprompt]

end Scans

end Governance
