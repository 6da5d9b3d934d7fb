import Governance.Redact.Json

/-!
# The redaction engine

`profile.rs` and `engine.rs`: which action a profile takes for an entity type, where the
entities of a text are (`Engine.detect`) and what the text becomes (`Engine.scan`).

The analyzer and the anonymizer come from the `pii` crate, so an engine carries them as
functions. Both may fail; `Engine.ErrorFree` says that scanning never does.
-/

namespace Governance

open Utf8Text
open String (utf8Len)

/-- `profile::Action`. -/
inductive Action where
  | allow
  | block
  | replace
  | mask
  | hash
  deriving DecidableEq, Repr

/-- `pii::anonymize::Operator`, the variants the profiles use. -/
inductive Operator where
  | redact
  | mask (ch : Char) (fromEnd : ℕ)
  | hashSha256 (salt : String)
  deriving DecidableEq, Repr

/-- `Action::operator`: the transform of an action, if it is one. -/
def Action.operator (salt : String) : Action → Option Operator
  | .allow | .block => none
  | .replace => some .redact
  | .mask => some (.mask '*' 4)
  | .hash => some (.hashSha256 salt)

/-- `profile::Profile`. Entity types are their `EntityType::as_str` names. -/
structure Profile where
  defaultAction : Action
  actions : List (String × Action)
  failClosed : Bool

/-- `Profile::action_for`. -/
def Profile.actionFor (p : Profile) (entity : String) : Action :=
  (p.actions.lookup entity).getD p.defaultAction

/-- `pii::types::Detection`: an entity type and the bytes `start..stop` it covers. -/
structure Detection where
  start : ℕ
  stop : ℕ
  entity : String
  deriving DecidableEq, Repr

/-- `engine::Span`. -/
structure Span where
  start : ℕ
  stop : ℕ
  entity : String
  action : Action
  deriving DecidableEq, Repr

/-- `pii::anonymize::AnonymizeConfig`. -/
structure AnonymizeConfig where
  default : Operator
  perEntity : List (String × Operator)

/-- `error::Error`, the variants scanning can return. -/
inductive Error where
  | analyze (message : String)
  | anonymize (message : String)
  deriving DecidableEq, Repr

/-- `engine::Verdict`. -/
inductive Verdict where
  | clean
  | redacted (text : Text) (count : ℕ)
  | blocked (entities : List String)
  deriving DecidableEq, Repr

/-- `engine::Engine`, with the two functions of the `pii` crate it calls: the analyzer and
`Anonymizer::anonymize`, which answers the new text and the number of items it changed. -/
structure Engine where
  analyze : Text → Except String (List Detection)
  anonymize : Text → List Detection → AnonymizeConfig → Except String (Text × ℕ)
  profile : Profile
  salt : String

/-- `sort_unstable` followed by `dedup`. -/
def sortDedup (names : List String) : List String :=
  (names.insertionSort (· ≤ ·)).destutter (· ≠ ·)

/-- The blocking entity types among some spans, sorted and without repetitions. -/
def blockingEntities (spans : List Span) : List String :=
  sortDedup ((spans.filter fun s => s.action = .block).map Span.entity)

namespace Engine

variable (e : Engine)

/-- The span a detection becomes under the engine's profile. -/
def toSpan (d : Detection) : Span :=
  ⟨d.start, d.stop, d.entity, e.profile.actionFor d.entity⟩

/-- `Engine::detect`: the entities the profile does not allow, sorted by their start. -/
def detect (text : Text) : Except Error (List Span) :=
  if text = [] then .ok []
  else match e.analyze text with
    | .error message => .error (.analyze message)
    | .ok entities =>
      .ok (((entities.map e.toSpan).filter fun s => s.action ≠ .allow).insertionSort
        fun a b => a.start ≤ b.start)

/-- One operator for each entity type, taken from its first detection. -/
def perEntity : List Detection → List (String × Operator) → List (String × Operator)
  | [], config => config
  | d :: ds, config =>
    if (config.lookup d.entity).isSome then perEntity ds config
    else match (e.profile.actionFor d.entity).operator e.salt with
      | some op => perEntity ds (config ++ [(d.entity, op)])
      | none => perEntity ds config

/-- The configuration `Engine::scan` hands to the anonymizer. -/
def anonymizeConfig (transformable : List Detection) : AnonymizeConfig where
  default := (e.profile.defaultAction.operator e.salt).getD .redact
  perEntity := e.perEntity transformable []

/-- `Engine::scan`. -/
def scan (text : Text) : Except Error Verdict :=
  if text = [] then .ok .clean
  else match e.analyze text with
    | .error message => .error (.analyze message)
    | .ok entities =>
      if entities = [] then .ok .clean
      else
        let blocking := (entities.filter fun d => e.profile.actionFor d.entity = .block).map
          Detection.entity
        if blocking ≠ [] then .ok (.blocked (sortDedup blocking))
        else
          let transformable := entities.filter fun d => e.profile.actionFor d.entity ≠ .allow
          if transformable = [] then .ok .clean
          else match e.anonymize text transformable (e.anonymizeConfig transformable) with
            | .error message => .error (.anonymize message)
            | .ok (newText, count) => .ok (.redacted newText count)

/-- What `scan` leaves of a text it neither blocks nor fails on. -/
def scanText (text : Text) : Option Text :=
  match e.scan text with
  | .ok .clean => some text
  | .ok (.redacted newText _) => some newText
  | _ => none

/-- The engine never fails. -/
structure ErrorFree : Prop where
  analyze : ∀ text, ∃ entities, e.analyze text = .ok entities
  scan : ∀ text, ∃ v, e.scan text = .ok v

/-- Every reported detection is a range of bytes of the text it was found in. -/
def InRange : Prop :=
  ∀ text entities, e.analyze text = .ok entities →
    ∀ d ∈ entities, d.start < d.stop ∧ d.stop ≤ utf8Len text

variable {e}

theorem ErrorFree.detect (h : e.ErrorFree) (text : Text) :
    ∃ spans, e.detect text = .ok spans := by
  unfold Engine.detect
  split
  · exact ⟨_, rfl⟩
  · obtain ⟨entities, hd⟩ := h.analyze text
    rw [hd]
    exact ⟨_, rfl⟩

/-- An engine is error free when the two functions of the `pii` crate always answer. -/
theorem errorFree_of_total (hanalyze : ∀ text, ∃ entities, e.analyze text = .ok entities)
    (hanonymize : ∀ text entities config, ∃ r, e.anonymize text entities config = .ok r) :
    e.ErrorFree := by
  refine ⟨hanalyze, fun text => ?_⟩
  unfold Engine.scan
  split
  · exact ⟨_, rfl⟩
  obtain ⟨entities, hd⟩ := hanalyze text
  simp only [hd]
  split
  · exact ⟨_, rfl⟩
  split
  · exact ⟨_, rfl⟩
  split
  · exact ⟨_, rfl⟩
  · obtain ⟨⟨t, n⟩, ha⟩ := hanonymize text
      (entities.filter fun d => e.profile.actionFor d.entity ≠ .allow)
      (e.anonymizeConfig (entities.filter fun d => e.profile.actionFor d.entity ≠ .allow))
    rw [ha]
    exact ⟨_, rfl⟩

/-- The spans of a text are its detections that the profile does not allow. -/
theorem mem_of_detect {text : Text} {spans : List Span} (h : e.detect text = .ok spans)
    {s : Span} (hs : s ∈ spans) :
    ∃ entities, e.analyze text = .ok entities ∧ ∃ d ∈ entities, e.toSpan d = s ∧
      s.action ≠ .allow := by
  unfold Engine.detect at h
  split at h
  · cases h
    simp at hs
  · split at h
    · cases h
    · next entities hd =>
      cases h
      rw [List.mem_insertionSort, List.mem_filter, List.mem_map] at hs
      obtain ⟨⟨d, hmem, rfl⟩, hact⟩ := hs
      exact ⟨entities, hd, d, hmem, rfl, by simpa using hact⟩

theorem InRange.detect (h : e.InRange) {text : Text} {spans : List Span}
    (hd : e.detect text = .ok spans) {s : Span} (hs : s ∈ spans) :
    s.start < s.stop ∧ s.stop ≤ utf8Len text := by
  obtain ⟨entities, ha, d, hmem, rfl, _⟩ := mem_of_detect hd hs
  exact h text entities ha d hmem

end Engine

/-! ## A small engine -/

/-- The occurrences of one character in a text whose first byte is at `offset`. -/
def charDetections (c : Char) : Text → ℕ → List Detection
  | [], _ => []
  | x :: xs, offset =>
    if x = c then ⟨offset, offset + x.utf8Size, "CHAR"⟩ :: charDetections c xs (offset + x.utf8Size)
    else charDetections c xs (offset + x.utf8Size)

/-- An engine that takes one action on every occurrence of one character, for concrete runs. -/
def charEngine (c : Char) (action : Action) : Engine where
  analyze text := .ok (charDetections c text 0)
  anonymize text entities _ := .ok (text.map fun x => if x = c then '*' else x, entities.length)
  profile := ⟨.allow, [("CHAR", action)], true⟩
  salt := ""

theorem charEngine_errorFree (c : Char) (action : Action) : (charEngine c action).ErrorFree :=
  Engine.errorFree_of_total (fun _ => ⟨_, rfl⟩) (fun _ _ _ => ⟨_, rfl⟩)

theorem charDetections_mem {c : Char} {text : Text} {offset : ℕ} {d : Detection}
    (hd : d ∈ charDetections c text offset) :
    offset ≤ d.start ∧ d.stop = d.start + c.utf8Size ∧ d.stop ≤ offset + utf8Len text := by
  induction text generalizing offset with
  | nil => simp [charDetections] at hd
  | cons x xs ih =>
    rw [String.utf8Len_cons]
    have hrest : d ∈ charDetections c xs (offset + x.utf8Size) →
        offset ≤ d.start ∧ d.stop = d.start + c.utf8Size ∧
          d.stop ≤ offset + (utf8Len xs + x.utf8Size) := by
      intro h
      obtain ⟨h1, h2, h3⟩ := ih h
      exact ⟨by omega, h2, by omega⟩
    unfold charDetections at hd
    split at hd
    · next hx =>
      subst hx
      rcases List.mem_cons.mp hd with rfl | hd
      · exact ⟨le_rfl, rfl, by simp only; omega⟩
      · exact hrest hd
    · exact hrest hd

theorem charEngine_inRange (c : Char) (action : Action) : (charEngine c action).InRange := by
  intro text entities h d hd
  obtain rfl : charDetections c text 0 = entities := by simpa [charEngine] using h
  obtain ⟨_, hstop, hle⟩ := charDetections_mem hd
  have hpos := Char.utf8Size_pos c
  omega

end Governance
