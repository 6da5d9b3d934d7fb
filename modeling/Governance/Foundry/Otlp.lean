import Governance.Core.Schema
import Governance.Redact.Json

/-!
# OTLP JSON

`governance-foundry/src/normalizer/otlp.rs`: attributes, events and 64-bit integers of spans in
the proto3 JSON mapping. The printer of a JSON value, which only error texts show, is a parameter.
-/

namespace Governance

namespace Foundry

open Utf8Text

/-- `NormalizerError`. -/
inductive NormalizerError where
  | missingField (field : String)
  | invalidFieldType (field expected actual : String)
  | invalidDuration (startTimeUnixNano endTimeUnixNano : ℤ)
  | unsupportedProvider (provider : String)
  deriving DecidableEq

/-- The value is in the range of an `i64`. -/
def IsI64 (n : ℤ) : Prop := i64Min ≤ n ∧ n ≤ i64Max

instance (n : ℤ) : Decidable (IsI64 n) := inferInstanceAs (Decidable (_ ∧ _))

/-- The integer, when an `i64` holds it. -/
def toI64 (n : ℤ) : Option ℤ := if IsI64 n then some n else none

/-- Whether a decimal text is negative, and its digits. -/
def splitSign : Text → Bool × Text
  | '-' :: rest => (true, rest)
  | '+' :: rest => (false, rest)
  | cs => (false, cs)

/-- `str::parse::<i64>`. -/
def parseI64 (s : Text) : Option ℤ :=
  let digits := (splitSign s).2
  if digits = [] ∨ ¬ digits.all Char.isDigit then none
  else
    let n := digits.foldl (fun n c => 10 * n + (c.toNat - '0'.toNat)) 0
    toI64 (if (splitSign s).1 then -(n : ℤ) else n)

/-- `Number::as_i64`. -/
def asI64 : JsonNumber → Option ℤ
  | .posInt n => toI64 n
  | .negInt n => toI64 n
  | .float _ => none

section Reading

variable (display : Json → String)

/-- `attributes` and `events`: an array under a key, empty when there is none. -/
def arrayField (obj : Json) (key context : String) : Except NormalizerError (List Json) :=
  match obj.get key with
  | none | some .null => .ok []
  | some (.arr items) => .ok items
  | some other => .error (.invalidFieldType s!"{context}.{key}" "array" (display other))

/-- `attributes`. -/
def attributes (obj : Json) (context : String) : Except NormalizerError (List Json) :=
  arrayField display obj "attributes" context

/-- `events`. -/
def events (obj : Json) (context : String) : Except NormalizerError (List Json) :=
  arrayField display obj "events" context

/-- `attribute_value`: the first attribute with the key. -/
def attributeValue (key context : String) : List Json → Except NormalizerError (Option Json)
  | [] => .ok none
  | attr :: attrs =>
    match attr.get "key" with
    | some (.str k) => if k = key.toList then .ok (some attr) else attributeValue key context attrs
    | some other =>
      .error (.invalidFieldType s!"{context}.attributes[].key" "string" (display other))
    | none => attributeValue key context attrs

/-- `value_of`. -/
def valueOf (attr : Json) (key context : String) : Except NormalizerError Json :=
  match attr.get "value" with
  | none => .error (.missingField s!"{context}.attributes[{key}].value")
  | some (.obj entries) => .ok (.obj entries)
  | some other =>
    .error (.invalidFieldType s!"{context}.attributes[{key}].value" "object" (display other))

/-- `attr_string`. -/
def attrString (obj : Json) (key context : String) : Except NormalizerError (Option String) := do
  let attrs ← attributes display obj context
  match ← attributeValue display key context attrs with
  | none => return none
  | some attr =>
    let value ← valueOf display attr key context
    match value.get "stringValue" with
    | some (.str s) => return some (.ofList s)
    | some .null | none => return none
    | some other =>
      throw (.invalidFieldType s!"{context}.attributes[{key}].stringValue" "string" (display other))

/-- An integer as proto3 JSON writes it, a decimal string, or a number. -/
def int64 (field : String) : Json → Except NormalizerError ℤ
  | .str s =>
    match parseI64 s with
    | some n => .ok n
    | none => .error (.invalidFieldType field "int64 string" (.ofList s))
  | .num n =>
    match asI64 n with
    | some n => .ok n
    | none => .error (.invalidFieldType field "int64" (display (.num n)))
  | other => .error (.invalidFieldType field "int64" (display other))

/-- `attr_i64`. -/
def attrI64 (obj : Json) (key context : String) : Except NormalizerError (Option ℤ) := do
  let attrs ← attributes display obj context
  match ← attributeValue display key context attrs with
  | none => return none
  | some attr =>
    let value ← valueOf display attr key context
    match value.get "intValue" with
    | some .null | none => return none
    | some int => return some (← int64 display s!"{context}.attributes[{key}].intValue" int)

/-- `span_i64`. -/
def spanI64 (span : Json) (key : String) : Except NormalizerError ℤ :=
  match span.get key with
  | none => .error (.missingField key)
  | some int => int64 display key int

/-- `span_string`. -/
def spanString (span : Json) (key : String) : Except NormalizerError (Option String) :=
  match span.get key with
  | some (.str s) => .ok (some (.ofList s))
  | some .null | none => .ok none
  | some other => .error (.invalidFieldType key "string" (display other))

end Reading

/-- `i64::checked_sub`. -/
def checkedSub (a b : ℤ) : Option ℤ := toI64 (a - b)

/-- `duration_ms`. -/
def durationMs (startTimeUnixNano endTimeUnixNano : ℤ) : Except NormalizerError ℤ :=
  match (checkedSub endTimeUnixNano startTimeUnixNano).filter fun nanos => 0 ≤ nanos with
  | none => .error (.invalidDuration startTimeUnixNano endTimeUnixNano)
  | some elapsedNanos => .ok (elapsedNanos / 1000000)

/-! ## What a read says -/

section Reads

variable {display : Json → String}

theorem toI64_eq_some {m n : ℤ} (h : toI64 m = some n) : m = n ∧ IsI64 n := by
  unfold toI64 at h
  split at h
  · next hrange =>
    obtain rfl := Option.some.inj h
    exact ⟨rfl, hrange⟩
  · cases h

theorem isI64_of_parseI64 {s : Text} {n : ℤ} (h : parseI64 s = some n) : IsI64 n := by
  unfold parseI64 at h
  simp only at h
  split at h
  · cases h
  · exact (toI64_eq_some h).2

theorem isI64_of_asI64 {n : JsonNumber} {i : ℤ} (h : asI64 n = some i) : IsI64 i := by
  cases n with
  | posInt n => exact (toI64_eq_some h).2
  | negInt n => exact (toI64_eq_some h).2
  | float bits => cases h

theorem isI64_of_int64 {field : String} {j : Json} {n : ℤ} (h : int64 display field j = .ok n) :
    IsI64 n := by
  cases j with
  | str s =>
    rw [int64] at h
    split at h
    · next hparse => exact Except.ok.inj h ▸ isI64_of_parseI64 hparse
    · cases h
  | num m =>
    rw [int64] at h
    split at h
    · next hnum => exact Except.ok.inj h ▸ isI64_of_asI64 hnum
    · cases h
  | null => cases h
  | bool b => cases h
  | arr items => cases h
  | obj entries => cases h

theorem isI64_of_spanI64 {span : Json} {key : String} {n : ℤ}
    (h : spanI64 display span key = .ok n) : IsI64 n := by
  unfold spanI64 at h
  split at h
  · cases h
  · exact isI64_of_int64 h

/-- An array that is read is the one under the key, or there is none. -/
theorem arrayField_eq_ok {obj : Json} {key context : String} {items : List Json}
    (h : arrayField display obj key context = .ok items) :
    items = ((obj.get key).bind Json.asArray).getD [] := by
  unfold arrayField at h
  split at h
  · next hget => rw [← Except.ok.inj h, hget]; rfl
  · next hget => rw [← Except.ok.inj h, hget]; rfl
  · next hget => rw [← Except.ok.inj h, hget]; rfl
  · cases h

/-- A string field that is read is the string under the key, or there is none. -/
theorem spanString_eq_ok {span : Json} {key : String} {s : Option String}
    (h : spanString display span key = .ok s) :
    s = ((span.get key).bind Json.asStr).map String.ofList := by
  unfold spanString at h
  split at h
  · next hget => rw [← Except.ok.inj h, hget]; rfl
  · next hget => rw [← Except.ok.inj h, hget]; rfl
  · next hget => rw [← Except.ok.inj h, hget]; rfl
  · cases h

/-- A duration is the exact difference in milliseconds, which is not negative and in range. -/
theorem durationMs_eq_ok {start stop d : ℤ} (h : durationMs start stop = .ok d) :
    start ≤ stop ∧ IsI64 (stop - start) ∧ d = (stop - start) / 1000000 := by
  unfold durationMs checkedSub at h
  split at h
  · cases h
  · next elapsed hsub =>
    obtain ⟨hrange, hsign⟩ := Option.filter_eq_some_iff.mp hsub
    obtain ⟨rfl, hin⟩ := toI64_eq_some hrange
    have hnonneg : 0 ≤ stop - start := of_decide_eq_true hsign
    exact ⟨by omega, hin, (Except.ok.inj h).symm⟩

end Reads

end Foundry

end Governance
