import Governance.Lib.Utf8Text

/-!
# JSON values

The `serde_json::Value` the redaction path walks. Objects keep their entries in order
(the workspace enables `preserve_order`), so an object is a list of entries and a lookup
finds the first entry of its key.

Reading and printing JSON text belongs to `serde_json`, which is not part of the
repository: `JsonCodec` names the two functions the code calls.
-/

namespace Governance

open Utf8Text

/-- `serde_json::Number`: a nonnegative integer, a negative one, or a float. -/
inductive JsonNumber where
  | posInt (n : ℕ)
  | negInt (n : ℤ)
  | float (bits : UInt64)
  deriving DecidableEq, Repr

/-- `serde_json::Value`. -/
inductive Json where
  | null
  | bool (b : Bool)
  | num (n : JsonNumber)
  | str (s : Text)
  | arr (items : List Json)
  | obj (entries : List (String × Json))
  deriving Repr

/-- `serde_json::from_str::<Value>` and `serde_json::to_string`. -/
structure JsonCodec where
  fromStr : Text → Option Json
  toString : Json → Text

namespace Json

/-- `Value::get` with a string index: only objects answer. -/
def get (key : String) : Json → Option Json
  | .obj entries => entries.lookup key
  | _ => none

def asArray : Json → Option (List Json)
  | .arr items => some items
  | _ => none

def asStr : Json → Option Text
  | .str s => some s
  | _ => none

/-- `Value::as_u64`: a negative number or a float is not one. -/
def asU64 : Json → Option ℕ
  | .num (.posInt n) => some n
  | _ => none

def asBool : Json → Option Bool
  | .bool b => some b
  | _ => none

/-- Rewrites the first entry of `key`, when there is one and `f` accepts its value. -/
def updateEntry (key : String) (f : Json → Option Json) :
    List (String × Json) → Option (List (String × Json))
  | [] => none
  | (k, v) :: rest =>
    if k = key then (f v).map fun v' => (k, v') :: rest
    else (updateEntry key f rest).map ((k, v) :: ·)

/-- A write through `Value::get_mut`: `none` when the key is missing or `f` refuses. -/
def update (key : String) (f : Json → Option Json) : Json → Option Json
  | .obj entries => (updateEntry key f entries).map .obj
  | _ => none

/-- A write through `Value::as_array_mut`. -/
def updateArray (f : List Json → Option (List Json)) : Json → Option Json
  | .arr items => (f items).map .arr
  | _ => none

/-- A write to the first element of an array that satisfies `p`. -/
def updateFirst (p : Json → Bool) (f : Json → Option Json) : List Json → Option (List Json)
  | [] => none
  | x :: xs => if p x then (f x).map (· :: xs) else (updateFirst p f xs).map (x :: ·)

/-- Overwrites a value that is a string, and refuses any other. -/
def setStr (text : Text) : Json → Option Json
  | .str _ => some (.str text)
  | _ => none

/-! ## A small codec -/

mutual

/-- Whether two values are the same, entry by entry. -/
def same : Json → Json → Bool
  | .null, .null => true
  | .bool a, .bool b => a = b
  | .num a, .num b => a = b
  | .str a, .str b => a = b
  | .arr a, .arr b => sameItems a b
  | .obj a, .obj b => sameEntries a b
  | _, _ => false

def sameItems : List Json → List Json → Bool
  | [], [] => true
  | x :: xs, y :: ys => same x y && sameItems xs ys
  | _, _ => false

def sameEntries : List (String × Json) → List (String × Json) → Bool
  | [], [] => true
  | (k, x) :: xs, (l, y) :: ys => k = l && same x y && sameEntries xs ys
  | _, _ => false

end

end Json

/-- A codec that reads and prints the values of a table, for concrete runs. -/
def JsonCodec.ofTable (table : List (Text × Json)) : JsonCodec where
  fromStr text := table.lookup text
  toString v := ((table.find? fun entry => entry.2.same v).map Prod.fst).getD []

end Governance
