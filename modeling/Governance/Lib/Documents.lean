import Mathlib

/-!
# Documents of nested tables

A parsed configuration file: a tree whose inner nodes are tables of named nodes and whose leaves
are values. Places are the lists of names that lead to a node. A leaf can be set at a place, with
the tables on the way made as needed, and whatever is at a place can be taken out.
-/

namespace Governance

/-- A node of a document. A table that is written in line can be read and shrunk, not extended. -/
inductive Node (κ α : Type) where
  | leaf (value : α)
  | table (inline : Bool) (entries : List (κ × Node κ α))

namespace Node

variable {κ α : Type} [DecidableEq κ]

/-- The entry of a name, in place of the one that was there. -/
def assign (key : κ) (node : Node κ α) : List (κ × Node κ α) → List (κ × Node κ α)
  | [] => [(key, node)]
  | entry :: rest =>
    if entry.1 = key then (key, node) :: rest else entry :: assign key node rest

def get (key : κ) : Node κ α → Option (Node κ α)
  | leaf _ => none
  | table _ entries => entries.lookup key

/-- The node at a place. -/
def at? : List κ → Node κ α → Option (Node κ α)
  | [], node => some node
  | key :: place, node => (node.get key).bind (at? place)

/-- Sets a leaf. Tables on the way are made; anything else on the way is an error. -/
def set (value : α) : List κ → Node κ α → Option (Node κ α)
  | [], _ => none
  | _, leaf _ => none
  | _, table true _ => none
  | [key], table false entries => some (table false (assign key (leaf value) entries))
  | key :: place, table false entries =>
    (set value place ((entries.lookup key).getD (table false []))).map fun node =>
      table false (assign key node entries)

/-- Takes out what is at a place. The tables on the way stay, even if they are empty now. -/
def erase : List κ → Node κ α → Node κ α
  | [], node => node
  | _, leaf value => leaf value
  | [key], table inline entries => table inline (entries.filter fun entry => entry.1 ≠ key)
  | key :: place, table inline entries =>
    match entries.lookup key with
    | none => table inline entries
    | some node => table inline (assign key (erase place node) entries)

section Lemmas

variable {key key' : κ} {place place' : List κ} {node node' child : Node κ α} {value value' : α}
  {entries : List (κ × Node κ α)} {inline : Bool}

theorem assign_cons_self (old : Node κ α) :
    assign key child ((key, old) :: entries) = (key, child) :: entries := if_pos rfl

theorem assign_cons_of_ne (h : key' ≠ key) (old : Node κ α) :
    assign key child ((key', old) :: entries) = (key', old) :: assign key child entries := if_neg h

theorem erase_leaf (key : κ) (place : List κ) (value : α) :
    erase (key :: place) (leaf value) = leaf value := by
  cases place <;> rfl

theorem erase_singleton : erase [key] (table inline entries) =
    table inline (entries.filter fun entry => entry.1 ≠ key) := rfl

theorem erase_of_lookup_none (h : entries.lookup key = none) :
    erase (key :: key' :: place) (table inline entries) = table inline entries := by
  simp only [erase, h]

theorem erase_of_lookup_some (h : entries.lookup key = some child) :
    erase (key :: key' :: place) (table inline entries) =
      table inline (assign key (erase (key' :: place) child) entries) := by
  simp only [erase, h]

theorem lookup_assign_self : (assign key child entries).lookup key = some child := by
  induction entries with
  | nil => exact List.lookup_cons_self
  | cons entry rest ih =>
    obtain ⟨name, old⟩ := entry
    by_cases hkey : name = key
    · rw [hkey, assign_cons_self, List.lookup_cons_self]
    · rw [assign_cons_of_ne hkey, List.lookup_cons, beq_false_of_ne (Ne.symm hkey), ih]

theorem lookup_assign_of_ne (h : key' ≠ key) :
    (assign key child entries).lookup key' = entries.lookup key' := by
  induction entries with
  | nil =>
    show [(key, child)].lookup key' = none
    rw [List.lookup_cons, beq_false_of_ne h, List.lookup_nil]
  | cons entry rest ih =>
    obtain ⟨name, old⟩ := entry
    by_cases hkey : name = key
    · subst hkey
      rw [assign_cons_self, List.lookup_cons, List.lookup_cons, beq_false_of_ne h]
    · rw [assign_cons_of_ne hkey, List.lookup_cons, List.lookup_cons, ih]

theorem lookup_filter_of_ne (h : key' ≠ key) :
    (entries.filter fun entry => entry.1 ≠ key).lookup key' = entries.lookup key' := by
  induction entries with
  | nil => rfl
  | cons entry rest ih =>
    obtain ⟨name, old⟩ := entry
    by_cases hkey : name = key
    · subst hkey
      rw [List.filter_cons_of_neg (by simp), ih, List.lookup_cons, beq_false_of_ne h]
    · rw [List.filter_cons_of_pos (by simpa using hkey), List.lookup_cons, List.lookup_cons, ih]

theorem lookup_filter_self : (entries.filter fun entry => entry.1 ≠ key).lookup key = none := by
  induction entries with
  | nil => rfl
  | cons entry rest ih =>
    obtain ⟨name, old⟩ := entry
    by_cases hkey : name = key
    · rw [List.filter_cons_of_neg (by simp [hkey]), ih]
    · rw [List.filter_cons_of_pos (by simpa using hkey), List.lookup_cons,
        beq_false_of_ne (Ne.symm hkey), ih]

theorem at?_cons : at? (key :: place) node = (node.get key).bind (at? place) := rfl

theorem at?_singleton : at? [key] node = node.get key := by
  rw [at?_cons]
  cases node.get key <;> rfl

theorem at?_leaf_cons : at? (key :: place) (leaf value : Node κ α) = none := rfl

/-! ## Setting a leaf -/

/-- One table on the way. -/
theorem set_cons (h : set value (key :: place) node = some node') :
    ∃ entries, node = table false entries ∧
      ∃ child, node' = table false (assign key child entries) ∧
        (place = [] ∧ child = leaf value ∨
          set value place ((entries.lookup key).getD (table false [])) = some child) := by
  cases node with
  | leaf value' => cases place <;> cases h
  | table inline entries =>
    cases inline with
    | true => cases place <;> cases h
    | false =>
      cases place with
      | nil => exact ⟨entries, rfl, leaf value, (Option.some.inj h).symm, .inl ⟨rfl, rfl⟩⟩
      | cons key' rest =>
        obtain ⟨child, hchild, heq⟩ := Option.map_eq_some_iff.mp h
        exact ⟨entries, rfl, child, heq.symm, .inr hchild⟩

theorem at?_set_self (h : set value place node = some node') :
    at? place node' = some (leaf value) := by
  induction place generalizing node node' with
  | nil => cases h
  | cons key place ih =>
    obtain ⟨entries, rfl, child, rfl, hchild⟩ := set_cons h
    rw [at?_cons, get, lookup_assign_self, Option.bind_some]
    rcases hchild with ⟨rfl, rfl⟩ | hset
    · rfl
    · exact ih hset

/-- A leaf of the new document is the one that was set, or was there. -/
theorem at?_leaf_of_set (h : set value place node = some node')
    (hat : at? place' node' = some (leaf value')) :
    place' = place ∧ value' = value ∨ at? place' node = some (leaf value') := by
  induction place generalizing node node' place' with
  | nil => cases h
  | cons key place ih =>
    obtain ⟨entries, rfl, child, rfl, hchild⟩ := set_cons h
    cases place' with
    | nil => cases hat
    | cons key' rest =>
      rw [at?_cons, get] at hat ⊢
      by_cases hkey : key' = key
      · subst hkey
        rw [lookup_assign_self, Option.bind_some] at hat
        rcases hchild with ⟨rfl, rfl⟩ | hset
        · cases rest with
          | nil =>
            cases hat
            exact .inl ⟨rfl, rfl⟩
          | cons key'' rest => cases hat
        · rcases ih hset hat with ⟨rfl, rfl⟩ | hold
          · exact .inl ⟨rfl, rfl⟩
          · right
            cases hlookup : entries.lookup key' with
            | none =>
              rw [hlookup] at hold
              cases rest with
              | nil => cases hold
              | cons key'' rest => cases hold
            | some old =>
              rw [hlookup] at hold
              exact hold
      · rw [lookup_assign_of_ne hkey] at hat
        exact .inr hat

/-- Setting a leaf takes no name out. -/
theorem get_of_set (h : set value place node = some node') (hget : node'.get key = none) :
    node.get key = none := by
  cases place with
  | nil => cases h
  | cons key' place =>
    obtain ⟨entries, rfl, child, rfl, -⟩ := set_cons h
    by_cases hkey : key = key'
    · subst hkey
      rw [get, lookup_assign_self] at hget
      cases hget
    · rwa [get, lookup_assign_of_ne hkey] at hget

/-- Only the first name of the place is touched. -/
theorem get_set_of_ne (h : set value (key :: place) node = some node') (hne : key' ≠ key) :
    node'.get key' = node.get key' := by
  obtain ⟨entries, rfl, child, rfl, -⟩ := set_cons h
  exact lookup_assign_of_ne hne

/-! ## Taking out -/

/-- A leaf that is left was there. -/
theorem at?_leaf_of_erase (hplace : place ≠ [])
    (hat : at? place' (erase place node) = some (leaf value)) :
    place' ≠ place ∧ at? place' node = some (leaf value) := by
  induction place generalizing node place' with
  | nil => exact absurd rfl hplace
  | cons key place ih =>
    cases node with
    | leaf value' =>
      rw [erase_leaf] at hat
      refine ⟨?_, hat⟩
      rintro rfl
      cases hat
    | table inline entries =>
      cases place' with
      | nil =>
        exfalso
        cases place with
        | nil => cases hat
        | cons key' rest =>
          cases hlookup : entries.lookup key with
          | none =>
            rw [erase_of_lookup_none hlookup] at hat
            cases hat
          | some child =>
            rw [erase_of_lookup_some hlookup] at hat
            cases hat
      | cons key' rest =>
        by_cases hkey : key' = key
        · subst hkey
          cases place with
          | nil =>
            exfalso
            rw [erase_singleton, at?_cons, get, lookup_filter_self] at hat
            cases hat
          | cons key'' place =>
            cases hchild : entries.lookup key' with
            | none =>
              rw [erase_of_lookup_none hchild, at?_cons, get, hchild] at hat
              cases hat
            | some child =>
              rw [erase_of_lookup_some hchild, at?_cons, get, lookup_assign_self,
                Option.bind_some] at hat
              obtain ⟨hne, hold⟩ := ih (List.cons_ne_nil _ _) hat
              refine ⟨fun heq => hne (List.cons.inj heq).2, ?_⟩
              rw [at?_cons, get, hchild]
              exact hold
        · refine ⟨fun heq => hkey (List.cons.inj heq).1, ?_⟩
          cases place with
          | nil =>
            rw [erase_singleton, at?_cons, get, lookup_filter_of_ne hkey] at hat
            exact hat
          | cons key'' place =>
            cases hchild : entries.lookup key with
            | none =>
              rw [erase_of_lookup_none hchild] at hat
              exact hat
            | some child =>
              rw [erase_of_lookup_some hchild, at?_cons, get, lookup_assign_of_ne hkey] at hat
              exact hat

/-- Only the name at the place itself goes. -/
theorem get_of_erase (hplace : place ≠ [key]) (hget : (erase place node).get key = none) :
    node.get key = none := by
  cases place with
  | nil => exact hget
  | cons key' place =>
    cases node with
    | leaf value => rfl
    | table inline entries =>
      cases place with
      | nil =>
        have hne : key ≠ key' := by
          rintro rfl
          exact hplace rfl
        rwa [erase_singleton, get, lookup_filter_of_ne hne] at hget
      | cons key'' rest =>
        cases hchild : entries.lookup key' with
        | none =>
          rw [erase_of_lookup_none hchild] at hget
          exact hget
        | some child =>
          rw [erase_of_lookup_some hchild] at hget
          by_cases hkey : key = key'
          · subst hkey
            rw [get, lookup_assign_self] at hget
            cases hget
          · rwa [get, lookup_assign_of_ne hkey] at hget

theorem get_erase_of_ne (hne : key' ≠ key) :
    (erase (key :: place) node).get key' = node.get key' := by
  cases node with
  | leaf value => rw [erase_leaf]
  | table inline entries =>
    cases place with
    | nil => exact lookup_filter_of_ne hne
    | cons key'' rest =>
      cases hchild : entries.lookup key with
      | none => rw [erase_of_lookup_none hchild]
      | some child =>
        rw [erase_of_lookup_some hchild]
        exact lookup_assign_of_ne hne

/-- Taking out brings no name in. -/
theorem get_erase_eq_none (h : node.get key = none) : (erase place node).get key = none := by
  cases place with
  | nil => exact h
  | cons key' place =>
    by_cases hkey : key = key'
    · subst hkey
      cases node with
      | leaf value => exact congrArg (get key) (erase_leaf key place value)
      | table inline entries =>
        have hlookup : entries.lookup key = none := h
        cases place with
        | nil => exact lookup_filter_self
        | cons key'' rest =>
          rw [erase_of_lookup_none hlookup]
          exact hlookup
    · rw [get_erase_of_ne hkey]
      exact h

/-- Taking out one leaf leaves the others where they are. -/
theorem at?_erase_of_ne (hleaf : at? place node = some (leaf value))
    (hother : at? place' node = some (leaf value')) (hne : place' ≠ place) :
    at? place' (erase place node) = some (leaf value') := by
  induction place generalizing node place' with
  | nil => exact hother
  | cons key place ih =>
    cases place' with
    | nil =>
      cases hother
      cases hleaf
    | cons key' rest =>
      by_cases hkey : key' = key
      · subst hkey
        obtain ⟨child, hchild, hbelow⟩ := Option.bind_eq_some_iff.mp hleaf
        rw [at?_cons, hchild, Option.bind_some] at hother
        cases node with
        | leaf value'' => cases hchild
        | table inline entries =>
          have hlookup : entries.lookup key' = some child := hchild
          cases place with
          | nil =>
            -- The child is a leaf, so nothing lies below it.
            cases hbelow
            cases rest with
            | nil => exact absurd rfl hne
            | cons key'' rest => cases hother
          | cons key'' place =>
            rw [erase_of_lookup_some hlookup, at?_cons, get, lookup_assign_self, Option.bind_some]
            exact ih hbelow hother fun heq => hne (by rw [heq])
      · rw [at?_cons, get_erase_of_ne hkey, ← at?_cons]
        exact hother

end Lemmas

end Node

end Governance
