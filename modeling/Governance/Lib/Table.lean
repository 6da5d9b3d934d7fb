import Mathlib

/-!
# Tables with two unique indexes

A relational table with a primary key and one more unique index, the natural key. A row is
found, and a conflicting insert is recognised, by the natural key. `Table` carries both
indexes as fields, so a table with two rows of one key cannot be built. `upsert` is
`INSERT .. ON CONFLICT (key) DO UPDATE`: the columns that a conflict rewrites form a lens of
the row (`Refresh`), and a new row whose id is taken is refused.
-/

universe u v w x

/-- The natural key and the primary key of a row. -/
structure TableIndex (ρ : Type u) (κ : Type v) (ι : Type w) where
  key : ρ → κ
  id : ρ → ι

/-- Rows in the order of their insertion, with both indexes unique. -/
@[ext] structure Table {ρ : Type u} {κ : Type v} {ι : Type w} (ix : TableIndex ρ κ ι) where
  rows : List ρ
  keys_nodup : (rows.map ix.key).Nodup
  ids_nodup : (rows.map ix.id).Nodup

/-- The columns that a conflicting insert takes over, as a lens that leaves both keys alone. -/
structure Refresh {ρ : Type u} {κ : Type v} {ι : Type w} (ix : TableIndex ρ κ ι)
    (γ : Type x) where
  cols : ρ → γ
  set : γ → ρ → ρ
  cols_set : ∀ c r, cols (set c r) = c
  set_cols : ∀ r, set (cols r) r = r
  set_set : ∀ c d r, set c (set d r) = set c r
  key_set : ∀ c r, ix.key (set c r) = ix.key r
  id_set : ∀ c r, ix.id (set c r) = ix.id r

/-- What an upsert of `row` leaves at the key of `row`. -/
def Refresh.cell {ρ : Type u} {κ : Type v} {ι : Type w} {ix : TableIndex ρ κ ι} {γ : Type x}
    (R : Refresh ix γ) (row : ρ) : Option ρ → ρ
  | none => row
  | some r => R.set (R.cols row) r

namespace Table

variable {ρ : Type u} {κ : Type v} {ι : Type w} {γ : Type x} {ix : TableIndex ρ κ ι}

/-- The table without rows. -/
def empty : Table ix := ⟨[], List.nodup_nil, List.nodup_nil⟩

/-- The keys of the rows. -/
def keys (t : Table ix) : List κ := t.rows.map ix.key

/-- The ids of the rows. -/
def ids (t : Table ix) : List ι := t.rows.map ix.id

/-- The rows that satisfy a condition. -/
def filter (p : ρ → Bool) (t : Table ix) : Table ix where
  rows := t.rows.filter p
  keys_nodup := t.keys_nodup.sublist (List.filter_sublist.map ix.key)
  ids_nodup := t.ids_nodup.sublist (List.filter_sublist.map ix.id)

@[simp] theorem rows_filter (p : ρ → Bool) (t : Table ix) :
    (t.filter p).rows = t.rows.filter p := rfl

/-- `UPDATE`: every row is rewritten and keeps its keys. -/
def update (t : Table ix) (f : ρ → ρ) (hkey : ∀ r, ix.key (f r) = ix.key r)
    (hid : ∀ r, ix.id (f r) = ix.id r) : Table ix where
  rows := t.rows.map f
  keys_nodup := by
    have h : (t.rows.map f).map ix.key = t.rows.map ix.key := by
      rw [List.map_map]
      exact List.map_congr_left fun r _ => hkey r
    rw [h]
    exact t.keys_nodup
  ids_nodup := by
    have h : (t.rows.map f).map ix.id = t.rows.map ix.id := by
      rw [List.map_map]
      exact List.map_congr_left fun r _ => hid r
    rw [h]
    exact t.ids_nodup

@[simp] theorem rows_update (t : Table ix) (f : ρ → ρ) (hkey hid) :
    (t.update f hkey hid).rows = t.rows.map f := rfl

@[simp] theorem keys_update (t : Table ix) (f : ρ → ρ) (hkey hid) :
    (t.update f hkey hid).keys = t.keys := by
  simp only [keys, rows_update, List.map_map]
  exact List.map_congr_left fun r _ => hkey r

@[simp] theorem ids_update (t : Table ix) (f : ρ → ρ) (hkey hid) :
    (t.update f hkey hid).ids = t.ids := by
  simp only [ids, rows_update, List.map_map]
  exact List.map_congr_left fun r _ => hid r

theorem mem_keys {t : Table ix} {r : ρ} (h : r ∈ t.rows) : ix.key r ∈ t.keys :=
  List.mem_map_of_mem h

theorem mem_ids {t : Table ix} {r : ρ} (h : r ∈ t.rows) : ix.id r ∈ t.ids :=
  List.mem_map_of_mem h

/-- Two rows of one key are one row. -/
theorem eq_of_key {t : Table ix} {r r' : ρ} (h : r ∈ t.rows) (h' : r' ∈ t.rows)
    (hk : ix.key r = ix.key r') : r = r' :=
  List.inj_on_of_nodup_map t.keys_nodup h h' hk

/-- Two rows of one id are one row. -/
theorem eq_of_id {t : Table ix} {r r' : ρ} (h : r ∈ t.rows) (h' : r' ∈ t.rows)
    (hi : ix.id r = ix.id r') : r = r' :=
  List.inj_on_of_nodup_map t.ids_nodup h h' hi

section Lookup

variable [DecidableEq κ]

/-- The row of a key. -/
def get? (t : Table ix) (k : κ) : Option ρ := t.rows.find? fun r => ix.key r = k

theorem get?_eq_some {t : Table ix} {k : κ} {r : ρ} :
    t.get? k = some r ↔ r ∈ t.rows ∧ ix.key r = k := by
  constructor
  · intro h
    refine ⟨List.mem_of_find?_eq_some h, ?_⟩
    simpa using List.find?_some h
  · rintro ⟨hr, rfl⟩
    cases hf : t.get? (ix.key r) with
    | none =>
      have := List.find?_eq_none.mp hf r hr
      simp at this
    | some r' =>
      have hk : ix.key r' = ix.key r := by simpa using List.find?_some hf
      rw [eq_of_key (List.mem_of_find?_eq_some hf) hr hk]

theorem get?_eq_none {t : Table ix} {k : κ} : t.get? k = none ↔ k ∉ t.keys := by
  simp [get?, keys]

theorem get?_key {t : Table ix} {r : ρ} (h : r ∈ t.rows) : t.get? (ix.key r) = some r :=
  get?_eq_some.2 ⟨h, rfl⟩

theorem exists_get? {t : Table ix} {k : κ} (h : k ∈ t.keys) : ∃ r, t.get? k = some r := by
  obtain ⟨r, hr, rfl⟩ := List.mem_map.mp h
  exact ⟨r, get?_key hr⟩

/-- A table is its keys, in their order, with the row of each. -/
theorem ext_get? {t t' : Table ix} (hkeys : t.keys = t'.keys)
    (hget : ∀ k, t.get? k = t'.get? k) : t = t' := by
  have hrows (t : Table ix) : t.rows = t.keys.filterMap t.get? := by
    rw [keys, List.filterMap_map]
    have h : t.rows.filterMap (t.get? ∘ ix.key) = t.rows.filterMap some :=
      List.filterMap_congr fun r hr => get?_key hr
    rw [h, List.filterMap_some]
  apply Table.ext
  rw [hrows t, hrows t', hkeys, funext hget]

theorem get?_update (t : Table ix) (f : ρ → ρ) (hkey hid) (k : κ) :
    (t.update f hkey hid).get? k = (t.get? k).map f := by
  simp only [get?, rows_update, List.find?_map]
  congr 2
  funext r
  simp [hkey r]

end Lookup

section Insert

variable [DecidableEq κ] [DecidableEq ι]

/-- `INSERT`: refused when either key is taken. -/
def insert (t : Table ix) (row : ρ) : Option (Table ix) :=
  if h : ix.key row ∉ t.keys ∧ ix.id row ∉ t.ids then
    some {
      rows := t.rows ++ [row]
      keys_nodup := by
        rw [List.map_append]
        exact List.Nodup.append t.keys_nodup (List.nodup_singleton _)
          (List.disjoint_singleton.mpr h.1)
      ids_nodup := by
        rw [List.map_append]
        exact List.Nodup.append t.ids_nodup (List.nodup_singleton _)
          (List.disjoint_singleton.mpr h.2) }
  else none

theorem insert_eq_some {t t' : Table ix} {row : ρ} :
    t.insert row = some t' ↔
      ix.key row ∉ t.keys ∧ ix.id row ∉ t.ids ∧ t'.rows = t.rows ++ [row] := by
  unfold insert
  split
  · next h =>
    simp only [Option.some.injEq, h.1, h.2, not_false_eq_true, true_and]
    constructor
    · rintro rfl
      rfl
    · intro hrows
      exact Table.ext hrows.symm
  · next h =>
    simp only [false_iff, reduceCtorEq]
    rintro ⟨h1, h2, -⟩
    exact h ⟨h1, h2⟩

/-- `INSERT .. ON CONFLICT (key) DO UPDATE`. -/
def upsert (R : Refresh ix γ) (row : ρ) (t : Table ix) : Option (Table ix) :=
  if ix.key row ∈ t.keys then
    some (t.update (fun r => if ix.key r = ix.key row then R.set (R.cols row) r else r)
      (fun r => by split <;> simp [R.key_set]) (fun r => by split <;> simp [R.id_set]))
  else t.insert row

theorem keys_upsert_of_mem {R : Refresh ix γ} {row : ρ} {t t' : Table ix}
    (hk : ix.key row ∈ t.keys) (h : t.upsert R row = some t') : t'.keys = t.keys := by
  rw [upsert, if_pos hk, Option.some.injEq] at h
  rw [← h, keys_update]

/-- An upsert keeps every key and adds at most that of the new row. -/
theorem keys_upsert {R : Refresh ix γ} {row : ρ} {t t' : Table ix}
    (h : t.upsert R row = some t') :
    t'.keys = if ix.key row ∈ t.keys then t.keys else t.keys ++ [ix.key row] := by
  by_cases hk : ix.key row ∈ t.keys
  · rw [if_pos hk, keys_upsert_of_mem hk h]
  · rw [if_neg hk]
    rw [upsert, if_neg hk] at h
    obtain ⟨-, -, hrows⟩ := insert_eq_some.1 h
    simp [keys, hrows]

theorem mem_keys_upsert {R : Refresh ix γ} {row : ρ} {t t' : Table ix}
    (h : t.upsert R row = some t') (k : κ) :
    k ∈ t'.keys ↔ k ∈ t.keys ∨ k = ix.key row := by
  rw [keys_upsert h]
  split
  · next hk =>
    constructor
    · exact Or.inl
    · rintro (h' | rfl)
      · exact h'
      · exact hk
  · rw [List.mem_append, List.mem_singleton]

/-- An upsert keeps every id and adds at most that of the new row. -/
theorem ids_upsert {R : Refresh ix γ} {row : ρ} {t t' : Table ix}
    (h : t.upsert R row = some t') :
    t'.ids = if ix.key row ∈ t.keys then t.ids else t.ids ++ [ix.id row] := by
  by_cases hk : ix.key row ∈ t.keys
  · rw [if_pos hk]
    rw [upsert, if_pos hk, Option.some.injEq] at h
    rw [← h, ids_update]
  · rw [if_neg hk]
    rw [upsert, if_neg hk] at h
    obtain ⟨-, -, hrows⟩ := insert_eq_some.1 h
    simp [ids, hrows]

/-- An upsert loses no id, so references to the table stay good. -/
theorem mem_ids_upsert {R : Refresh ix γ} {row : ρ} {t t' : Table ix}
    (h : t.upsert R row = some t') {i : ι} (hi : i ∈ t.ids) : i ∈ t'.ids := by
  rw [ids_upsert h]
  split
  · exact hi
  · exact List.mem_append_left _ hi

theorem get?_upsert {R : Refresh ix γ} {row : ρ} {t t' : Table ix}
    (h : t.upsert R row = some t') (k : κ) :
    t'.get? k = if k = ix.key row then some (R.cell row (t.get? k)) else t.get? k := by
  by_cases hk : ix.key row ∈ t.keys
  · rw [upsert, if_pos hk, Option.some.injEq] at h
    rw [← h, get?_update]
    cases hg : t.get? k with
    | none =>
      have hne : k ≠ ix.key row := by
        rintro rfl
        exact get?_eq_none.1 hg hk
      rw [if_neg hne, Option.map_none]
    | some r =>
      obtain ⟨-, rfl⟩ := get?_eq_some.1 hg
      by_cases hrow : ix.key r = ix.key row
      · simp [hrow, Refresh.cell]
      · simp [hrow]
  · rw [upsert, if_neg hk] at h
    obtain ⟨-, -, hrows⟩ := insert_eq_some.1 h
    simp only [get?, hrows, List.find?_append]
    split
    · next hrow =>
      subst hrow
      have hnone : (t.rows.find? fun r => ix.key r = ix.key row) = none := get?_eq_none.2 hk
      simp [hnone, Refresh.cell]
    · next hrow =>
      have hlast : ([row].find? fun r => ix.key r = k) = none := by
        simp [Ne.symm hrow]
      rw [hlast, Option.or_none]

/-- The only refusal is a new key with an id that is taken. -/
theorem upsert_eq_none {R : Refresh ix γ} {row : ρ} {t : Table ix} :
    t.upsert R row = none ↔ ix.key row ∉ t.keys ∧ ix.id row ∈ t.ids := by
  by_cases hk : ix.key row ∈ t.keys
  · simp [upsert, hk]
  · simp [upsert, hk, insert]

/-- Whether a row is accepted, and the indexes after it, depend on the indexes alone. -/
theorem upsert_congr {R : Refresh ix γ} {row row' : ρ} {t t' s : Table ix}
    (hkeys : s.keys = t.keys) (hids : s.ids = t.ids) (hkey : ix.key row' = ix.key row)
    (hid : ix.id row' = ix.id row) (h : t.upsert R row = some t') :
    ∃ s', s.upsert R row' = some s' ∧ s'.keys = t'.keys ∧ s'.ids = t'.ids := by
  have hsome : s.upsert R row' ≠ none := by
    rw [Ne, upsert_eq_none, hkeys, hids, hkey, hid, ← upsert_eq_none (R := R), h]
    exact Option.some_ne_none t'
  obtain ⟨s', hs'⟩ := Option.ne_none_iff_exists'.mp hsome
  refine ⟨s', hs', ?_, ?_⟩
  · rw [keys_upsert hs', keys_upsert h, hkeys, hkey]
  · rw [ids_upsert hs', ids_upsert h, hkeys, hids, hkey, hid]

/-- The id of a row that was inserted was free. -/
theorem id_notMem_of_upsert {R : Refresh ix γ} {row : ρ} {t t' : Table ix}
    (h : t.upsert R row = some t') (hk : ix.key row ∉ t.keys) : ix.id row ∉ t.ids := by
  rw [upsert, if_neg hk] at h
  exact (insert_eq_some.1 h).2.1

theorem upsert_of_mem {R : Refresh ix γ} {row : ρ} {t : Table ix} (h : ix.key row ∈ t.keys) :
    ∃ t', t.upsert R row = some t' := by
  refine Option.ne_none_iff_exists'.mp fun hn => ?_
  exact (upsert_eq_none.1 hn).1 h

/-- The rows upserted one after the other. -/
def upsertAll (R : Refresh ix γ) (t : Table ix) : List ρ → Option (Table ix)
  | [] => some t
  | row :: rows => (t.upsert R row).bind fun t' => upsertAll R t' rows

theorem upsertAll_cons {R : Refresh ix γ} {t t' : Table ix} {row : ρ} {rows : List ρ} :
    t.upsertAll R (row :: rows) = some t' ↔
      ∃ s, t.upsert R row = some s ∧ s.upsertAll R rows = some t' := by
  simp only [upsertAll, Option.bind_eq_some_iff]

theorem upsertAll_append {R : Refresh ix γ} {t t' : Table ix} {rows rows' : List ρ} :
    t.upsertAll R (rows ++ rows') = some t' ↔
      ∃ s, t.upsertAll R rows = some s ∧ s.upsertAll R rows' = some t' := by
  induction rows generalizing t with
  | nil => simp [upsertAll]
  | cons row rows ih =>
    simp only [List.cons_append, upsertAll_cons, ih]
    constructor
    · rintro ⟨s, hs, s', hs', ht⟩
      exact ⟨s', ⟨s, hs, hs'⟩, ht⟩
    · rintro ⟨s', ⟨s, hs, hs'⟩, ht⟩
      exact ⟨s, hs, s', hs', ht⟩

theorem keys_upsertAll {R : Refresh ix γ} {rows : List ρ} {t t' : Table ix}
    (h : t.upsertAll R rows = some t') (k : κ) :
    k ∈ t'.keys ↔ k ∈ t.keys ∨ k ∈ rows.map ix.key := by
  induction rows generalizing t with
  | nil =>
    obtain rfl := Option.some.inj h
    simp
  | cons row rows ih =>
    obtain ⟨s, hs, hrest⟩ := upsertAll_cons.1 h
    rw [ih hrest, mem_keys_upsert hs]
    simp only [List.map_cons, List.mem_cons, or_assoc]

theorem ids_upsertAll {R : Refresh ix γ} {rows : List ρ} {t t' : Table ix}
    (h : t.upsertAll R rows = some t') {i : ι} (hi : i ∈ t.ids) : i ∈ t'.ids := by
  induction rows generalizing t with
  | nil =>
    obtain rfl := Option.some.inj h
    exact hi
  | cons row rows ih =>
    obtain ⟨s, hs, hrest⟩ := upsertAll_cons.1 h
    exact ih hrest (mem_ids_upsert hs hi)

/-- What the rows of one key leave at that key, the later over the earlier. -/
def cells (R : Refresh ix γ) (k : κ) : List ρ → Option ρ → Option ρ
  | [], o => o
  | row :: rows, o =>
    if ix.key row = k then cells R k rows (some (R.cell row o)) else cells R k rows o

theorem get?_upsertAll {R : Refresh ix γ} {rows : List ρ} {t t' : Table ix}
    (h : t.upsertAll R rows = some t') (k : κ) : t'.get? k = cells R k rows (t.get? k) := by
  induction rows generalizing t with
  | nil =>
    obtain rfl := Option.some.inj h
    rfl
  | cons row rows ih =>
    obtain ⟨s, hs, hrest⟩ := upsertAll_cons.1 h
    rw [ih hrest, get?_upsert hs, cells]
    by_cases hk : ix.key row = k
    · rw [if_pos hk, if_pos hk.symm]
    · rw [if_neg hk, if_neg (Ne.symm hk)]

/-! ### Last writer wins -/

omit [DecidableEq ι] in
theorem cells_of_notMem {R : Refresh ix γ} {k : κ} {rows : List ρ} (o : Option ρ)
    (h : k ∉ rows.map ix.key) : cells R k rows o = o := by
  induction rows generalizing o with
  | nil => rfl
  | cons row rows ih =>
    rw [List.map_cons, List.mem_cons, not_or] at h
    rw [cells, if_neg (Ne.symm h.1), ih o h.2]

/-- A row of another key is left as it is. -/
theorem get?_upsertAll_of_notMem {R : Refresh ix γ} {rows : List ρ} {t t' : Table ix} {k : κ}
    (h : t.upsertAll R rows = some t') (hk : k ∉ rows.map ix.key) : t'.get? k = t.get? k := by
  rw [get?_upsertAll h, cells_of_notMem _ hk]

/-- The refreshed columns of the last row of a key. -/
def lastCols (R : Refresh ix γ) (k : κ) : List ρ → Option γ
  | [] => none
  | row :: rows => (lastCols R k rows).or (if ix.key row = k then some (R.cols row) else none)

omit [DecidableEq ι] in
theorem lastCols_isSome {R : Refresh ix γ} {k : κ} {rows : List ρ} :
    (lastCols R k rows).isSome ↔ k ∈ rows.map ix.key := by
  induction rows with
  | nil => simp [lastCols]
  | cons row rows ih =>
    simp only [lastCols, Option.isSome_or, Bool.or_eq_true, ih, List.map_cons, List.mem_cons]
    by_cases hk : ix.key row = k
    · simp [hk]
    · simp [hk, Ne.symm hk]

omit [DecidableEq ι] in
/-- A stored row keeps what is not refreshed and takes the last writer's columns. -/
theorem cells_some (R : Refresh ix γ) (k : κ) (rows : List ρ) (r : ρ) :
    cells R k rows (some r) = some ((lastCols R k rows).elim r fun c => R.set c r) := by
  induction rows generalizing r with
  | nil => rfl
  | cons row rows ih =>
    rw [cells, lastCols]
    split
    · rw [ih, Refresh.cell]
      cases lastCols R k rows with
      | none => rfl
      | some c => simp [R.set_set]
    · rw [ih, Option.or_none]

omit [DecidableEq ι] in
/-- A new key is first written as its first row, which its last writer then refreshes. -/
theorem cells_none {R : Refresh ix γ} {k : κ} {rows : List ρ} (h : k ∈ rows.map ix.key) :
    ∃ row pre post, rows = pre ++ row :: post ∧ ix.key row = k ∧ k ∉ pre.map ix.key ∧
      cells R k rows none = some ((lastCols R k rows).elim row fun c => R.set c row) := by
  induction rows with
  | nil => simp at h
  | cons row rows ih =>
    by_cases hk : ix.key row = k
    · refine ⟨row, [], rows, rfl, hk, List.not_mem_nil, ?_⟩
      rw [cells, if_pos hk, lastCols, if_pos hk, cells_some, Refresh.cell]
      cases lastCols R k rows with
      | none => simp [R.set_cols]
      | some c => rfl
    · have hmem : k ∈ rows.map ix.key := by
        simpa [Ne.symm hk] using h
      obtain ⟨first, pre, post, hsplit, hfirst, hpre, hcell⟩ := ih hmem
      refine ⟨first, row :: pre, post, ?_, hfirst, ?_, ?_⟩
      · rw [hsplit, List.cons_append]
      · simp only [List.map_cons, List.mem_cons, not_or]
        exact ⟨Ne.symm hk, hpre⟩
      · rw [cells, if_neg hk, hcell, lastCols, if_neg hk, Option.or_none]

omit [DecidableEq ι] in
/-- At a key that is written stands the last writer's columns. -/
theorem exists_cells_set {R : Refresh ix γ} {k : κ} {rows : List ρ} (h : k ∈ rows.map ix.key)
    (o : Option ρ) :
    ∃ c r, lastCols R k rows = some c ∧ cells R k rows o = some (R.set c r) := by
  obtain ⟨c, hc⟩ := Option.isSome_iff_exists.mp (lastCols_isSome.2 h)
  cases o with
  | none =>
    obtain ⟨row, -, -, -, -, -, hcell⟩ := cells_none (R := R) h
    exact ⟨c, row, hc, by rw [hcell, hc]; rfl⟩
  | some r => exact ⟨c, r, hc, by rw [cells_some, hc]; rfl⟩

omit [DecidableEq ι] in
/-- What a list of rows leaves at a key is left alone by rows with the same columns. -/
theorem cells_cells {R : Refresh ix γ} {k : κ} {rows rows' : List ρ}
    (h : lastCols R k rows' = lastCols R k rows) (o : Option ρ) :
    cells R k rows' (cells R k rows o) = cells R k rows o := by
  by_cases hk : k ∈ rows.map ix.key
  · obtain ⟨c, r, hc, hr⟩ := exists_cells_set (R := R) hk o
    rw [hr, cells_some, h, hc, Option.elim_some, R.set_set]
  · have hk' : k ∉ rows'.map ix.key := by
      rw [← lastCols_isSome (R := R), h, lastCols_isSome]
      exact hk
    rw [cells_of_notMem _ hk, cells_of_notMem _ hk']

omit [DecidableEq ι] in
theorem mem_of_lastCols {R : Refresh ix γ} {k : κ} {rows : List ρ} {c : γ}
    (h : lastCols R k rows = some c) : ∃ w ∈ rows, ix.key w = k ∧ R.cols w = c := by
  induction rows with
  | nil => cases h
  | cons row rows ih =>
    rw [lastCols, Option.or_eq_some_iff] at h
    rcases h with h | ⟨-, h⟩
    · obtain ⟨w, hw, hk, hc⟩ := ih h
      exact ⟨w, List.mem_cons_of_mem _ hw, hk, hc⟩
    · split at h
      · next hk => exact ⟨row, List.mem_cons_self, hk, Option.some.inj h⟩
      · cases h

/-- A row of a written key has the columns of the last writer. -/
theorem cols_eq_lastCols {R : Refresh ix γ} {rows : List ρ} {t t' : Table ix}
    (h : t.upsertAll R rows = some t') {r : ρ} (hr : r ∈ t'.rows)
    (hk : ix.key r ∈ rows.map ix.key) : lastCols R (ix.key r) rows = some (R.cols r) := by
  have hget := get?_upsertAll h (ix.key r)
  obtain ⟨c, old, hc, hcell⟩ := exists_cells_set (R := R) hk (t.get? (ix.key r))
  rw [get?_key hr, hcell, Option.some.injEq] at hget
  rw [hc, hget, R.cols_set]

/-- A row that is there after some upserts has the key and the columns of one of them, or was
there and none of them has its key. -/
theorem mem_upsertAll {R : Refresh ix γ} {rows : List ρ} {t t' : Table ix}
    (h : t.upsertAll R rows = some t') {r : ρ} (hr : r ∈ t'.rows) :
    (∃ w ∈ rows, ix.key w = ix.key r ∧ R.cols w = R.cols r) ∨
      (r ∈ t.rows ∧ ix.key r ∉ rows.map ix.key) := by
  by_cases hk : ix.key r ∈ rows.map ix.key
  · exact .inl (mem_of_lastCols (cols_eq_lastCols h hr hk))
  · have hget := get?_upsertAll_of_notMem h hk
    rw [get?_key hr] at hget
    exact .inr ⟨(get?_eq_some.1 hget.symm).1, hk⟩

omit [DecidableEq ι] in
theorem lastCols_congr {R : Refresh ix γ} {rows rows' : List ρ}
    (h : List.Forall₂ (fun w w' => ix.key w = ix.key w' ∧ R.cols w = R.cols w') rows rows')
    (k : κ) : lastCols R k rows = lastCols R k rows' := by
  induction h with
  | nil => rfl
  | cons hw _ ih => rw [lastCols, lastCols, ih, hw.1, hw.2]

/-- Rows whose keys are all stored are refreshed without a refusal and without a new row. -/
theorem upsertAll_of_mem {R : Refresh ix γ} {rows : List ρ} {t : Table ix}
    (h : ∀ row ∈ rows, ix.key row ∈ t.keys) :
    ∃ t', t.upsertAll R rows = some t' ∧ t'.keys = t.keys := by
  induction rows generalizing t with
  | nil => exact ⟨t, rfl, rfl⟩
  | cons row rows ih =>
    obtain ⟨s, hs⟩ := upsert_of_mem (R := R) (h row List.mem_cons_self)
    have hkeys : s.keys = t.keys := keys_upsert_of_mem (h row List.mem_cons_self) hs
    obtain ⟨t', ht', hk'⟩ := ih (t := s) fun r hr => hkeys ▸ h r (List.mem_cons_of_mem _ hr)
    exact ⟨t', upsertAll_cons.2 ⟨s, hs, ht'⟩, hk'.trans hkeys⟩

/-- Rows that were upserted once change nothing when they come again. -/
theorem upsertAll_idem {R : Refresh ix γ} {rows rows' : List ρ} {t t' : Table ix}
    (hrows : List.Forall₂ (fun w w' => ix.key w = ix.key w' ∧ R.cols w = R.cols w') rows rows')
    (h : t.upsertAll R rows = some t') : t'.upsertAll R rows' = some t' := by
  have hkeys : rows'.map ix.key = rows.map ix.key := by
    induction hrows generalizing t with
    | nil => rfl
    | cons hw _ ih =>
      obtain ⟨s, -, hrest⟩ := upsertAll_cons.1 h
      rw [List.map_cons, List.map_cons, hw.1, ih hrest]
  have hmem : ∀ row ∈ rows', ix.key row ∈ t'.keys := by
    intro row hrow
    rw [keys_upsertAll h, ← hkeys]
    exact Or.inr (List.mem_map_of_mem hrow)
  obtain ⟨t'', ht'', hk''⟩ := upsertAll_of_mem (R := R) hmem
  have heq : t'' = t' := by
    apply ext_get? hk''
    intro k
    rw [get?_upsertAll ht'', get?_upsertAll h, cells_cells (lastCols_congr hrows k).symm]
  rw [ht'', heq]

/-! ### What an upsert keeps -/

/-- A column that is not refreshed never changes once it is stored. -/
theorem upsertAll_keeps {α : Type*} {R : Refresh ix γ} {f : ρ → α}
    (hf : ∀ c r, f (R.set c r) = f r) {rows : List ρ} {t t' : Table ix}
    (h : t.upsertAll R rows = some t') {r : ρ} (hr : r ∈ t.rows) :
    ∃ r' ∈ t'.rows, ix.key r' = ix.key r ∧ f r' = f r := by
  have hget := get?_upsertAll h (ix.key r)
  rw [get?_key hr, cells_some] at hget
  obtain ⟨hmem, hkey⟩ := get?_eq_some.1 hget
  refine ⟨_, hmem, hkey, ?_⟩
  cases lastCols R (ix.key r) rows with
  | none => rfl
  | some c => exact hf c r

/-- The same for all rows at once, when no key is new. -/
theorem map_upsertAll_of_mem {α : Type*} {R : Refresh ix γ} {f : ρ → α}
    (hf : ∀ c r, f (R.set c r) = f r) {rows : List ρ} {t t' : Table ix}
    (hmem : ∀ row ∈ rows, ix.key row ∈ t.keys) (h : t.upsertAll R rows = some t') :
    t'.rows.map f = t.rows.map f ∧ t'.keys = t.keys := by
  induction rows generalizing t with
  | nil =>
    obtain rfl := Option.some.inj h
    exact ⟨rfl, rfl⟩
  | cons row rows ih =>
    obtain ⟨s, hs, hrest⟩ := upsertAll_cons.1 h
    have hkeys : s.keys = t.keys := keys_upsert_of_mem (hmem row List.mem_cons_self) hs
    obtain ⟨hmap, hkeys'⟩ := ih (fun r hr => hkeys ▸ hmem r (List.mem_cons_of_mem _ hr)) hrest
    refine ⟨hmap.trans ?_, hkeys'.trans hkeys⟩
    rw [upsert, if_pos (hmem row List.mem_cons_self), Option.some.injEq] at hs
    rw [← hs, rows_update, List.map_map]
    refine List.map_congr_left fun r _ => ?_
    simp only [Function.comp_apply]
    split
    · exact hf _ r
    · rfl

/-- Rows with new and different keys are appended as they are. -/
theorem upsertAll_of_new {R : Refresh ix γ} {rows : List ρ} {t t' : Table ix}
    (hnew : ∀ row ∈ rows, ix.key row ∉ t.keys) (hnodup : (rows.map ix.key).Nodup)
    (h : t.upsertAll R rows = some t') : t'.rows = t.rows ++ rows := by
  induction rows generalizing t with
  | nil =>
    obtain rfl := Option.some.inj h
    exact (List.append_nil _).symm
  | cons row rows ih =>
    obtain ⟨s, hs, hrest⟩ := upsertAll_cons.1 h
    rw [List.map_cons, List.nodup_cons] at hnodup
    rw [upsert, if_neg (hnew row List.mem_cons_self)] at hs
    obtain ⟨-, -, hrows⟩ := insert_eq_some.1 hs
    have hnew' : ∀ r ∈ rows, ix.key r ∉ s.keys := by
      intro r hr hmem
      simp only [keys, hrows, List.map_append, List.mem_append, List.map_cons, List.map_nil,
        List.mem_singleton] at hmem
      rcases hmem with hmem | hmem
      · exact hnew r (List.mem_cons_of_mem _ hr) hmem
      · exact hnodup.1 (hmem ▸ List.mem_map_of_mem hr)
    rw [ih hnew' hnodup.2 hrest, hrows, List.append_assoc, List.singleton_append]

/-- What every row satisfies, and the row too if it is new, holds after an upsert if a refresh
keeps it. -/
theorem forall_upsert {P : ρ → Prop} {R : Refresh ix γ} {row : ρ} {t t' : Table ix}
    (h : t.upsert R row = some t') (ht : ∀ r ∈ t.rows, P r) (hrow : ix.key row ∉ t.keys → P row)
    (hset : ∀ r ∈ t.rows, ix.key r = ix.key row → P (R.set (R.cols row) r)) :
    ∀ r ∈ t'.rows, P r := by
  intro r hr
  have hget := get?_upsert h (ix.key r)
  rw [get?_key hr] at hget
  split at hget
  · next hkey =>
    cases hg : t.get? (ix.key r) with
    | none =>
      rw [hg, Option.some.injEq] at hget
      rw [hget]
      exact hrow (hkey ▸ get?_eq_none.1 hg)
    | some old =>
      rw [hg, Option.some.injEq, Refresh.cell] at hget
      obtain ⟨hold, hkold⟩ := get?_eq_some.1 hg
      rw [hget]
      exact hset old hold (hkold.trans hkey)
  · exact ht r (get?_eq_some.1 hget.symm).1

theorem forall_upsertAll {P : ρ → Prop} {R : Refresh ix γ} {rows : List ρ} {t t' : Table ix}
    (h : t.upsertAll R rows = some t') (ht : ∀ r ∈ t.rows, P r) (hrows : ∀ w ∈ rows, P w)
    (hset : ∀ w ∈ rows, ∀ r, P r → ix.key r = ix.key w → P (R.set (R.cols w) r)) :
    ∀ r ∈ t'.rows, P r := by
  induction rows generalizing t with
  | nil =>
    obtain rfl := Option.some.inj h
    exact ht
  | cons row rows ih =>
    obtain ⟨s, hs, hrest⟩ := upsertAll_cons.1 h
    refine ih hrest ?_ (fun w hw => hrows w (List.mem_cons_of_mem _ hw))
      (fun w hw => hset w (List.mem_cons_of_mem _ hw))
    exact forall_upsert hs ht (fun _ => hrows row List.mem_cons_self)
      fun r hr hk => hset row List.mem_cons_self r (ht r hr) hk

/-- Rows whose id is a function of their key are all accepted if and only if that function
tells the keys apart. -/
theorem upsertAll_isSome_iff {R : Refresh ix γ} {f : κ → ι} {rows : List ρ} {t : Table ix}
    (ht : ∀ r ∈ t.rows, ix.id r = f (ix.key r)) (hrows : ∀ w ∈ rows, ix.id w = f (ix.key w)) :
    (t.upsertAll R rows).isSome ↔ Set.InjOn f {k | k ∈ t.keys ∨ k ∈ rows.map ix.key} := by
  induction rows generalizing t with
  | nil =>
    simp only [upsertAll, Option.isSome_some, List.map_nil, List.not_mem_nil, or_false, true_iff]
    intro k hk k' hk' heq
    obtain ⟨r, hr, rfl⟩ := List.mem_map.mp hk
    obtain ⟨r', hr', rfl⟩ := List.mem_map.mp hk'
    rw [← ht r hr, ← ht r' hr'] at heq
    rw [eq_of_id hr hr' heq]
  | cons row rows ih =>
    cases hs : t.upsert R row with
    | none =>
      simp only [upsertAll, hs, Option.bind_none, Option.isSome_none, Bool.false_eq_true,
        false_iff]
      obtain ⟨hk, hi⟩ := upsert_eq_none.1 hs
      obtain ⟨r, hr, hid⟩ := List.mem_map.mp hi
      intro hinj
      rw [ht r hr, hrows row List.mem_cons_self] at hid
      have hkey : ix.key r = ix.key row :=
        hinj (Or.inl (mem_keys hr)) (Or.inr (by simp)) hid
      exact hk (hkey ▸ mem_keys hr)
    | some s =>
      have hset : {k | k ∈ s.keys ∨ k ∈ rows.map ix.key} =
          {k | k ∈ t.keys ∨ k ∈ (row :: rows).map ix.key} := by
        ext k
        simp only [Set.mem_ofPred_eq, mem_keys_upsert hs, List.map_cons, List.mem_cons, or_assoc]
      have hsids : ∀ r ∈ s.rows, ix.id r = f (ix.key r) := by
        refine forall_upsert hs ht (fun _ => hrows row List.mem_cons_self) fun r hr _ => ?_
        rw [R.id_set, R.key_set]
        exact ht r hr
      rw [upsertAll, hs, Option.bind_some, ih hsids fun w hw => hrows w (List.mem_cons_of_mem _ hw),
        hset]

/-! ### Replacing a part of a table -/

/-- The rows with a key in scope are the last of each key of `rows`, apart from their ids, and
the rows out of scope are as they were. -/
structure Replaced (R : Refresh ix γ) (scope : κ → Prop) (rows : List ρ) (t t' : Table ix) :
    Prop where
  exact : ∀ k c, (∃ r ∈ t'.rows, scope (ix.key r) ∧ ix.key r = k ∧ R.cols r = c) ↔
    lastCols R k rows = some c
  others : ∀ r, ¬ scope (ix.key r) → (r ∈ t'.rows ↔ r ∈ t.rows)

/-- `rows` are in scope, name every stored row in scope, and name none twice. -/
structure Covers (scope : κ → Prop) (rows : List ρ) (t : Table ix) : Prop where
  own : ∀ w ∈ rows, scope (ix.key w)
  noStale : ∀ r ∈ t.rows, scope (ix.key r) → ix.key r ∈ rows.map ix.key
  distinct : (rows.map ix.key).Nodup

section Replace

variable {R : Refresh ix γ} {scope : κ → Prop} {rows : List ρ} {t t' : Table ix}

theorem Replaced.of_covers (h : t.upsertAll R rows = some t')
    (hown : ∀ w ∈ rows, scope (ix.key w))
    (hstale : ∀ r ∈ t.rows, scope (ix.key r) → ix.key r ∈ rows.map ix.key) :
    Replaced R scope rows t t' where
  exact := by
    intro k c
    constructor
    · rintro ⟨r, hr, hscope, rfl, rfl⟩
      apply cols_eq_lastCols h hr
      rcases (keys_upsertAll h _).mp (mem_keys hr) with hold | hnew
      · obtain ⟨old, hmem, hkey⟩ := List.mem_map.mp hold
        rw [← hkey] at hscope ⊢
        exact hstale old hmem hscope
      · exact hnew
    · intro hc
      have hk : k ∈ rows.map ix.key := lastCols_isSome.1 (Option.isSome_of_eq_some hc)
      obtain ⟨r, hr, rfl⟩ := List.mem_map.mp ((keys_upsertAll h k).mpr (.inr hk))
      obtain ⟨w, hw, hkey⟩ := List.mem_map.mp hk
      refine ⟨r, hr, hkey ▸ hown w hw, rfl, ?_⟩
      rw [cols_eq_lastCols h hr hk] at hc
      exact Option.some.inj hc
  others := by
    intro r hout
    have hk : ix.key r ∉ rows.map ix.key := by
      intro hmem
      obtain ⟨w, hw, hkey⟩ := List.mem_map.mp hmem
      exact hout (hkey ▸ hown w hw)
    have hget := get?_upsertAll_of_notMem h hk
    have hmem (s : Table ix) : r ∈ s.rows ↔ s.get? (ix.key r) = some r := by
      rw [get?_eq_some]
      simp
    rw [hmem, hmem, hget]

/-- The rows in scope with some property of their columns are those whose key was written last
with it. -/
theorem countP_of_covers [DecidablePred scope] (h : t.upsertAll R rows = some t')
    (hown : ∀ w ∈ rows, scope (ix.key w))
    (hstale : ∀ r ∈ t.rows, scope (ix.key r) → ix.key r ∈ rows.map ix.key) (p : γ → Bool) :
    t'.rows.countP (fun r => scope (ix.key r) ∧ p (R.cols r)) =
      (rows.map ix.key).dedup.countP fun k => (lastCols R k rows).any p := by
  rw [List.countP_eq_length_filter, List.countP_eq_length_filter,
    ← List.length_map (f := ix.key)]
  refine List.Perm.length_eq ((List.perm_ext_iff_of_nodup ?_
    ((List.nodup_dedup _).filter _)).mpr fun k => ?_)
  · exact t'.keys_nodup.sublist (List.filter_sublist.map _)
  have hrep := Replaced.of_covers h hown hstale
  simp only [List.mem_map, List.mem_filter, List.mem_dedup, decide_eq_true_eq, Option.any_eq_true]
  constructor
  · rintro ⟨r, ⟨hr, hscope, hp⟩, rfl⟩
    have hlast := (hrep.exact _ _).mp ⟨r, hr, hscope, rfl, rfl⟩
    exact ⟨List.mem_map.mp (lastCols_isSome.1 (Option.isSome_of_eq_some hlast)), _, hlast, hp⟩
  · rintro ⟨-, c, hlast, hp⟩
    obtain ⟨r, hr, hscope, hkey, rfl⟩ := (hrep.exact k c).mpr hlast
    exact ⟨r, ⟨hr, hscope, hp⟩, hkey⟩

/-- The rows in scope afterwards have the keys of `rows`, each once. -/
theorem count_of_covers [DecidablePred scope] (h : t.upsertAll R rows = some t')
    (hown : ∀ w ∈ rows, scope (ix.key w))
    (hstale : ∀ r ∈ t.rows, scope (ix.key r) → ix.key r ∈ rows.map ix.key) :
    t'.rows.countP (fun r => scope (ix.key r)) = (rows.map ix.key).dedup.length := by
  have hcount := countP_of_covers h hown hstale fun _ => true
  simp only [and_true] at hcount
  rw [hcount, List.countP_eq_length]
  intro k hk
  obtain ⟨c, hc⟩ := Option.isSome_iff_exists.mp
    (lastCols_isSome (R := R).mpr (List.mem_dedup.mp hk))
  rw [hc, Option.any_some]

/-- Upserting replaces a part of a table, with as many rows as were upserted, if and only if the
rows cover that part. -/
theorem replaced_iff_covers [DecidablePred scope] (h : t.upsertAll R rows = some t') :
    (Replaced R scope rows t t' ∧
        t'.rows.countP (fun r => scope (ix.key r)) = rows.length) ↔ Covers scope rows t := by
  constructor
  · rintro ⟨hrep, hcount⟩
    have hown : ∀ w ∈ rows, scope (ix.key w) := by
      intro w hw
      obtain ⟨c, hc⟩ := Option.isSome_iff_exists.mp
        (lastCols_isSome (R := R).mpr (List.mem_map_of_mem hw))
      obtain ⟨r, -, hscope, hkey, -⟩ := (hrep.exact _ c).mpr hc
      exact hkey ▸ hscope
    have hstale : ∀ r ∈ t.rows, scope (ix.key r) → ix.key r ∈ rows.map ix.key := by
      intro r hr hscope
      obtain ⟨r', hr', hkey⟩ := List.mem_map.mp ((keys_upsertAll h _).mpr (.inl (mem_keys hr)))
      have hc := (hrep.exact (ix.key r) (R.cols r')).mp ⟨r', hr', hkey ▸ hscope, hkey, rfl⟩
      exact lastCols_isSome.1 (Option.isSome_of_eq_some hc)
    refine ⟨hown, hstale, ?_⟩
    rw [count_of_covers h hown hstale, ← List.length_map (f := ix.key)] at hcount
    exact List.dedup_eq_self.mp ((List.dedup_sublist _).eq_of_length hcount)
  · rintro ⟨hown, hstale, hnodup⟩
    refine ⟨Replaced.of_covers h hown hstale, ?_⟩
    rw [count_of_covers h hown hstale, hnodup.dedup, List.length_map]

end Replace

end Insert

end Table
