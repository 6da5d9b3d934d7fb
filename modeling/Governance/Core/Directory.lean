import Governance.Core.Identity
import Governance.Lib.Outcome
import Governance.Lib.StableSort

/-!
# Running the directory sync again

The mappings that are active when a sync begins decide each entry of its list, wherever the entry
stands. What one run leaves open for a principal, and what a second run of the same list then
finds.
-/

namespace Governance

open IdentityMap

instance : IsTrans IdentityMap fun a b => b.validFrom ≤ a.validFrom :=
  ⟨fun _ _ _ hab hbc => le_trans hbc hab⟩

instance : Std.Total fun a b : IdentityMap => b.validFrom ≤ a.validFrom :=
  ⟨fun a b => le_total b.validFrom a.validFrom⟩

/-- The mapping that begins last. -/
def IdentityMap.latest (rows : List IdentityMap) : Option IdentityMap :=
  (orderByValidFromDesc rows).head?

theorem decode_eq_ok_iff {r : IdentityMap} {pair : String × String} :
    decode r = .ok pair ↔ ∃ user, r.internalUserId = some user ∧ pair = (r.providerUserId, user) := by
  unfold decode
  cases r.internalUserId with
  | none => simp
  | some user => simp [eq_comm]

/-- The first pair of a key, among rows that all decode, is the user of the first row of the
key. -/
theorem firstOf_mapM_decode {rows : List IdentityMap} {pairs : List (String × String)}
    (h : rows.mapM decode = .ok pairs) (providerUserId : String) :
    firstOf pairs providerUserId =
      (rows.find? fun r => r.providerUserId = providerUserId).bind internalUserId := by
  induction Except.mapM_eq_ok_iff.1 h with
  | nil => rfl
  | @cons r pair rows pairs hr hrest ih =>
    obtain ⟨user, huser, rfl⟩ := decode_eq_ok_iff.1 hr
    rw [firstOf, List.find?_cons, List.find?_cons]
    by_cases hp : r.providerUserId = providerUserId
    · simp [hp, huser]
    · simpa [hp, firstOf] using ih (Except.mapM_eq_ok_iff.2 hrest)

/-- Every row decodes if and only if every row names a user. -/
theorem mapM_decode_isOk {rows : List IdentityMap} :
    (∃ pairs, rows.mapM decode = .ok pairs) ↔ ∀ r ∈ rows, r.internalUserId.isSome := by
  rw [Except.mapM_isOk_iff]
  refine forall₂_congr fun r _ => ?_
  simp [decode_eq_ok_iff, Option.isSome_iff_exists]

namespace SyncCall

/-- The mappings of a principal that have no end. -/
def openRows (c : SyncCall) (providerUserId : String) (maps : Table IdentityMap.index) :
    List IdentityMap :=
  maps.rows.filter fun r => r.tenantId = c.tenantId ∧ r.provider = c.provider ∧
    r.providerUserId = providerUserId ∧ r.validTo = none

/-- The user of the active mapping of a principal. -/
def activeUser (c : SyncCall) (maps : Table IdentityMap.index) (providerUserId : String) :
    Option String :=
  (latest (c.openRows providerUserId maps)).bind internalUserId

/-- The batched query of the active mappings. -/
def loadActive (c : SyncCall) (maps : Table IdentityMap.index) :
    Except CoreError (List (String × String)) :=
  (orderByValidFromDesc (maps.rows.filter fun r => r.tenantId = c.tenantId ∧
    r.provider = c.provider ∧ r.validTo = none)).mapM decode

variable {c : SyncCall} {maps maps' : Table IdentityMap.index} {active : List (String × String)}

theorem firstOf_loadActive (h : c.loadActive maps = .ok active) :
    firstOf active = c.activeUser maps := by
  funext providerUserId
  rw [firstOf_mapM_decode h, orderByValidFromDesc, StableSort.find?_insertionSort,
    List.filter_filter, activeUser, latest, orderByValidFromDesc, openRows]
  congr 4
  funext r
  simp only [Bool.decide_and]
  grind

theorem exists_loadActive_iff :
    (∃ active, c.loadActive maps = .ok active) ↔
      ∀ p, ∀ r ∈ c.openRows p maps, r.internalUserId.isSome := by
  rw [loadActive, mapM_decode_isOk]
  simp only [orderByValidFromDesc, List.mem_insertionSort, openRows, List.mem_filter,
    decide_eq_true_eq]
  constructor
  · rintro h p r ⟨hr, htenant, hprovider, -, hopen⟩
    exact h r ⟨hr, htenant, hprovider, hopen⟩
  · rintro h r ⟨hr, htenant, hprovider, hopen⟩
    exact h r.providerUserId r ⟨hr, htenant, hprovider, rfl, hopen⟩

/-- A principal without an active user has no open mapping. -/
theorem openRows_of_activeUser_eq_none (h : c.loadActive maps = .ok active) {p : String}
    (hp : c.activeUser maps p = none) : c.openRows p maps = [] := by
  have hsome := exists_loadActive_iff.1 ⟨active, h⟩ p
  cases hlatest : latest (c.openRows p maps) with
  | none =>
    have hlen := List.length_insertionSort (fun a b : IdentityMap => b.validFrom ≤ a.validFrom)
      (c.openRows p maps)
    rw [latest, orderByValidFromDesc, List.head?_eq_none_iff] at hlatest
    rw [hlatest] at hlen
    exact List.eq_nil_of_length_eq_zero hlen.symm
  | some r =>
    have hr := (StableSort.rel_of_head?_insertionSort _ hlatest).1
    rw [activeUser, hlatest, Option.bind_some] at hp
    have huser := hsome r hr
    simp [hp] at huser

/-! ### What one entry does -/

/-- An entry moves its principal when it does not name the user that was active at the start. -/
def moves (active : List (String × String)) (entry : DirectoryEntry) : Bool :=
  firstOf active entry.providerUserId ≠ some entry.internalUserId

/-- The key of the row that a move of a principal inserts. -/
def moveKey (c : SyncCall) (providerUserId : String) : String × String × String × ℤ :=
  (c.tenantId, c.provider, providerUserId, c.now)

/-- What a move leaves: one new row under a key and an id that were free, the rest of the
principal's mappings closed, and every other principal's open mappings as they were. -/
structure Moved (c : SyncCall) (n : ℕ) (entry : DirectoryEntry)
    (maps maps' : Table IdentityMap.index) : Prop where
  freshKey : c.moveKey entry.providerUserId ∉ maps.keys
  freshId : (c.directoryRow n entry).id ∉ maps.ids
  keys : maps'.keys = maps.keys ++ [c.moveKey entry.providerUserId]
  ids : maps'.ids = maps.ids ++ [(c.directoryRow n entry).id]
  others : ∀ p ≠ entry.providerUserId, c.openRows p maps' = c.openRows p maps

theorem insertIdentityMap_eq_ok {n : ℕ} {entry : DirectoryEntry}
    (h : c.insertIdentityMap n entry maps = .ok maps') :
    Moved c n entry maps maps' ∧
      c.openRows entry.providerUserId maps' =
        c.openRows entry.providerUserId maps ++ [c.directoryRow n entry] := by
  rw [insertIdentityMap] at h
  cases hins : maps.insert (c.directoryRow n entry) with
  | none => rw [hins] at h; cases h
  | some maps₁ =>
    rw [hins] at h
    simp only at h
    split at h
    · obtain rfl := Except.ok.inj h
      obtain ⟨hkey, hid, hrows⟩ := Table.insert_eq_some.1 hins
      refine ⟨⟨hkey, hid, ?_, ?_, ?_⟩, ?_⟩
      · simp [Table.keys, hrows, moveKey, directoryRow, IdentityMap.index]
      · simp [Table.ids, hrows, directoryRow, IdentityMap.index]
      · intro p hp
        simp [openRows, hrows, directoryRow, Ne.symm hp]
      · simp [openRows, hrows, directoryRow]
    · cases h

theorem keys_close (p : String) : (c.closeActiveIdentityMap p maps).keys = maps.keys :=
  Table.keys_update _ _ _ _

theorem ids_close (p : String) : (c.closeActiveIdentityMap p maps).ids = maps.ids :=
  Table.ids_update _ _ _ _

theorem openRows_close_self (p : String) : c.openRows p (c.closeActiveIdentityMap p maps) = [] := by
  rw [openRows, closeActiveIdentityMap, Table.rows_update, List.filter_eq_nil_iff]
  intro r hr
  obtain ⟨r, -, rfl⟩ := List.mem_map.mp hr
  rw [closeRow]
  split
  · simp
  · next hopen => simpa using hopen

theorem openRows_close_of_ne {p q : String} (h : q ≠ p) :
    c.openRows q (c.closeActiveIdentityMap p maps) = c.openRows q maps := by
  rw [openRows, closeActiveIdentityMap, Table.rows_update, openRows]
  induction maps.rows with
  | nil => rfl
  | cons r rows ih =>
    rw [List.map_cons, List.filter_cons, List.filter_cons, ih]
    by_cases hclose : r.tenantId = c.tenantId ∧ r.provider = c.provider ∧
        r.providerUserId = p ∧ r.validTo = none
    · -- A row that is closed belongs to `p`, before and after.
      have hq : r.providerUserId ≠ q := by
        rintro rfl
        exact h hclose.2.2.1
      simp [closeRow, hclose, hclose.2.2.1 ▸ hq]
    · rw [closeRow, if_neg hclose]

/-- One entry and the rest of the list: the entry is counted and leaves the table, or it moves
its principal. -/
theorem syncEntries_cons {n : ℕ} {entry : DirectoryEntry} {entries : List DirectoryEntry}
    {report report' : IdentitySyncReport}
    (h : c.syncEntries active n (entry :: entries) (maps, report) = .ok (maps', report')) :
    (moves active entry = false ∧
      c.syncEntries active (n + 1) entries (maps, { report with unchanged := report.unchanged + 1 })
        = .ok (maps', report')) ∨
    (moves active entry = true ∧ ∃ maps₁ report₁,
      Moved c n entry maps maps₁ ∧
      (firstOf active entry.providerUserId = none ∧
          c.openRows entry.providerUserId maps₁ =
            c.openRows entry.providerUserId maps ++ [c.directoryRow n entry] ∨
        c.openRows entry.providerUserId maps₁ = [c.directoryRow n entry]) ∧
      report₁.inserted + report₁.repointed = report.inserted + report.repointed + 1 ∧
      c.syncEntries active (n + 1) entries (maps₁, report₁) = .ok (maps', report')) := by
  rw [syncEntries] at h
  split at h
  · next hnone =>
    cases hins : c.insertIdentityMap n entry maps with
    | error e => rw [hins] at h; cases h
    | ok maps₁ =>
      rw [hins] at h
      obtain ⟨hmoved, hopen⟩ := insertIdentityMap_eq_ok hins
      exact .inr ⟨by simp [moves, hnone], maps₁, _, hmoved, .inl ⟨hnone, hopen⟩, by simp; omega, h⟩
  · next current hsome =>
    split at h
    · next hsame => exact .inl ⟨by simp [moves, hsome, hsame], h⟩
    · next hdiff =>
      cases hins : c.insertIdentityMap n entry
          (c.closeActiveIdentityMap entry.providerUserId maps) with
      | error e => rw [hins] at h; cases h
      | ok maps₁ =>
        rw [hins] at h
        obtain ⟨⟨hkey, hid, hkeys, hids, hothers⟩, hopen⟩ := insertIdentityMap_eq_ok hins
        rw [keys_close] at hkey hkeys
        rw [ids_close] at hid hids
        rw [openRows_close_self, List.nil_append] at hopen
        refine .inr ⟨by simp [moves, hsome, hdiff], maps₁, _, ⟨hkey, hid, hkeys, hids, ?_⟩,
          .inr hopen, by simp; omega, h⟩
        intro p hp
        rw [hothers p hp, openRows_close_of_ne hp]

/-! ### What the loop does -/

section Loop

variable {n : ℕ} {entries : List DirectoryEntry} {report report' : IdentitySyncReport} {p : String}

theorem moved_of_syncEntries
    (h : c.syncEntries active n entries (maps, report) = .ok (maps', report')) :
    report'.inserted + report'.repointed =
      report.inserted + report.repointed + entries.countP (moves active) := by
  induction entries generalizing n maps report with
  | nil =>
    obtain ⟨-, rfl⟩ := Prod.mk.inj (Except.ok.inj h)
    rfl
  | cons entry entries ih =>
    rcases syncEntries_cons h with ⟨hstay, hrest⟩ | ⟨hmove, maps₁, report₁, -, -, hcount, hrest⟩
    · rw [List.countP_cons_of_neg (by simp [hstay]), ih hrest]
    · rw [List.countP_cons_of_pos hmove, ih hrest, hcount]
      omega

/-- A principal moves at most once in a run: the second row would have the key of the first. -/
theorem moves_eq_false_of_mem_keys
    (h : c.syncEntries active n entries (maps, report) = .ok (maps', report'))
    (hkey : c.moveKey p ∈ maps.keys) :
    ∀ entry ∈ entries, entry.providerUserId = p → moves active entry = false := by
  induction entries generalizing n maps report with
  | nil => exact fun entry hentry => absurd hentry List.not_mem_nil
  | cons entry entries ih =>
    rcases syncEntries_cons h with ⟨hstay, hrest⟩ | ⟨-, maps₁, report₁, hmoved, -, -, hrest⟩
    · exact List.forall_mem_cons.mpr ⟨fun _ => hstay, ih hrest hkey⟩
    · refine List.forall_mem_cons.mpr ⟨?_, ih hrest ?_⟩
      · rintro rfl
        exact absurd hkey hmoved.freshKey
      · rw [hmoved.keys]
        exact List.mem_append_left _ hkey

theorem openRows_of_settled
    (h : c.syncEntries active n entries (maps, report) = .ok (maps', report'))
    (hsettled : ∀ entry ∈ entries, entry.providerUserId = p → moves active entry = false) :
    c.openRows p maps' = c.openRows p maps := by
  induction entries generalizing n maps report with
  | nil =>
    obtain ⟨rfl, -⟩ := Prod.mk.inj (Except.ok.inj h)
    rfl
  | cons entry entries ih =>
    obtain ⟨hentry, hentries⟩ := List.forall_mem_cons.mp hsettled
    rcases syncEntries_cons h with ⟨-, hrest⟩ | ⟨hmove, maps₁, report₁, hmoved, -, -, hrest⟩
    · exact ih hrest hentries
    · rw [ih hrest hentries]
      refine hmoved.others p ?_
      rintro rfl
      simp [hentry rfl] at hmove

/-- A principal that moves is left with the one row that its move opened. -/
theorem openRows_of_moves
    (h : c.syncEntries active n entries (maps, report) = .ok (maps', report'))
    (hnone : firstOf active p = none → c.openRows p maps = [])
    (hmoves : ∃ entry ∈ entries, entry.providerUserId = p ∧ moves active entry = true) :
    ∃ m, ∃ entry ∈ entries, entry.providerUserId = p ∧
      c.openRows p maps' = [c.directoryRow m entry] ∧ (c.directoryRow m entry).id ∉ maps.ids := by
  induction entries generalizing n maps report with
  | nil =>
    obtain ⟨entry, hentry, -⟩ := hmoves
    exact absurd hentry List.not_mem_nil
  | cons entry entries ih =>
    rcases syncEntries_cons h with
      ⟨hstay, hrest⟩ | ⟨hmove, maps₁, report₁, hmoved, hopen, -, hrest⟩
    · obtain ⟨moving, hmem, hp, hmoving⟩ := hmoves
      have hlater : ∃ entry ∈ entries, entry.providerUserId = p ∧ moves active entry = true := by
        rcases List.mem_cons.mp hmem with rfl | hmem
        · simp [hstay] at hmoving
        · exact ⟨moving, hmem, hp, hmoving⟩
      obtain ⟨m, e, he, hrow⟩ := ih hrest hnone hlater
      exact ⟨m, e, List.mem_cons_of_mem _ he, hrow⟩
    · by_cases hp : entry.providerUserId = p
      · -- The move of `p` itself: its key is taken from here on, so `p` stays where it is.
        subst hp
        have hrow : c.openRows entry.providerUserId maps₁ = [c.directoryRow n entry] := by
          rcases hopen with ⟨hfirst, hopen⟩ | hopen
          · rw [hopen, hnone hfirst, List.nil_append]
          · exact hopen
        have htaken : c.moveKey entry.providerUserId ∈ maps₁.keys := by
          rw [hmoved.keys]
          exact List.mem_append_right _ (List.mem_singleton_self _)
        refine ⟨n, entry, List.mem_cons_self, rfl, ?_, hmoved.freshId⟩
        rw [openRows_of_settled hrest (moves_eq_false_of_mem_keys hrest htaken), hrow]
      · obtain ⟨moving, hmem, hmp, hmoving⟩ := hmoves
        have hlater : ∃ entry ∈ entries, entry.providerUserId = p ∧ moves active entry = true := by
          rcases List.mem_cons.mp hmem with rfl | hmem
          · exact absurd hmp hp
          · exact ⟨moving, hmem, hmp, hmoving⟩
        have hsame := hmoved.others p (Ne.symm hp)
        obtain ⟨m, e, he, hep, hrow, hid⟩ := ih hrest (fun hf => hsame.trans (hnone hf)) hlater
        refine ⟨m, e, List.mem_cons_of_mem _ he, hep, hrow, fun hmem => hid ?_⟩
        rw [hmoved.ids]
        exact List.mem_append_left _ hmem

/-- A list that moves nobody only counts its entries. -/
theorem syncEntries_of_settled (c : SyncCall) (n : ℕ) (maps : Table IdentityMap.index)
    (report : IdentitySyncReport) (hsettled : ∀ entry ∈ entries, moves active entry = false) :
    c.syncEntries active n entries (maps, report) =
      .ok (maps, { report with unchanged := report.unchanged + entries.length }) := by
  induction entries generalizing n report with
  | nil => rfl
  | cons entry entries ih =>
    obtain ⟨hentry, hentries⟩ := List.forall_mem_cons.mp hsettled
    have hfirst : firstOf active entry.providerUserId = some entry.internalUserId := by
      simpa [moves] using hentry
    rw [syncEntries, hfirst]
    simp only [if_true]
    rw [ih (n + 1) _ hentries, List.length_cons]
    simp only [Nat.add_assoc, Nat.add_comm 1]

end Loop

/-! ### A second run -/

/-- No principal is listed under two users. -/
def Consistent (entries : List DirectoryEntry) : Prop :=
  ∀ e ∈ entries, ∀ e' ∈ entries, e.providerUserId = e'.providerUserId →
    e.internalUserId = e'.internalUserId

/-- A later sync of the same list. -/
structure Repeats (c c₂ : SyncCall) : Prop where
  tenantId : c₂.tenantId = c.tenantId
  provider : c₂.provider = c.provider
  entries : c₂.entries = c.entries

/-- The open mappings of a principal that were not there before. -/
def openedRows (c : SyncCall) (providerUserId : String) (maps maps' : Table IdentityMap.index) :
    List IdentityMap :=
  (c.openRows providerUserId maps').filter fun r => r.id ∉ maps.ids

theorem syncIdentityDirectory_eq_ok {report : IdentitySyncReport}
    (h : c.syncIdentityDirectory maps = (.ok report, maps')) :
    ∃ active, c.loadActive maps = .ok active ∧
      c.syncEntries active 0 c.entries (maps, ⟨0, 0, 0⟩) = .ok (maps', report) := by
  rw [syncIdentityDirectory] at h
  split at h
  · cases h
  · cases hload : c.loadActive maps with
    | error e =>
      rw [loadActive] at hload
      rw [transaction, hload] at h
      cases h
    | ok active =>
      rw [transaction, ← loadActive, hload] at h
      refine ⟨active, rfl, ?_⟩
      simp only [bind, Except.bind] at h
      split at h
      · next maps₁ report₁ hrun =>
        obtain ⟨hreport, rfl⟩ := Prod.mk.inj h
        obtain rfl := Except.ok.inj hreport
        exact hrun
      · cases h

section Again

variable {report : IdentitySyncReport}

/-- After a run a listed principal is mapped to the user of one of its entries. -/
theorem activeUser_after (h : c.syncIdentityDirectory maps = (.ok report, maps'))
    {entry : DirectoryEntry} (hentry : entry ∈ c.entries) :
    ∃ e ∈ c.entries, e.providerUserId = entry.providerUserId ∧
      c.activeUser maps' entry.providerUserId = some e.internalUserId := by
  obtain ⟨active, hload, hrun⟩ := syncIdentityDirectory_eq_ok h
  by_cases hmoves : ∃ e ∈ c.entries, e.providerUserId = entry.providerUserId ∧
      moves active e = true
  · have hnone : firstOf active entry.providerUserId = none →
        c.openRows entry.providerUserId maps = [] := by
      rw [firstOf_loadActive hload]
      exact openRows_of_activeUser_eq_none hload
    obtain ⟨m, e, he, hp, hrow, -⟩ := openRows_of_moves hrun hnone hmoves
    refine ⟨e, he, hp, ?_⟩
    rw [activeUser, hrow]
    rfl
  · have hsettled : ∀ e ∈ c.entries, e.providerUserId = entry.providerUserId →
        moves active e = false := by
      simpa using hmoves
    refine ⟨entry, hentry, rfl, ?_⟩
    have hstay := hsettled entry hentry rfl
    rw [activeUser, openRows_of_settled hrun hsettled, ← activeUser, ← firstOf_loadActive hload]
    simpa [moves] using hstay

/-- After a run the active mappings of every principal can be loaded. -/
theorem exists_loadActive_after (h : c.syncIdentityDirectory maps = (.ok report, maps')) :
    ∃ active, c.loadActive maps' = .ok active := by
  obtain ⟨active, hload, hrun⟩ := syncIdentityDirectory_eq_ok h
  rw [exists_loadActive_iff]
  intro p
  by_cases hmoves : ∃ e ∈ c.entries, e.providerUserId = p ∧ moves active e = true
  · have hnone : firstOf active p = none → c.openRows p maps = [] := by
      rw [firstOf_loadActive hload]
      exact openRows_of_activeUser_eq_none hload
    obtain ⟨m, e, -, -, hrow, -⟩ := openRows_of_moves hrun hnone hmoves
    rw [hrow]
    simp [directoryRow]
  · have hsettled : ∀ e ∈ c.entries, e.providerUserId = p → moves active e = false := by
      simpa using hmoves
    rw [openRows_of_settled hrun hsettled]
    exact exists_loadActive_iff.1 ⟨active, hload⟩ p

theorem Repeats.loadActive {c₂ : SyncCall} (h : Repeats c c₂) :
    c₂.loadActive maps = c.loadActive maps := by
  rw [SyncCall.loadActive, SyncCall.loadActive, h.tenantId, h.provider]

/-- A second run of the list moves nobody if and only if no principal is listed under two
users. -/
theorem repeat_iff_consistent (h : c.syncIdentityDirectory maps = (.ok report, maps'))
    {c₂ : SyncCall} (hrepeat : Repeats c c₂) (hfault : c₂.fault = none) :
    c₂.syncIdentityDirectory maps' = (.ok ⟨0, 0, c.entries.length⟩, maps') ↔
      Consistent c.entries := by
  obtain ⟨active, hload⟩ := exists_loadActive_after h
  have hsettled_iff : (∀ e ∈ c.entries, moves active e = false) ↔ Consistent c.entries := by
    simp only [moves, firstOf_loadActive hload, decide_eq_false_iff_not, ne_eq, not_not]
    constructor
    · intro hall e he e' he' hp
      have hsame := hall e he
      rw [hp, hall e' he'] at hsame
      exact (Option.some.inj hsame).symm
    · intro hcons e he
      obtain ⟨e', he', hp, huser⟩ := activeUser_after h he
      rw [huser, hcons e' he' e he hp]
  rw [← hsettled_iff]
  constructor
  · intro hrun
    obtain ⟨active₂, hload₂, hrun₂⟩ := syncIdentityDirectory_eq_ok hrun
    rw [hrepeat.loadActive, hload] at hload₂
    obtain rfl := Except.ok.inj hload₂
    rw [hrepeat.entries] at hrun₂
    have hcount : 0 = c.entries.countP (moves active) := by
      simpa using moved_of_syncEntries hrun₂
    simpa using List.countP_eq_zero.mp hcount.symm
  · intro hsettled
    have hactive : c₂.loadActive maps' = .ok active := hrepeat.loadActive.trans hload
    rw [SyncCall.loadActive] at hactive
    rw [syncIdentityDirectory, hfault]
    simp only [transaction, hactive, hrepeat.entries, bind, Except.bind]
    rw [syncEntries_of_settled c₂ 0 maps' ⟨0, 0, 0⟩ hsettled, Nat.zero_add]

/-- A run opens one mapping for a listed principal that an entry moves, and none for one that is
mapped to its user already. -/
theorem length_openedRows (h : c.syncIdentityDirectory maps = (.ok report, maps')) (p : String) :
    (c.openedRows p maps maps').length =
      if ∃ e ∈ c.entries, e.providerUserId = p ∧ c.activeUser maps p ≠ some e.internalUserId
        then 1 else 0 := by
  obtain ⟨active, hload, hrun⟩ := syncIdentityDirectory_eq_ok h
  have hmoves_iff : (∃ e ∈ c.entries, e.providerUserId = p ∧
      c.activeUser maps p ≠ some e.internalUserId) ↔
      ∃ e ∈ c.entries, e.providerUserId = p ∧ moves active e = true := by
    simp only [moves, firstOf_loadActive hload, decide_eq_true_eq]
    constructor
    · rintro ⟨e, he, rfl, hne⟩
      exact ⟨e, he, rfl, hne⟩
    · rintro ⟨e, he, rfl, hne⟩
      exact ⟨e, he, rfl, hne⟩
  by_cases hmoves : ∃ e ∈ c.entries, e.providerUserId = p ∧ moves active e = true
  · have hnone : firstOf active p = none → c.openRows p maps = [] := by
      rw [firstOf_loadActive hload]
      exact openRows_of_activeUser_eq_none hload
    obtain ⟨m, e, -, -, hrow, hid⟩ := openRows_of_moves hrun hnone hmoves
    rw [if_pos (hmoves_iff.mpr hmoves), openedRows, hrow]
    simp [hid]
  · have hsettled : ∀ e ∈ c.entries, e.providerUserId = p → moves active e = false := by
      simpa using hmoves
    rw [if_neg (mt hmoves_iff.mp hmoves), openedRows, openRows_of_settled hrun hsettled,
      List.length_eq_zero_iff, List.filter_eq_nil_iff]
    intro r hr
    have hid : r.id ∈ maps.ids := Table.mem_ids (List.mem_of_mem_filter hr)
    simpa using hid

/-- A second run of a list without contradictions reports that nothing moved and changes no row,
whether or not the database fails it, and the first run opened exactly one mapping for each
listed principal that was not mapped to its user already. -/
theorem sync_again (h : c.syncIdentityDirectory maps = (.ok report, maps')) :
    (Consistent c.entries → ∀ c₂, Repeats c c₂ →
      c₂.syncIdentityDirectory maps' =
        (match c₂.fault with
          | some e => .error (.storage e)
          | none => .ok ⟨0, 0, c.entries.length⟩, maps')) ∧
    ∀ p ∈ c.entries.map DirectoryEntry.providerUserId,
      (c.openedRows p maps maps').length =
        if ∃ e ∈ c.entries, e.providerUserId = p ∧ c.activeUser maps p ≠ some e.internalUserId
          then 1 else 0 := by
  refine ⟨fun hcons c₂ hrepeat => ?_, fun p _ => length_openedRows h p⟩
  cases hfault : c₂.fault with
  | some e => rw [syncIdentityDirectory, hfault]
  | none => exact (repeat_iff_consistent h hrepeat hfault).mpr hcons

end Again

/-- A table in which the sign-in flow mapped one principal at 10. -/
def signedIn : Table IdentityMap.index where
  rows := [{ id := "idmap-0", tenantId := "acme", provider := "copilot"
             providerUserId := "ada@acme.example", internalUserId := some "u1"
             mappingSource := "oauth", validFrom := 10, validTo := none }]
  keys_nodup := List.nodup_singleton _
  ids_nodup := List.nodup_singleton _

/-- A sync of some entries at some time. -/
def directorySync (entries : List DirectoryEntry) (cuid : String) (now : ℤ) : SyncCall where
  tenantId := "acme"
  provider := "copilot"
  entries := entries
  now := now
  cuid := fun _ => cuid
  tenants := ["acme"]
  fault := none

/-- One new principal and one that is mapped to its user: one mapping is opened, and the second
run finds both. -/
theorem sync_again_signedIn :
    let entries : List DirectoryEntry := [⟨"bob@acme.example", "u2"⟩, ⟨"ada@acme.example", "u1"⟩]
    let c := directorySync entries "a" 20
    let c₂ := directorySync entries "b" 30
    (c.syncIdentityDirectory signedIn).2.rows.length = 2 ∧
      c₂.syncIdentityDirectory (c.syncIdentityDirectory signedIn).2 =
        (.ok ⟨0, 0, 2⟩, (c.syncIdentityDirectory signedIn).2) := by
  intro entries c c₂
  refine ⟨by decide, ?_⟩
  have hrun : c.syncIdentityDirectory signedIn =
      (.ok ⟨1, 0, 1⟩, (c.syncIdentityDirectory signedIn).2) :=
    Prod.ext (by decide) rfl
  exact (sync_again hrun).1 (by unfold Consistent; decide) c₂ ⟨rfl, rfl, rfl⟩

/-- A principal whose mapping was right already has no mapping that the sync opened. Listed under
two users it moves again in the second run, which finds the second user active and meets the first
entry first. -/
theorem listed_twice_moves_again :
    let once := directorySync [⟨"ada@acme.example", "u1"⟩] "a" 20
    let entries : List DirectoryEntry := [⟨"ada@acme.example", "u1"⟩, ⟨"ada@acme.example", "u2"⟩]
    let c := directorySync entries "a" 20
    let c₂ := directorySync entries "b" 30
    let maps := (c.syncIdentityDirectory signedIn).2
    ((once.syncIdentityDirectory signedIn).1 = .ok ⟨0, 0, 1⟩ ∧
      ((once.syncIdentityDirectory signedIn).2.rows.filter fun r =>
        r.mappingSource = "key_directory") = []) ∧
    ((c.syncIdentityDirectory signedIn).1 = .ok ⟨0, 1, 1⟩ ∧
      (c₂.syncIdentityDirectory maps).1 = .ok ⟨0, 1, 1⟩ ∧
      (c₂.syncIdentityDirectory maps).2.rows.length = maps.rows.length + 1) := by
  decide

end SyncCall

end Governance
