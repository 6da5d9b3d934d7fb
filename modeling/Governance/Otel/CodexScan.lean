import Governance.Otel.CodexSessions

/-!
# The Codex session scan loses no turn

Every tick takes the next eight files in the order of their age and remembers them, so after a tick
for every eight files each of them has been read once. Three things break this: conflicting copies
of one turn fail the scan of all files, a turn that ends in the future is left out of a file that
is then remembered, and the memory is cleared beyond 4096 files.
-/

namespace Governance

namespace CodexSessions

open ByteLines

/-! ## Chunks -/

theorem flatten_chunksFuel {α : Type} {size fuel : ℕ} (hsize : 0 < size) {l : List α}
    (hfuel : l.length ≤ fuel) : (chunksFuel size fuel l).flatten = l := by
  induction fuel generalizing l with
  | zero =>
    obtain rfl := List.length_eq_zero_iff.mp (Nat.le_zero.mp hfuel)
    rfl
  | succ fuel ih =>
    cases l with
    | nil => rfl
    | cons a l =>
      have hrest : ((a :: l).drop size).length ≤ fuel := by
        rw [List.length_drop, List.length_cons]
        rw [List.length_cons] at hfuel
        omega
      rw [chunksFuel, List.flatten_cons, ih hrest, List.take_append_drop]

theorem flatten_chunks {α : Type} {size : ℕ} (hsize : 0 < size) (l : List α) :
    (chunks size l).flatten = l :=
  flatten_chunksFuel hsize le_rfl

theorem length_le_of_mem_chunks {α : Type} {size : ℕ} {l chunk : List α}
    (h : chunk ∈ chunks size l) : chunk.length ≤ size := by
  unfold chunks at h
  generalize l.length = fuel at h
  induction fuel generalizing l with
  | zero => cases h
  | succ fuel ih =>
    cases l with
    | nil => cases h
    | cons a l =>
      rcases List.mem_cons.mp h with rfl | hrest
      · exact List.length_take_le _ _
      · exact ih hrest

/-! ## The turns of one file -/

/-- Copies of a turn among some facts are the same. -/
def Consistent (facts : List Fact) : Prop := ∀ a ∈ facts, ∀ b ∈ facts, a.key = b.key → a = b

/-- What is left of consistent facts: each of them once. -/
theorem foldlM_insertUnique {facts : List Fact} (unique : List Fact)
    (hsame : Consistent (unique ++ facts)) (hkeys : (unique.map Fact.key).Nodup) :
    ∃ result, facts.foldlM insertUnique unique = .ok result ∧ (result.map Fact.key).Nodup ∧
      ∀ fact, fact ∈ result ↔ fact ∈ unique ∨ fact ∈ facts := by
  induction facts generalizing unique with
  | nil => exact ⟨unique, rfl, hkeys, by simp⟩
  | cons fact facts ih =>
    rw [List.foldlM_cons]
    cases hfind : unique.find? fun previous => previous.key = fact.key with
    | some previous =>
      have hmem := List.mem_of_find?_eq_some hfind
      have hkey : previous.key = fact.key := by simpa using List.find?_some hfind
      have heq : previous = fact :=
        hsame previous (by simp [hmem]) fact (by simp) hkey
      have hinsert : insertUnique unique fact = .ok unique := by
        simp only [insertUnique, hfind, heq, if_true]
      obtain ⟨result, hresult, hnodup, hiff⟩ := ih unique
        (fun a ha b hb => hsame a (by simp at ha ⊢; tauto) b (by simp at hb ⊢; tauto)) hkeys
      refine ⟨result, by rw [hinsert]; exact hresult, hnodup, ?_⟩
      intro f
      rw [hiff, List.mem_cons, ← heq]
      constructor
      · tauto
      · rintro (hf | rfl | hf)
        · exact .inl hf
        · exact .inl hmem
        · exact .inr hf
    | none =>
      have hnew : fact.key ∉ unique.map Fact.key := by
        intro hmem
        obtain ⟨previous, hprevious, hkey⟩ := List.mem_map.mp hmem
        exact absurd (by simpa using hkey) (List.find?_eq_none.mp hfind previous hprevious)
      have hinsert : insertUnique unique fact = .ok (unique.orderedInsert keyLe fact) := by
        simp only [insertUnique, hfind]
      have hperm := List.perm_orderedInsert keyLe fact unique
      obtain ⟨result, hresult, hnodup, hiff⟩ := ih (unique.orderedInsert keyLe fact)
        (fun a ha b hb => hsame a (by simp at ha ⊢; tauto) b (by simp at hb ⊢; tauto))
        ((hperm.map Fact.key).nodup_iff.mpr (List.nodup_cons.mpr ⟨hnew, hkeys⟩))
      refine ⟨result, by rw [hinsert]; exact hresult, hnodup, ?_⟩
      intro f
      rw [hiff, List.mem_orderedInsert, List.mem_cons]
      tauto

theorem uniqueTurns_ok {now : ℕ} {facts : List Fact}
    (hsame : Consistent (facts.filter (Fact.recent now))) :
    ∃ turns, uniqueTurns now facts = .ok turns ∧ turns.Nodup ∧
      ∀ fact, fact ∈ turns ↔ fact ∈ facts ∧ fact.recent now = true := by
  obtain ⟨turns, hturns, hnodup, hiff⟩ := foldlM_insertUnique [] hsame List.nodup_nil
  refine ⟨turns, hturns, hnodup.of_map _, ?_⟩
  intro fact
  rw [hiff, List.mem_filter]
  simp

/-- The turns of a file that a tick at `now` exports. -/
def turnsOf (env : Env) (now : ℕ) (file : SessionFile) : List Fact :=
  match env.read file with
  | .error _ => []
  | .ok facts =>
    match uniqueTurns now facts with
    | .error _ => []
    | .ok turns => turns

/-- The batch that a tick at `now` makes of a file. -/
def batchAt (env : Env) (now : ℕ) (file : SessionFile) : Batch :=
  ⟨file.path, file.signature, chunks 100 (turnsOf env now file)⟩

/-- No readable turn of the file conflicts with another one at `now`. -/
def ConsistentAt (env : Env) (now : ℕ) (file : SessionFile) : Prop :=
  ∀ facts, env.read file = .ok facts → Consistent (facts.filter (Fact.recent now))

theorem batchOf_ok {env : Env} {now : ℕ} {file : SessionFile} (h : ConsistentAt env now file) :
    env.batchOf now file = .ok (batchAt env now file) := by
  unfold Env.batchOf batchAt turnsOf
  cases hread : env.read file with
  | error e => rfl
  | ok facts =>
    obtain ⟨turns, hturns, -⟩ := uniqueTurns_ok (h facts hread)
    simp only [hturns]

theorem batchesOf_ok {env : Env} {now : ℕ} {files : List SessionFile}
    (h : ∀ file ∈ files, ConsistentAt env now file) :
    env.batchesOf now files = .ok (files.map (batchAt env now)) := by
  induction files with
  | nil => rfl
  | cons file files ih =>
    rw [List.forall_mem_cons] at h
    simp only [Env.batchesOf, batchOf_ok h.1, ih h.2, List.map_cons]

/-! ## Admitting batches -/

theorem admitPayloads_all (path : List String) (payloads : List (List Fact)) :
    Ticker.admitPayloads (fun _ => true) path payloads =
      (payloads.map fun p => (path, p), true) := by
  induction payloads with
  | nil => rfl
  | cons payload payloads ih => simp only [Ticker.admitPayloads, ih, if_true, List.map_cons]

/-- What is exported of a file grows by the payloads of its batches. -/
theorem exported_foldl (batches : List Batch) (t : Ticker) (path : List String) :
    (batches.foldl (Ticker.admitBatch fun _ => true) t).exported path =
      t.exported path ++
        (batches.filter fun b => b.path = path).flatMap fun b => b.payloads.flatten := by
  induction batches generalizing t with
  | nil => simp
  | cons batch batches ih =>
    have hone : (t.admitBatch (fun _ => true) batch).exported path =
        t.exported path ++ if batch.path = path then batch.payloads.flatten else [] := by
      simp only [Ticker.exported, Ticker.admitBatch, admitPayloads_all, List.filter_append,
        List.flatMap_append, List.filter_map]
      congr 1
      by_cases hpath : batch.path = path <;> simp [hpath, Function.comp_def, List.flatMap_map]
    rw [List.foldl_cons, ih, hone, List.append_assoc]
    by_cases hpath : batch.path = path <;> simp [hpath]

theorem get?_foldl_of_notMem {batches : List Batch} {path : List String}
    (h : path ∉ batches.map Batch.path) (t : Ticker) :
    (batches.foldl (Ticker.admitBatch fun _ => true) t).seen.get? path = t.seen.get? path := by
  induction batches generalizing t with
  | nil => rfl
  | cons batch batches ih =>
    rw [List.map_cons, List.mem_cons, not_or] at h
    rw [List.foldl_cons, ih h.2]
    simp only [Ticker.admitBatch, admitPayloads_all, if_true]
    exact KeyedMap.get?_insert_of_ne _ _ h.1

theorem get?_foldl_of_mem {batches : List Batch} (hnodup : (batches.map Batch.path).Nodup)
    {batch : Batch} (hmem : batch ∈ batches) (t : Ticker) :
    (batches.foldl (Ticker.admitBatch fun _ => true) t).seen.get? batch.path =
      some batch.signature := by
  induction batches generalizing t with
  | nil => cases hmem
  | cons first batches ih =>
    rw [List.map_cons, List.nodup_cons] at hnodup
    rw [List.foldl_cons]
    rcases List.mem_cons.mp hmem with rfl | hrest
    · rw [get?_foldl_of_notMem hnodup.1]
      simp [Ticker.admitBatch, admitPayloads_all]
    · exact ih hnodup.2 hrest _

theorem length_keys_foldl (batches : List Batch) (t : Ticker) :
    (batches.foldl (Ticker.admitBatch fun _ => true) t).seen.keys.length ≤
      t.seen.keys.length + batches.length := by
  induction batches generalizing t with
  | nil => exact le_rfl
  | cons batch batches ih =>
    have hone : (t.admitBatch (fun _ => true) batch).seen.keys.length ≤ t.seen.keys.length + 1 := by
      simp only [Ticker.admitBatch, admitPayloads_all, if_true, KeyedMap.insert]
      split <;> simp
    have := ih (t.admitBatch (fun _ => true) batch)
    rw [List.foldl_cons, List.length_cons]
    omega

/-! ## The run -/

section Run

variable {env : Env} {entries : List Entry} {found : List SessionFile} {now : ℕ → ℕ}

/-- The first `8 * j` files have been read and are remembered. -/
structure Remembered (found : List SessionFile) (j : ℕ) (seen : Seen) : Prop where
  get? : ∀ i file, (byAge found)[i]? = some file →
    seen.get? file.path = if i < 8 * j then some file.signature else none
  keys : seen.keys.length ≤ 8 * j

/-- The turns of the first `8 * j` files have been exported, those of the others have not. -/
def Exported (env : Env) (found : List SessionFile) (now : ℕ → ℕ) (j : ℕ) (t : Ticker) : Prop :=
  ∀ i file, (byAge found)[i]? = some file →
    t.exported file.path = if i < 8 * j then turnsOf env (seconds (now (i / 8))) file else []

theorem byAge_perm (found : List SessionFile) : (byAge found).Perm found :=
  List.perm_insertionSort _ _

theorem nodup_byAge (hpaths : (found.map SessionFile.path).Nodup) :
    ((byAge found).map SessionFile.path).Nodup :=
  ((byAge_perm found).map _).nodup_iff.mpr hpaths

/-- A tick takes the next eight files. -/
theorem window_of_remembered {j : ℕ} {seen : Seen} (h : Remembered found j seen) :
    window seen found = ((byAge found).drop (8 * j)).take 8 := by
  have hold : ((byAge found).take (8 * j)).filter
      (fun file => seen.get? file.path ≠ some file.signature) = [] := by
    rw [List.filter_eq_nil_iff]
    intro file hfile
    obtain ⟨i, hi, hget⟩ := List.mem_take_iff_getElem.mp hfile
    have := h.get? i file (by rw [← hget]; exact List.getElem?_eq_getElem _)
    rw [if_pos (by omega)] at this
    simp [this]
  have hnew : ((byAge found).drop (8 * j)).filter
      (fun file => seen.get? file.path ≠ some file.signature) = (byAge found).drop (8 * j) := by
    rw [List.filter_eq_self]
    intro file hfile
    obtain ⟨i, hi⟩ := List.mem_iff_getElem?.mp hfile
    rw [List.getElem?_drop] at hi
    have := h.get? _ file hi
    rw [if_neg (by omega)] at this
    simp [this]
  unfold window
  conv_lhs => rw [← List.take_append_drop (8 * j) (byAge found), List.filter_append, hold, hnew]
  rfl

/-- The file at `i` is read by the tick `i / 8`. -/
theorem mem_window_iff (hpaths : (found.map SessionFile.path).Nodup) {i j : ℕ}
    {file : SessionFile} (hfile : (byAge found)[i]? = some file) :
    file ∈ ((byAge found).drop (8 * j)).take 8 ↔ 8 * j ≤ i ∧ i < 8 * (j + 1) := by
  have hnodup := (nodup_byAge hpaths).of_map _
  constructor
  · intro hmem
    obtain ⟨m, hm, hget⟩ := List.mem_take_iff_getElem.mp hmem
    rw [List.getElem_drop] at hget
    have hlen : m < 8 ∧ 8 * j + m < (byAge found).length := by
      rw [List.length_drop] at hm
      omega
    have hidx : 8 * j + m = i :=
      (List.getElem?_inj hlen.2 hnodup).mp
        ((List.getElem?_eq_some_iff.mpr ⟨hlen.2, hget⟩).trans hfile.symm)
    omega
  · rintro ⟨hle, hlt⟩
    refine List.mem_iff_getElem?.mpr ⟨i - 8 * j, ?_⟩
    rw [List.getElem?_take, if_pos (by omega), List.getElem?_drop, Nat.add_sub_cancel' hle, hfile]

/-- What the batches of some files export of one of them, or of another file. -/
theorem flatMap_batchAt {files : List SessionFile} (hnodup : files.Nodup) {file : SessionFile}
    (hinj : ∀ other ∈ files, other.path = file.path → other = file) (clock : ℕ) :
    ((files.map (batchAt env clock)).filter fun b => b.path = file.path).flatMap
      (fun b => b.payloads.flatten) = if file ∈ files then turnsOf env clock file else [] := by
  induction files with
  | nil => rfl
  | cons first files ih =>
    rw [List.nodup_cons] at hnodup
    rw [List.forall_mem_cons] at hinj
    have hrest := ih hnodup.2 hinj.2
    by_cases hfirst : first = file
    · subst hfirst
      rw [if_neg hnodup.1] at hrest
      simp only [List.map_cons, batchAt, List.filter_cons, decide_true, if_true,
        List.flatMap_cons, flatten_chunks (by norm_num : 0 < 100), List.mem_cons, true_or]
      exact (congrArg _ hrest).trans (List.append_nil _)
    · have hpath : ¬first.path = file.path := fun h => hfirst (hinj.1 h)
      rw [List.map_cons, List.filter_cons_of_neg (by simp [batchAt, hpath]), hrest]
      simp [Ne.symm hfirst]

theorem path_inj (hpaths : (found.map SessionFile.path).Nodup) {a b : SessionFile}
    (ha : a ∈ byAge found) (hb : b ∈ byAge found) (h : a.path = b.path) : a = b :=
  List.inj_on_of_nodup_map (nodup_byAge hpaths) ha hb h

/-- One tick over the files at `8 * j` and the seven after them. -/
theorem tick_of_remembered (hpaths : (found.map SessionFile.path).Nodup) {j left : ℕ}
    {t : Ticker} (hfound : discover (now j) 4 [] entries 20000 = .ok (found, left))
    (hseen : Remembered found j t.seen) (hexported : Exported env found now j t)
    (hsame : ∀ file ∈ ((byAge found).drop (8 * j)).take 8,
      ConsistentAt env (seconds (now j)) file) :
    Exported env found now (j + 1) (t.tick env (fun _ => true) (some entries) (now j)) ∧
      (8 * (j + 1) ≤ 4096 →
        Remembered found (j + 1) (t.tick env (fun _ => true) (some entries) (now j)).seen) := by
  set files := ((byAge found).drop (8 * j)).take 8 with hfiles
  set t' := (files.map (batchAt env (seconds (now j)))).foldl
    (Ticker.admitBatch fun _ => true) t with ht'
  have hsub : files.Sublist (byAge found) :=
    (List.take_sublist _ _).trans (List.drop_sublist _ _)
  have htick : t.tick env (fun _ => true) (some entries) (now j) =
      if 4096 < t'.seen.keys.length then { t' with seen := .empty } else t' := by
    simp only [Ticker.tick, Env.collect, hfound, window_of_remembered hseen, batchesOf_ok hsame,
      ← hfiles, ← ht']
  have hpath : (files.map (batchAt env (seconds (now j)))).map Batch.path =
      files.map SessionFile.path := by
    rw [List.map_map]
    rfl
  have hnodup : (files.map SessionFile.path).Nodup :=
    (hsub.map _).nodup (nodup_byAge hpaths)
  have hkeys : t'.seen.keys.length ≤ 8 * (j + 1) := by
    have hlen := length_keys_foldl (files.map (batchAt env (seconds (now j)))) t
    have hfew : files.length ≤ 8 := List.length_take_le _ _
    have := hseen.keys
    rw [List.length_map, ← ht'] at hlen
    omega
  constructor
  · intro i file hfile
    have hmem : file ∈ byAge found := List.mem_of_getElem? hfile
    -- the clear at the end of a tick does not touch what has been exported
    have hpart : (t.tick env (fun _ => true) (some entries) (now j)).exported file.path =
        t'.exported file.path := by
      rw [htick]
      split <;> rfl
    rw [hpart, ht', exported_foldl,
      flatMap_batchAt (hnodup.of_map _) (fun other hother => path_inj hpaths (hsub.mem hother) hmem),
      hexported i file hfile]
    have hiff := mem_window_iff hpaths hfile (j := j)
    by_cases hold : i < 8 * j
    · rw [if_pos hold, if_neg (fun h => by have := hiff.mp h; omega), if_pos (by omega),
        List.append_nil]
    · by_cases hthis : i < 8 * (j + 1)
      · have hj : i / 8 = j := by omega
        rw [if_neg hold, if_pos (hiff.mpr ⟨by omega, hthis⟩), if_pos hthis, hj]
        rfl
      · rw [if_neg hold, if_neg (fun h => hthis (hiff.mp h).2), if_neg hthis]
        rfl
  · intro hfew
    rw [htick, if_neg (by omega)]
    refine ⟨?_, hkeys⟩
    intro i file hfile
    have hmem : file ∈ byAge found := List.mem_of_getElem? hfile
    have hiff := mem_window_iff hpaths hfile (j := j)
    by_cases hthis : file ∈ files
    · rw [if_pos (hiff.mp hthis).2]
      exact get?_foldl_of_mem (hpath ▸ hnodup) (List.mem_map_of_mem hthis) t
    · have hnot : file.path ∉ (files.map (batchAt env (seconds (now j)))).map Batch.path := by
        rw [hpath]
        intro h
        obtain ⟨other, hother, heq⟩ := List.mem_map.mp h
        exact hthis (path_inj hpaths (hsub.mem hother) hmem heq ▸ hother)
      rw [get?_foldl_of_notMem hnot, hseen.get? i file hfile]
      have : ¬(8 * j ≤ i ∧ i < 8 * (j + 1)) := fun h => hthis (hiff.mpr h)
      simp only [show (i < 8 * j) = (i < 8 * (j + 1)) by ext; omega]

theorem Ticker.run_succ (env : Env) (retain : List Fact → Bool) (root : Option (List Entry))
    (now : ℕ → ℕ) (k : ℕ) :
    Ticker.run env retain root now (k + 1) =
      (Ticker.run env retain root now k).tick env retain root (now k) := by
  simp only [Ticker.run, List.range_succ, List.foldl_append, List.foldl_cons, List.foldl_nil]

/-- The ticks that have read the files before `8 * j`. -/
theorem run_progress (hpaths : (found.map SessionFile.path).Nodup)
    (hfew : found.length ≤ 4104)
    (hfound : ∀ j < (found.length + 7) / 8,
      ∃ left, discover (now j) 4 [] entries 20000 = .ok (found, left))
    (hsame : ∀ i file, (byAge found)[i]? = some file →
      ConsistentAt env (seconds (now (i / 8))) file) {j : ℕ} (hj : j ≤ (found.length + 7) / 8) :
    Exported env found now j (Ticker.run env (fun _ => true) (some entries) now j) ∧
      (8 * j ≤ 4096 →
        Remembered found j (Ticker.run env (fun _ => true) (some entries) now j).seen) := by
  induction j with
  | zero => exact ⟨fun _ _ _ => rfl, fun _ => ⟨fun _ _ _ => rfl, le_rfl⟩⟩
  | succ j ih =>
    obtain ⟨hexported, hseen⟩ := ih (by omega)
    obtain ⟨left, hleft⟩ := hfound j hj
    rw [Ticker.run_succ]
    refine tick_of_remembered hpaths hleft (hseen (by omega)) hexported ?_
    intro file hfile
    obtain ⟨m, hm, hget⟩ := List.mem_take_iff_getElem.mp hfile
    rw [List.getElem_drop] at hget
    rw [List.length_drop] at hm
    have hat : (byAge found)[8 * j + m]? = some file :=
      List.getElem?_eq_some_iff.mpr ⟨by omega, hget⟩
    have hdiv : (8 * j + m) / 8 = j := by omega
    exact hdiv ▸ hsame _ file hat

/-- A payload has at most a hundred turns, whatever the scans find. -/
theorem length_le_of_mem_admitBatch {now : ℕ} {file : SessionFile} {batch : Batch} {t : Ticker}
    (hbatch : env.batchOf now file = .ok batch)
    (h : ∀ payload ∈ t.retained, payload.2.length ≤ 100) :
    ∀ payload ∈ (t.admitBatch (fun _ => true) batch).retained, payload.2.length ≤ 100 := by
  intro payload hmem
  simp only [Ticker.admitBatch, admitPayloads_all, List.mem_append, List.mem_map] at hmem
  rcases hmem with hold | ⟨turns, hturns, rfl⟩
  · exact h payload hold
  · unfold Env.batchOf at hbatch
    split at hbatch
    · cases hbatch
      cases hturns
    · split at hbatch
      · cases hbatch
      · cases hbatch
        exact length_le_of_mem_chunks hturns

theorem length_le_of_mem_foldl {now : ℕ} {files : List SessionFile} {batches : List Batch}
    {t : Ticker} (hbatches : env.batchesOf now files = .ok batches)
    (h : ∀ payload ∈ t.retained, payload.2.length ≤ 100) :
    ∀ payload ∈ (batches.foldl (Ticker.admitBatch fun _ => true) t).retained,
      payload.2.length ≤ 100 := by
  induction files generalizing batches t with
  | nil =>
    cases hbatches
    exact h
  | cons file files ih =>
    rw [Env.batchesOf] at hbatches
    cases hone : env.batchOf now file with
    | error e => simp [hone] at hbatches
    | ok batch =>
      cases hrest : env.batchesOf now files with
      | error e => simp [hone, hrest] at hbatches
      | ok rest =>
        simp only [hone, hrest, Except.ok.injEq] at hbatches
        subst hbatches
        rw [List.foldl_cons]
        exact ih hrest (length_le_of_mem_admitBatch hone h)

theorem length_le_of_mem_tick {root : Option (List Entry)} {now : ℕ} {t : Ticker}
    (h : ∀ payload ∈ t.retained, payload.2.length ≤ 100) :
    ∀ payload ∈ (t.tick env (fun _ => true) root now).retained, payload.2.length ≤ 100 := by
  cases hcollect : env.collect now root t.seen with
  | error e => simpa only [Ticker.tick, hcollect] using h
  | ok batches =>
    have hfold : ∀ payload ∈ (batches.foldl (Ticker.admitBatch fun _ => true) t).retained,
        payload.2.length ≤ 100 := by
      cases root with
      | none =>
        cases hcollect
        exact h
      | some entries =>
        simp only [Env.collect] at hcollect
        split at hcollect
        · cases hcollect
        · exact length_le_of_mem_foldl hcollect h
    simp only [Ticker.tick, hcollect]
    split
    · exact hfold
    · exact hfold

theorem length_le_of_mem_run (env : Env) (root : Option (List Entry)) (now : ℕ → ℕ) (k : ℕ) :
    ∀ payload ∈ (Ticker.run env (fun _ => true) root now k).retained,
      payload.2.length ≤ 100 := by
  induction k with
  | zero => simp [Ticker.run, Ticker.initial]
  | succ k ih =>
    rw [Ticker.run_succ]
    exact length_le_of_mem_tick ih

/-- At most 4104 files of which none has conflicting copies of a turn, nor a turn that ends after
the tick that reads it, lose no turn. -/
theorem scan_loses_no_turn (env : Env) (entries : List Entry) (found : List SessionFile)
    (now : ℕ → ℕ)
    (hfound : ∀ j < (found.length + 7) / 8,
      ∃ left, discover (now j) 4 [] entries 20000 = .ok (found, left))
    (hpaths : (found.map SessionFile.path).Nodup) (hfew : found.length ≤ 4104)
    (hsame : ∀ i file, (byAge found)[i]? = some file →
      ConsistentAt env (seconds (now (i / 8))) file)
    (hended : ∀ i file facts, (byAge found)[i]? = some file → env.read file = .ok facts →
      ∀ fact ∈ facts, fact.ended ≤ seconds (now (i / 8))) :
    LosesNoTurn env (some entries) found now := by
  refine ⟨?_, length_le_of_mem_run env (some entries) now⟩
  intro file hfile facts hread
  obtain ⟨i, hi⟩ := List.mem_iff_getElem?.mp ((byAge_perm found).mem_iff.mpr hfile)
  have hlt : i < found.length := by
    have := (List.getElem?_eq_some_iff.mp hi).1
    rwa [(byAge_perm found).length_eq] at this
  have hseen := (run_progress hpaths hfew hfound hsame (j := i / 8) (by omega)).2 (by omega)
  refine ⟨i / 8, by omega, ?_, ?_, ?_⟩
  · rw [window_of_remembered hseen, mem_window_iff hpaths hi]
    omega
  · intro fact hfact hrecent
    obtain ⟨turns, hturns, hnodup, hiff⟩ := uniqueTurns_ok (hsame i file hi facts hread)
    have hall := (run_progress hpaths hfew hfound hsame le_rfl).1 i file hi
    rw [if_pos (by omega)] at hall
    simp only [turnsOf, hread, hturns] at hall
    rw [hall]
    exact List.count_eq_one_of_mem hnodup ((hiff fact).mpr ⟨hfact, hrecent⟩)
  · intro fact hfact hfuture
    exact absurd (hended i file facts hi hread fact hfact) (by omega)

end Run

/-! ## Transcripts that are and are not exported -/

section Transcripts

/-- The record that starts a transcript. -/
def headerLine : Bytes :=
  ("\x7b\"type\":\"session_meta\",\"payload\":\x7b\"id\":\"s1\"," ++
    "\"cli_version\":\"0.154.0-alpha.6.2\"\x7d\x7d").toUTF8.toList

/-- A turn that ended twenty seconds after the epoch. -/
def turnLine : Bytes :=
  ("\x7b\"type\":\"event_msg\",\"payload\":\x7b\"type\":\"task_complete\",\"turn_id\":\"t1\"," ++
    "\"started_at\":10,\"completed_at\":20,\"duration_ms\":10000\x7d\x7d").toUTF8.toList

/-- A second copy of the turn, a second longer. -/
def otherTurnLine : Bytes :=
  ("\x7b\"type\":\"event_msg\",\"payload\":\x7b\"type\":\"task_complete\",\"turn_id\":\"t1\"," ++
    "\"started_at\":10,\"completed_at\":21,\"duration_ms\":10000\x7d\x7d").toUTF8.toList

/-- What the decoder makes of these lines. -/
def decodeLine (line : Bytes) : Option Record :=
  if line = headerLine then
    some ⟨"session_meta", ⟨"", some "s1", some "0.154.0-alpha.6.2", none, none, none, none, none,
      none⟩⟩
  else if line = turnLine then
    some ⟨"event_msg", ⟨"task_complete", none, none, some "t1", none, none, some 10, some 20,
      some 10000⟩⟩
  else if line = otherTurnLine then
    some ⟨"event_msg", ⟨"task_complete", none, none, some "t1", none, none, some 10, some 21,
      some 10000⟩⟩
  else none

/-- The environment of these transcripts: none of them names a repository. -/
def lineEnv : Env := ⟨decodeLine, fun _ => none⟩

/-- A session file with the given lines. -/
def transcript (name : String) (lines : List Bytes) : SessionFile :=
  let content := lines.flatMap fun line => line ++ [10]
  ⟨[name], (content.length, 0), some content⟩

/-- The directory entry of a session file. -/
def entryOf (file : SessionFile) : Entry :=
  .file (file.path.getD 0 "") file.signature.1 file.signature.2 file.content

/-- The turn of `turnLine`. -/
def turnFact : Fact := ⟨"s1", "t1", 10, 20, 10000, none, "task_complete"⟩

/-- A transcript with one turn. -/
def goodFile : SessionFile := transcript "good.jsonl" [headerLine, turnLine]

/-- A transcript with two copies of a turn that disagree. -/
def conflictingFile : SessionFile :=
  transcript "resumed.jsonl" [headerLine, turnLine, otherTurnLine]

/-- The clock of two ticks before and after the end of the turn. -/
def clockAround (j : ℕ) : ℕ := if j = 0 then 15 * 1000000000 else 30 * 1000000000

/-- The ticker after a tick before the end of the turn. -/
def earlyTicker : Ticker :=
  Ticker.initial.tick lineEnv (fun _ => true) (some [entryOf goodFile]) (15 * 1000000000)

/-- What the reader, the walk and the early tick make of the transcript with one turn. -/
theorem goodFile_evaluates :
    lineEnv.read goodFile = .ok [turnFact] ∧
      discover (30 * 1000000000) 4 [] [entryOf goodFile] 20000 = .ok ([goodFile], 19999) ∧
      window earlyTicker.seen [goodFile] = [] ∧ earlyTicker.seen.keys.length = 1 ∧
      earlyTicker.exported goodFile.path = [] := by
  decide +kernel

theorem read_goodFile : lineEnv.read goodFile = .ok [turnFact] := goodFile_evaluates.1

/-- The transcript with one turn is exported by the first tick after it. -/
theorem goodFile_loses_no_turn :
    LosesNoTurn lineEnv (some [entryOf goodFile]) [goodFile] (fun _ => 30 * 1000000000) := by
  have honly : ∀ (i : ℕ) file, (byAge [goodFile])[i]? = some file → file = goodFile := by
    intro i file hi
    exact List.mem_singleton.mp ((byAge_perm _).mem_iff.mp (List.mem_of_getElem? hi))
  refine scan_loses_no_turn lineEnv [entryOf goodFile] [goodFile] _
    (fun j _ => ⟨19999, goodFile_evaluates.2.1⟩) (List.nodup_singleton _) (by simp) ?_ ?_
  · intro i file hi facts hread
    obtain rfl := honly i file hi
    rw [read_goodFile] at hread
    cases hread
    intro a ha b hb _
    rw [List.mem_singleton.mp (List.mem_filter.mp ha).1,
      List.mem_singleton.mp (List.mem_filter.mp hb).1]
  · intro i file facts hi hread fact hfact
    obtain rfl := honly i file hi
    rw [read_goodFile] at hread
    cases hread
    rw [List.mem_singleton.mp hfact]
    decide

/-- A tick that finds nothing to read leaves a ticker with few keys as it is. -/
theorem tick_of_window {env : Env} {retain : List Fact → Bool} {root : List Entry} {t : Ticker}
    {now budget : ℕ} {files : List SessionFile}
    (hfound : discover now 4 [] root 20000 = .ok (files, budget))
    (hwindow : window t.seen files = []) (hkeys : t.seen.keys.length ≤ 4096) :
    t.tick env retain (some root) now = t := by
  rw [Ticker.tick, Env.collect]
  simp only [hfound, hwindow, Env.batchesOf, List.foldl_nil]
  exact if_neg (not_lt.mpr hkeys)

/-- The early tick remembers the file, so the ticks after the end of the turn do not read it
again. -/
theorem tick_earlyTicker :
    earlyTicker.tick lineEnv (fun _ => true) (some [entryOf goodFile]) (30 * 1000000000) =
      earlyTicker := by
  obtain ⟨-, hfound, hwindow, hkeys, -⟩ := goodFile_evaluates
  exact tick_of_window hfound hwindow (hkeys.trans_le (by decide))

theorem exported_goodFile_early (k : ℕ) :
    (Ticker.run lineEnv (fun _ => true) (some [entryOf goodFile]) clockAround k).exported
      goodFile.path = [] := by
  cases k with
  | zero => rfl
  | succ k =>
    have hrun : Ticker.run lineEnv (fun _ => true) (some [entryOf goodFile]) clockAround (k + 1) =
        earlyTicker := by
      induction k with
      | zero => rw [Ticker.run_succ, clockAround, if_pos rfl, earlyTicker]; rfl
      | succ k ih =>
        rw [Ticker.run_succ, ih, clockAround, if_neg k.succ_ne_zero, tick_earlyTicker]
    rw [hrun, goodFile_evaluates.2.2.2.2]

/-- A file with conflicting copies of a turn keeps the turn of another file from being exported,
and a turn that was still to end when its file was read is never exported. -/
theorem scan_loses_turns :
    ¬LosesNoTurn lineEnv (some [entryOf conflictingFile, entryOf goodFile])
        [conflictingFile, goodFile] (fun _ => 30 * 1000000000) ∧
      ¬LosesNoTurn lineEnv (some [entryOf goodFile]) [goodFile] clockAround := by
  constructor
  · intro h
    obtain ⟨j, -, -, hcount, -⟩ := h.read goodFile (by simp) [turnFact] read_goodFile
    have hone := hcount turnFact (by simp) (by decide)
    exact absurd hone (by decide +kernel)
  · intro h
    obtain ⟨j, hj, -, -, hlater⟩ := h.read goodFile (by simp) [turnFact] read_goodFile
    obtain rfl : j = 0 := by
      simp at hj
      exact hj
    obtain ⟨k, hk⟩ := hlater turnFact (by simp) (by decide) 1 one_pos (by decide)
    rw [exported_goodFile_early] at hk
    cases hk

end Transcripts

end CodexSessions

end Governance
