import Governance.Spool.Durable

/-!
# What the refusal table counts

`Quarantine::refused` answers `true` on two refusals that are far enough apart, whatever the clock
does in between: the time of the last refusal that counted is kept, a later one is measured against
it, and the entry a first refusal makes counts nothing yet. `Recorded` keeps, next to the table, the
times of the refusals a key has had since it was last forgotten or evicted.
-/

namespace Governance

namespace Quarantine

/-! ## The entries -/

/-- The order of a `BTreeMap`. -/
def Sorted (entries : List (String × QuarantineEntry)) : Prop :=
  entries.Pairwise fun a b => a.1 < b.1

theorem mem_insert {key k : String} {entry e : QuarantineEntry}
    {entries : List (String × QuarantineEntry)} (h : (k, e) ∈ insert key entry entries) :
    (k, e) = (key, entry) ∨ (k, e) ∈ entries := by
  induction entries with
  | nil => exact .inl (List.mem_singleton.mp h)
  | cons x rest ih =>
    obtain ⟨k₀, e₀⟩ := x
    simp only [insert] at h
    split at h
    · exact List.mem_cons.mp h
    · split at h
      · rcases List.mem_cons.mp h with h | h
        · exact .inl h
        · exact .inr (List.mem_cons_of_mem _ h)
      · rcases List.mem_cons.mp h with h | h
        · exact .inr (List.mem_cons.mpr (.inl h))
        · exact (ih h).imp_right (List.mem_cons_of_mem _)

theorem mem_of_lookup {key : String} {e : QuarantineEntry}
    {entries : List (String × QuarantineEntry)} (h : entries.lookup key = some e) :
    (key, e) ∈ entries := by
  obtain ⟨before, after, rfl, -⟩ := List.lookup_eq_some_iff.mp h
  simp

theorem Sorted.insert {entries : List (String × QuarantineEntry)} (h : Sorted entries)
    (key : String) (entry : QuarantineEntry) : Sorted (insert key entry entries) := by
  induction entries with
  | nil => exact List.pairwise_singleton _ _
  | cons x rest ih =>
    obtain ⟨k, e⟩ := x
    obtain ⟨hhead, hrest⟩ := List.pairwise_cons.mp h
    simp only [Quarantine.insert]
    split
    · next hlt =>
      refine List.pairwise_cons.mpr ⟨?_, h⟩
      intro y hy
      rcases List.mem_cons.mp hy with rfl | hy
      · exact hlt
      · exact hlt.trans (hhead y hy)
    · next hge =>
      split
      · next heq =>
        subst heq
        exact List.pairwise_cons.mpr ⟨hhead, hrest⟩
      · next hne =>
        refine List.pairwise_cons.mpr ⟨?_, ih hrest⟩
        rintro ⟨k', e'⟩ hy
        rcases mem_insert hy with heq | hy
        · obtain ⟨rfl, rfl⟩ := Prod.mk.inj heq
          exact lt_of_le_of_ne (not_lt.mp hge) (Ne.symm hne)
        · exact hhead _ hy

/-- One key has one entry. -/
theorem Sorted.eq_of_key {entries : List (String × QuarantineEntry)} (h : Sorted entries)
    {a b : String × QuarantineEntry} (ha : a ∈ entries) (hb : b ∈ entries) (hkey : a.1 = b.1) :
    a = b := by
  induction entries with
  | nil => cases ha
  | cons x rest ih =>
    obtain ⟨hhead, hrest⟩ := List.pairwise_cons.mp h
    rcases List.mem_cons.mp ha with hax | ha <;> rcases List.mem_cons.mp hb with hbx | hb
    · exact hax.trans hbx.symm
    · exact absurd (hax ▸ hkey) (hhead b hb).ne
    · exact absurd (hbx ▸ hkey) (hhead a ha).ne'
    · exact ih hrest ha hb

theorem Sorted.length_filter_key {entries : List (String × QuarantineEntry)} (h : Sorted entries)
    {a : String × QuarantineEntry} (ha : a ∈ entries) :
    (entries.filter fun e => e.1 ≠ a.1).length + 1 = entries.length := by
  have hnodup : entries.Nodup := h.imp fun hlt => by
    rintro rfl
    exact lt_irrefl _ hlt
  have herase : (entries.filter fun e => e.1 ≠ a.1) = entries.erase a := by
    rw [hnodup.erase_eq_filter]
    apply List.filter_congr
    intro b hb
    by_cases hba : b = a
    · simp [hba]
    · have hkey : b.1 ≠ a.1 := fun hkey => hba (h.eq_of_key hb ha hkey)
      simp [hba, hkey]
  have hpos := List.length_pos_of_mem ha
  rw [herase, List.length_erase_of_mem ha]
  omega

/-! ## One refusal -/

/-- What a refusal makes of its key's entry. An entry that is not in the table counts nothing. -/
theorem refused_spec (q : Quarantine) (key : String) (now gap : ℕ) :
    ∃ old new : QuarantineEntry,
      q.refused key now gap = (decide (refusalsBeforeDiscard ≤ new.refusals),
        ⟨insert key new q.entries⟩) ∧
      ((key, old) ∈ q.entries ∨ old.refusals = 0) ∧
      (new = old ∨ gap ≤ now - old.lastSeenUnix ∧ new = ⟨old.refusals + 1, now⟩) := by
  let old := (q.entries.lookup key).getD ⟨0, now - gap⟩
  refine ⟨old, if now - old.lastSeenUnix ≥ gap then ⟨old.refusals + 1, now⟩ else old, rfl, ?_, ?_⟩
  · cases hlook : q.entries.lookup key with
    | none =>
      right
      simp only [old, hlook, Option.getD_none]
    | some e =>
      left
      simp only [old, hlook, Option.getD_some]
      exact mem_of_lookup hlook
  · by_cases hgap : now - old.lastSeenUnix ≥ gap
    · exact .inr ⟨hgap, if_pos hgap⟩
    · exact .inl (if_neg hgap)

/-! ## Pruning -/

theorem oldest_spec {entries : List (String × QuarantineEntry)} {k : String}
    (h : oldest entries = some k) :
    ∃ e, (k, e) ∈ entries ∧ ∀ e' ∈ entries, e.lastSeenUnix ≤ e'.2.lastSeenUnix := by
  induction entries with
  | nil => cases h
  | cons x rest ih =>
    obtain ⟨k₀, e₀⟩ := x
    simp only [oldest, List.all_eq_true, decide_eq_true_eq] at h
    split at h
    · next hall =>
      obtain rfl := Option.some.inj h
      refine ⟨e₀, List.mem_cons_self, ?_⟩
      intro e' he'
      rcases List.mem_cons.mp he' with rfl | he'
      · exact le_rfl
      · exact hall e' he'
    · next hall =>
      obtain ⟨e, he, hleast⟩ := ih h
      refine ⟨e, List.mem_cons_of_mem _ he, ?_⟩
      intro e' he'
      rcases List.mem_cons.mp he' with rfl | he'
      · -- some entry behind the first one is older than it
        push Not at hall
        obtain ⟨e₁, he₁, hlt⟩ := hall
        exact (hleast e₁ he₁).trans hlt.le
      · exact hleast e' he'

theorem oldest_eq_none {entries : List (String × QuarantineEntry)} (h : oldest entries = none) :
    entries = [] := by
  induction entries with
  | nil => rfl
  | cons x rest ih =>
    obtain ⟨k, e⟩ := x
    rw [oldest] at h
    split at h
    · cases h
    · next hall =>
      rw [ih h] at hall
      exact absurd rfl hall

theorem dropOldest_sublist (fuel : ℕ) (entries : List (String × QuarantineEntry)) :
    (dropOldest fuel entries).Sublist entries := by
  induction fuel generalizing entries with
  | zero => exact List.Sublist.refl _
  | succ fuel ih =>
    rw [dropOldest]
    split
    · split
      · exact (ih _).trans List.filter_sublist
      · exact List.Sublist.refl _
    · exact List.Sublist.refl _

theorem length_dropOldest {fuel : ℕ} {entries : List (String × QuarantineEntry)}
    (h : Sorted entries) (hfuel : entries.length ≤ fuel) :
    (dropOldest fuel entries).length = min entries.length maxEntries := by
  induction fuel generalizing entries with
  | zero =>
    rw [List.eq_nil_of_length_eq_zero (Nat.le_zero.mp hfuel)]
    rfl
  | succ fuel ih =>
    rw [dropOldest]
    split
    case isFalse => omega
    next hover =>
      split
      · next k holdest =>
        obtain ⟨e, he, -⟩ := oldest_spec holdest
        have hlen := h.length_filter_key he
        rw [ih (List.Pairwise.sublist List.filter_sublist h) (by simp only at hlen; omega)]
        simp only at hlen
        omega
      · next hnone =>
        rw [oldest_eq_none hnone]
        rfl

/-- No survivor is older than an entry that went. -/
theorem le_of_dropOldest {fuel : ℕ} {entries : List (String × QuarantineEntry)}
    (h : Sorted entries) {a b : String × QuarantineEntry} (ha : a ∈ dropOldest fuel entries)
    (hb : b ∈ entries) (hgone : b ∉ dropOldest fuel entries) :
    b.2.lastSeenUnix ≤ a.2.lastSeenUnix := by
  induction fuel generalizing entries with
  | zero => exact absurd hb hgone
  | succ fuel ih =>
    rw [dropOldest] at ha hgone
    split at ha
    case isFalse hfew =>
      rw [if_neg hfew] at hgone
      exact absurd hb hgone
    next hover =>
    rw [if_pos hover] at hgone
    split at ha
    case h_2 hnone =>
      rw [oldest_eq_none hnone] at hb
      cases hb
    next k holdest =>
    simp only [holdest] at hgone
    obtain ⟨e, he, hleast⟩ := oldest_spec holdest
    by_cases hin : b ∈ entries.filter fun e => e.1 ≠ k
    · exact ih (List.Pairwise.sublist List.filter_sublist h) ha hin hgone
    · -- what goes in this turn is the oldest entry, and no other
      have hkey : b.1 = k := by
        by_contra hne
        exact hin (List.mem_filter.mpr ⟨hb, by simpa using hne⟩)
      have hbe : b = (k, e) := h.eq_of_key hb he hkey
      rw [hbe]
      exact hleast a (List.filter_subset_self _ ((dropOldest_sublist _ _).subset ha))

theorem prune_subset (q : Quarantine) (now : ℕ) : (q.prune now).entries ⊆ q.entries :=
  ((dropOldest_sublist _ _).trans List.filter_sublist).subset

theorem forget_subset (q : Quarantine) (key : String) : (q.forget key).entries ⊆ q.entries :=
  List.filter_subset_self _

/-- What a table keeps when it is pruned: entries seen within the lifetime, no more than there is
room for, and among them the ones that were seen last. -/
structure PrunedTo (now : ℕ) (before after : List (String × QuarantineEntry)) : Prop where
  sublist : after.Sublist before
  few : after.length ≤ maxEntries
  fresh : ∀ e ∈ after, now - e.2.lastSeenUnix ≤ ttlSeconds
  recent : ∀ e ∈ after, ∀ e' ∈ before, e' ∉ after → e'.2.lastSeenUnix ≤ e.2.lastSeenUnix
  needed : ∀ e ∈ before, e ∉ after → now - e.2.lastSeenUnix ≤ ttlSeconds →
    after.length = maxEntries

theorem Sorted.prunedTo {q : Quarantine} (h : Sorted q.entries) (now : ℕ) :
    PrunedTo now q.entries (q.prune now).entries := by
  have hkept : (q.entries.filter fun e => now - e.2.lastSeenUnix ≤ ttlSeconds).Sublist q.entries :=
    List.filter_sublist
  have hsorted := List.Pairwise.sublist hkept h
  have hdrop := dropOldest_sublist
    (q.entries.filter fun e => now - e.2.lastSeenUnix ≤ ttlSeconds).length
    (q.entries.filter fun e => now - e.2.lastSeenUnix ≤ ttlSeconds)
  have hlen := length_dropOldest hsorted le_rfl
  have hfresh : ∀ e ∈ (q.prune now).entries, now - e.2.lastSeenUnix ≤ ttlSeconds := by
    intro e he
    exact of_decide_eq_true (List.mem_filter.mp (hdrop.subset he)).2
  constructor
  · exact hdrop.trans hkept
  · exact hlen.trans_le (min_le_right _ _)
  · exact hfresh
  · intro e he e' he' hgone
    by_cases hlive : now - e'.2.lastSeenUnix ≤ ttlSeconds
    · exact le_of_dropOldest hsorted he
        (List.mem_filter.mpr ⟨he', decide_eq_true hlive⟩) hgone
    · have hlast := hfresh e he
      omega
  · intro e he hgone hlive
    have hmem : e ∈ q.entries.filter fun e => now - e.2.lastSeenUnix ≤ ttlSeconds :=
      List.mem_filter.mpr ⟨he, decide_eq_true hlive⟩
    have hlt : (q.prune now).entries.length <
        (q.entries.filter fun e => now - e.2.lastSeenUnix ≤ ttlSeconds).length := by
      apply lt_of_le_of_ne hdrop.length_le
      intro heq
      rw [← hdrop.eq_of_length heq] at hmem
      exact hgone hmem
    show (dropOldest _ _).length = _
    change (dropOldest _ _).length < _ at hlt
    omega

/-! ## A table over time -/

/-- A call on the table. -/
inductive Call where
  | refused (key : String) (now : ℕ)
  | forget (key : String)
  | prune (now : ℕ)

/-- The table, and the times of the refusals each key has had since it was last forgotten or
evicted. -/
structure Recorded where
  table : Quarantine
  times : String → List ℕ

namespace Recorded

def call (gap : ℕ) (r : Recorded) : Call → Recorded
  | .refused key now =>
    ⟨(r.table.refused key now gap).2, Function.update r.times key (r.times key ++ [now])⟩
  | .forget key => ⟨r.table.forget key, Function.update r.times key []⟩
  | .prune now =>
    ⟨r.table.prune now,
      fun key => if key ∈ (r.table.prune now).entries.map Prod.fst then r.times key else []⟩

/-- The calls made of an empty table. -/
def run (gap : ℕ) (calls : List Call) : Recorded := calls.foldl (call gap) ⟨⟨[]⟩, fun _ => []⟩

end Recorded

/-- One of the times is at least `gap` behind an earlier one. -/
def Apart (gap : ℕ) (times : List ℕ) : Prop :=
  ∃ t₁ t₂, [t₁, t₂].Sublist times ∧ gap ≤ t₂ - t₁

/-- An entry counts refusals that are recorded: it was last seen at one of them, and a count of two
takes two that are apart. -/
structure Counted (gap : ℕ) (times : List ℕ) (e : QuarantineEntry) : Prop where
  once : 1 ≤ e.refusals → e.lastSeenUnix ∈ times
  twice : 2 ≤ e.refusals → Apart gap times

theorem Counted.mono {gap : ℕ} {times times' : List ℕ} {e : QuarantineEntry}
    (h : Counted gap times e) (hsub : times.Sublist times') : Counted gap times' e := by
  constructor
  · intro hone
    exact hsub.subset (h.once hone)
  · intro htwo
    obtain ⟨t₁, t₂, hpair, hgap⟩ := h.twice htwo
    exact ⟨t₁, t₂, hpair.trans hsub, hgap⟩

/-- A refusal leaves its key's entry counted, and answers `true` on two that are apart. -/
theorem refused_counted {gap : ℕ} {times : List ℕ} {q : Quarantine} {key : String} (now : ℕ)
    (h : ∀ e, (key, e) ∈ q.entries → Counted gap times e) :
    (∀ e, (key, e) ∈ (q.refused key now gap).2.entries → Counted gap (times ++ [now]) e) ∧
    ((q.refused key now gap).1 = true → Apart gap (times ++ [now])) := by
  obtain ⟨old, new, heq, hold, hnew⟩ := refused_spec q key now gap
  have hbefore : Counted gap times old := by
    rcases hold with hmem | hzero
    · exact h old hmem
    · constructor <;> intro hpos <;> omega
  have hafter : Counted gap (times ++ [now]) new := by
    rcases hnew with rfl | ⟨hgap, rfl⟩
    · exact hbefore.mono (List.sublist_append_left _ _)
    · constructor
      · intro _
        exact List.mem_append_right _ (List.mem_singleton.mpr rfl)
      · intro htwo
        have hseen := hbefore.once (by simp only at htwo; omega)
        refine ⟨old.lastSeenUnix, now, ?_, hgap⟩
        exact (List.singleton_sublist.mpr hseen).append (List.Sublist.refl [now])
  rw [heq]
  constructor
  · intro e he
    rcases mem_insert he with hpair | hmem
    · obtain ⟨-, rfl⟩ := Prod.mk.inj hpair
      exact hafter
    · exact (h e hmem).mono (List.sublist_append_left _ _)
  · intro htrue
    exact hafter.twice (of_decide_eq_true htrue)

namespace Recorded

/-- What holds of the table in every run. -/
structure Inv (gap : ℕ) (r : Recorded) : Prop where
  sorted : Sorted r.table.entries
  counted : ∀ key e, (key, e) ∈ r.table.entries → Counted gap (r.times key) e

variable {gap : ℕ} {r : Recorded}

theorem Inv.refused (h : r.Inv gap) (key : String) (now : ℕ) :
    (r.call gap (.refused key now)).Inv gap := by
  constructor
  · obtain ⟨old, new, heq, -, -⟩ := refused_spec r.table key now gap
    show Sorted (r.table.refused key now gap).2.entries
    rw [heq]
    exact h.sorted.insert key new
  · intro k e he
    show Counted gap (Function.update r.times key (r.times key ++ [now]) k) e
    by_cases hk : k = key
    · subst hk
      rw [Function.update_self]
      exact (refused_counted now (h.counted k)).1 e he
    · rw [Function.update_of_ne hk]
      obtain ⟨old, new, heq, -, -⟩ := refused_spec r.table key now gap
      change (k, e) ∈ (r.table.refused key now gap).2.entries at he
      rw [heq] at he
      rcases mem_insert he with hpair | hmem
      · exact absurd (Prod.mk.inj hpair).1 hk
      · exact h.counted k e hmem

theorem Inv.forget (h : r.Inv gap) (key : String) : (r.call gap (.forget key)).Inv gap := by
  constructor
  · exact List.Pairwise.sublist List.filter_sublist h.sorted
  · intro k e he
    obtain ⟨hmem, hk⟩ := List.mem_filter.mp he
    have hk : k ≠ key := of_decide_eq_true hk
    show Counted gap (Function.update r.times key [] k) e
    rw [Function.update_of_ne hk]
    exact h.counted k e hmem

theorem Inv.prune (h : r.Inv gap) (now : ℕ) : (r.call gap (.prune now)).Inv gap := by
  have hsub := (h.sorted.prunedTo now).sublist
  constructor
  · exact List.Pairwise.sublist hsub h.sorted
  · intro k e he
    change (k, e) ∈ (r.table.prune now).entries at he
    have hkey : k ∈ (r.table.prune now).entries.map Prod.fst := List.mem_map_of_mem he
    show Counted gap (if k ∈ (r.table.prune now).entries.map Prod.fst then r.times k else []) e
    rw [if_pos hkey]
    exact h.counted k e (hsub.subset he)

theorem inv_run (gap : ℕ) (calls : List Call) : (run gap calls).Inv gap := by
  induction calls using List.reverseRecOn with
  | nil => exact ⟨List.Pairwise.nil, fun _ _ he => by cases he⟩
  | append_singleton calls c ih =>
    rw [run, List.foldl_concat]
    cases c with
    | refused key now => exact Inv.refused ih key now
    | forget key => exact Inv.forget ih key
    | prune now => exact Inv.prune ih now

end Recorded

/-- Behind every sequence of calls, whatever the clock read in them: an answer `true` comes with two
refusals of the key, since it was last forgotten or evicted, that are `gap` apart; a first refusal
is never answered `true`; and pruning keeps the entries that were seen last. -/
theorem refused_counts_separated (gap : ℕ) (calls : List Call) :
    (∀ key now, ((Recorded.run gap calls).table.refused key now gap).1 = true →
      Apart gap ((Recorded.run gap calls).times key ++ [now])) ∧
    (∀ key now, (Recorded.run gap calls).times key = [] →
      ((Recorded.run gap calls).table.refused key now gap).1 = false) ∧
    ∀ now, PrunedTo now (Recorded.run gap calls).table.entries
      ((Recorded.run gap calls).table.prune now).entries := by
  have hinv := Recorded.inv_run gap calls
  have hsound : ∀ key now, ((Recorded.run gap calls).table.refused key now gap).1 = true →
      Apart gap ((Recorded.run gap calls).times key ++ [now]) := by
    intro key now
    exact (refused_counted now (hinv.counted key)).2
  refine ⟨hsound, ?_, fun now => hinv.sorted.prunedTo now⟩
  intro key now hfirst
  by_contra htrue
  obtain ⟨t₁, t₂, hpair, -⟩ := hsound key now (by simpa using htrue)
  rw [hfirst] at hpair
  have hlen := hpair.length_le
  simp at hlen

example : ((Recorded.run 60 [.refused "a" 100, .refused "a" 130, .prune 150]).table.refused
    "a" 160 60).1 = true := by decide

end Quarantine

end Governance
