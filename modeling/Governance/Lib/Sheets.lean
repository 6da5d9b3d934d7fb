import Mathlib

/-!
# Flat documents that are edited in place

A document is a list of named entries, each with the text before and after it, under a preface. An
entry is set where it stands or appended, and it can be taken out. A list of such edits for
different names can be repeated without an effect, and leaves everything else as it was.
-/

namespace Governance

/-- An entry, with the text before its name and after its value. -/
structure SheetEntry (κ ν : Type) where
  decor : String
  key : κ
  value : ν
  suffix : String
  deriving DecidableEq

structure Sheet (κ ν : Type) where
  preface : String
  entries : List (SheetEntry κ ν)
  deriving DecidableEq

namespace Sheet

variable {κ ν : Type} [DecidableEq κ]

/-- The document without text. -/
def blank : Sheet κ ν := ⟨"", []⟩

def lookup (sheet : Sheet κ ν) (key : κ) : Option ν :=
  (sheet.entries.find? fun entry => entry.key = key).map SheetEntry.value

/-- The value in place of the one that was there, or a new entry at the end. -/
def setEntries (key : κ) (value : ν) : List (SheetEntry κ ν) → List (SheetEntry κ ν)
  | [] => [⟨"", key, value, ""⟩]
  | entry :: rest =>
    if entry.key = key then { entry with value := value, suffix := "" } :: rest
    else entry :: setEntries key value rest

/-- One edit. -/
inductive Op (κ ν : Type) where
  | set (key : κ) (value : ν)
  | clear (key : κ)

namespace Op

def key : Op κ ν → κ
  | set key _ => key
  | clear key => key

/-- What stands under the name after the edit. -/
def result : Op κ ν → Option ν
  | set _ value => some value
  | clear _ => none

def apply : Op κ ν → Sheet κ ν → Sheet κ ν
  | set key value, sheet => { sheet with entries := setEntries key value sheet.entries }
  | clear key, sheet => { sheet with entries := sheet.entries.filter fun entry => entry.key ≠ key }

end Op

def applyAll (ops : List (Op κ ν)) (sheet : Sheet κ ν) : Sheet κ ν :=
  ops.foldl (fun sheet op => op.apply sheet) sheet

section Lemmas

variable {key key' : κ} {value value' : ν} {entries : List (SheetEntry κ ν)} {sheet : Sheet κ ν}
  {op op' : Op κ ν} {ops : List (Op κ ν)}

theorem find?_setEntries_self :
    ((setEntries key value entries).find? fun entry => entry.key = key).map SheetEntry.value =
      some value := by
  induction entries with
  | nil => simp [setEntries]
  | cons entry rest ih =>
    by_cases hkey : entry.key = key
    · simp [setEntries, hkey]
    · simp only [setEntries, if_neg hkey, List.find?_cons, decide_eq_false hkey, ih]

theorem find?_setEntries_of_ne (hne : key' ≠ key) :
    ((setEntries key value entries).find? fun entry => entry.key = key').map SheetEntry.value =
      (entries.find? fun entry => entry.key = key').map SheetEntry.value := by
  induction entries with
  | nil => simp [setEntries, Ne.symm hne]
  | cons entry rest ih =>
    by_cases hkey : entry.key = key
    · subst hkey
      simp [setEntries, Ne.symm hne]
    · by_cases hkey' : entry.key = key'
      · simp only [setEntries, if_neg hkey, List.find?_cons, decide_eq_true hkey']
      · simp only [setEntries, if_neg hkey, List.find?_cons, decide_eq_false hkey', ih]

theorem find?_filter_of_ne (hne : key' ≠ key) :
    (entries.filter fun entry => entry.key ≠ key).find? (fun entry => entry.key = key') =
      entries.find? fun entry => entry.key = key' := by
  rw [List.find?_filter]
  congr 1
  funext entry
  by_cases hkey : entry.key = key'
  · simp [hkey, hne]
  · simp [hkey]

theorem lookup_apply_self (op : Op κ ν) (sheet : Sheet κ ν) :
    (op.apply sheet).lookup op.key = op.result := by
  cases op with
  | set key value => exact find?_setEntries_self
  | clear key =>
    simp only [lookup, Op.apply, Op.key, Op.result, Option.map_eq_none_iff, List.find?_eq_none,
      List.mem_filter]
    intro entry hmem
    have hne : entry.key ≠ key := by simpa using hmem.2
    simp [hne]

theorem lookup_apply_of_ne (hne : key ≠ op.key) :
    (op.apply sheet).lookup key = sheet.lookup key := by
  cases op with
  | set key' value => exact find?_setEntries_of_ne hne
  | clear key' => exact congrArg (Option.map SheetEntry.value) (find?_filter_of_ne hne)

theorem lookup_applyAll_of_notMem (h : key ∉ ops.map Op.key) :
    (applyAll ops sheet).lookup key = sheet.lookup key := by
  induction ops generalizing sheet with
  | nil => rfl
  | cons op rest ih =>
    rw [List.map_cons, List.mem_cons, not_or] at h
    exact (ih h.2).trans (lookup_apply_of_ne h.1)

theorem lookup_applyAll_of_mem (hnodup : (ops.map Op.key).Nodup) (hmem : op ∈ ops) :
    (applyAll ops sheet).lookup op.key = op.result := by
  induction ops generalizing sheet with
  | nil => cases hmem
  | cons first rest ih =>
    rw [List.map_cons, List.nodup_cons] at hnodup
    rcases List.mem_cons.mp hmem with rfl | hrest
    · exact (lookup_applyAll_of_notMem hnodup.1).trans (lookup_apply_self op sheet)
    · exact ih hnodup.2 hrest

/-! ## Repeating edits -/

theorem setEntries_setEntries :
    setEntries key value (setEntries key value entries) = setEntries key value entries := by
  induction entries with
  | nil => simp [setEntries]
  | cons entry rest ih =>
    by_cases hkey : entry.key = key
    · simp [setEntries, hkey]
    · simp only [setEntries, if_neg hkey, ih]

theorem apply_apply (op : Op κ ν) (sheet : Sheet κ ν) :
    op.apply (op.apply sheet) = op.apply sheet := by
  cases op with
  | set key value => simp only [Op.apply, setEntries_setEntries]
  | clear key => simp [Op.apply, List.filter_filter]

/-- An entry that is set stays so under edits of others. -/
theorem setEntries_of_settled (hne : key' ≠ key) (h : setEntries key value entries = entries) :
    setEntries key value (setEntries key' value' entries) = setEntries key' value' entries := by
  induction entries with
  | nil => cases h
  | cons entry rest ih =>
    by_cases hkey : entry.key = key
    · have hkey' : ¬entry.key = key' := fun heq => hne (heq.symm.trans hkey)
      simp only [setEntries, if_pos hkey, List.cons.injEq, and_true] at h
      simp only [setEntries, if_neg hkey', if_pos hkey, h]
    · simp only [setEntries, if_neg hkey, List.cons.injEq, true_and] at h
      by_cases hkey' : entry.key = key'
      · simp only [setEntries, if_pos hkey', if_neg hkey, h]
      · simp only [setEntries, if_neg hkey', if_neg hkey, ih h]

theorem setEntries_filter_of_settled (hne : key' ≠ key)
    (h : setEntries key value entries = entries) :
    setEntries key value (entries.filter fun entry => entry.key ≠ key') =
      entries.filter fun entry => entry.key ≠ key' := by
  induction entries with
  | nil => cases h
  | cons entry rest ih =>
    by_cases hkey : entry.key = key
    · have hkept : entry.key ≠ key' := fun heq => hne (heq.symm.trans hkey)
      simp only [setEntries, if_pos hkey, List.cons.injEq, and_true] at h
      rw [List.filter_cons_of_pos (by simpa using hkept)]
      simp only [setEntries, if_pos hkey, h]
    · simp only [setEntries, if_neg hkey, List.cons.injEq, true_and] at h
      by_cases hkey' : entry.key = key'
      · rw [List.filter_cons_of_neg (by simpa using hkey')]
        exact ih h
      · rw [List.filter_cons_of_pos (by simpa using hkey')]
        simp only [setEntries, if_neg hkey, ih h]

theorem mem_setEntries {entry : SheetEntry κ ν} (h : entry ∈ setEntries key value entries) :
    entry.key = key ∧ entry.value = value ∨ entry ∈ entries := by
  induction entries with
  | nil =>
    obtain rfl := List.mem_singleton.mp h
    exact .inl ⟨rfl, rfl⟩
  | cons first rest ih =>
    by_cases hkey : first.key = key
    · rw [setEntries, if_pos hkey] at h
      rcases List.mem_cons.mp h with rfl | hrest
      · exact .inl ⟨hkey, rfl⟩
      · exact .inr (List.mem_cons_of_mem _ hrest)
    · rw [setEntries, if_neg hkey] at h
      rcases List.mem_cons.mp h with rfl | hrest
      · exact .inr List.mem_cons_self
      · exact (ih hrest).imp_right (List.mem_cons_of_mem _)

/-- An edit that has no effect has none after an edit of another name. -/
theorem apply_of_settled (hne : op'.key ≠ op.key) (h : op.apply sheet = sheet) :
    op.apply (op'.apply sheet) = op'.apply sheet := by
  obtain ⟨preface, entries⟩ := sheet
  cases op with
  | set key value =>
    have hsettled : setEntries key value entries = entries := congrArg Sheet.entries h
    cases op' with
    | set key' value' =>
      have hne' : key' ≠ key := hne
      simp only [Op.apply, setEntries_of_settled hne' hsettled]
    | clear key' =>
      have hne' : key' ≠ key := hne
      simp only [Op.apply, setEntries_filter_of_settled hne' hsettled]
  | clear key =>
    have hgone : ∀ entry ∈ entries, entry.key ≠ key := by
      have hfilter : entries.filter (fun entry => entry.key ≠ key) = entries :=
        congrArg Sheet.entries h
      intro entry hmem
      simpa using List.filter_eq_self.mp hfilter entry hmem
    cases op' with
    | set key' value' =>
      simp only [Op.apply, mk.injEq, true_and, List.filter_eq_self]
      intro entry hmem
      have hne' : key' ≠ key := hne
      rcases mem_setEntries hmem with ⟨hkey, -⟩ | hold
      · simpa [hkey] using hne'
      · simpa using hgone entry hold
    | clear key' =>
      simp only [Op.apply, mk.injEq, true_and, List.filter_eq_self, List.mem_filter]
      intro entry hmem
      simpa using hgone entry hmem.1

theorem applyAll_of_settled (h : ∀ op ∈ ops, op.apply sheet = sheet) :
    applyAll ops sheet = sheet := by
  induction ops with
  | nil => rfl
  | cons op rest ih =>
    rw [List.forall_mem_cons] at h
    rw [applyAll, List.foldl_cons, h.1]
    exact ih h.2

theorem settled_applyAll (hnodup : (ops.map Op.key).Nodup) :
    ∀ op ∈ ops, op.apply (applyAll ops sheet) = applyAll ops sheet := by
  have hkeep : ∀ (rest : List (Op κ ν)) (op : Op κ ν) (sheet : Sheet κ ν),
      op.key ∉ rest.map Op.key → op.apply sheet = sheet →
      op.apply (applyAll rest sheet) = applyAll rest sheet := by
    intro rest
    induction rest with
    | nil =>
      intro op sheet _ h
      exact h
    | cons first rest ih =>
      intro op sheet hnew h
      rw [List.map_cons, List.mem_cons, not_or] at hnew
      exact ih op _ hnew.2 (apply_of_settled (Ne.symm hnew.1) h)
  induction ops generalizing sheet with
  | nil => nofun
  | cons first rest ih =>
    rw [List.map_cons, List.nodup_cons] at hnodup
    rw [List.forall_mem_cons]
    exact ⟨hkeep rest first _ hnodup.1 (apply_apply first sheet), ih hnodup.2⟩

/-- Edits of different names can be repeated. -/
theorem applyAll_applyAll (hnodup : (ops.map Op.key).Nodup) :
    applyAll ops (applyAll ops sheet) = applyAll ops sheet :=
  applyAll_of_settled (settled_applyAll hnodup)

/-! ## Everything else -/

theorem filter_apply {p : κ → Bool} (hkey : p op.key = false) :
    (op.apply sheet).entries.filter (fun entry => p entry.key) =
      sheet.entries.filter fun entry => p entry.key := by
  cases op with
  | set key value =>
    have hkey' : p key = false := hkey
    show (setEntries key value sheet.entries).filter _ = _
    induction sheet.entries with
    | nil => simp [setEntries, hkey']
    | cons entry rest ih =>
      by_cases heq : entry.key = key
      · simp [setEntries, heq, hkey']
      · simp only [setEntries, if_neg heq, List.filter_cons, ih]
  | clear key =>
    have hkey' : p key = false := hkey
    show (sheet.entries.filter _).filter _ = _
    rw [List.filter_filter]
    apply List.filter_congr
    intro entry _
    by_cases heq : entry.key = key
    · simp [heq, hkey']
    · simp [heq]

/-- Edits leave the entries of other names, with the text around them and in their order. -/
theorem filter_applyAll {p : κ → Bool} (hkeys : ∀ op ∈ ops, p op.key = false) :
    (applyAll ops sheet).entries.filter (fun entry => p entry.key) =
      sheet.entries.filter fun entry => p entry.key := by
  induction ops generalizing sheet with
  | nil => rfl
  | cons op rest ih =>
    rw [List.forall_mem_cons] at hkeys
    exact (ih hkeys.2).trans (filter_apply hkeys.1)

/-- What every entry satisfies still holds if what is set satisfies it. -/
theorem forall_mem_applyAll {P : κ → ν → Prop}
    (hops : ∀ key value, Op.set key value ∈ ops → P key value)
    (h : ∀ entry ∈ sheet.entries, P entry.key entry.value) :
    ∀ entry ∈ (applyAll ops sheet).entries, P entry.key entry.value := by
  induction ops generalizing sheet with
  | nil => exact h
  | cons op rest ih =>
    refine ih (fun key value hmem => hops key value (List.mem_cons_of_mem _ hmem)) ?_
    intro entry hmem
    cases op with
    | set key value =>
      rcases mem_setEntries hmem with ⟨rfl, rfl⟩ | hold
      · exact hops entry.key entry.value List.mem_cons_self
      · exact h entry hold
    | clear key => exact h entry (List.mem_filter.mp hmem).1

end Lemmas

end Sheet

end Governance
