import Mathlib.Data.List.Forall2
import Mathlib.Data.List.Perm.Basic

/-!
# Grouping by a comparison

A list of groups, each with a key, kept in the order in which the keys first came.
`addTo` puts something into the first group whose key compares equal, or into a new one at
the end. What is in the groups afterwards is what was in them before and the new things,
each once and under a key that is the own one or compares equal to it (`contents_addTo`), and no
two groups have keys that compare equal (`separate_addTo`). One addition for each element of a list
makes one group of each of its classes (`foldl_addTo`). The comparison can be any function.
-/

universe u v w x

namespace Grouping

variable {κ : Type u} {β : Type v} {γ : Type w} {δ : Type x}

/-- Changes the first group whose key compares equal, or adds a group that `f` fills. -/
def addTo (same : κ → κ → Bool) (key : κ) (empty : β) (f : β → β) : List (κ × β) → List (κ × β)
  | [] => [(key, f empty)]
  | (k, b) :: rest =>
    if same k key then (k, f b) :: rest else (k, b) :: addTo same key empty f rest

/-- Everything in some groups, each thing with the key of its group. -/
def contents (inside : β → List γ) (groups : List (κ × β)) : List (κ × γ) :=
  groups.flatMap fun g => (inside g.2).map fun y => (g.1, y)

/-- The key of a group is the own key or compares equal to it. -/
def Under (same : κ → κ → Bool) (k key : κ) : Prop := k = key ∨ same k key = true

theorem forall₂_map_pair {same : κ → κ → Bool} {Q : γ → δ → Prop} {k key : κ}
    (hk : Under same k key) {ys : List γ} {news : List δ} (h : List.Forall₂ Q ys news) :
    List.Forall₂ (fun z d => Under same z.1 key ∧ Q z.2 d) (ys.map fun y => (k, y)) news := by
  induction h with
  | nil => exact .nil
  | cons hyd _ ih => exact .cons ⟨hk, hyd⟩ ih

/-- One addition. What `f` does inside a group is given by `hf`. -/
theorem contents_addTo {same : κ → κ → Bool} {inside : β → List γ} {Q : γ → δ → Prop}
    {empty : β} {f : β → β} {news : List δ} (hempty : inside empty = [])
    (hf : ∀ b, ∃ ys, (inside (f b)).Perm (inside b ++ ys) ∧ List.Forall₂ Q ys news) (key : κ)
    (groups : List (κ × β)) :
    ∃ zs, (contents inside (addTo same key empty f groups)).Perm (contents inside groups ++ zs) ∧
      List.Forall₂ (fun z d => Under same z.1 key ∧ Q z.2 d) zs news := by
  induction groups with
  | nil =>
    obtain ⟨ys, hperm, hnews⟩ := hf empty
    rw [hempty, List.nil_append] at hperm
    refine ⟨ys.map fun y => (key, y), ?_, forall₂_map_pair (.inl rfl) hnews⟩
    show (((inside (f empty)).map fun y => (key, y)) ++ []).Perm ([] ++ _)
    rw [List.append_nil, List.nil_append]
    exact hperm.map _
  | cons g rest ih =>
    obtain ⟨k, b⟩ := g
    by_cases hk : same k key = true
    · obtain ⟨ys, hperm, hnews⟩ := hf b
      refine ⟨ys.map fun y => (k, y), ?_, forall₂_map_pair (.inr hk) hnews⟩
      rw [addTo, if_pos hk]
      show (((inside (f b)).map fun y => (k, y)) ++ contents inside rest).Perm
        (((inside b).map fun y => (k, y)) ++ contents inside rest ++ _)
      refine ((hperm.map _).append_right _).trans ?_
      rw [List.map_append, List.append_assoc, List.append_assoc]
      exact List.perm_append_comm.append_left _
    · obtain ⟨zs, hperm, hnews⟩ := ih
      refine ⟨zs, ?_, hnews⟩
      rw [addTo, if_neg hk]
      show (((inside b).map fun y => (k, y)) ++ contents inside (addTo same key empty f rest)).Perm
        (((inside b).map fun y => (k, y)) ++ contents inside rest ++ zs)
      rw [List.append_assoc]
      exact hperm.append_left _

/-- No key compares equal to a later one. -/
def Separate (same : κ → κ → Bool) (groups : List (κ × β)) : Prop :=
  groups.Pairwise fun g h => same g.1 h.1 = false

theorem key_of_mem_addTo {same : κ → κ → Bool} {key : κ} {empty : β} {f : β → β}
    {groups : List (κ × β)} {g : κ × β} (hg : g ∈ addTo same key empty f groups) :
    g.1 = key ∨ ∃ h ∈ groups, h.1 = g.1 := by
  induction groups with
  | nil => exact .inl (congrArg Prod.fst (List.mem_singleton.mp hg))
  | cons h rest ih =>
    unfold addTo at hg
    split at hg
    · obtain rfl | hg := List.mem_cons.mp hg
      · exact .inr ⟨h, List.mem_cons_self, rfl⟩
      · exact .inr ⟨g, List.mem_cons_of_mem _ hg, rfl⟩
    · obtain rfl | hg := List.mem_cons.mp hg
      · exact .inr ⟨h, List.mem_cons_self, rfl⟩
      · obtain hkey | ⟨h', hh', heq⟩ := ih hg
        · exact .inl hkey
        · exact .inr ⟨h', List.mem_cons_of_mem _ hh', heq⟩

theorem separate_addTo {same : κ → κ → Bool} {key : κ} {empty : β} {f : β → β}
    {groups : List (κ × β)} (h : Separate same groups) :
    Separate same (addTo same key empty f groups) := by
  induction groups with
  | nil => exact List.pairwise_singleton _ _
  | cons g rest ih =>
    obtain ⟨hg, hrest⟩ := List.pairwise_cons.mp h
    unfold addTo
    split
    · exact List.pairwise_cons.mpr ⟨hg, hrest⟩
    · rename_i hne
      refine List.pairwise_cons.mpr ⟨?_, ih hrest⟩
      intro h' hh'
      obtain hkey | ⟨h'', hmem, heq⟩ := key_of_mem_addTo hh'
      · rw [hkey]
        exact Bool.eq_false_iff.mpr hne
      · rw [← heq]
        exact hg h'' hmem

/-- What every change of a group keeps holds in every group. -/
theorem forall_addTo {P : β → Prop} {same : κ → κ → Bool} {key : κ} {empty : β} {f : β → β}
    (hempty : P empty) (hf : ∀ b, P b → P (f b)) {groups : List (κ × β)}
    (h : ∀ g ∈ groups, P g.2) : ∀ g ∈ addTo same key empty f groups, P g.2 := by
  induction groups with
  | nil =>
    intro g hg
    rw [List.mem_singleton.mp hg]
    exact hf empty hempty
  | cons g rest ih =>
    obtain ⟨hg, hrest⟩ := List.forall_mem_cons.mp h
    unfold addTo
    split
    · exact List.forall_mem_cons.mpr ⟨hf _ hg, hrest⟩
    · exact List.forall_mem_cons.mpr ⟨hg, ih hrest⟩

/-- Many additions, one after the other. -/
theorem contents_foldl {ι : Type*} {inside : β → List γ} {R : κ × γ → δ → Prop}
    {step : List (κ × β) → ι → List (κ × β)} {news : ι → List δ}
    (hstep : ∀ groups i, ∃ zs,
      (contents inside (step groups i)).Perm (contents inside groups ++ zs) ∧
        List.Forall₂ R zs (news i)) (items : List ι) (groups : List (κ × β)) :
    ∃ zs, (contents inside (items.foldl step groups)).Perm (contents inside groups ++ zs) ∧
      List.Forall₂ R zs (items.flatMap news) := by
  induction items generalizing groups with
  | nil => exact ⟨[], by simp, .nil⟩
  | cons i items ih =>
    obtain ⟨zs, hperm, hnews⟩ := hstep groups i
    obtain ⟨zs', hperm', hnews'⟩ := ih (step groups i)
    refine ⟨zs ++ zs', ?_, List.rel_append hnews hnews'⟩
    rw [← List.append_assoc]
    exact hperm'.trans (hperm.append_right _)

/-- The classes of a list: a first element with the later ones whose keys compare equal to its own,
then the classes of the rest. -/
def classes (same : κ → κ → Bool) (key : γ → κ) : List γ → List (κ × List γ)
  | [] => []
  | x :: xs =>
    (key x, x :: xs.filter fun y => same (key x) (key y)) ::
      classes same key (xs.filter fun y => !same (key x) (key y))
termination_by xs => xs.length
decreasing_by
  have hle := List.length_filter_le (fun y : { y // y ∈ xs } => !same (key x) (key y.1)) xs.attach
  rw [List.length_attach] at hle
  simpa using Nat.lt_succ_of_le hle

/-- The first group takes its own things, whatever stands behind it. -/
theorem foldl_addTo_cons {same : κ → κ → Bool} {key : γ → κ} {empty : β} {f : γ → β → β} (k : κ)
    (b : β) (xs : List γ) (rest : List (κ × β)) :
    xs.foldl (fun groups x => addTo same (key x) empty (f x) groups) ((k, b) :: rest) =
      (k, (xs.filter fun y => same k (key y)).foldl (fun b x => f x b) b) ::
        (xs.filter fun y => !same k (key y)).foldl
          (fun groups x => addTo same (key x) empty (f x) groups) rest := by
  induction xs generalizing b rest with
  | nil => rfl
  | cons x xs ih =>
    rw [List.foldl_cons, addTo]
    cases hk : same k (key x) with
    | true =>
      rw [if_pos rfl, ih]
      simp only [List.filter_cons, hk, Bool.not_true, if_true, Bool.false_eq_true, if_false,
        List.foldl_cons]
    | false =>
      rw [if_neg Bool.false_ne_true, ih]
      simp only [List.filter_cons, hk, Bool.not_false, if_true, Bool.false_eq_true, if_false,
        List.foldl_cons]

/-- Many additions make one group of each class. -/
theorem foldl_addTo {same : κ → κ → Bool} {key : γ → κ} {empty : β} {f : γ → β → β}
    (xs : List γ) :
    xs.foldl (fun groups x => addTo same (key x) empty (f x) groups) [] =
      (classes same key xs).map fun c => (c.1, c.2.foldl (fun b x => f x b) empty) := by
  induction hn : xs.length using Nat.strongRecOn generalizing xs with
  | _ n ih =>
    cases xs with
    | nil => rw [classes]; rfl
    | cons x xs =>
      have hlt := Nat.lt_succ_of_le (List.length_filter_le (fun y => !same (key x) (key y)) xs)
      rw [List.foldl_cons, addTo, foldl_addTo_cons, ih _ (hn ▸ hlt) _ rfl, classes]
      rfl

end Grouping
