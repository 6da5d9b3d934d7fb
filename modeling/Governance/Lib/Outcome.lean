import Mathlib.Data.List.Forall2

/-!
# Computations that can fail

What the success of a sequence, or of a loop over a list, says about its parts.
-/

universe u

namespace Except

variable {ε α β : Type u}

/-- A sequence that succeeds went through a success of its first part. -/
theorem ok_of_bind {first : Except ε α} {next : α → Except ε β} {result : β}
    (h : (first >>= next) = .ok result) : ∃ mid, first = .ok mid ∧ next mid = .ok result := by
  cases first with
  | error e => cases h
  | ok mid => exact ⟨mid, rfl, h⟩

theorem bind_eq_ok {first : Except ε α} {next : α → Except ε β} {mid : α} {result : β}
    (hfirst : first = .ok mid) (hnext : next mid = .ok result) : (first >>= next) = .ok result := by
  rw [hfirst]
  exact hnext

/-- A loop over a list succeeds exactly with the results of its elements, in their order. -/
theorem mapM_eq_ok_iff {f : α → Except ε β} {as : List α} {bs : List β} :
    as.mapM f = .ok bs ↔ List.Forall₂ (fun a b => f a = .ok b) as bs := by
  induction as generalizing bs with
  | nil =>
    rw [List.mapM_nil, List.forall₂_nil_left_iff]
    exact ⟨fun h => (Except.ok.inj h).symm, fun h => h ▸ rfl⟩
  | cons a as ih =>
    rw [List.mapM_cons]
    constructor
    · intro h
      obtain ⟨b, hb, h⟩ := ok_of_bind h
      obtain ⟨rest, hrest, h⟩ := ok_of_bind h
      obtain rfl := Except.ok.inj h
      exact .cons hb (ih.mp hrest)
    · intro h
      cases h with
      | cons hb hrest =>
        rw [hb, ih.mpr hrest]
        rfl

/-- A loop over a list succeeds exactly if every element does. -/
theorem mapM_isOk_iff {f : α → Except ε β} {as : List α} :
    (∃ bs, as.mapM f = .ok bs) ↔ ∀ a ∈ as, ∃ b, f a = .ok b := by
  simp only [mapM_eq_ok_iff]
  induction as with
  | nil => exact ⟨fun _ _ ha => absurd ha List.not_mem_nil, fun _ => ⟨[], .nil⟩⟩
  | cons a as ih =>
    rw [List.forall_mem_cons, ← ih]
    constructor
    · rintro ⟨bs, hbs⟩
      cases hbs with
      | cons hb hrest => exact ⟨⟨_, hb⟩, _, hrest⟩
    · rintro ⟨⟨b, hb⟩, bs, hrest⟩
      exact ⟨b :: bs, .cons hb hrest⟩

end Except

namespace Option

variable {α β : Type u}

/-- A search over a list succeeds exactly with what it finds for its elements, in their order. -/
theorem mapM_eq_some_iff {f : α → Option β} {as : List α} {bs : List β} :
    as.mapM f = some bs ↔ List.Forall₂ (fun a b => f a = some b) as bs := by
  induction as generalizing bs with
  | nil =>
    rw [List.mapM_nil, List.forall₂_nil_left_iff]
    exact ⟨fun h => (Option.some.inj h).symm, fun h => h ▸ rfl⟩
  | cons a as ih =>
    rw [List.mapM_cons]
    constructor
    · intro h
      obtain ⟨b, hb, h⟩ := Option.bind_eq_some_iff.mp h
      obtain ⟨rest, hrest, h⟩ := Option.bind_eq_some_iff.mp h
      obtain rfl := Option.some.inj h
      exact .cons hb (ih.mp hrest)
    · intro h
      cases h with
      | cons hb hrest =>
        rw [hb, ih.mpr hrest]
        rfl

end Option

namespace List

/-- What stands opposite to an element. -/
theorem Forall₂.exists_mem {α β : Type*} {R : α → β → Prop} {as : List α} {bs : List β}
    (h : Forall₂ R as bs) {a : α} (ha : a ∈ as) : ∃ b ∈ bs, R a b := by
  induction h with
  | nil => cases ha
  | cons hab _ ih =>
    rcases List.mem_cons.mp ha with rfl | ha
    · exact ⟨_, List.mem_cons_self, hab⟩
    · obtain ⟨b, hb, hr⟩ := ih ha
      exact ⟨b, List.mem_cons_of_mem _ hb, hr⟩

end List
