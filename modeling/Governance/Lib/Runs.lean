import Mathlib

/-!
# Runs of a step function

What holds at every step of a run, as a condition on the state and on the action that is taken in
it. It can be evaluated on a concrete run, and it goes by induction from an invariant.
-/

namespace Governance

namespace Runs

variable {σ α : Type*} {step : σ → α → σ} {P Q : σ → α → Prop} {I : σ → Prop} {s : σ}
  {actions : List α}

/-- `P` holds of every action of the run and the state it is taken in. -/
def Always (step : σ → α → σ) (P : σ → α → Prop) : σ → List α → Prop
  | _, [] => True
  | s, a :: rest => P s a ∧ Always step P (step s a) rest

instance decidableAlways [∀ s a, Decidable (P s a)] :
    ∀ s actions, Decidable (Always step P s actions)
  | _, [] => .isTrue trivial
  | s, a :: rest =>
    have := decidableAlways (step s a) rest
    inferInstanceAs (Decidable (P s a ∧ Always step P (step s a) rest))

theorem always_iff_split : Always step P s actions ↔
    ∀ before a after, actions = before ++ a :: after → P (before.foldl step s) a := by
  induction actions generalizing s with
  | nil => simp [Always]
  | cons b rest ih =>
    constructor
    · rintro ⟨hb, hrest⟩ before a after heq
      cases before with
      | nil =>
        obtain ⟨rfl, -⟩ := List.cons.inj heq
        exact hb
      | cons b' before =>
        obtain ⟨rfl, htail⟩ := List.cons.inj heq
        exact ih.mp hrest before a after htail
    · intro h
      refine ⟨h [] b rest rfl, ih.mpr ?_⟩
      intro before a after heq
      exact h (b :: before) a after (by rw [heq, List.cons_append])

theorem Always.and (hP : Always step P s actions) (hQ : Always step Q s actions) :
    Always step (fun s a => P s a ∧ Q s a) s actions := by
  induction actions generalizing s with
  | nil => trivial
  | cons a rest ih => exact ⟨⟨hP.1, hQ.1⟩, ih hP.2 hQ.2⟩

/-- An invariant that every allowed step keeps holds after an allowed run. -/
theorem Always.invariant (h : Always step P s actions) (hs : I s)
    (hstep : ∀ s a, I s → P s a → I (step s a)) : I (actions.foldl step s) := by
  induction actions generalizing s with
  | nil => exact hs
  | cons a rest ih => exact ih h.2 (hstep s a hs h.1)

/-- What an invariant gives for every allowed step holds at every step of an allowed run. -/
theorem Always.of_invariant (h : Always step P s actions) (hs : I s)
    (hstep : ∀ s a, I s → P s a → I (step s a)) (hQ : ∀ s a, I s → P s a → Q s a) :
    Always step Q s actions := by
  induction actions generalizing s with
  | nil => trivial
  | cons a rest ih => exact ⟨hQ s a hs h.1, ih h.2 (hstep s a hs h.1)⟩

end Runs

end Governance
