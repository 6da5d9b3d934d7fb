import Mathlib.Data.List.Basic
import Mathlib.Order.Lattice

/-!
# Retry loops

A loop that makes an attempt, and after some outcomes waits and makes another, up to a number of
attempts. Times are numbers on one clock. An abort cuts a wait short, and ends the loop. The lemmas
say what the attempts that were tried again have in common, how many there are, how long the waits
are, and that an abort bounds the whole.
-/

namespace Retry

universe u

variable {ω : Type u}

/-- An attempt that was made. -/
structure Attempt (ω : Type u) where
  sentAt : ℕ
  outcome : ω

/-- How a loop ends. -/
inductive Ending (ω : Type u) where
  | gave (outcome : ω)
  | interrupted

/-- What a loop did. -/
structure Trace (ω : Type u) where
  attempts : List (Attempt ω)
  waits : List ℕ
  ending : Ending ω
  endsAt : ℕ

/-- The end of a wait that starts at `clock`, if no abort cuts it short. -/
def wake (abortAt : Option ℕ) (clock wait : ℕ) : Option ℕ :=
  if abortAt.any fun t => decide (t ≤ clock + wait) then none else some (clock + wait)

/-- The loop, with `left` more attempts after the one of the number `attempt`. `again` is the wait
after an outcome that is tried again, and `answer` what comes of an attempt and how long that
takes. -/
def loop (again : ℕ → ω → Option ℕ) (answer : ℕ → ℕ → ω × ℕ) (abortAt : Option ℕ) :
    ℕ → ℕ → ℕ → Trace ω
  | 0, attempt, clock =>
    let answered := answer attempt clock
    ⟨[⟨clock, answered.1⟩], [], .gave answered.1, clock + answered.2⟩
  | left + 1, attempt, clock =>
    let answered := answer attempt clock
    match again attempt answered.1 with
    | none => ⟨[⟨clock, answered.1⟩], [], .gave answered.1, clock + answered.2⟩
    | some wait =>
      match wake abortAt (clock + answered.2) wait with
      | none => ⟨[⟨clock, answered.1⟩], [wait], .interrupted,
          max (clock + answered.2) (abortAt.getD 0)⟩
      | some next =>
        let rest := loop again answer abortAt left (attempt + 1) next
        ⟨⟨clock, answered.1⟩ :: rest.attempts, wait :: rest.waits, rest.ending, rest.endsAt⟩

variable {again : ℕ → ω → Option ℕ} {answer : ℕ → ℕ → ω × ℕ} {abortAt : Option ℕ}

theorem wake_eq_some {clock wait next : ℕ} (h : wake abortAt clock wait = some next) :
    next = clock + wait ∧ ∀ t, abortAt = some t → clock + wait < t := by
  unfold wake at h
  split at h
  · cases h
  · next hnot =>
    refine ⟨(Option.some.inj h).symm, fun t ht => ?_⟩
    rw [ht] at hnot
    simpa using hnot

/-- Two policies that agree on what comes of attempts make the same loop. -/
theorem loop_congr {again' : ℕ → ω → Option ℕ}
    (h : ∀ attempt clock, again attempt (answer attempt clock).1 =
      again' attempt (answer attempt clock).1) (left attempt clock : ℕ) :
    loop again answer abortAt left attempt clock =
      loop again' answer abortAt left attempt clock := by
  induction left generalizing attempt clock with
  | zero => rfl
  | succ left ih => simp only [loop, h, ih]

theorem length_attempts_le (left attempt clock : ℕ) :
    (loop again answer abortAt left attempt clock).attempts.length ≤ left + 1 := by
  fun_induction loop again answer abortAt left attempt clock with
  | case1 => exact Nat.le_refl _
  | case2 => exact Nat.le_add_left _ _
  | case3 => exact Nat.le_add_left _ _
  | case4 left attempt clock answered wait hagain next hwake rest ih => exact Nat.succ_le_succ ih

theorem attempts_ne_nil (left attempt clock : ℕ) :
    (loop again answer abortAt left attempt clock).attempts ≠ [] := by
  fun_induction loop again answer abortAt left attempt clock <;> exact List.cons_ne_nil _ _

/-- Every attempt but the last is one that is tried again. -/
theorem retried_of_mem_dropLast (left attempt clock : ℕ) :
    ∀ a ∈ (loop again answer abortAt left attempt clock).attempts.dropLast,
      ∃ n, (again n a.outcome).isSome := by
  fun_induction loop again answer abortAt left attempt clock with
  | case1 => exact List.forall_mem_nil _
  | case2 => exact List.forall_mem_nil _
  | case3 => exact List.forall_mem_nil _
  | case4 left attempt clock answered wait hagain next hwake rest ih =>
    intro a ha
    rw [List.dropLast_cons_of_ne_nil (attempts_ne_nil left (attempt + 1) next)] at ha
    rcases List.mem_cons.mp ha with rfl | ha
    · exact ⟨attempt, by rw [hagain]; rfl⟩
    · exact ih a ha

/-- Every wait is the one that the policy sets after some attempt. -/
theorem waits_of_policy (left attempt clock : ℕ) :
    ∀ w ∈ (loop again answer abortAt left attempt clock).waits, ∃ n o, again n o = some w := by
  fun_induction loop again answer abortAt left attempt clock with
  | case1 => exact List.forall_mem_nil _
  | case2 => exact List.forall_mem_nil _
  | case3 left attempt clock answered wait hagain hwake =>
    exact List.forall_mem_singleton.mpr ⟨attempt, _, hagain⟩
  | case4 left attempt clock answered wait hagain next hwake rest ih =>
    exact List.forall_mem_cons.mpr ⟨⟨attempt, _, hagain⟩, ih⟩

/-- Where an abort ends the attempt that is under way, it ends the loop. -/
theorem endsAt_le {t : ℕ} (habort : abortAt = some t)
    (hanswer : ∀ attempt clock, clock + (answer attempt clock).2 ≤ max clock t)
    (left attempt clock : ℕ) :
    (loop again answer abortAt left attempt clock).endsAt ≤ max clock t := by
  fun_induction loop again answer abortAt left attempt clock with
  | case1 attempt clock => exact hanswer attempt clock
  | case2 left attempt clock => exact hanswer attempt clock
  | case3 left attempt clock answered wait hagain hwake =>
    rw [habort]
    exact max_le (hanswer attempt clock) (le_max_right _ _)
  | case4 left attempt clock answered wait hagain next hwake rest ih =>
    obtain ⟨rfl, hbefore⟩ := wake_eq_some hwake
    refine ih.trans ?_
    rw [max_eq_right (hbefore t habort).le]
    exact le_max_right _ _

/-- After the first, no attempt is made once the loop is aborted. -/
theorem sentAt_lt {t : ℕ} (habort : abortAt = some t) (left attempt clock : ℕ) :
    ∀ a ∈ (loop again answer abortAt left attempt clock).attempts.tail, a.sentAt < t := by
  have hall : ∀ left attempt clock, clock < t →
      ∀ a ∈ (loop again answer abortAt left attempt clock).attempts, a.sentAt < t := by
    intro left attempt clock hclock
    fun_induction loop again answer abortAt left attempt clock with
    | case1 => exact List.forall_mem_singleton.mpr hclock
    | case2 => exact List.forall_mem_singleton.mpr hclock
    | case3 => exact List.forall_mem_singleton.mpr hclock
    | case4 left attempt clock answered wait hagain next hwake rest ih =>
      obtain ⟨rfl, hbefore⟩ := wake_eq_some hwake
      exact List.forall_mem_cons.mpr ⟨hclock, ih (hbefore t habort)⟩
  fun_cases loop again answer abortAt left attempt clock with
  | case1 => exact List.forall_mem_nil _
  | case2 => exact List.forall_mem_nil _
  | case3 => exact List.forall_mem_nil _
  | case4 left attempt clock answered wait hagain next hwake rest =>
    obtain ⟨rfl, hbefore⟩ := wake_eq_some hwake
    exact hall left (attempt + 1) _ (hbefore t habort)

end Retry
