import Governance.CopilotPush.Steps

/-!
# What a commit charges

The shared offset of a checkpoint is the smaller of its two signal offsets (`Shared`), and it
only grows under `Checkpoint::advance`. The lines that a commit charges are those that the shared
offset has newly covered, so what is charged in all is what starts below the shared offset
(`below_newly`).
-/

namespace Governance

open Utf8Text ByteLines

namespace Push

namespace Checkpoint

/-- The shared offset is the smaller of the two. -/
def Shared (c : Checkpoint) : Prop :=
  c.offset = min (c.signalOffset .metrics) (c.signalOffset .logs)

theorem Shared.le {c : Checkpoint} (h : c.Shared) (signal : Signal) :
    c.offset ≤ c.signalOffset signal := by
  rw [h]
  cases signal
  · exact min_le_left _ _
  · exact min_le_right _ _

@[simp] theorem signalOffset_advance_self (c : Checkpoint) (signal : Signal) (reached : ℕ) :
    (c.advance signal reached).signalOffset signal = reached := by
  cases signal <;> rfl

theorem shared_advance (c : Checkpoint) (signal : Signal) (reached : ℕ) :
    (c.advance signal reached).Shared := by
  cases signal
  · cases hlogs : c.logsOffset <;> simp [Shared, advance, signalOffset, hlogs]
  · cases hmetrics : c.metricsOffset <;> simp [Shared, advance, signalOffset, hmetrics]

theorem shared_restart (c : Checkpoint) : c.restart.Shared := rfl

/-- A signal that moves ahead leaves the other where it is. -/
theorem signalOffset_advance_of_ne {c : Checkpoint} (h : c.Shared) {signal other : Signal}
    (hne : other ≠ signal) {reached : ℕ} (hlt : c.signalOffset signal < reached) :
    (c.advance signal reached).signalOffset other = c.signalOffset other := by
  have hle := h.le signal
  cases signal <;> cases other
  · exact absurd rfl hne
  · cases hlogs : c.logsOffset <;> simp [advance, signalOffset, hlogs] at hle hlt ⊢
    omega
  · cases hmetrics : c.metricsOffset <;> simp [advance, signalOffset, hmetrics] at hle hlt ⊢
    omega
  · exact absurd rfl hne

theorem offset_le_advance {c : Checkpoint} (h : c.Shared) {signal : Signal} {reached : ℕ}
    (hlt : c.signalOffset signal < reached) : c.offset ≤ (c.advance signal reached).offset := by
  have hother : ∀ s, c.offset ≤ (c.advance signal reached).signalOffset s := by
    intro s
    by_cases hs : s = signal
    · rw [hs, signalOffset_advance_self]
      exact (h.le signal).trans hlt.le
    · rw [signalOffset_advance_of_ne h hs hlt]
      exact h.le s
  rw [shared_advance c signal reached]
  exact le_min (hother .metrics) (hother .logs)

theorem signalOffset_raise_self (c : Checkpoint) (signal : Signal) (reached : ℕ) :
    (c.raise signal reached).signalOffset signal = max reached (c.signalOffset signal) := by
  unfold raise
  split
  · rw [signalOffset_advance_self]
    omega
  · omega

theorem signalOffset_raise_of_ne {c : Checkpoint} (h : c.Shared) {signal other : Signal}
    (hne : other ≠ signal) (reached : ℕ) :
    (c.raise signal reached).signalOffset other = c.signalOffset other := by
  unfold raise
  split
  · next hlt => exact signalOffset_advance_of_ne h hne hlt
  · rfl

theorem Shared.raise {c : Checkpoint} (h : c.Shared) (signal : Signal) (reached : ℕ) :
    (c.raise signal reached).Shared := by
  unfold Checkpoint.raise
  split
  · exact shared_advance c signal reached
  · exact h

theorem offset_le_raise {c : Checkpoint} (h : c.Shared) (signal : Signal) (reached : ℕ) :
    c.offset ≤ (c.raise signal reached).offset := by
  unfold raise
  split
  · next hlt => exact offset_le_advance h hlt
  · exact le_rfl

@[simp] theorem raise_discardedTotal (c : Checkpoint) (signal : Signal) (reached : ℕ) :
    (c.raise signal reached).discardedTotal = c.discardedTotal := by
  unfold raise
  split
  · cases signal <;> rfl
  · rfl

@[simp] theorem recordDiscards_offset (c : Checkpoint) (count now : ℕ) :
    (c.recordDiscards count now).offset = c.offset := by
  unfold recordDiscards
  split <;> rfl

@[simp] theorem recordDiscards_signalOffset (c : Checkpoint) (count now : ℕ) (signal : Signal) :
    (c.recordDiscards count now).signalOffset signal = c.signalOffset signal := by
  unfold recordDiscards
  split <;> rfl

@[simp] theorem recordDiscards_discardedTotal (c : Checkpoint) (count now : ℕ) :
    (c.recordDiscards count now).discardedTotal = c.discardedTotal + count := by
  unfold recordDiscards
  split
  · omega
  · rfl

end Checkpoint

/-! ## The lines below an offset -/

/-- The lines that start before a byte. -/
def below (lines : List Line) (through : ℕ) : List Line :=
  lines.filter fun line => line.offset < through

theorem below_eq_nil {lines : List Line} {through : ℕ} (h : ∀ line ∈ lines, through ≤ line.offset) :
    below lines through = [] := by
  rw [below, List.filter_eq_nil_iff]
  intro line hline
  have hle := h line hline
  simp only [decide_eq_true_eq]
  omega

theorem below_eq_takeWhile {lines : List Line} (hord : Ordered lines) (through : ℕ) :
    below lines through = lines.takeWhile fun line => line.offset < through := by
  induction hord with
  | nil => rfl
  | @cons line rest hhead _ ih =>
    by_cases hlt : line.offset < through
    · rw [below, List.filter_cons_of_pos (by simpa using hlt), List.takeWhile_cons_of_pos
        (by simpa using hlt), ← ih, below]
    · rw [List.takeWhile_cons_of_neg (by simpa using hlt)]
      apply below_eq_nil
      intro l hl
      rcases List.mem_cons.mp hl with rfl | hl
      · omega
      · have := hhead l hl
        omega

/-- Behind the lines below one offset come those up to a later one. -/
theorem below_append {lines : List Line} (hord : Ordered lines) {through through' : ℕ}
    (hle : through ≤ through' ∨ ∀ line ∈ lines, through ≤ line.offset) :
    below lines through' = below lines through ++
      (lines.drop (below lines through).length).takeWhile fun line => line.offset < through' := by
  rcases hle with hle | hall
  · induction hord with
    | nil => rfl
    | @cons line rest hhead hrest ih =>
      by_cases hlt : line.offset < through
      · have hlt' : line.offset < through' := by omega
        rw [below, below, List.filter_cons_of_pos (by simpa using hlt'),
          List.filter_cons_of_pos (by simpa using hlt)]
        exact congrArg (line :: ·) ih
      · have hnil : below (line :: rest) through = [] := by
          apply below_eq_nil
          intro l hl
          rcases List.mem_cons.mp hl with rfl | hl
          · omega
          · have := hhead l hl
            omega
        rw [hnil, List.length_nil, List.drop_zero, List.nil_append,
          below_eq_takeWhile (.cons hhead hrest)]
  · rw [below_eq_nil hall, List.length_nil, List.drop_zero, List.nil_append,
      below_eq_takeWhile hord]

/-- What is charged is what starts below the shared offset. -/
structure Charged (j : Journal) : Prop where
  ordered : Ordered j.lines
  charged : j.charged = (below j.lines j.state.offset).length
  shared : j.state.Shared ∨ ∀ line ∈ j.lines, j.state.offset ≤ line.offset

namespace Machine

variable {env : PushEnv} {m : Machine} (signal : Signal) (reached refused : ℕ)

@[simp] theorem store_fst (c : Checkpoint) (inLoop : Bool) (owed through : ℕ) :
    (m.store env c inLoop owed through).1 = env.storeOk m.tried := rfl

@[simp] theorem store_writes (c : Checkpoint) (inLoop : Bool) (owed through : ℕ) :
    (m.store env c inLoop owed through).2.writes =
      m.writes ++ [⟨c, env.storeOk m.tried, inLoop, owed, m.given, through⟩] := by
  simp only [store]
  split <;> rfl

@[simp] theorem store_journal (c : Checkpoint) (inLoop : Bool) (owed through : ℕ) :
    (m.store env c inLoop owed through).2.journal = m.journal := by
  simp only [store]
  split <;> rfl

@[simp] theorem store_given (c : Checkpoint) (inLoop : Bool) (owed through : ℕ) :
    (m.store env c inLoop owed through).2.given = m.given := by
  simp only [store]
  split <;> rfl

/-- A commit stores nothing when nothing has changed; else it stores the state under the name
of the file it was measured against. -/
theorem commit_cases (env : PushEnv) (m : Machine) (inLoop : Bool) (owed : ℕ) :
    m.journal.state = m.journal.stored ∧ m.commit env inLoop owed = (true, m) ∨
    m.journal.state ≠ m.journal.stored ∧ ∃ m', m' = { m with journal := { m.journal with
        state := { m.journal.state with spool := m.journal.identity } } } ∧
      m.commit env inLoop owed = (env.storeOk m.tried,
        let r := (m'.store env m'.journal.state inLoop owed m'.journal.state.offset).2
        if env.storeOk m.tried then
          { r with journal := { m'.journal with stored := m'.journal.state } } else r) := by
  by_cases h : m.journal.state = m.journal.stored
  · exact .inl ⟨h, by simp [commit, h]⟩
  · refine .inr ⟨h, _, rfl, ?_⟩
    simp only [commit, h, if_false, store_fst, store_journal]

theorem commit_ok {env : PushEnv} (hok : ∀ i, env.storeOk i = true) (m : Machine)
    (inLoop : Bool) (owed : ℕ) : (m.commit env inLoop owed).1 = true := by
  obtain ⟨-, hcommit⟩ | ⟨-, m', -, hcommit⟩ := commit_cases env m inLoop owed
  · rw [hcommit]
  · rw [hcommit]
    exact hok _

@[simp] theorem commit_given (env : PushEnv) (m : Machine) (inLoop : Bool) (owed : ℕ) :
    (m.commit env inLoop owed).2.given = m.given := by
  obtain ⟨-, h⟩ | ⟨-, m', hm', h⟩ := commit_cases env m inLoop owed
  · rw [h]
  · rw [h]
    simp only
    split <;> simp [hm']

@[simp] theorem advance_given (env : PushEnv) (m : Machine) (signal : Signal)
    (reached refused : ℕ) (inLoop : Bool) :
    (m.advance env signal reached refused inLoop).2.given = m.given := by
  rw [advance, commit_given]
  rfl

@[simp] theorem charge_offset : (m.charge env signal reached refused).journal.state.offset =
    (m.journal.state.raise signal reached).offset := by
  simp [charge]

@[simp] theorem charge_signalOffset (s : Signal) :
    (m.charge env signal reached refused).journal.state.signalOffset s =
      (m.journal.state.raise signal reached).signalOffset s := by
  simp [charge]

@[simp] theorem charge_discardedTotal :
    (m.charge env signal reached refused).journal.state.discardedTotal =
      m.journal.state.discardedTotal + (refused + lossOf env.lost (m.fresh signal reached)) := by
  simp [charge]

/-- A commit charges what the shared offset newly covers. -/
theorem below_fresh (h : Charged m.journal) :
    below m.journal.lines (m.journal.state.raise signal reached).offset =
      below m.journal.lines m.journal.state.offset ++ m.fresh signal reached := by
  have hle : m.journal.state.offset ≤ (m.journal.state.raise signal reached).offset ∨
      ∀ line ∈ m.journal.lines, m.journal.state.offset ≤ line.offset := by
    rcases h.shared with hshared | hall
    · exact .inl (Checkpoint.offset_le_raise hshared signal reached)
    · exact .inr hall
  rw [below_append h.ordered hle, ← h.charged]
  rfl

theorem charge_charged (h : Charged m.journal) :
    Charged (m.charge env signal reached refused).journal := by
  refine ⟨h.ordered, ?_, ?_⟩
  · rw [charge_offset]
    change m.journal.charged + (m.fresh signal reached).length =
      (below m.journal.lines (m.journal.state.raise signal reached).offset).length
    rw [below_fresh signal reached h, List.length_append, ← h.charged]
  · by_cases hlt : reached > m.journal.state.signalOffset signal
    · left
      simpa [Checkpoint.Shared, Checkpoint.raise, hlt] using
        Checkpoint.shared_advance m.journal.state signal reached
    · simpa [Checkpoint.Shared, Checkpoint.raise, hlt, charge] using h.shared

end Machine

theorem commit_given (env : PushEnv) (offer : Offer) (lines : List Line) (inLoop : Bool)
    (p : Progress) (m : Machine) : (commit env offer lines inLoop p m).2.2.given = m.given := by
  simp only [commit]
  split
  · rfl
  · exact Machine.advance_given env m _ _ _ inLoop

end Push

end Governance
