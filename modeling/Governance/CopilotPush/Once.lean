import Governance.CopilotPush.Standing

/-!
# A sweep counts and offers once

When no store fails, every moment of a sweep is exact, and the last one is rested: a pass offers
only what is behind its resolved prefix, and the commit that moves an offset over what was accepted
is the next store. Each lemma goes beside the one of `Conserve` for the same step of the sweep.
-/

namespace Governance

open Utf8Text ByteLines

namespace Push

/-- What the journal has passed of the file, or what was in an earlier one. -/
def Reached (f : SpoolFile) (m : Machine) (x : Acceptance) : Prop :=
  x.1 < f.generation ∨
    x.1 = f.generation ∧ x.2.2.offset < m.journal.state.signalOffset x.2.1

/-- A sweep over `f` whose moments are exact, with `owed` records given up that are not charged
yet. -/
structure Accurate (env : PushEnv) (f : SpoolFile) (owed : ℕ) (m : Machine) : Prop where
  moments : ∀ moment ∈ m.trail, Exact env.lost moment
  chain : m.trail.IsChain Moment.Advanced
  measured : m.now.disk.measured ≤ f.generation
  ahead : m.now.disk.measured = f.generation →
    m.now.checkpoint.offset ≤ m.journal.state.offset ∧
      ∀ s, m.now.checkpoint.signalOffset s ≤ m.journal.state.signalOffset s
  once : ∀ generation line, m.ledger.count (.untranslated generation line) ≤ 1
  entries : ∀ generation line, .untranslated generation line ∈ m.ledger →
    generation < f.generation ∨
      generation = f.generation ∧ line.offset < m.journal.state.offset
  total : m.journal.state.discardedTotal + owed = countedTotal env.lost m.ledger

theorem Synced.now_mem {base : Moment} {m : Machine} (h : Synced base m) : m.now ∈ m.trail :=
  List.mem_of_getLast? h.latest

namespace Accurate

variable {env : PushEnv} {f : SpoolFile} {owed : ℕ} {base : Moment} {m : Machine}

/-- What the disk has passed, the journal has. -/
theorem reached (h : Accurate env f owed m) {x : Acceptance} (hx : m.now.Passed x) :
    Reached f m x := by
  have hmeasured := h.measured
  obtain hlt | ⟨heq, hoffset⟩ := hx
  · exact .inl (hlt.trans_le hmeasured)
  · obtain hlt | hsame := hmeasured.lt_or_eq
    · exact .inl (heq.trans_lt hlt)
    · exact .inr ⟨heq.trans hsame, hoffset.trans_le ((h.ahead hsame).2 _)⟩

/-- A change of the journal's state that leaves its offsets and its total alone. -/
theorem withState (h : Accurate env f owed m) {state : Checkpoint}
    (hoffset : state.offset = m.journal.state.offset)
    (hsignal : ∀ s, state.signalOffset s = m.journal.state.signalOffset s)
    (htotal : state.discardedTotal = m.journal.state.discardedTotal) :
    Accurate env f owed { m with journal := { m.journal with state := state } } := by
  refine ⟨h.moments, h.chain, h.measured, ?_, h.once, ?_, ?_⟩
  · simpa only [hoffset, hsignal] using h.ahead
  · simpa only [hoffset] using h.entries
  · simpa only [htotal] using h.total

theorem withQuarantine (h : Accurate env f owed m) (q : Quarantine) :
    Accurate env f owed (m.withQuarantine q) :=
  h.withState rfl (fun _ => rfl) rfl

theorem finished (h : Accurate env f owed m) (records : ℕ) (stalled : Bool) (now : ℕ) :
    Accurate env f owed (m.finished records stalled now) := by
  apply h.withState
  · split <;> split <;> rfl
  · intro s
    split <;> split <;> rfl
  · split <;> split <;> rfl

/-- A moment that is exact and no step back. -/
theorem chain_reach (h : Accurate env f owed m) (hsynced : Synced base m) {moment : Moment}
    (hexact : Exact env.lost moment) (hadvanced : m.now.Advanced moment) :
    (∀ moment' ∈ m.trail ++ [moment], Exact env.lost moment') ∧
      (m.trail ++ [moment]).IsChain Moment.Advanced := by
  constructor
  · intro moment' hmem
    obtain hmem | hmem := List.mem_append.mp hmem
    · exact h.moments moment' hmem
    · obtain rfl := List.mem_singleton.mp hmem
      exact hexact
  · refine h.chain.append (List.isChain_singleton _) ?_
    intro a ha b hb
    rw [hsynced.latest] at ha
    cases ha
    cases hb
    exact hadvanced

/-- A request for lines of which none stands. -/
theorem post (h : Accurate env f owed m) (hsynced : Synced base m) {signal : Signal}
    {ls : List Line}
    (hnew : ∀ line ∈ ls, (m.generation, signal, line) ∉ (standing m.now.log).held) :
    Accurate env f owed (m.post env signal ls).2 := by
  have hexact := (h.moments _ hsynced.now_mem).posted (env.answer m.asked) hnew
  obtain ⟨hmoments, hchain⟩ := h.chain_reach hsynced hexact
    (.inr ⟨rfl, le_rfl, fun _ => le_rfl⟩)
  exact ⟨hmoments, hchain, h.measured, h.ahead, h.once, h.entries, h.total⟩

/-- A record given up is in the ledger and owed. -/
theorem giveUp (h : Accurate env f owed m) (offer : Offer) (line : Line) (key : String)
    (last : ℕ) (p : Progress) : Accurate env f (owed + 1) (giveUp offer line key last p m).2 := by
  have hnoted := h.withQuarantine (m.journal.state.quarantine.forget key)
  refine ⟨hnoted.moments, hnoted.chain, hnoted.measured, hnoted.ahead, ?_, ?_, ?_⟩
  · intro generation line'
    show (m.ledger ++ [Counted.gaveUp _ offer.signal line]).count _ ≤ 1
    rw [List.count_append, List.count_singleton, if_neg (by simp), Nat.add_zero]
    exact h.once generation line'
  · intro generation line' hmem
    obtain hmem | hmem := List.mem_append.mp hmem
    · exact h.entries generation line' hmem
    · cases List.mem_singleton.mp hmem
  · show m.journal.state.discardedTotal + (owed + 1) =
      countedTotal env.lost (m.ledger ++ [Counted.gaveUp _ offer.signal line])
    rw [countedTotal_append, ← h.total]
    rfl

/-- The lines that a commit charges are from the old shared offset to the new one. -/
theorem mem_fresh (hcharged : Charged m.journal) (signal : Signal) (reached : ℕ) :
    (m.fresh signal reached).Nodup ∧ ∀ line ∈ m.fresh signal reached,
      m.journal.state.offset ≤ line.offset ∧
        line.offset < (m.journal.state.raise signal reached).offset := by
  have hbelow := Machine.below_fresh signal reached hcharged
  have hnodup : (below m.journal.lines (m.journal.state.raise signal reached).offset).Nodup := by
    refine (hcharged.ordered.sublist List.filter_sublist).imp ?_
    intro l l' hlt heq
    rw [heq] at hlt
    exact lt_irrefl _ hlt
  rw [hbelow, List.nodup_append] at hnodup
  refine ⟨hnodup.2.1, ?_⟩
  intro line hline
  have hmem : line ∈ below m.journal.lines (m.journal.state.raise signal reached).offset := by
    rw [hbelow]
    exact List.mem_append_right _ hline
  obtain ⟨hlines, hlt⟩ := List.mem_filter.mp hmem
  refine ⟨?_, by simpa using hlt⟩
  by_contra hold
  have hbefore : line ∈ below m.journal.lines m.journal.state.offset :=
    List.mem_filter.mpr ⟨hlines, by simpa using hold⟩
  exact hnodup.2.2 line hbefore line hline rfl

/-- `Journal::advance` charges what is owed, and each line that it newly covers. -/
theorem charge (h : Accurate env f owed m) (hgeneration : m.generation = f.generation)
    (hcharged : Charged m.journal) (hshared : m.journal.state.Shared) (signal : Signal)
    (reached : ℕ) : Accurate env f 0 (m.charge env signal reached owed) := by
  obtain ⟨hnodup, hfresh⟩ := mem_fresh hcharged signal reached
  have hle := Checkpoint.offset_le_raise hshared signal reached
  refine ⟨h.moments, h.chain, h.measured, ?_, ?_, ?_, ?_⟩
  · intro hsame
    obtain ⟨hoffset, hsignal⟩ := h.ahead hsame
    have hahead := Ahead.charge env hshared signal reached owed
    refine ⟨?_, fun s => (hsignal s).trans (hahead.offset s)⟩
    rw [Machine.charge_offset]
    exact hoffset.trans hle
  · intro generation line
    show (m.ledger ++ (m.fresh signal reached).map _).count _ ≤ 1
    rw [List.count_append]
    have honce := h.once generation line
    by_cases hold : Counted.untranslated generation line ∈ m.ledger
    · -- What is in the ledger starts before the old offset, what is new behind it.
      have hnew : Counted.untranslated generation line ∉
          (m.fresh signal reached).map fun l => Counted.untranslated m.generation l := by
        intro hmem
        obtain ⟨l, hl, heq⟩ := List.mem_map.mp hmem
        cases heq
        obtain hlt | ⟨-, hlt⟩ := h.entries _ _ hold
        · rw [hgeneration] at hlt
          exact lt_irrefl _ hlt
        · have := (hfresh line hl).1
          omega
      rw [List.count_eq_zero_of_not_mem hnew]
      exact honce
    · rw [List.count_eq_zero_of_not_mem hold, Nat.zero_add]
      refine List.nodup_iff_count_le_one.mp (hnodup.map ?_) _
      intro l l' heq
      cases heq
      rfl
  · intro generation line hmem
    rw [Machine.charge_offset]
    obtain hmem | hmem := List.mem_append.mp hmem
    · exact (h.entries generation line hmem).imp_right fun hold => ⟨hold.1, hold.2.trans_le hle⟩
    · obtain ⟨l, hl, heq⟩ := List.mem_map.mp hmem
      cases heq
      exact .inr ⟨hgeneration, (hfresh line hl).2⟩
  · rw [Machine.charge_discardedTotal]
    show _ = countedTotal env.lost
      (m.ledger ++ (m.fresh signal reached).map fun line => .untranslated m.generation line)
    rw [countedTotal_append, countedTotal_untranslated, ← h.total]
    omega

end Accurate

/-- The moment in which a checkpoint is stored. -/
def Machine.storing (m : Machine) (c : Checkpoint) : Moment :=
  ⟨{ m.now.disk with checkpoint := some c, ledger := m.ledger, measured := m.generation },
    m.now.log ++ [PushEvent.stored m.generation c]⟩

/-- A commit finds nothing to store, or it stores the state under the name of the file. -/
theorem Machine.commit_stores {env : PushEnv} (hok : ∀ i, env.storeOk i = true) (m : Machine)
    (inLoop : Bool) (owed : ℕ) :
    m.journal.state = m.journal.stored ∧ (m.commit env inLoop owed).2 = m ∨
    ∃ c, c = { m.journal.state with spool := m.journal.identity } ∧
      (m.commit env inLoop owed).2.now = m.storing c ∧
      (m.commit env inLoop owed).2.trail = m.trail ++ [m.storing c] ∧
      (m.commit env inLoop owed).2.ledger = m.ledger ∧
      (m.commit env inLoop owed).2.journal = { m.journal with state := c, stored := c } := by
  obtain ⟨hsame, hcommit⟩ | ⟨-, m', rfl, hcommit⟩ := Machine.commit_cases env m inLoop owed
  · rw [hcommit]
    exact .inl ⟨hsame, rfl⟩
  · rw [hcommit]
    simp only [Machine.store, hok, if_true]
    exact .inr ⟨_, rfl, rfl, rfl, rfl, rfl⟩

/-- A commit that stores. -/
theorem Accurate.commit {env : PushEnv} {f : SpoolFile} {base : Moment} {m : Machine}
    (hok : ∀ i, env.storeOk i = true) (h : Accurate env f 0 m) (hsynced : Synced base m)
    (hgeneration : m.generation = f.generation)
    (hheld : ∀ x ∈ (standing m.now.log).held, Reached f m x) (inLoop : Bool) (owed : ℕ) :
    Accurate env f 0 (m.commit env inLoop owed).2 ∧
      (m.journal.state = m.journal.stored ∧ (m.commit env inLoop owed).2 = m ∨
        (m.commit env inLoop owed).2.now.disk.measured = f.generation ∧
        (∀ s, (m.commit env inLoop owed).2.journal.state.signalOffset s =
          m.journal.state.signalOffset s) ∧
        ∀ x ∈ (standing (m.commit env inLoop owed).2.now.log).held,
          (m.commit env inLoop owed).2.now.Passed x) := by
  obtain ⟨hsame, hcommit⟩ | ⟨c, rfl, hnow, htrail, hledger, hjournal⟩ :=
    Machine.commit_stores hok m inLoop owed
  · rw [hcommit]
    exact ⟨h, .inl ⟨hsame, rfl⟩⟩
  · generalize hc : ({ m.journal.state with spool := m.journal.identity } : Checkpoint) = c at *
    have hoffset : c.offset = m.journal.state.offset := by rw [← hc]
    have hsignal : ∀ s, c.signalOffset s = m.journal.state.signalOffset s := by
      intro s
      rw [← hc]
      rfl
    have htotal : c.discardedTotal = m.journal.state.discardedTotal := by rw [← hc]
    have hpassed : ∀ x ∈ (standing m.now.log).held, (m.storing c).Passed x := by
      intro x hx
      have hx := hheld x hx
      rw [Reached, ← hgeneration, ← hsignal] at hx
      exact hx
    have hexact : Exact env.lost (m.storing c) := by
      refine ⟨htotal.trans h.total, h.once, ?_, ?_, ?_⟩
      · intro generation line hmem
        have hentry := h.entries generation line hmem
        rw [← hgeneration, ← hoffset] at hentry
        exact hentry
      · rw [Machine.storing, firm_stored]
        exact hpassed
      · exact (h.moments _ hsynced.now_mem).offered.concat nofun
    have hadvanced : m.now.Advanced (m.storing c) := by
      have hmeasured := h.measured.lt_or_eq
      rw [← hgeneration] at hmeasured
      refine hmeasured.imp_right fun hsame => ⟨hsame, ?_⟩
      obtain ⟨hle, hles⟩ := h.ahead (hsame.trans hgeneration)
      refine ⟨hle.trans hoffset.ge, fun s => (hles s).trans (hsignal s).ge⟩
    obtain ⟨hmoments, hchain⟩ := h.chain_reach hsynced hexact hadvanced
    refine ⟨⟨?_, ?_, ?_, ?_, ?_, ?_, ?_⟩, .inr ⟨?_, ?_, ?_⟩⟩
    · rw [htrail]
      exact hmoments
    · rw [htrail]
      exact hchain
    · rw [hnow]
      exact hgeneration.le
    · rw [hnow, hjournal]
      exact fun _ => ⟨le_rfl, fun _ => le_rfl⟩
    · rw [hledger]
      exact h.once
    · rw [hledger, hjournal, hoffset]
      exact h.entries
    · rw [hledger, hjournal]
      exact (congrArg (· + 0) htotal).trans h.total
    · rw [hnow]
      exact hgeneration
    · rw [hjournal]
      exact hsignal
    · rw [hnow, Machine.storing, held_stored]
      exact hpassed

end Push

end Governance
