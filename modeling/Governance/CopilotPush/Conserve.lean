import Governance.CopilotPush.Charge
import Governance.CopilotPush.Lines

/-!
# What a sweep has settled

A record is settled for a signal when the collector has accepted it, when it was counted as given
up, or when it has nothing for the signal. A checkpoint `Covers` a file when every record before
one of its offsets is settled for that signal, and every record before the shared offset is counted
with what the transform lost. A sweep keeps this of its journal, so it holds of every checkpoint
that the sweep stores (`Journaled`), whatever the collector answers and wherever the sweep ends.
-/

namespace Governance

open Utf8Text ByteLines

namespace Push

/-- The collector has the record for the signal, or it is counted, or there is none. -/
def Settled (r : Reader) (log : List PushEvent) (ledger : List Counted) (generation : ℕ)
    (signal : Signal) (line : Line) : Prop :=
  r.kind line.text = some signal →
    (∃ lines, PushEvent.posted generation signal lines .accepted ∈ log ∧ line ∈ lines) ∨
      Counted.gaveUp generation signal line ∈ ledger

theorem Settled.mono {r : Reader} {log log' : List PushEvent} {ledger ledger' : List Counted}
    {generation : ℕ} {signal : Signal} {line : Line}
    (h : Settled r log ledger generation signal line) (hlog : log ⊆ log')
    (hledger : ledger ⊆ ledger') : Settled r log' ledger' generation signal line := by
  intro hkind
  obtain ⟨lines, hposted, hline⟩ | hgave := h hkind
  · exact .inl ⟨lines, hlog hposted, hline⟩
  · exact .inr (hledger hgave)

/-- What the offsets of a checkpoint have passed in a file is settled and counted. -/
structure Covers (r : Reader) (log : List PushEvent) (ledger : List Counted) (f : SpoolFile)
    (c : Checkpoint) : Prop where
  shared : c.Shared
  boundary : ∀ signal, Boundary f.bytes (c.signalOffset signal)
  settled : ∀ signal line, IsRecord f.bytes line → line.offset < c.signalOffset signal →
    Settled r log ledger f.generation signal line
  counted : ∀ line, IsRecord f.bytes line → line.offset < c.offset →
    Counted.untranslated f.generation line ∈ ledger

namespace Covers

variable {r : Reader} {log log' : List PushEvent} {ledger ledger' : List Counted} {f : SpoolFile}
  {c c' : Checkpoint}

theorem mono (h : Covers r log ledger f c) (hlog : log ⊆ log') (hledger : ledger ⊆ ledger') :
    Covers r log' ledger' f c :=
  ⟨h.shared, h.boundary,
    fun signal line hrecord hlt => (h.settled signal line hrecord hlt).mono hlog hledger,
    fun line hrecord hlt => hledger (h.counted line hrecord hlt)⟩

/-- Only the offsets matter. -/
theorem congr (h : Covers r log ledger f c) (hoffset : c'.offset = c.offset)
    (hsignal : ∀ signal, c'.signalOffset signal = c.signalOffset signal) :
    Covers r log ledger f c' := by
  refine ⟨?_, ?_, ?_, ?_⟩
  · rw [Checkpoint.Shared, hoffset, hsignal, hsignal]
    exact h.shared
  · intro signal
    rw [hsignal]
    exact h.boundary signal
  · intro signal line hrecord hlt
    rw [hsignal] at hlt
    exact h.settled signal line hrecord hlt
  · intro line hrecord hlt
    rw [hoffset] at hlt
    exact h.counted line hrecord hlt

theorem boundary_offset (h : Covers r log ledger f c) : Boundary f.bytes c.offset := by
  rw [h.shared]
  rcases min_choice (c.signalOffset .metrics) (c.signalOffset .logs) with hmin | hmin
  · rw [hmin]
    exact h.boundary .metrics
  · rw [hmin]
    exact h.boundary .logs

/-- An append comes behind every offset. -/
theorem append (h : Covers r log ledger f c) (more : Bytes) :
    Covers r log ledger (f.append more) c := by
  refine ⟨h.shared, fun signal => (h.boundary signal).append more, ?_, ?_⟩
  · intro signal line hrecord hlt
    exact h.settled signal line (isRecord_of_append (h.boundary signal) hrecord hlt) hlt
  · intro line hrecord hlt
    exact h.counted line (isRecord_of_append h.boundary_offset hrecord hlt) hlt

/-- A checkpoint at the first byte covers every file. -/
theorem of_zero (r : Reader) (log : List PushEvent) (ledger : List Counted) (f : SpoolFile)
    (hoffset : c.offset = 0) (hsignal : ∀ signal, c.signalOffset signal = 0) :
    Covers r log ledger f c := by
  refine ⟨?_, ?_, ?_, ?_⟩
  · rw [Checkpoint.Shared, hoffset, hsignal, hsignal]
    rfl
  · intro signal
    rw [hsignal]
    exact boundary_zero _
  · intro signal line _ hlt
    rw [hsignal] at hlt
    omega
  · intro line _ hlt
    omega

end Covers

/-- What a sweep over the file `f` may leave behind: the checkpoint it found, or one that covers
the file and names it. -/
structure Kept (r : Reader) (f : SpoolFile) (base moment : Moment) : Prop where
  log : base.log ⊆ moment.log
  checkpoint : (moment.disk.checkpoint = base.disk.checkpoint ∧
      moment.disk.ledger = base.disk.ledger ∧ moment.disk.measured = base.disk.measured) ∨
    ∃ c, moment.disk.checkpoint = some c ∧ c.spool = some (.of r.digest f) ∧
      moment.disk.measured = f.generation ∧ Covers r moment.log moment.disk.ledger f c

theorem Kept.event {r : Reader} {f : SpoolFile} {base moment : Moment} (h : Kept r f base moment)
    (event : PushEvent) : Kept r f base ⟨moment.disk, moment.log ++ [event]⟩ := by
  refine ⟨fun e he => List.mem_append_left _ (h.log he), ?_⟩
  obtain hsame | ⟨c, hc, hspool, hmeasured, hcovers⟩ := h.checkpoint
  · exact .inl hsame
  · exact .inr ⟨c, hc, hspool, hmeasured,
      hcovers.mono (List.subset_append_left _ _) (List.Subset.refl _)⟩

/-- A sweep that reads the records of `f` from `first` to before `last`. -/
structure Journaled (r : Reader) (f : SpoolFile) (first last : ℕ) (base : Moment) (m : Machine) :
    Prop where
  file : m.now.disk.spool = some f
  identity : m.journal.identity = some (.of r.digest f)
  lines : ∀ line, line ∈ m.journal.lines ↔
    IsRecord f.bytes line ∧ first ≤ line.offset ∧ line.offset < last
  charged : Charged m.journal
  first_le : first ≤ m.journal.state.offset
  le_last : m.journal.state.offset ≤ last
  boundary : Boundary f.bytes last
  covers : Covers r m.now.log m.ledger f m.journal.state
  now : Kept r f base m.now
  trail : ∀ moment ∈ m.trail, Kept r f base moment

namespace Journaled

variable {env : PushEnv} {f : SpoolFile} {first last : ℕ} {base : Moment} {m : Machine}

theorem generation (h : Journaled env.toReader f first last base m) :
    m.generation = f.generation := by
  rw [Machine.generation, PushDisk.generation, h.file]
  rfl

/-- A change of the journal's state that leaves its offsets alone. -/
theorem withState (h : Journaled env.toReader f first last base m) {state : Checkpoint}
    (hoffset : state.offset = m.journal.state.offset)
    (hsignal : ∀ s, state.signalOffset s = m.journal.state.signalOffset s) :
    Journaled env.toReader f first last base
      { m with journal := { m.journal with state := state } } := by
  refine ⟨h.file, h.identity, h.lines, ⟨h.charged.ordered, ?_, ?_⟩, ?_, ?_, h.boundary,
    h.covers.congr hoffset hsignal, h.now, h.trail⟩
  · simpa only [hoffset] using h.charged.charged
  · simpa only [Checkpoint.Shared, hoffset, hsignal] using h.charged.shared
  · simpa only [hoffset] using h.first_le
  · simpa only [hoffset] using h.le_last

theorem withQuarantine (h : Journaled env.toReader f first last base m) (q : Quarantine) :
    Journaled env.toReader f first last base (m.withQuarantine q) :=
  h.withState rfl fun _ => rfl

theorem finished (h : Journaled env.toReader f first last base m) (records : ℕ) (stalled : Bool)
    (now : ℕ) : Journaled env.toReader f first last base (m.finished records stalled now) := by
  apply h.withState
  · split <;> split <;> rfl
  · intro s
    split <;> split <;> rfl

/-- A moment that was reached. -/
theorem reach (h : Journaled env.toReader f first last base m) {moment : Moment}
    (hfile : moment.disk.spool = some f) (hlog : m.now.log ⊆ moment.log)
    (hkept : Kept env.toReader f base moment) :
    Journaled env.toReader f first last base (m.reach moment) := by
  refine ⟨hfile, h.identity, h.lines, h.charged, h.first_le, h.le_last, h.boundary,
    h.covers.mono hlog (List.Subset.refl _), hkept, ?_⟩
  intro moment' hmem
  obtain hmem | hmem := List.mem_append.mp hmem
  · exact h.trail moment' hmem
  · obtain rfl := List.mem_singleton.mp hmem
    exact hkept

theorem post (h : Journaled env.toReader f first last base m) (signal : Signal)
    (ls : List Line) : Journaled env.toReader f first last base (m.post env signal ls).2 := by
  have hasked : Journaled env.toReader f first last base { m with asked := m.asked + 1 } :=
    ⟨h.file, h.identity, h.lines, h.charged, h.first_le, h.le_last, h.boundary, h.covers, h.now,
      h.trail⟩
  exact hasked.reach h.file (List.subset_append_left _ _) (h.now.event _)

/-- More is counted. -/
theorem withLedger (h : Journaled env.toReader f first last base m) {ledger : List Counted}
    (hledger : m.ledger ⊆ ledger) (given : List Line) :
    Journaled env.toReader f first last base { m with ledger := ledger, given := given } :=
  ⟨h.file, h.identity, h.lines, h.charged, h.first_le, h.le_last, h.boundary,
    h.covers.mono (List.Subset.refl _) hledger, h.now, h.trail⟩

/-- A checkpoint with the journal's offsets is stored under the name of the file. -/
theorem store (h : Journaled env.toReader f first last base m) {c : Checkpoint}
    (hspool : c.spool = some (.of env.digest f)) (hoffset : c.offset = m.journal.state.offset)
    (hsignal : ∀ s, c.signalOffset s = m.journal.state.signalOffset s) (inLoop : Bool)
    (owed through : ℕ) :
    Journaled env.toReader f first last base (m.store env c inLoop owed through).2 := by
  have hwritten : ∀ writes, Journaled env.toReader f first last base
      { m with tried := m.tried + 1, writes := writes } := fun _ =>
    ⟨h.file, h.identity, h.lines, h.charged, h.first_le, h.le_last, h.boundary, h.covers, h.now,
      h.trail⟩
  simp only [Machine.store]
  split
  · refine (hwritten _).reach h.file (List.subset_append_left _ _) ⟨?_, ?_⟩
    · exact fun e he => List.mem_append_left _ (h.now.log he)
    · refine .inr ⟨c, rfl, hspool, h.generation, ?_⟩
      exact (h.covers.congr hoffset hsignal).mono (List.subset_append_left _ _)
        (List.Subset.refl _)
  · exact hwritten _

theorem commit (h : Journaled env.toReader f first last base m) (inLoop : Bool) (owed : ℕ) :
    Journaled env.toReader f first last base (m.commit env inLoop owed).2 := by
  obtain ⟨-, hcommit⟩ | ⟨-, m', hm', hcommit⟩ := Machine.commit_cases env m inLoop owed
  · rw [hcommit]
    exact h
  · have h' : Journaled env.toReader f first last base m' := by
      rw [hm']
      exact h.withState rfl fun _ => rfl
    have hspool : m'.journal.state.spool = some (.of env.digest f) := by
      rw [hm']
      exact h.identity
    have hstored := h'.store hspool rfl (fun _ => rfl) inLoop owed m'.journal.state.offset
    have hjournal : (m'.store env m'.journal.state inLoop owed
        m'.journal.state.offset).2.journal = m'.journal := Machine.store_journal ..
    rw [hcommit]
    split
    · refine ⟨hstored.file, h'.identity, h'.lines,
        ⟨h'.charged.ordered, h'.charged.charged, h'.charged.shared⟩, h'.first_le, h'.le_last,
        h'.boundary, ?_, hstored.now, hstored.trail⟩
      have hcovers := hstored.covers
      rw [hjournal] at hcovers
      exact hcovers
    · exact hstored

end Journaled

/-! ## A pass -/

section Pass

variable {env : PushEnv} {offer : Offer} {f : SpoolFile} {first : ℕ} {base : Moment}

/-- A pass over the pending records of a signal has settled those of its resolved prefix. -/
structure Passing (env : PushEnv) (offer : Offer) (f : SpoolFile) (first : ℕ) (base : Moment)
    (from' : ℕ) (lines : List Line) (p : Progress) (m : Machine) : Prop where
  journaled : Journaled env.toReader f first offer.endOffset base m
  ordered : Ordered lines
  pending : ∀ line, line ∈ lines ↔ line ∈ m.journal.lines ∧ from' ≤ line.offset
  from_le : from' ≤ m.journal.state.signalOffset offer.signal
  first_le : first ≤ from'
  settled : ∀ i < p.resolved, ∀ line, lines[i]? = some line →
    Settled env.toReader m.now.log m.ledger f.generation offer.signal line

variable {from' : ℕ} {lines : List Line} {p : Progress} {m : Machine}

theorem lt_of_ordered (hord : Ordered lines) {i j : ℕ} {a b : Line} (hi : lines[i]? = some a)
    (hj : lines[j]? = some b) (hlt : a.offset < b.offset) : i < j := by
  by_contra hle
  obtain ⟨hi', rfl⟩ := List.getElem?_eq_some_iff.mp hi
  obtain ⟨hj', rfl⟩ := List.getElem?_eq_some_iff.mp hj
  obtain hlt' | rfl := Nat.lt_or_eq_of_le (not_lt.mp hle)
  · have hsorted := List.pairwise_iff_getElem.mp hord j i hj' hi' hlt'
    omega
  · omega

namespace Passing

/-- Where a commit moves the signal to: a boundary, before which all is settled. -/
theorem reached (h : Passing env offer f first base from' lines p m) :
    Boundary f.bytes (advancedTo lines p.resolved offer.endOffset) ∧
      advancedTo lines p.resolved offer.endOffset ≤ offer.endOffset ∧
      ∀ line, IsRecord f.bytes line →
        line.offset < advancedTo lines p.resolved offer.endOffset →
        Settled env.toReader m.now.log m.ledger f.generation offer.signal line := by
  -- A record is before where the signal started, or it is one of the pending ones.
  have hindex : ∀ line, IsRecord f.bytes line → line.offset < offer.endOffset →
      Settled env.toReader m.now.log m.ledger f.generation offer.signal line ∨
        ∃ i : ℕ, lines[i]? = some line := by
    intro line hrecord hlt
    by_cases hfrom : from' ≤ line.offset
    · have hmem : line ∈ lines := (h.pending line).mpr ⟨(h.journaled.lines line).mpr
        ⟨hrecord, h.first_le.trans hfrom, hlt⟩, hfrom⟩
      exact .inr (List.mem_iff_getElem?.mp hmem)
    · exact .inl (h.journaled.covers.settled offer.signal line hrecord
        (by have := h.from_le; omega))
  rw [advancedTo]
  cases hnext : lines[p.resolved]? with
  | none =>
    refine ⟨h.journaled.boundary, le_rfl, ?_⟩
    intro line hrecord hlt
    obtain hsettled | ⟨i, hi⟩ := hindex line hrecord hlt
    · exact hsettled
    · have hlength := (List.getElem?_eq_some_iff.mp hi).1
      have hend := List.getElem?_eq_none_iff.mp hnext
      exact h.settled i (by omega) line hi
  | some next =>
    obtain ⟨hnextMem, -⟩ := (h.pending next).mp (List.mem_of_getElem? hnext)
    obtain ⟨hnextRecord, -, hnextLt⟩ := (h.journaled.lines next).mp hnextMem
    refine ⟨Boundary.of_isRecord hnextRecord, hnextLt.le, ?_⟩
    intro line hrecord hlt
    obtain hsettled | ⟨i, hi⟩ := hindex line hrecord (hlt.trans hnextLt)
    · exact hsettled
    · exact h.settled i (lt_of_ordered h.ordered hi hnext hlt) line hi

end Passing

/-- What `Journal::advance` does to the journal, when all is settled before where it goes. -/
theorem Journaled.charge {last : ℕ} (h : Journaled env.toReader f first last base m)
    {signal : Signal} {reached : ℕ} (hboundary : Boundary f.bytes reached) (hle : reached ≤ last)
    (hsettled : ∀ line, IsRecord f.bytes line → line.offset < reached →
      Settled env.toReader m.now.log m.ledger f.generation signal line) (refused : ℕ) :
    Journaled env.toReader f first last base (m.charge env signal reached refused) := by
  have hledger : m.ledger ⊆ (m.charge env signal reached refused).ledger :=
    List.subset_append_left _ _
  have hshared := h.covers.shared
  have hoffset : (m.charge env signal reached refused).journal.state.offset ≤ last := by
    rw [Machine.charge_offset]
    by_cases hlt : reached > m.journal.state.signalOffset signal
    · rw [Checkpoint.raise, if_pos hlt]
      have hself := (Checkpoint.shared_advance m.journal.state signal reached).le signal
      rw [Checkpoint.signalOffset_advance_self] at hself
      exact hself.trans hle
    · rw [Checkpoint.raise, if_neg hlt]
      exact h.le_last
  refine ⟨h.file, h.identity, h.lines, Machine.charge_charged signal reached refused h.charged,
    ?_, hoffset, h.boundary, ⟨?_, ?_, ?_, ?_⟩, h.now, h.trail⟩
  · rw [Machine.charge_offset]
    exact h.first_le.trans (Checkpoint.offset_le_raise hshared signal reached)
  · have hraised := hshared.raise signal reached
    rw [Checkpoint.Shared, Machine.charge_offset, Machine.charge_signalOffset,
      Machine.charge_signalOffset]
    exact hraised
  · intro s
    rw [Machine.charge_signalOffset]
    by_cases hs : s = signal
    · rw [hs, Checkpoint.signalOffset_raise_self]
      rcases max_choice reached (m.journal.state.signalOffset signal) with hmax | hmax
      · rw [hmax]
        exact hboundary
      · rw [hmax]
        exact h.covers.boundary signal
    · rw [Checkpoint.signalOffset_raise_of_ne hshared hs]
      exact h.covers.boundary s
  · intro s line hrecord hlt
    rw [Machine.charge_signalOffset] at hlt
    by_cases hs : s = signal
    · rw [hs, Checkpoint.signalOffset_raise_self, lt_max_iff] at hlt
      rw [hs]
      rcases hlt with hlt | hlt
      · exact (hsettled line hrecord hlt).mono (List.Subset.refl _) hledger
      · exact (h.covers.settled signal line hrecord hlt).mono (List.Subset.refl _) hledger
    · rw [Checkpoint.signalOffset_raise_of_ne hshared hs] at hlt
      exact (h.covers.settled s line hrecord hlt).mono (List.Subset.refl _) hledger
  · intro line hrecord hlt
    by_cases hold : line.offset < m.journal.state.offset
    · exact hledger (h.covers.counted line hrecord hold)
    · -- The shared offset has newly covered the record, so it is charged now.
      have hmem : line ∈ m.journal.lines :=
        (h.lines line).mpr ⟨hrecord, h.first_le.trans (not_lt.mp hold), hlt.trans_le hoffset⟩
      rw [Machine.charge_offset] at hlt
      have hbelow : line ∈ below m.journal.lines (m.journal.state.raise signal reached).offset := by
        rw [below, List.mem_filter]
        exact ⟨hmem, by simpa using hlt⟩
      rw [Machine.below_fresh signal reached h.charged, List.mem_append] at hbelow
      have hfresh : line ∈ m.fresh signal reached := by
        refine hbelow.resolve_left ?_
        rw [below, List.mem_filter]
        exact fun hmem => hold (by simpa using hmem.2)
      refine List.mem_append_right _ (List.mem_map.mpr ⟨line, hfresh, ?_⟩)
      rw [h.generation]

/-- A machine that has gone on: the lines stay, and the offsets, the log and the ledger grow. -/
structure Ahead (m m' : Machine) : Prop where
  lines : m'.journal.lines = m.journal.lines
  offset : ∀ s, m.journal.state.signalOffset s ≤ m'.journal.state.signalOffset s
  log : m.now.log ⊆ m'.now.log
  ledger : m.ledger ⊆ m'.ledger

namespace Ahead

theorem refl (m : Machine) : Ahead m m :=
  ⟨rfl, fun _ => le_rfl, List.Subset.refl _, List.Subset.refl _⟩

theorem trans {m m' m'' : Machine} (h : Ahead m m') (h' : Ahead m' m'') : Ahead m m'' :=
  ⟨h'.lines.trans h.lines, fun s => (h.offset s).trans (h'.offset s),
    List.Subset.trans h.log h'.log, List.Subset.trans h.ledger h'.ledger⟩

theorem post (env : PushEnv) (m : Machine) (signal : Signal) (ls : List Line) :
    Ahead m (m.post env signal ls).2 :=
  ⟨rfl, fun _ => le_rfl, List.subset_append_left _ _, List.Subset.refl _⟩

theorem charge (env : PushEnv) {m : Machine} (h : m.journal.state.Shared) (signal : Signal)
    (reached refused : ℕ) : Ahead m (m.charge env signal reached refused) := by
  refine ⟨rfl, ?_, List.Subset.refl _, List.subset_append_left _ _⟩
  intro s
  rw [Machine.charge_signalOffset]
  by_cases hs : s = signal
  · rw [hs, Checkpoint.signalOffset_raise_self]
    exact le_max_right _ _
  · rw [Checkpoint.signalOffset_raise_of_ne h hs]

theorem store (env : PushEnv) (m : Machine) (c : Checkpoint) (inLoop : Bool) (owed through : ℕ) :
    Ahead m (m.store env c inLoop owed through).2 := by
  simp only [Machine.store]
  split
  · exact ⟨rfl, fun _ => le_rfl, List.subset_append_left _ _, List.Subset.refl _⟩
  · exact ⟨rfl, fun _ => le_rfl, List.Subset.refl _, List.Subset.refl _⟩

theorem commit (env : PushEnv) (m : Machine) (inLoop : Bool) (owed : ℕ) :
    Ahead m (m.commit env inLoop owed).2 := by
  obtain ⟨-, hcommit⟩ | ⟨-, m', hm', hcommit⟩ := Machine.commit_cases env m inLoop owed
  · rw [hcommit]
    exact refl m
  · have hnamed : Ahead m m' := by
      rw [hm']
      exact ⟨rfl, fun _ => le_rfl, List.Subset.refl _, List.Subset.refl _⟩
    have hstored := store env m' m'.journal.state inLoop owed m'.journal.state.offset
    rw [hcommit]
    refine hnamed.trans ?_
    split
    · exact ⟨rfl, fun _ => le_rfl, hstored.log, hstored.ledger⟩
    · exact hstored

end Ahead

namespace Passing

/-- A pass whose machine goes on. -/
theorem ahead (h : Passing env offer f first base from' lines p m) {m' : Machine}
    (hahead : Ahead m m') (hjournaled : Journaled env.toReader f first offer.endOffset base m') :
    Passing env offer f first base from' lines p m' := by
  refine ⟨hjournaled, h.ordered, ?_, h.from_le.trans (hahead.offset _), h.first_le, ?_⟩
  · rw [hahead.lines]
    exact h.pending
  · intro i hi line hline
    exact (h.settled i hi line hline).mono hahead.log hahead.ledger

/-- More of the prefix is settled. -/
theorem resolve (h : Passing env offer f first base from' lines p m) {p' : Progress}
    (hsettled : ∀ i, p.resolved ≤ i → i < p'.resolved → ∀ line, lines[i]? = some line →
      Settled env.toReader m.now.log m.ledger f.generation offer.signal line) :
    Passing env offer f first base from' lines p' m := by
  refine ⟨h.journaled, h.ordered, h.pending, h.from_le, h.first_le, ?_⟩
  intro i hi line hline
  by_cases hold : i < p.resolved
  · exact h.settled i hold line hline
  · exact hsettled i (not_lt.mp hold) hi line hline

theorem advance (h : Passing env offer f first base from' lines p m) (refused : ℕ)
    (inLoop : Bool) : Passing env offer f first base from' lines p
      (m.advance env offer.signal (advancedTo lines p.resolved offer.endOffset) refused
        inLoop).2 := by
  obtain ⟨hboundary, hle, hsettled⟩ := h.reached
  have hcharged := h.journaled.charge hboundary hle hsettled refused
  have hahead : Ahead m (m.charge env offer.signal
      (advancedTo lines p.resolved offer.endOffset) refused) :=
    .charge env h.journaled.covers.shared offer.signal _ refused
  exact h.ahead (hahead.trans (.commit env _ inLoop refused)) (hcharged.commit inLoop refused)

theorem commit (h : Passing env offer f first base from' lines p m) (inLoop : Bool) :
    Passing env offer f first base from' lines (Push.commit env offer lines inLoop p m).2.1
      (Push.commit env offer lines inLoop p m).2.2 := by
  have hadvance := h.advance (p.discarded - p.committedDiscards) inLoop
  simp only [Push.commit]
  split
  · exact h
  · refine hadvance.resolve ?_
    intro i hle hlt
    split at hlt
    · exact absurd hlt (not_lt.mpr hle)
    · exact absurd hlt (not_lt.mpr hle)

theorem mem_slice {i last : ℕ} {line : Line} (hle : p.resolved ≤ i) (hlt : i < last)
    (hline : lines[i]? = some line) : line ∈ slice lines p.resolved last := by
  rw [slice]
  refine List.mem_of_getElem? (i := i - p.resolved) ?_
  rw [List.getElem?_take_of_lt (by omega), List.getElem?_drop, Nat.add_sub_cancel' hle]
  exact hline

/-- Records that the collector accepts are settled. -/
theorem accept (h : Passing env offer f first base from' lines p m) {ls : List Line}
    (hanswer : (m.post env offer.signal ls).1 = .accepted) {line : Line} (hline : line ∈ ls) :
    Settled env.toReader (m.post env offer.signal ls).2.now.log
      (m.post env offer.signal ls).2.ledger f.generation offer.signal line := by
  intro _
  refine .inl ⟨ls, List.mem_append_right _ ?_, hline⟩
  rw [← h.journaled.generation, ← hanswer]
  exact List.mem_singleton_self _

/-- A record that is given up is counted, and what is behind it up to the probe has nothing for
the signal. -/
theorem giveUp (h : Passing env offer f first base from' lines p m) {line : Line}
    (hline : lines[p.resolved]? = some line) (key : String) {last : ℕ}
    (hsettled : ∀ i, p.resolved + 1 ≤ i → i < last → ∀ line, lines[i]? = some line →
      Settled env.toReader m.now.log m.ledger f.generation offer.signal line) :
    Passing env offer f first base from' lines (giveUp offer line key last p m).1
      (giveUp offer line key last p m).2 := by
  have hnoted := h.journaled.withQuarantine (m.journal.state.quarantine.forget key)
  have hcounted : Journaled env.toReader f first offer.endOffset base
      (Push.giveUp offer line key last p m).2 :=
    hnoted.withLedger (List.subset_append_left _ _) _
  have hahead : Ahead m (Push.giveUp offer line key last p m).2 :=
    ⟨rfl, fun _ => le_rfl, List.Subset.refl _, List.subset_append_left _ _⟩
  refine (h.ahead hahead hcounted).resolve ?_
  intro i hle hlt line' hline'
  obtain rfl | hlt' := Nat.eq_or_lt_of_le hle
  · cases hline.symm.trans hline'
    intro _
    refine .inr (List.mem_append_right _ ?_)
    rw [← h.journaled.generation]
    exact List.mem_singleton_self _
  · exact (hsettled i hlt' hlt line' hline').mono hahead.log hahead.ledger

/-- Every step of a pass keeps what it has settled. -/
theorem step {a b : Progress × Machine} (h : Passing env offer f first base from' lines a.1 a.2)
    (hstep : PassStep env offer lines a b) :
    Passing env offer f first base from' lines b.1 b.2 := by
  cases hstep with
  | committed p m => exact h.commit true
  | tallied m keeps =>
    refine h.resolve ?_
    intro i hle hlt
    rw [keeps.resolved] at hlt
    exact absurd hlt (not_lt.mpr hle)
  | noted p m q =>
    exact h.ahead ⟨rfl, fun _ => le_rfl, List.Subset.refl _, List.Subset.refl _⟩
      (h.journaled.withQuarantine q)
  | nothing m lt le none =>
    refine h.resolve ?_
    intro i hle hlt line hline hkind
    exact absurd hkind (none line (mem_slice hle hlt hline))
  | declined p m => exact h.ahead (.post env m _ _) (h.journaled.post _ _)
  | @accepted p m last lt le answer =>
    refine (h.ahead (.post env m _ _) (h.journaled.post _ _)).resolve ?_
    intro i hle hlt line hline
    exact h.accept answer (mem_slice hle hlt hline)
  | gaveUp m key getLine =>
    refine h.giveUp getLine key ?_
    intro i hle hlt
    exact absurd hlt (not_lt.mpr hle)
  | @jumped p m line key next ahead getLine kind lt getAhead none answer =>
    have hposted := h.ahead (.post env m offer.signal [ahead]) (h.journaled.post _ _)
    refine hposted.giveUp getLine key ?_
    intro i hle hlt line' hline'
    obtain rfl | hlt' := Nat.eq_or_lt_of_le (Nat.le_of_lt_succ hlt)
    · cases getAhead.symm.trans hline'
      exact h.accept answer (List.mem_singleton_self _)
    · have hmem : line' ∈ slice lines (p.resolved + 1) next :=
        mem_slice (p := { p with resolved := p.resolved + 1 }) hle hlt' hline'
      exact fun hkind => absurd hkind (none line' hmem)

theorem steps {a b : Progress × Machine} (h : Passing env offer f first base from' lines a.1 a.2)
    (hsteps : Relation.ReflTransGen (PassStep env offer lines) a b) :
    Passing env offer f first base from' lines b.1 b.2 := by
  induction hsteps with
  | refl => exact h
  | tail _ hstep ih => exact ih.step hstep

end Passing

/-- A pass over one signal. -/
theorem Journaled.offerSignal {last : ℕ} (h : Journaled env.toReader f first last base m)
    (signal : Signal) :
    Journaled env.toReader f first last base (offerSignal env signal last m).2 := by
  have hstart : Passing env ⟨signal, env.now, last⟩ f first base
      (m.journal.state.signalOffset signal) (pendingFor m.journal.state signal m.journal.lines)
      .default m := by
    refine ⟨h, h.charged.ordered.sublist List.filter_sublist, ?_, le_rfl, ?_, nofun⟩
    · intro line
      rw [pendingFor, List.mem_filter, decide_eq_true_iff]
    · exact h.first_le.trans (h.covers.shared.le signal)
  have hpass := hstart.steps (exported_steps env ⟨signal, env.now, last⟩ _ m)
  rw [Push.offerSignal, exportSignal_machine]
  exact (hpass.commit false).journaled

theorem Journaled.both {last : ℕ} (h : Journaled env.toReader f first last base m) :
    Journaled env.toReader f first last base (both env last m).2 := by
  rw [both_machine]
  exact ((h.withQuarantine _).offerSignal .metrics).offerSignal .logs

end Pass

end Push

end Governance
