import Governance.CopilotPush.Rotation
import Governance.Spool.Layout

/-!
# Blank lines in a spool

`drain` drops blank lines and moves past them: drain after drain returns every record once, up to
the end of a file whose lines fit into a window. `sweep::once` and `DurableSpool::next` take a drain
without lines for the end of the file. So they stay where they are when the window holds nothing but
blank lines, whatever stands behind it.
-/

namespace Governance

open Utf8Text ByteLines

/-! ## Drain after drain -/

/-- A drain of the file its offset was measured against. -/
theorem records_of_drain {digest : Bytes → String} {f : SpoolFile} {offset : ℕ}
    {known : Option Identity} {d : Drain} (read : drain digest (some f) offset known = .ok d)
    (same : d.restarted = none) (hboundary : Boundary f.bytes offset) :
    Boundary f.bytes d.nextOffset ∧ offset ≤ d.nextOffset ∧
      ∀ line, line ∈ d.lines ↔
        IsRecord f.bytes line ∧ offset ≤ line.offset ∧ line.offset < d.nextOffset := by
  have hfirst : d.first offset = offset := by
    rw [Drain.first, same]
    rfl
  have hrecords := (drain_some read).records
  rw [hfirst] at hrecords
  exact hrecords hboundary

/-- The lines of drains of one file, each from where the last one stopped, while others append to
the file. -/
inductive Tailed (digest : Bytes → String) (f₀ : SpoolFile) (offset₀ : ℕ) :
    List Line → SpoolFile → ℕ → Prop where
  | start : Tailed digest f₀ offset₀ [] f₀ offset₀
  | append {lines : List Line} {f : SpoolFile} {offset : ℕ} (more : Bytes)
      (before : Tailed digest f₀ offset₀ lines f offset) :
      Tailed digest f₀ offset₀ lines (f.append more) offset
  | drain {lines : List Line} {f : SpoolFile} {offset : ℕ} {known : Option Identity} {d : Drain}
      (before : Tailed digest f₀ offset₀ lines f offset)
      (read : drain digest (some f) offset known = .ok d) (same : d.restarted = none) :
      Tailed digest f₀ offset₀ (lines ++ d.lines) f d.nextOffset

/-- What has been drained are the records between the first offset and the last, which is behind a
line feed. -/
theorem Tailed.records {digest : Bytes → String} {f₀ f : SpoolFile} {offset₀ offset : ℕ}
    {lines : List Line} (h : Tailed digest f₀ offset₀ lines f offset)
    (hstart : Boundary f₀.bytes offset₀) :
    Boundary f.bytes offset ∧ offset₀ ≤ offset ∧ Ordered lines ∧
      ∀ line, line ∈ lines ↔
        IsRecord f.bytes line ∧ offset₀ ≤ line.offset ∧ line.offset < offset := by
  induction h with
  | start =>
    refine ⟨hstart, le_rfl, .nil, ?_⟩
    intro line
    constructor
    · exact fun hmem => absurd hmem List.not_mem_nil
    · rintro ⟨-, hle, hlt⟩
      omega
  | append more _ ih =>
    obtain ⟨hboundary, hle, hordered, hlines⟩ := ih
    refine ⟨hboundary.append more, hle, hordered, ?_⟩
    intro line
    rw [hlines]
    constructor
    · rintro ⟨hrecord, hfirst, hlt⟩
      exact ⟨hrecord.append more, hfirst, hlt⟩
    · rintro ⟨hrecord, hfirst, hlt⟩
      exact ⟨isRecord_of_append hboundary hrecord hlt, hfirst, hlt⟩
  | @drain lines f offset known d _ read same ih =>
    obtain ⟨hboundary, hle, hordered, hlines⟩ := ih
    obtain ⟨hnext, hnextLe, hrecords⟩ := records_of_drain read same hboundary
    refine ⟨hnext, hle.trans hnextLe, ?_, ?_⟩
    · refine List.pairwise_append.2 ⟨hordered, (drain_ordered read).1, ?_⟩
      intro l hl l' hl'
      exact ((hlines l).1 hl).2.2.trans_le ((hrecords l').1 hl').2.1
    · intro line
      rw [List.mem_append, hlines, hrecords]
      constructor
      · rintro (⟨hrecord, hle', hlt⟩ | ⟨hrecord, hle', hlt⟩)
        · exact ⟨hrecord, hle', hlt.trans_le hnextLe⟩
        · exact ⟨hrecord, hle.trans hle', hlt⟩
      · rintro ⟨hrecord, hle', hlt⟩
        rcases lt_or_ge line.offset offset with hbefore | hbehind
        · exact .inl ⟨hrecord, hle', hbefore⟩
        · exact .inr ⟨hrecord, hbehind, hlt⟩

/-! ## A window that a line ends in -/

/-- An offset into the file it was measured against, with a whole line behind it, in a file whose
lines are all shorter than a window. -/
structure LinesAhead (digest : Bytes → String) (f : SpoolFile) (known : Option Identity)
    (offset : ℕ) : Prop where
  names : Names digest known (some f)
  boundary : Boundary f.bytes offset
  short : ShortRuns maxRead f.bytes
  follows : lineFeed ∈ f.bytes.drop offset

/-- The window at the offset holds a whole line that is not blank. -/
def RecordInWindow (bytes : Bytes) (offset : ℕ) : Prop :=
  ∃ line, IsRecord (bytes.take (offset + maxRead)) line ∧ offset ≤ line.offset

theorem le_lastLineFeed {x y : Bytes} {last : ℕ} (h : lastLineFeed (x ++ lineFeed :: y) = some last) :
    x.length ≤ last := by
  induction x generalizing last with
  | nil => exact Nat.zero_le _
  | cons b x ih =>
    have hmem : lineFeed ∈ x ++ lineFeed :: y := List.mem_append_right x List.mem_cons_self
    obtain ⟨i, hi⟩ := Option.ne_none_iff_exists'.1 (lastLineFeed_ne_none hmem)
    rw [List.cons_append, lastLineFeed_cons_of_some hi] at h
    have hle := ih hi
    rw [List.length_cons]
    have hlast := Option.some.inj h
    omega

/-- A drain there moves on, and it has lines when the window holds one that is not blank. -/
theorem LinesAhead.drained {digest : Bytes → String} {f : SpoolFile} {known : Option Identity}
    {offset : ℕ} (h : LinesAhead digest f known offset) :
    ∃ d, drain digest (some f) offset known = .ok d ∧ d.restarted = none ∧
      offset < d.nextOffset ∧ (d.lines ≠ [] ↔ RecordInWindow f.bytes offset) := by
  obtain ⟨hnames, hboundary, hshort, hfollows⟩ := h
  have hrestart := restart_of_names hnames hboundary.1
  have hfeed : lastLineFeed ((f.bytes.drop offset).take maxRead) ≠ none := by
    by_cases hfull : maxRead ≤ ((f.bytes.drop offset).take maxRead).length
    · exact hshort.lastLineFeed_isSome offset hfull
    · rw [List.length_take] at hfull
      rw [List.take_of_length_le (by omega)]
      exact lastLineFeed_ne_none hfollows
  obtain ⟨last, hlast⟩ := Option.ne_none_iff_exists'.1 hfeed
  have hinside : last < maxRead := by
    have hlt := (List.getElem?_eq_some_iff.1 (getElem?_lastLineFeed hlast)).1
    rw [List.length_take] at hlt
    omega
  obtain ⟨d, hread, hd⟩ : ∃ d, drain digest (some f) offset known = .ok d ∧
      d.restarted = none ∧ d.nextOffset = offset + last + 1 := by
    simp only [drain, hrestart, Option.isSome_none, Bool.false_eq_true, if_false, hlast]
    exact ⟨_, rfl, rfl, rfl⟩
  obtain ⟨hsame, hnext⟩ := hd
  obtain ⟨hnextBoundary, -, hrecords⟩ := records_of_drain hread hsame hboundary
  refine ⟨d, hread, hsame, by omega, ?_⟩
  have hsplit := List.take_append_drop (offset + maxRead) f.bytes
  constructor
  · intro hne
    obtain ⟨line, hline⟩ := List.exists_mem_of_ne_nil _ hne
    obtain ⟨hrecord, hle, hlt⟩ := (hrecords line).1 hline
    have hwindow : Boundary (f.bytes.take (offset + maxRead)) d.nextOffset := by
      have hlength := hnextBoundary.1
      refine ⟨?_, ?_⟩
      · rw [List.length_take]
        omega
      · rw [List.take_take, min_eq_left (by omega)]
        exact hnextBoundary.2
    rw [← hsplit] at hrecord
    exact ⟨line, isRecord_of_append hwindow hrecord hlt, hle⟩
  · rintro ⟨line, hrecord, hle⟩
    refine List.ne_nil_of_mem ((hrecords line).2 ⟨?_, hle, ?_⟩)
    · rw [← hsplit]
      exact hrecord.append _
    · -- the line ends in the window, so before its last line feed
      obtain ⟨a, w, b, hbytes, -, -, rfl, -⟩ := hrecord
      have hdrop : (f.bytes.drop offset).take maxRead =
          (a.drop offset ++ w) ++ lineFeed :: b := by
        have htake : (f.bytes.drop offset).take maxRead =
            (f.bytes.take (offset + maxRead)).drop offset := by
          rw [List.drop_take, Nat.add_sub_cancel_left]
        rw [htake, hbytes, List.drop_append_of_le_length hle, List.append_assoc]
      rw [hdrop] at hlast
      have hend := le_lastLineFeed hlast
      rw [List.length_append, List.length_drop] at hend
      dsimp only at hle ⊢
      omega

/-- What is appended to a file does not change a full window. -/
theorem recordInWindow_append {bytes : Bytes} {offset : ℕ} (more : Bytes)
    (hfull : offset + maxRead ≤ bytes.length) :
    RecordInWindow (bytes ++ more) offset ↔ RecordInWindow bytes offset := by
  rw [RecordInWindow, RecordInWindow, List.take_append_of_le_length hfull]

/-- Drain after drain returns every record of a file whose lines fit into a window. -/
theorem Tailed.exhausts {digest : Bytes → String} {f₀ f : SpoolFile} {offset₀ offset : ℕ}
    {lines : List Line} (h : Tailed digest f₀ offset₀ lines f offset)
    (hstart : Boundary f₀.bytes offset₀) (hshort : ShortRuns maxRead f.bytes) :
    ∃ lines' offset', Tailed digest f₀ offset₀ lines' f offset' ∧ lineFeed ∉ f.bytes.drop offset' := by
  induction hn : f.bytes.length - offset using Nat.strong_induction_on generalizing lines offset with
  | _ n ih =>
    obtain ⟨hboundary, -⟩ := h.records hstart
    by_cases hfollows : lineFeed ∈ f.bytes.drop offset
    · have hahead : LinesAhead digest f (some (.of digest f)) offset :=
        ⟨names_of digest (some f), hboundary, hshort, hfollows⟩
      obtain ⟨d, hread, hsame, hlt, -⟩ := hahead.drained
      have hmore := h.drain hread hsame
      have hle := (hmore.records hstart).1.1
      exact ih _ (by omega) hmore rfl
    · exact ⟨lines, offset, h, hfollows⟩

/-! ## The sweep -/

namespace Push

/-- A collector that takes everything, and a disk that stores everything. -/
structure Accepting (env : PushEnv) : Prop where
  answer : ∀ i, env.answer i = .accepted
  storeOk : ∀ i, env.storeOk i = true

/-- A machine whose offsets have not fallen. -/
structure Climbed (m m' : Machine) : Prop where
  shared : m'.journal.state.Shared
  offset : ∀ s, m.journal.state.signalOffset s ≤ m'.journal.state.signalOffset s

theorem Climbed.trans {m m' m'' : Machine} (h : Climbed m m') (h' : Climbed m' m'') :
    Climbed m m'' :=
  ⟨h'.shared, fun s => (h.offset s).trans (h'.offset s)⟩

theorem Climbed.offset_le {m m' : Machine} (h : Climbed m m') (hshared : m.journal.state.Shared) :
    m.journal.state.offset ≤ m'.journal.state.offset := by
  rw [h.shared]
  exact le_min ((hshared.le .metrics).trans (h.offset .metrics))
    ((hshared.le .logs).trans (h.offset .logs))

/-- A commit of the machine leaves the offsets alone. -/
theorem climbed_commit (env : PushEnv) {m : Machine} (hshared : m.journal.state.Shared)
    (inLoop : Bool) (owed : ℕ) : Climbed m (m.commit env inLoop owed).2 := by
  have hstate : ∃ spool, (m.commit env inLoop owed).2.journal.state =
      { m.journal.state with spool := spool } := by
    obtain ⟨-, hcommit⟩ | ⟨-, m', rfl, hcommit⟩ := Machine.commit_cases env m inLoop owed
    · rw [hcommit]
      exact ⟨m.journal.state.spool, rfl⟩
    · rw [hcommit]
      refine ⟨m.journal.identity, ?_⟩
      simp only
      split
      · rfl
      · rw [Machine.store_journal]
  obtain ⟨spool, hstate⟩ := hstate
  constructor
  · rw [hstate]
    exact hshared
  · intro s
    rw [hstate]
    exact le_rfl

section Pass

variable {env : PushEnv} {m : Machine} (offer : Offer) (lines : List Line)

/-- A commit of a pass that stores moves the signal's offset to where the pass has got. -/
theorem commit_climbs (hacc : Accepting env) (hshared : m.journal.state.Shared) (inLoop : Bool)
    {p : Progress} : ∃ p' m', commit env offer lines inLoop p m = (true, p', m') ∧ Climbed m m' ∧
      p'.resolved = p.resolved ∧ p'.requests = p.requests ∧ p'.committed = some p.resolved ∧
      (p.committed ≠ some p.resolved →
        advancedTo lines p.resolved offer.endOffset ≤ m'.journal.state.signalOffset offer.signal) := by
  by_cases hdone : p.committed = some p.resolved
  · refine ⟨p, m, ?_, ⟨hshared, fun _ => le_rfl⟩, rfl, rfl, hdone, fun hne => absurd hdone hne⟩
    rw [commit, if_pos hdone]
  · generalize hreached : advancedTo lines p.resolved offer.endOffset = reached
    generalize hrefused : p.discarded - p.committedDiscards = refused
    have hok : (m.advance env offer.signal reached refused inLoop).1 = true :=
      Machine.commit_ok hacc.storeOk _ inLoop refused
    have hcharged : Climbed m (m.charge env offer.signal reached refused) := by
      refine ⟨?_, (Ahead.charge env hshared offer.signal reached refused).offset⟩
      rw [Checkpoint.Shared, Machine.charge_offset, Machine.charge_signalOffset,
        Machine.charge_signalOffset]
      exact hshared.raise offer.signal reached
    have hcommit : Climbed (m.charge env offer.signal reached refused)
        (m.advance env offer.signal reached refused inLoop).2 :=
      climbed_commit env hcharged.shared inLoop refused
    refine ⟨{ p with committed := some p.resolved, committedDiscards := p.discarded },
      (m.advance env offer.signal reached refused inLoop).2, ?_, hcharged.trans hcommit, rfl, rfl,
      rfl, fun _ => ?_⟩
    · rw [commit, if_neg hdone]
      simp only [hreached, hrefused, hok, if_true]
    · refine le_trans ?_ (hcommit.offset offer.signal)
      rw [Machine.charge_signalOffset, Checkpoint.signalOffset_raise_self]
      exact le_max_left _ _

theorem exportLoop_nil (fuel : ℕ) (p : Progress) (m : Machine) :
    exportLoop env offer lines fuel [] p m = (p, m) := by
  cases fuel <;> rfl

/-- A collector that accepts the whole batch is offered nothing else. -/
theorem exported_accepting (hacc : Accepting env) (hshared : m.journal.state.Shared) :
    ∃ p m', exported env offer lines m = (p, m') ∧ Climbed m m' ∧ p.resolved = lines.length ∧
      (p.committed = some lines.length →
        offer.endOffset ≤ m'.journal.state.signalOffset offer.signal) := by
  obtain ⟨p, m₁, hcommit, hclimbed, hresolved, hrequests, hcommitted, hreached⟩ :=
    commit_climbs offer lines hacc hshared true (p := .default)
  have hresolved : p.resolved = 0 := hresolved
  have hrequests : ¬ p.requests ≥ maxRequests := by
    rw [hrequests]
    decide
  have hcommitted : p.committed = some 0 := hcommitted
  rw [exported, exportLoop, hcommit]
  simp only [hresolved, max_self]
  by_cases hempty : lines.length = 0
  · rw [if_pos (by omega), exportLoop_nil]
    refine ⟨p, m₁, rfl, hclimbed, hresolved.trans hempty.symm, fun _ => ?_⟩
    have hend : advancedTo lines 0 offer.endOffset = offer.endOffset := by
      rw [advancedTo, List.getElem?_eq_none (by omega)]
      rfl
    rw [← hend]
    exact hreached (by decide)
  · have hnot : some 0 ≠ some lines.length := by
      intro heq
      exact hempty (Option.some.inj heq).symm
    rw [if_neg (by omega), if_neg hrequests, if_neg (lt_irrefl _)]
    cases build env.toReader ((lines.drop 0).take (lines.length - 0)) offer.signal with
    | none =>
      simp only [exportLoop_nil]
      exact ⟨_, _, rfl, hclimbed, rfl, fun h => absurd (hcommitted.symm.trans h) hnot⟩
    | some records =>
      simp only [Machine.post, hacc.answer, exportLoop_nil]
      exact ⟨_, _, rfl, ⟨hclimbed.shared, hclimbed.offset⟩, rfl,
        fun h => absurd (hcommitted.symm.trans h) hnot⟩

end Pass

/-- A pass over a signal that is accepted moves its offset to the end of what was read. -/
theorem offerSignal_accepting {env : PushEnv} {m : Machine} (hacc : Accepting env)
    (hshared : m.journal.state.Shared) (signal : Signal) (endOffset : ℕ) :
    Climbed m (offerSignal env signal endOffset m).2 ∧
      endOffset ≤ (offerSignal env signal endOffset m).2.journal.state.signalOffset signal := by
  rw [offerSignal, exportSignal_machine]
  generalize pendingFor m.journal.state signal m.journal.lines = lines
  obtain ⟨p, m₁, hexported, hclimbed, hresolved, hend⟩ :=
    exported_accepting ⟨signal, env.now, endOffset⟩ lines hacc hshared
  obtain ⟨p', m₂, hcommit, hclimbed', -, -, -, hreached⟩ :=
    commit_climbs ⟨signal, env.now, endOffset⟩ lines hacc hclimbed.shared false (p := p)
  rw [hexported, hcommit]
  refine ⟨hclimbed.trans hclimbed', ?_⟩
  by_cases hdone : p.committed = some p.resolved
  · exact (hend (hresolved ▸ hdone)).trans (hclimbed'.offset signal)
  · have hlast : advancedTo lines p.resolved endOffset = endOffset := by
      rw [advancedTo, hresolved, List.getElem?_eq_none le_rfl]
      rfl
    have hle := hreached hdone
    rwa [hlast] at hle

theorem both_accepting {env : PushEnv} {m : Machine} (hacc : Accepting env)
    (hshared : m.journal.state.Shared) (endOffset : ℕ) :
    (both env endOffset m).2.journal.state.Shared ∧
      endOffset ≤ (both env endOffset m).2.journal.state.offset := by
  rw [both_machine]
  have hpruned : (m.withQuarantine (m.journal.state.quarantine.prune env.now)).journal.state.Shared :=
    hshared
  obtain ⟨hmetrics, hmetricsEnd⟩ := offerSignal_accepting hacc hpruned .metrics endOffset
  obtain ⟨hlogs, hlogsEnd⟩ := offerSignal_accepting hacc hmetrics.shared .logs endOffset
  refine ⟨hlogs.shared, ?_⟩
  rw [hlogs.shared]
  exact le_min (hmetricsEnd.trans (hlogs.offset .metrics)) hlogsEnd

theorem climbed_finished {m : Machine} (hshared : m.journal.state.Shared) (records : ℕ)
    (stalled : Bool) (now : ℕ) : Climbed m (m.finished records stalled now) := by
  constructor
  · simp only [Machine.finished]
    split <;> split <;> exact hshared
  · intro s
    simp only [Machine.finished]
    split <;> split <;> exact le_rfl

/-- A reclaim leaves everything as it is, or it leaves an empty file. -/
theorem reclaim_cases (env : PushEnv) (m : Machine) :
    reclaim env m = m ∨ ∃ f, (reclaim env m).now.disk.spool = some f ∧ f.bytes = [] := by
  simp only [reclaim]
  split
  · exact .inl rfl
  · split
    · exact .inl rfl
    · split
      · exact .inl rfl
      · refine .inr ?_
        simp only [Machine.store]
        split <;> exact ⟨_, rfl, rfl⟩

section Sweep

variable {env : PushEnv} {moment : Moment} {f : SpoolFile} {c : Checkpoint}

/-- A sweep that reads nothing but blank lines changes nothing. -/
theorem sweep_stays (hfile : moment.disk.spool = some f)
    (hc : moment.disk.checkpoint.getD .default = c)
    (hahead : LinesAhead env.digest f c.spool c.offset) (hblank : ¬ RecordInWindow f.bytes c.offset)
    (dryRun : Bool) (carried : ℕ) :
    (sweepOnce env dryRun carried moment).1 = some .nothing ∧
      (sweepOnce env dryRun carried moment).2.now = moment := by
  obtain ⟨d, hread, hsame, -, hlines⟩ := hahead.drained
  have hempty : d.lines = [] := by
    by_contra hne
    exact hblank (hlines.1 hne)
  have hkept : reclaim env (Machine.start moment (.new d.lines c d.identity d.restarted.isSome)) =
      Machine.start moment (.new d.lines c d.identity d.restarted.isSome) := by
    have hstate : (Machine.start moment
        (.new d.lines c d.identity d.restarted.isSome)).journal.state = c := by
      simp [Machine.start, Journal.new, hsame]
    have hnot : f.bytes.length ≠ c.offset := by
      intro heq
      have hfollows := hahead.follows
      rw [← heq, List.drop_length] at hfollows
      cases hfollows
    rw [reclaim]
    simp only [hstate]
    split
    · rfl
    · rw [show (Machine.start moment (.new d.lines c d.identity
        d.restarted.isSome)).now.disk.spool = some f from hfile]
      simp only [if_pos hnot]
  simp only [sweepOnce, hc, hfile, hread, hsame, hempty, Option.isSome_none, if_true] at hkept ⊢
  split
  · exact ⟨rfl, rfl⟩
  · split
    · exact ⟨rfl, rfl⟩
    · simp only [Bool.false_eq_true, if_false]
      rw [hkept]
      exact ⟨trivial, rfl⟩

/-- A sweep whose window holds a record moves the stored offset, when everything is accepted and
stored; or it has emptied the file. -/
theorem sweep_moves (hacc : Accepting env) (hfile : moment.disk.spool = some f)
    (hc : moment.disk.checkpoint.getD .default = c) (hshared : c.Shared)
    (hahead : LinesAhead env.digest f c.spool c.offset) (hrecord : RecordInWindow f.bytes c.offset)
    (carried : ℕ) :
    c.offset < ((sweepOnce env false carried moment).2.now.disk.checkpoint.getD .default).offset ∨
      (sweepOnce env false carried moment).2.now.disk.spool ≠ some f := by
  obtain ⟨d, hread, hsame, hnext, hlines⟩ := hahead.drained
  have hmissing := (drain_some hread).missing
  have hstart : (Machine.start moment (.new d.lines c d.identity false)).journal.state = c := rfl
  have hsynced : Synced moment (Machine.start moment (.new d.lines c d.identity false)) :=
    hc ▸ synced_start moment
  simp only [sweepOnce, hc, hfile, hread, hsame, hmissing, hlines.2 hrecord, Bool.false_eq_true,
    if_false, Option.isSome_none]
  generalize Machine.start moment (.new d.lines c d.identity false) = m at hstart hsynced ⊢
  obtain ⟨hbothShared, hbothEnd⟩ := both_accepting hacc (hstart ▸ hshared) d.nextOffset
  generalize hboth : both env d.nextOffset m = outcome at hbothShared hbothEnd ⊢
  generalize hrecords : carried + outcome.1.pushed = records
  have hpassed : Synced moment outcome.2 := by
    rw [← hboth]
    exact hsynced.both env d.nextOffset
  have hdone := hpassed.finished records outcome.1.stalled env.now
  have hfinished := climbed_finished hbothShared records outcome.1.stalled env.now
  generalize outcome.2.finished records outcome.1.stalled env.now = m' at hdone hfinished ⊢
  -- the last commit stores what both passes have reached
  obtain ⟨hstored, hsame'⟩ := hdone.commit env false 0
  have hok := Machine.commit_ok hacc.storeOk m' false 0
  have hreached : c.offset < ((m'.commit env false 0).2.now.disk.checkpoint.getD .default).offset := by
    rw [← hstored.stored, ← hsame' hok]
    have hclimbed := hfinished.trans (climbed_commit env hfinished.shared false 0)
    exact (hnext.trans_le hbothEnd).trans_le (hclimbed.offset_le hbothShared)
  rw [closing]
  simp only [hok, if_true]
  obtain hsame | ⟨f', hfile', hnil⟩ := reclaim_cases env (m'.commit env false 0).2
  · rw [hsame]
    exact .inl hreached
  · refine .inr ?_
    rw [hfile']
    rintro ⟨⟩
    have hfollows := hahead.follows
    rw [hnil, List.drop_nil] at hfollows
    cases hfollows

end Sweep

end Push

/-! ## The durable spool -/

/-- The place behind the first line of a drain is a boundary. -/
theorem boundary_of_drain {digest : Bytes → String} {f : SpoolFile} {offset : ℕ}
    {known : Option Identity} {d : Drain} (read : drain digest (some f) offset known = .ok d)
    (same : d.restarted = none) (hboundary : Boundary f.bytes offset) :
    Boundary f.bytes d.boundary := by
  obtain ⟨hnext, -, hrecords⟩ := records_of_drain read same hboundary
  rw [Drain.boundary]
  cases hsecond : d.lines[1]? with
  | none => exact hnext
  | some line => exact .of_isRecord ((hrecords line).1 (List.mem_of_getElem? hsecond)).1

namespace DurableSpool

variable {env : SpoolEnv} {f : SpoolFile}

/-- The file is another one, or its checkpoint is behind an offset. -/
def Past (env : SpoolEnv) (f : SpoolFile) (offset : ℕ) (s : DurableSpool) : Prop :=
  s.disk.spool = some f → offset < s.checkpoint.offset ∧ Boundary f.bytes s.checkpoint.offset ∧
    Names env.digest s.checkpoint.spool (some f)

/-- The file of a spool, and the file once a line of it has been passed. -/
theorem past_commitPast (hne : f.bytes ≠ []) {s : DurableSpool} {offset boundary : ℕ}
    (h : s.disk.spool = some f → offset < boundary ∧ Boundary f.bytes boundary ∧
      Names env.digest s.pendingIdentity (some f)) (lost now : ℕ) :
    Past env f offset (s.commitPast boundary lost now) := by
  have hstored : ∀ c : Checkpoint, ((c.recordDiscard lost now).offset = c.offset) ∧
      (c.recordDiscard lost now).spool = c.spool := by
    intro c
    rw [Checkpoint.recordDiscard]
    split <;> exact ⟨rfl, rfl⟩
  simp only [commitPast, tryReclaim]
  split
  · intro hfile
    obtain ⟨hlt, hboundary, hnames⟩ := h hfile
    simp only [store, persist, hstored]
    exact ⟨hlt, hboundary, hnames⟩
  · split
    · intro hfile
      obtain ⟨hlt, hboundary, hnames⟩ := h hfile
      simp only [store, persist, hstored]
      exact ⟨hlt, hboundary, hnames⟩
    · split
      · intro hfile
        obtain ⟨hlt, hboundary, hnames⟩ := h hfile
        simp only [store, persist, hstored]
        exact ⟨hlt, hboundary, hnames⟩
      · -- the file has been emptied
        rintro ⟨⟩
        exact absurd rfl hne

/-- What a peek finds that cannot be decoded, or at all, it has read. -/
theorem peekAt_ok {s : DurableSpool} {offset : ℕ} {peeked : Peeked} {identity : Option Identity}
    (h : s.peekAt env offset = .ok (peeked, identity)) :
    ∃ d, drain env.digest s.disk.spool offset s.checkpoint.spool = .ok d ∧ identity = d.identity ∧
      (peeked = .restarted ↔ d.restarted ≠ none) ∧
      (peeked = .empty ↔ d.restarted = none ∧ d.lines = []) ∧
      ∀ boundary, peeked = .undecodable boundary →
        d.restarted = none ∧ d.lines ≠ [] ∧ boundary = d.boundary := by
  rw [peekAt] at h
  split at h
  · cases h
  · next d hread =>
    refine ⟨d, hread, ?_⟩
    cases hrestarted : d.restarted with
    | some why =>
      rw [hrestarted] at h
      cases h
      simp
    | none =>
      rw [hrestarted] at h
      cases hlines : d.lines with
      | nil =>
        rw [hlines] at h
        cases h
        simp
      | cons first rest =>
        rw [hlines] at h
        simp only [Option.isSome_none, Bool.false_eq_true, if_false, List.head?_cons] at h
        split at h
        · cases h
          simp
        · cases h
          simp

/-- Once it is past an offset the loop of `next` stays past it. -/
theorem past_nextLoop (hne : f.bytes ≠ []) (now fuel : ℕ) {s : DurableSpool} {offset : ℕ}
    (h : Past env f offset s) : Past env f offset (nextLoop env now fuel s).2 := by
  induction fuel generalizing s with
  | zero => exact h
  | succ fuel ih =>
    rw [nextLoop]
    cases hpeek : s.peekAt env s.checkpoint.offset with
    | error err => exact h
    | ok found =>
      obtain ⟨peeked, identity⟩ := found
      obtain ⟨d, hread, rfl, hrestarted, -, hundecodable⟩ := peekAt_ok hpeek
      cases peeked with
      | empty => exact h
      | decoded pending => exact h
      | restarted =>
        refine ih fun hfile => ?_
        -- the file the checkpoint names is not one that was replaced
        obtain ⟨-, hboundary, hnames⟩ := h hfile
        have hfile' : s.disk.spool = some f := hfile
        rw [hfile'] at hread
        have hsame := (drain_some hread).restarted
        rw [restart_of_names hnames hboundary.1] at hsame
        exact absurd hsame (hrestarted.1 rfl)
      | undecodable boundary =>
        refine ih (past_commitPast hne (fun hfile => ?_) 1 now)
        obtain ⟨hlt, hboundary, hnames⟩ := h hfile
        obtain ⟨hsame, hlines, rfl⟩ := hundecodable boundary rfl
        have hfile' : s.disk.spool = some f := hfile
        rw [hfile'] at hread
        obtain ⟨first, rest, hcons⟩ := List.exists_cons_of_ne_nil hlines
        have hhead : d.lines.head? = some first := by
          rw [hcons]
          rfl
        have hlt' := lt_boundary hread hsame hhead
        refine ⟨hlt.trans hlt', boundary_of_drain hread hsame hboundary, ?_⟩
        rw [(drain_some hread).identity]
        exact names_of env.digest (some f)

section Next

variable {s : DurableSpool} (hfile : s.disk.spool = some f)
  (hahead : LinesAhead env.digest f s.checkpoint.spool s.checkpoint.offset)
include hfile hahead

/-- A peek whose window holds nothing but blank lines finds nothing. -/
theorem next_stays (hblank : ¬ RecordInWindow f.bytes s.checkpoint.offset) (now : ℕ) :
    (s.next env now).1 = .ok none ∧ (s.next env now).2.disk = s.disk ∧
      (s.next env now).2.checkpoint.offset = s.checkpoint.offset := by
  obtain ⟨d, hread, hsame, -, hlines⟩ := hahead.drained
  have hempty : d.lines = [] := by
    by_contra hne
    exact hblank (hlines.1 hne)
  simp only [next, nextLoop, peekAt, hfile, hread, hsame, hempty, Option.isSome_none,
    Bool.false_eq_true, if_false, List.head?_nil]
  exact ⟨trivial, trivial, trivial⟩

/-- A peek whose window holds a record hands out a record, or it passes a line. -/
theorem next_moves (hrecord : RecordInWindow f.bytes s.checkpoint.offset) (now : ℕ) :
    (∃ pending, (s.next env now).1 = .ok (some pending)) ∨
      s.checkpoint.offset < (s.next env now).2.checkpoint.offset ∨
      (s.next env now).2.disk.spool ≠ some f := by
  obtain ⟨d, hread, hsame, -, hlines⟩ := hahead.drained
  obtain ⟨first, rest, hcons⟩ := List.exists_cons_of_ne_nil (hlines.2 hrecord)
  have hne : f.bytes ≠ [] := by
    intro hnil
    have hfollows := hahead.follows
    rw [hnil, List.drop_nil] at hfollows
    cases hfollows
  simp only [next, nextLoop, peekAt, hfile, hread, hsame, hcons, Option.isSome_none,
    Bool.false_eq_true, if_false, List.head?_cons]
  cases decodeEnvelope env.codec first.text with
  | some record => exact .inl ⟨_, rfl⟩
  | none =>
    refine .inr ?_
    have hhead : d.lines.head? = some first := by
      rw [hcons]
      rfl
    have hlt := lt_boundary hread hsame hhead
    have hnames : Names env.digest d.identity (some f) := by
      rw [(drain_some hread).identity]
      exact names_of env.digest (some f)
    have hpassed : Past env f s.checkpoint.offset (commitPast
        { s with
          checkpoint := { s.checkpoint with quarantine := s.checkpoint.quarantine.prune now }
          pendingIdentity := d.identity } d.boundary 1 now) :=
      past_commitPast hne (fun _ => ⟨hlt, boundary_of_drain hread hsame hahead.boundary, hnames⟩) 1
        now
    have hend := past_nextLoop hne now (s.fileSize + 2) hpassed
    rw [or_iff_not_imp_right, not_not]
    exact fun hsome => (hend hsome).1

end Next

end DurableSpool

/-! ## What moves on -/

/-- Drains return every record once, in order, and all of them when the lines are short. A sweep
whose lines are taken, and a durable spool, move on from a place with whole lines behind it if and
only if the window there holds one that is not blank. -/
theorem drains_return_records_readers_move_iff (digest : Bytes → String) (f : SpoolFile) :
    (∀ (f₀ : SpoolFile) (offset₀ offset : ℕ) (lines : List Line),
      Boundary f₀.bytes offset₀ → Tailed digest f₀ offset₀ lines f offset →
      Boundary f.bytes offset ∧ offset₀ ≤ offset ∧ Ordered lines ∧
        ∀ line, line ∈ lines ↔
          IsRecord f.bytes line ∧ offset₀ ≤ line.offset ∧ line.offset < offset) ∧
    (∀ offset, Boundary f.bytes offset → ShortRuns maxRead f.bytes →
      ∃ lines offset', Tailed digest f offset lines f offset' ∧
        ∀ line, line ∈ lines ↔ IsRecord f.bytes line ∧ offset ≤ line.offset) ∧
    (∀ (env : Push.PushEnv) (moment : Push.Moment) (c : Push.Checkpoint) (carried : ℕ),
      moment.disk.spool = some f → moment.disk.checkpoint.getD .default = c → c.Shared →
      LinesAhead env.digest f c.spool c.offset → Push.Accepting env →
      (c.offset < ((Push.sweepOnce env false carried moment).2.now.disk.checkpoint.getD
            .default).offset ∨
          (Push.sweepOnce env false carried moment).2.now.disk.spool ≠ some f ↔
        RecordInWindow f.bytes c.offset)) ∧
    ∀ (env : SpoolEnv) (s : DurableSpool) (now : ℕ), s.disk.spool = some f →
      LinesAhead env.digest f s.checkpoint.spool s.checkpoint.offset →
      ((∃ pending, (s.next env now).1 = .ok (some pending)) ∨
          s.checkpoint.offset < (s.next env now).2.checkpoint.offset ∨
          (s.next env now).2.disk.spool ≠ some f ↔
        RecordInWindow f.bytes s.checkpoint.offset) := by
  refine ⟨fun _ _ _ _ hstart h => h.records hstart, ?_, ?_, ?_⟩
  · intro offset hboundary hshort
    obtain ⟨lines, offset', h, hend⟩ := Tailed.exhausts .start hboundary hshort
    obtain ⟨-, -, -, hlines⟩ := h.records hboundary
    refine ⟨lines, offset', h, fun line => ?_⟩
    rw [hlines]
    refine and_congr_right fun hrecord => and_iff_left ?_
    -- behind the last offset no line ends
    by_contra hlt
    obtain ⟨a, w, b, hbytes, -, -, rfl, -⟩ := hrecord
    have hle : offset' ≤ a.length := Nat.le_of_not_lt hlt
    rw [hbytes, List.drop_append_of_le_length hle] at hend
    exact hend (by simp)
  · intro env moment c carried hfile hc hshared hahead hacc
    constructor
    · intro hmoves
      by_contra hblank
      obtain ⟨-, hnow⟩ := Push.sweep_stays hfile hc hahead hblank false carried
      rw [hnow, hc] at hmoves
      rcases hmoves with hlt | hother
      · exact lt_irrefl _ hlt
      · exact hother hfile
    · intro hrecord
      exact Push.sweep_moves hacc hfile hc hshared hahead hrecord carried
  · intro env s now hfile hahead
    constructor
    · intro hmoves
      by_contra hblank
      obtain ⟨hnone, hdisk, hoffset⟩ := DurableSpool.next_stays hfile hahead hblank now
      rw [hnone, hdisk, hoffset] at hmoves
      rcases hmoves with ⟨pending, hsome⟩ | hlt | hother
      · cases hsome
      · exact lt_irrefl _ hlt
      · exact hother hfile
    · intro hrecord
      exact DurableSpool.next_moves hfile hahead hrecord now

/-! ## A window of blank lines -/

theorem shortRuns_blank {n : ℕ} (hn : 0 < n) (k : ℕ) :
    ShortRuns n (List.replicate k lineFeed) ∧ openTail (List.replicate k lineFeed) = 0 := by
  induction k with
  | zero => exact ⟨.nil hn, rfl⟩
  | succ k ih =>
    rw [List.replicate_succ']
    refine ⟨?_, openTail_concat _⟩
    have hline := ih.1.append_line (x := []) (by rw [ih.2]; exact hn)
    exact hline

/-- Blank lines that fill a window, and a record behind them. -/
def blankFile : SpoolFile :=
  ⟨none, none, List.replicate maxRead lineFeed ++ ([0x30] ++ [lineFeed]), 0⟩

theorem short_blankFile : ShortRuns maxRead blankFile.bytes := by
  obtain ⟨hshort, hopen⟩ := shortRuns_blank (n := maxRead) (by decide) maxRead
  refine hshort.append_line ?_
  rw [hopen]
  decide

theorem linesAhead_blankFile (digest : Bytes → String) {more : Bytes}
    (hshort : ShortRuns maxRead (blankFile.append more).bytes) :
    LinesAhead digest (blankFile.append more) none 0 :=
  ⟨names_none digest _, boundary_zero _, hshort, by simp [SpoolFile.append, blankFile]⟩

theorem isRecord_blankFile : IsRecord blankFile.bytes ⟨maxRead, ['0']⟩ := by
  refine ⟨List.replicate maxRead lineFeed, [0x30], [], rfl, ?_, by decide, ?_, by simp⟩
  · exact .inr ⟨List.replicate (maxRead - 1) lineFeed, List.replicate_succ' (n := maxRead - 1)⟩
  · rw [List.length_replicate]
    decide

theorem blank_blankFile (more : Bytes) : ¬ RecordInWindow (blankFile.append more).bytes 0 := by
  rw [SpoolFile.append, recordInWindow_append more (by simp [blankFile])]
  rintro ⟨line, ⟨a, w, b, hbytes, -, hw, rfl, hne⟩, -⟩
  have htake : blankFile.bytes.take (0 + maxRead) = List.replicate maxRead lineFeed := by
    rw [blankFile, Nat.zero_add, List.take_append_of_le_length (by simp), List.take_of_length_le
      (by simp)]
  rw [htake] at hbytes
  have hnil : w = [] := by
    rw [List.eq_nil_iff_forall_not_mem]
    intro x hx
    have hmem : x ∈ List.replicate maxRead lineFeed := by
      rw [hbytes]
      simp [hx]
    exact hw (List.eq_of_mem_replicate hmem ▸ hx)
  rw [hnil] at hne
  exact hne (show Utf8Text.trim (fromUtf8Lossy []) = [] by decide)

/-- Neither reader ever leaves the start of that file, whose lines are short, whatever lines are
appended to it. -/
theorem blank_window_is_not_left :
    ShortRuns maxRead blankFile.bytes ∧ IsRecord blankFile.bytes ⟨maxRead, ['0']⟩ ∧
      ∀ more, ShortRuns maxRead (blankFile.append more).bytes →
        (∀ (env : Push.PushEnv) (dryRun : Bool) (carried : ℕ),
          let moment : Push.Moment := ⟨⟨some (blankFile.append more), none, [], 0, 1⟩, []⟩
          (Push.sweepOnce env dryRun carried moment).1 = some .nothing ∧
            (Push.sweepOnce env dryRun carried moment).2.now = moment) ∧
        ∀ (env : SpoolEnv) (now : ℕ),
          let s := DurableSpool.openAt ⟨some (blankFile.append more), none⟩
          (s.next env now).1 = .ok none ∧ (s.next env now).2.disk = s.disk ∧
            (s.next env now).2.checkpoint.offset = s.checkpoint.offset := by
  refine ⟨short_blankFile, isRecord_blankFile, fun more hshort => ⟨?_, ?_⟩⟩
  · intro env dryRun carried
    exact Push.sweep_stays rfl rfl (linesAhead_blankFile env.digest hshort) (blank_blankFile more)
      dryRun carried
  · intro env now
    exact DurableSpool.next_stays rfl (linesAhead_blankFile env.digest hshort)
      (blank_blankFile more) now

end Governance
