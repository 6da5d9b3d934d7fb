import Governance.CopilotPush.Rotation
import Governance.Spool.Layout

/-!
# The sweeps of a wake

`drain::once`: a wake sweeps again only behind a sweep that has resolved everything it read, and
while its count and its clock allow. Others write the spool meanwhile, and the process may be
killed.

A sweep that another one follows has stored a checkpoint at or behind the end of what it has
read, under the name of the file (`Reaching`). A file of that generation is not started over, and
one that takes its place is of a later generation. So what the sweeps of a wake read only goes
up: no two of them offer the same record, whatever the collector has answered.
-/

namespace Governance

open Utf8Text ByteLines

/-! ## What a drain reads -/

/-- What a drain goes on to lies behind every line that it returns. -/
theorem Drained.lt_next {digest : Bytes → String} {f : SpoolFile} {offset : ℕ}
    {known : Option Identity} {d : Drain} (h : Drained digest f offset known d) {line : Line}
    (hmem : line ∈ d.lines) : line.offset < d.nextOffset ∧ d.nextOffset ≤ f.bytes.length := by
  obtain ⟨hlines, -⟩ | ⟨last, hlast, hlines, hnext⟩ := h.lines
  · rw [hlines] at hmem
    cases hmem
  · have hlt := (List.getElem?_eq_some_iff.mp (getElem?_lastLineFeed hlast)).1
    rw [List.length_take, List.length_drop] at hlt
    rw [hlines, mem_collectLines] at hmem
    obtain ⟨a, w, b, heq, -, -, -, hline, hne⟩ := hmem
    have hwne : w ≠ [] := by
      rintro rfl
      rw [hline] at hne
      exact hne (show Utf8Text.trim (fromUtf8Lossy []) = [] by decide)
    have hpos := List.length_pos_iff.mpr hwne
    have hlength := congrArg List.length heq
    simp only [List.length_take, List.length_drop, List.length_append] at hlength
    rw [hline, hnext]
    show d.first offset + a.length < d.first offset + last + 1 ∧ _
    omega

theorem Drained.first_le {digest : Bytes → String} {f : SpoolFile} {offset : ℕ}
    {known : Option Identity} {d : Drain} (h : Drained digest f offset known d) :
    d.first offset ≤ d.nextOffset := by
  obtain ⟨-, hnext⟩ | ⟨last, -, -, hnext⟩ := h.lines
  · exact hnext.ge
  · omega

/-- A file is read on behind the offset when it has the name and is not shorter. -/
theorem restart_eq_none_iff {digest : Bytes → String} {spool : Option Identity} {f : SpoolFile}
    {offset : ℕ} : Identity.restart digest spool f offset = none ↔
      offset ≤ f.bytes.length ∧ Names digest spool (some f) := by
  constructor
  · intro h
    simp only [Identity.restart] at h
    split at h
    · cases h
    next hlt =>
    refine ⟨not_lt.mp hlt, ?_⟩
    intro identity hspool
    rw [hspool] at h
    refine ⟨f, rfl, ?_⟩
    by_contra hsame
    simp only [hsame, if_false] at h
    cases h
  · rintro ⟨hle, hnames⟩
    exact restart_of_names hnames hle

/-- A file that has grown is read on too. -/
theorem restart_append {digest : Bytes → String} {spool : Option Identity} {f : SpoolFile}
    {offset : ℕ} (h : Identity.restart digest spool f offset = none) (more : Bytes) :
    Identity.restart digest spool (f.append more) offset = none := by
  rw [restart_eq_none_iff] at h ⊢
  refine ⟨?_, h.2.append more⟩
  simp only [SpoolFile.append, List.length_append]
  omega

/-- The lines that a drain returns, by the generation of their file and their offset. -/
def Drain.places (d : Drain) (generation : ℕ) : List (ℕ × ℕ) :=
  d.lines.map fun line => (generation, line.offset)

namespace Push

/-! ## The loop -/

/-- `drain::MAX_PASSES`. -/
def maxPasses : ℕ := 64

/-- `drain::BUDGET`, in milliseconds. -/
def budget : ℕ := 60 * 1000

/-- `drain::Tally`, without what is only reported. -/
structure Tally where
  passes : ℕ
  records : ℕ

/-- `Tally::add`. -/
def Tally.add (t : Tally) (swept : Swept) : Tally := ⟨t.passes + 1, t.records + swept.pushed⟩

/-- Whether the loop of `drain::once` makes another sweep, so long after it has started. -/
def goesOn (tally : Tally) (elapsed : ℕ) (swept : Swept) : Bool :=
  if swept.failed || !swept.complete || swept.pending = 0 then false
  else if tally.passes ≥ maxPasses then false
  else elapsed < budget

/-- The generations and offsets of the records that a sweep reads. -/
def readBy (digest : Bytes → String) (moment : Moment) : List (ℕ × ℕ) :=
  let state := moment.disk.checkpoint.getD .default
  match drain digest moment.disk.spool state.offset state.spool with
  | .error _ => []
  | .ok d => d.places moment.disk.generation

/-- The world and the present wake, or the last one: whether it is a dry run, what its sweeps
came to, whether another one is due, what they have read, and the log when it began. -/
structure Wake where
  world : World
  dryRun : Bool
  tally : Tally
  due : Bool
  read : List (ℕ × ℕ)
  before : List PushEvent

namespace Wake

inductive Act where
  | wake (dryRun : Bool)
  | sweep (conditions : Conditions) (elapsed : ℕ)
  | other (act : Push.Act)

/-- No wake so far. -/
def start : Wake := ⟨.start, false, ⟨0, 0⟩, false, [], []⟩

/-- One step of `drain::once`, or of the others. A wake holds the lock until its last sweep is
through, and what it sweeps is swept by nobody else. -/
def step (r : Reader) (w : Wake) : Act → Wake
  | .wake dryRun =>
    match w.world.phase with
    | .idle => if w.due then w else ⟨w.world, dryRun, ⟨0, 0⟩, true, [], w.world.now.log⟩
    | _ => w
  | .sweep conditions elapsed =>
    match w.world.phase with
    | .idle =>
      if w.due then
        let swept := (sweepOnce ⟨r, conditions⟩ w.dryRun w.tally.records w.world.now).1
        let tally := (swept.map w.tally.add).getD w.tally
        { w with
          world := World.step r w.world (.sweep conditions w.dryRun w.tally.records)
          tally := tally
          due := (swept.map (goesOn tally elapsed)).getD false
          read := w.read ++ readBy r.digest w.world.now }
      else w
    | _ => w
  | .other (.sweep _ _ _) => w
  | .other .crash => { w with world := World.step r w.world .crash, due := false }
  | .other act => { w with world := World.step r w.world act }

/-- A run. -/
def run (r : Reader) (w : Wake) (acts : List Act) : Wake := acts.foldl (step r) w

end Wake

/-! ## The pass of a sweep -/

/-- The log has grown, and each request since is about records that have been read. -/
def PostsRead (before : List PushEvent) (read : List (ℕ × ℕ)) (log : List PushEvent) : Prop :=
  ∃ since, log = before ++ since ∧ ∀ generation signal lines answer,
    PushEvent.posted generation signal lines answer ∈ since →
      ∀ line ∈ lines, (generation, line.offset) ∈ read

theorem PostsRead.refl (log : List PushEvent) (read : List (ℕ × ℕ)) : PostsRead log read log := by
  refine ⟨[], (List.append_nil log).symm, ?_⟩
  intro generation signal lines answer hmem
  cases hmem

theorem PostsRead.concat {before log : List PushEvent} {read : List (ℕ × ℕ)}
    (h : PostsRead before read log) {event : PushEvent}
    (hevent : ∀ generation signal lines answer, event = .posted generation signal lines answer →
      ∀ line ∈ lines, (generation, line.offset) ∈ read) :
    PostsRead before read (log ++ [event]) := by
  obtain ⟨since, rfl, hsince⟩ := h
  refine ⟨since ++ [event], List.append_assoc before since [event], ?_⟩
  intro generation signal lines answer hmem
  obtain hmem | hmem := List.mem_append.mp hmem
  · exact hsince generation signal lines answer hmem
  · exact hevent generation signal lines answer (List.mem_singleton.mp hmem).symm

/-- Something else is seen. -/
theorem PostsRead.other {before log : List PushEvent} {read : List (ℕ × ℕ)}
    (h : PostsRead before read log) {event : PushEvent}
    (hother : ∀ generation signal lines answer, event ≠ .posted generation signal lines answer) :
    PostsRead before read (log ++ [event]) :=
  h.concat fun generation signal lines answer heq =>
    absurd heq (hother generation signal lines answer)

theorem PostsRead.stored {before log : List PushEvent} {read : List (ℕ × ℕ)}
    (h : PostsRead before read log) (generation : ℕ) (c : Checkpoint) :
    PostsRead before read (log ++ [PushEvent.stored generation c]) := by
  refine h.other ?_
  intro generation' signal lines answer heq
  cases heq

theorem PostsRead.killed {before log : List PushEvent} {read : List (ℕ × ℕ)}
    (h : PostsRead before read log) : PostsRead before read (log ++ [PushEvent.killed]) := by
  refine h.other ?_
  intro generation signal lines answer heq
  cases heq

/-- What another sweep finds. -/
structure LeftBy (before : List PushEvent) (read : List (ℕ × ℕ)) (moment : Moment) : Prop where
  shared : (moment.disk.checkpoint.getD .default).Shared
  posted : PostsRead before read moment.log

/-- A sweep over what a drain has read of a file. -/
structure Bounded (digest : Bytes → String) (f : SpoolFile) (d : Drain) (base : Moment)
    (m : Machine) : Prop where
  file : m.now.disk.spool = some f
  identity : m.journal.identity = some (.of digest f)
  lines : m.journal.lines = d.lines
  shared : m.journal.state.Shared
  le_next : m.journal.state.offset ≤ d.nextOffset
  now : LeftBy base.log (d.places f.generation) m.now
  trail : ∀ moment ∈ m.trail, LeftBy base.log (d.places f.generation) moment

/-- Its state has the name of the file, or it has not got anywhere and nothing was stored. -/
structure Reaching (digest : Bytes → String) (f : SpoolFile) (d : Drain) (base : Moment)
    (m : Machine) : Prop extends Bounded digest f d base m where
  named : Names digest m.journal.state.spool (some f) ∨ m.journal.state.offset = 0 ∧
    (m.journal.stored.offset = 0 ∨ ∀ signal, m.journal.state.signalOffset signal = 0)

namespace Bounded

variable {env : PushEnv} {f : SpoolFile} {d : Drain} {base : Moment} {m : Machine}

theorem generation (h : Bounded env.digest f d base m) : m.generation = f.generation := by
  rw [Machine.generation, PushDisk.generation, h.file]
  rfl

theorem reach (h : Bounded env.digest f d base m) {moment : Moment}
    (hfile : moment.disk.spool = some f) (hleft : LeftBy base.log (d.places f.generation) moment) :
    Bounded env.digest f d base (m.reach moment) := by
  refine ⟨hfile, h.identity, h.lines, h.shared, h.le_next, hleft, ?_⟩
  intro moment' hmem
  obtain hmem | hmem := List.mem_append.mp hmem
  · exact h.trail moment' hmem
  · obtain rfl := List.mem_singleton.mp hmem
    exact hleft

theorem post (h : Bounded env.digest f d base m) (signal : Signal) {ls : List Line}
    (hsub : ls ⊆ d.lines) : Bounded env.digest f d base (m.post env signal ls).2 := by
  have hasked : Bounded env.digest f d base { m with asked := m.asked + 1 } :=
    ⟨h.file, h.identity, h.lines, h.shared, h.le_next, h.now, h.trail⟩
  refine hasked.reach h.file ⟨h.now.shared, h.now.posted.concat ?_⟩
  intro generation signal' lines answer hevent line hline
  cases hevent
  rw [h.generation]
  exact List.mem_map.mpr ⟨line, hsub hline, rfl⟩

theorem store (h : Bounded env.digest f d base m) {c : Checkpoint} (hshared : c.Shared)
    (inLoop : Bool) (owed through : ℕ) :
    Bounded env.digest f d base (m.store env c inLoop owed through).2 := by
  have hwritten : ∀ writes, Bounded env.digest f d base
      { m with tried := m.tried + 1, writes := writes } := fun _ =>
    ⟨h.file, h.identity, h.lines, h.shared, h.le_next, h.now, h.trail⟩
  simp only [Machine.store]
  split
  · exact (hwritten _).reach h.file ⟨hshared, h.now.posted.stored _ _⟩
  · exact hwritten _

/-- A commit stores the state under the name of the file, unless that is stored already. -/
theorem commit (h : Bounded env.digest f d base m)
    (hnamed : Names env.digest m.journal.state.spool (some f) ∨ m.journal.state.offset = 0 ∨
      m.journal.state.offset ≠ m.journal.stored.offset) (inLoop : Bool) (owed : ℕ) :
    Reaching env.digest f d base (m.commit env inLoop owed).2 := by
  obtain ⟨hsame, hcommit⟩ | ⟨-, m', hm', hcommit⟩ := Machine.commit_cases env m inLoop owed
  · rw [hcommit]
    refine ⟨h, ?_⟩
    obtain hnames | hzero | hne := hnamed
    · exact .inl hnames
    · exact .inr ⟨hzero, .inl (hsame ▸ hzero)⟩
    · exact absurd (congrArg Checkpoint.offset hsame) hne
  · have h' : Bounded env.digest f d base m' := by
      rw [hm']
      exact ⟨h.file, h.identity, h.lines, h.shared, h.le_next, h.now, h.trail⟩
    have hnames : Names env.digest m'.journal.state.spool (some f) := by
      rw [hm']
      show Names env.digest m.journal.identity (some f)
      rw [h.identity]
      exact names_of env.digest (some f)
    have hstored := h'.store h'.shared inLoop owed m'.journal.state.offset
    have hjournal : (m'.store env m'.journal.state inLoop owed
        m'.journal.state.offset).2.journal = m'.journal := Machine.store_journal ..
    rw [hcommit]
    split
    · exact ⟨⟨hstored.file, h'.identity, h'.lines, h'.shared, h'.le_next, hstored.now,
        hstored.trail⟩, .inl hnames⟩
    · refine ⟨hstored, .inl ?_⟩
      rw [hjournal]
      exact hnames

end Bounded

namespace Reaching

variable {env : PushEnv} {offer : Offer} {lines : List Line} {f : SpoolFile} {d : Drain}
  {base : Moment} {m : Machine}

/-- A change of the journal's state that leaves its offsets and its name alone. -/
theorem withState (h : Reaching env.digest f d base m) {state : Checkpoint}
    (hoffset : state.offset = m.journal.state.offset)
    (hspool : state.spool = m.journal.state.spool)
    (hsignal : ∀ s, state.signalOffset s = m.journal.state.signalOffset s) :
    Reaching env.digest f d base { m with journal := { m.journal with state := state } } := by
  refine ⟨⟨h.file, h.identity, h.lines, ?_, ?_, h.now, h.trail⟩, ?_⟩
  · simpa only [Checkpoint.Shared, hoffset, hsignal] using h.shared
  · simpa only [hoffset] using h.le_next
  · simpa only [hoffset, hspool, hsignal] using h.named

theorem post (h : Reaching env.digest f d base m) (signal : Signal) {ls : List Line}
    (hsub : ls ⊆ d.lines) : Reaching env.digest f d base (m.post env signal ls).2 :=
  ⟨h.toBounded.post signal hsub, h.named⟩

theorem finished (h : Reaching env.digest f d base m) (records : ℕ) (stalled : Bool) (now : ℕ) :
    Reaching env.digest f d base (m.finished records stalled now) := by
  apply h.withState
  · split <;> split <;> rfl
  · split <;> split <;> rfl
  · intro s
    split <;> split <;> rfl

theorem withQuarantine (h : Reaching env.digest f d base m) (q : Quarantine) :
    Reaching env.digest f d base (m.withQuarantine q) :=
  h.withState rfl rfl fun _ => rfl

/-- `Journal::advance`: when one signal has left the first byte, the other has not. -/
theorem advance (h : Reaching env.digest f d base m) (signal : Signal) {reached : ℕ}
    (hle : reached ≤ d.nextOffset) (refused : ℕ) (inLoop : Bool) :
    Reaching env.digest f d base (m.advance env signal reached refused inLoop).2 := by
  have hspool : (m.charge env signal reached refused).journal.state.spool =
      m.journal.state.spool := by
    simp only [Machine.charge, Checkpoint.recordDiscards, Checkpoint.raise, Checkpoint.advance]
    cases signal <;> split <;> split <;> rfl
  refine Bounded.commit (m := m.charge env signal reached refused)
    ⟨h.file, h.identity, h.lines, ?_, ?_, h.now, h.trail⟩ ?_ inLoop refused
  · have hraised := h.shared.raise signal reached
    rwa [Checkpoint.Shared, Machine.charge_offset, Machine.charge_signalOffset,
      Machine.charge_signalOffset]
  · rw [Machine.charge_offset]
    by_cases hlt : reached > m.journal.state.signalOffset signal
    · rw [Checkpoint.raise, if_pos hlt]
      have hself := (Checkpoint.shared_advance m.journal.state signal reached).le signal
      rw [Checkpoint.signalOffset_advance_self] at hself
      exact hself.trans hle
    · rw [Checkpoint.raise, if_neg hlt]
      exact h.le_next
  · rw [hspool]
    obtain hnames | ⟨-, hstored | hzero⟩ := h.named
    · exact .inl hnames
    · right
      by_cases hoffset : (m.charge env signal reached refused).journal.state.offset = 0
      · exact .inl hoffset
      · exact .inr (fun heq => hoffset (heq.trans hstored))
    · -- The other signal has not left the first byte, so the shared offset has not either.
      right
      left
      rw [Machine.charge_offset, h.shared.raise signal reached]
      obtain ⟨other, hother⟩ : ∃ other : Signal, other ≠ signal := by
        cases signal
        · exact ⟨.logs, by decide⟩
        · exact ⟨.metrics, by decide⟩
      have hstays := Checkpoint.signalOffset_raise_of_ne h.shared hother reached
      rw [hzero] at hstays
      cases other <;> omega

theorem commitPass (h : Reaching env.digest f d base m)
    (hle : ∀ n, advancedTo lines n offer.endOffset ≤ d.nextOffset) (inLoop : Bool) (p : Progress) :
    Reaching env.digest f d base (Push.commit env offer lines inLoop p m).2.2 := by
  simp only [Push.commit]
  split
  · exact h
  · exact h.advance _ (hle _) _ inLoop

/-- Every step of a pass over some of the lines. -/
theorem step {a b : Progress × Machine} (h : Reaching env.digest f d base a.2)
    (hsub : lines ⊆ d.lines) (hle : ∀ n, advancedTo lines n offer.endOffset ≤ d.nextOffset)
    (hstep : PassStep env offer lines a b) : Reaching env.digest f d base b.2 := by
  have hslice : ∀ first last, slice lines first last ⊆ d.lines := fun first last =>
    List.Subset.trans (List.Subset.trans (List.take_subset _ _) (List.drop_subset _ _)) hsub
  cases hstep with
  | committed p m => exact h.commitPass hle true p
  | tallied m keeps => exact h
  | noted p m q => exact h.withQuarantine q
  | nothing m lt le none => exact h
  | declined p m sub answer =>
    exact h.post _ (List.Subset.trans (List.Subset.trans sub (List.drop_subset _ _)) hsub)
  | accepted lt le answer => exact h.post _ (hslice _ _)
  | gaveUp m key getLine kind =>
    have hgiven := h.withQuarantine (m.journal.state.quarantine.forget key)
    exact ⟨⟨hgiven.file, hgiven.identity, hgiven.lines, hgiven.shared, hgiven.le_next, hgiven.now,
      hgiven.trail⟩, hgiven.named⟩
  | @jumped p m line key next ahead getLine kind lt getAhead none answer =>
    have hahead : [ahead] ⊆ d.lines := by
      intro l hl
      obtain rfl := List.mem_singleton.mp hl
      exact hsub (List.mem_of_getElem? getAhead)
    have hgiven := (h.post offer.signal hahead).withQuarantine
      ((m.post env offer.signal [ahead]).2.journal.state.quarantine.forget key)
    exact ⟨⟨hgiven.file, hgiven.identity, hgiven.lines, hgiven.shared, hgiven.le_next, hgiven.now,
      hgiven.trail⟩, hgiven.named⟩

theorem steps {a b : Progress × Machine} (h : Reaching env.digest f d base a.2)
    (hsub : lines ⊆ d.lines) (hle : ∀ n, advancedTo lines n offer.endOffset ≤ d.nextOffset)
    (hsteps : Relation.ReflTransGen (PassStep env offer lines) a b) :
    Reaching env.digest f d base b.2 := by
  induction hsteps with
  | refl => exact h
  | tail _ hstep ih => exact ih.step hsub hle hstep

theorem offerSignal (h : Reaching env.digest f d base m)
    (hd : ∀ line ∈ d.lines, line.offset < d.nextOffset) (signal : Signal) :
    Reaching env.digest f d base (offerSignal env signal d.nextOffset m).2 := by
  have hsub : pendingFor m.journal.state signal m.journal.lines ⊆ d.lines := by
    rw [← h.lines]
    exact List.filter_subset_self _
  rw [Push.offerSignal, exportSignal_machine]
  generalize pendingFor m.journal.state signal m.journal.lines = pending at hsub ⊢
  have hle : ∀ n, advancedTo pending n d.nextOffset ≤ d.nextOffset := by
    intro n
    rw [advancedTo]
    cases hline : pending[n]? with
    | none => exact le_rfl
    | some line => exact (hd line (hsub (List.mem_of_getElem? hline))).le
  have hpass := steps (a := (.default, m)) h hsub hle
    (exported_steps env ⟨signal, env.now, d.nextOffset⟩ pending m)
  exact hpass.commitPass hle false _

theorem both (h : Reaching env.digest f d base m)
    (hd : ∀ line ∈ d.lines, line.offset < d.nextOffset) :
    Reaching env.digest f d base (both env d.nextOffset m).2 := by
  rw [both_machine]
  exact ((h.withQuarantine _).offerSignal hd .metrics).offerSignal hd .logs

/-- The last commit of a sweep. -/
theorem closing (h : Reaching env.digest f d base m) (inLoop : Bool) (owed : ℕ) :
    Reaching env.digest f d base (m.commit env inLoop owed).2 := by
  refine h.toBounded.commit ?_ inLoop owed
  obtain hnames | ⟨hzero, -⟩ := h.named
  · exact .inl hnames
  · exact .inr (.inl hzero)

end Reaching

/-! ## What a sweep leaves behind -/

section Sweep

variable (env : PushEnv) (dryRun : Bool) (carried : ℕ) {moment : Moment} {f : SpoolFile}
  {c : Checkpoint} {d : Drain}

/-- A sweep starts at the offset of its checkpoint, or at the first byte. -/
theorem reaching_start (hfile : moment.disk.spool = some f)
    (hc : moment.disk.checkpoint.getD .default = c) (hshared : c.Shared)
    (hdrain : drain env.digest (some f) c.offset c.spool = .ok d) :
    Reaching env.digest f d moment
      (.start moment (.new d.lines c d.identity d.restarted.isSome)) := by
  have hdrained := drain_some hdrain
  have hfirst := hdrained.first_le
  have hleft : LeftBy moment.log (d.places f.generation) moment :=
    ⟨hc ▸ hshared, .refl _ _⟩
  have htrail : ∀ moment' ∈ [moment], LeftBy moment.log (d.places f.generation) moment' := by
    intro moment' hmem
    obtain rfl := List.mem_singleton.mp hmem
    exact hleft
  rw [Drain.first, hdrained.restarted] at hfirst
  rw [Journal.new, hdrained.restarted]
  cases hrestart : Identity.restart env.digest c.spool f c.offset with
  | none =>
    rw [hrestart] at hfirst
    exact ⟨⟨hfile, hdrained.identity, rfl, hshared, hfirst, hleft, htrail⟩,
      .inl (restart_eq_none_iff.mp hrestart).2⟩
  | some why =>
    refine ⟨⟨hfile, hdrained.identity, rfl, c.shared_restart, Nat.zero_le _, hleft, htrail⟩,
      .inr ⟨rfl, .inr ?_⟩⟩
    intro signal
    cases signal <;> rfl

/-- The pass of a sweep that has read the file. -/
theorem passOnce_reaching (hfile : moment.disk.spool = some f)
    (hc : moment.disk.checkpoint.getD .default = c) (hshared : c.Shared)
    (hdrain : drain env.digest (some f) c.offset c.spool = .ok d) :
    Reaching env.digest f d moment (passOnce env dryRun carried moment).2 ∧
      Synced moment (passOnce env dryRun carried moment).2 ∧
      ((passOnce env dryRun carried moment).1 = true →
        (passOnce env dryRun carried moment).2.journal.state =
          (passOnce env dryRun carried moment).2.journal.stored) := by
  have hdrained := drain_some hdrain
  have hlines : ∀ line ∈ d.lines, line.offset < d.nextOffset := fun line hmem =>
    (hdrained.lt_next hmem).1
  have hstart := reaching_start env hfile hc hshared hdrain
  have hsynced : Synced moment (.start moment (.new d.lines c d.identity d.restarted.isSome)) :=
    hc ▸ synced_start moment
  have hcut {p : Prop} (hfalse : false = true) : p := absurd hfalse Bool.false_ne_true
  simp only [passOnce, hc, hfile, hdrain, hdrained.missing, Bool.false_eq_true, if_false]
  split
  · split
    · exact ⟨hstart, hsynced, hcut⟩
    · split
      · exact ⟨hstart.closing false 0, hsynced.commit env false 0⟩
      · next hrestarted =>
        refine ⟨hstart, hsynced, fun _ => ?_⟩
        rw [Machine.start, Journal.new, if_neg hrestarted]
  · split
    · exact ⟨hstart, hsynced, hcut⟩
    · exact ⟨((hstart.both hlines).finished _ _ _).closing false 0,
        ((hsynced.both env d.nextOffset).finished _ _ _).commit env false 0⟩

/-- Whatever a sweep meets, the next one finds a checkpoint whose shared offset is the smaller of
the two, and the requests so far are about what has been read. -/
theorem passOnce_leaves (hshared : (moment.disk.checkpoint.getD .default).Shared) :
    Synced moment (passOnce env dryRun carried moment).2 ∧
      ∀ moment' ∈ (passOnce env dryRun carried moment).2.trail,
        LeftBy moment.log (readBy env.digest moment) moment' := by
  have hidle : ∀ {lines : List Line} {identity : Option Identity} {restarted : Bool},
      ∀ moment' ∈ (Machine.start moment (.new lines (moment.disk.checkpoint.getD .default)
        identity restarted)).trail, LeftBy moment.log (readBy env.digest moment) moment' := by
    intro _ _ _ moment' hmem
    obtain rfl := List.mem_singleton.mp hmem
    exact ⟨hshared, .refl _ _⟩
  cases hfile : moment.disk.spool with
  | none =>
    simp only [passOnce, hfile, drain, if_true]
    exact ⟨synced_start moment, hidle⟩
  | some f =>
    cases hdrain : drain env.digest (some f) (moment.disk.checkpoint.getD .default).offset
        (moment.disk.checkpoint.getD .default).spool with
    | error err =>
      simp only [passOnce, hfile, hdrain]
      exact ⟨synced_start moment, hidle⟩
    | ok d =>
      obtain ⟨hreaching, hsynced, -⟩ :=
        passOnce_reaching env dryRun carried hfile rfl hshared hdrain
      have hread : readBy env.digest moment = d.places f.generation := by
        simp only [readBy, hfile, hdrain, PushDisk.generation, Option.map_some, Option.getD_some]
      rw [hread]
      exact ⟨hsynced, hreaching.trail⟩

theorem reclaim_journal (m : Machine) : (reclaim env m).journal = m.journal := by
  simp only [reclaim]
  split
  · rfl
  · split
    · rfl
    · split
      · rfl
      · exact Machine.store_journal ..

/-- A sweep that another one may follow has stored a checkpoint behind what it has read. -/
theorem sweepOnce_complete {swept : Swept}
    (hswept : (sweepOnce env dryRun carried moment).1 = some swept)
    (hcomplete : swept.complete = true) :
    ∃ f d, moment.disk.spool = some f ∧
      drain env.digest (some f) (moment.disk.checkpoint.getD .default).offset
        (moment.disk.checkpoint.getD .default).spool = .ok d ∧ d.lines ≠ [] ∧
      (passOnce env dryRun carried moment).1 = true ∧
      d.nextOffset ≤ (passOnce env dryRun carried moment).2.journal.state.offset := by
  have hnothing : swept ≠ .nothing := by
    rintro rfl
    cases hcomplete
  cases hfile : moment.disk.spool with
  | none =>
    simp only [sweepOnce, hfile, drain, if_true] at hswept
    exact absurd (Option.some.inj hswept).symm hnothing
  | some f =>
    cases hdrain : drain env.digest (some f) (moment.disk.checkpoint.getD .default).offset
        (moment.disk.checkpoint.getD .default).spool with
    | error err =>
      simp only [sweepOnce, hfile, hdrain] at hswept
      cases hswept
    | ok d =>
      refine ⟨f, d, rfl, hdrain, ?_⟩
      have hmissing := (drain_some hdrain).missing
      simp only [sweepOnce, passOnce, hfile, hdrain, hmissing, Bool.false_eq_true, if_false]
        at hswept ⊢
      by_cases hlines : d.lines = []
      · rw [if_pos hlines] at hswept
        split at hswept
        · exact absurd (Option.some.inj hswept).symm hnothing
        · split at hswept
          · split at hswept
            · exact absurd (Option.some.inj hswept).symm hnothing
            · cases hswept
          · exact absurd (Option.some.inj hswept).symm hnothing
      · rw [if_neg hlines] at hswept ⊢
        cases dryRun with
        | true => exact absurd (Option.some.inj hswept).symm hnothing
        | false =>
          simp only [closing, Bool.false_eq_true, if_false] at hswept ⊢
          split at hswept
          · next hstored =>
            obtain rfl := Option.some.inj hswept
            have hreached := of_decide_eq_true hcomplete
            rw [reclaim_journal] at hreached
            exact ⟨hlines, hstored, hreached⟩
          · cases hswept

end Sweep

/-! ## What others do meanwhile -/

namespace World

variable {r : Reader} {w : World}

/-- What a process does besides its sweeps, and what others do. -/
inductive Moved (r : Reader) (w : World) : World → Prop where
  | same : Moved r w w
  | appended {f : SpoolFile} (file : w.now.disk.spool = some f) (more : Bytes) :
      Moved r w (w.withFile { w.now.disk with spool := some (f.append more) })
  | renewed {f : SpoolFile} (generation : f.generation = w.now.disk.files) (phase : Phase)
      (of : phase = w.phase ∨ ∃ c, phase = .emptied c) :
      Moved r w { w.withFile { w.now.disk with
        spool := some f
        files := w.now.disk.files + 1 } with phase := phase }
  | proceeded {moment : Moment} {todo : List Moment} {offered : Option Checkpoint}
      (of : w.phase = .sweeping (moment :: todo) offered) :
      Moved r w { w with
        now := ⟨{ w.now.disk with
          checkpoint := moment.disk.checkpoint
          ledger := moment.disk.ledger
          measured := moment.disk.measured }, moment.log⟩
        phase := .sweeping todo offered }
  | rested {offered : Option Checkpoint} (of : w.phase = .sweeping [] offered) :
      Moved r w { w with phase := .idle }
  | named {c : Checkpoint} (of : w.phase = .emptied c) :
      Moved r w { w with
        phase := .named (c.reclaimed r.digest w.now.disk) w.now.disk.generation }
  | stored {c : Checkpoint} {measured : ℕ} (of : w.phase = .named c measured) :
      Moved r w { w with
        now := ⟨{ w.now.disk with checkpoint := some c, measured := measured },
          w.now.log ++ [.stored measured c]⟩
        phase := .idle }
  | unstored {c : Checkpoint} {measured : ℕ} (of : w.phase = .named c measured) :
      Moved r w { w with phase := .idle }

theorem moved_step (r : Reader) (w : World) {act : Push.Act} (hcrash : act ≠ .crash)
    (hsweep : ∀ conditions dryRun carried, act ≠ .sweep conditions dryRun carried) :
    Moved r w (World.step r w act) := by
  cases act with
  | append more =>
    simp only [World.step]
    split
    · exact .same
    · next f hf => exact .appended hf more
  | replace inode device bytes => exact .renewed rfl w.phase (.inl rfl)
  | sweep conditions dryRun carried => exact absurd rfl (hsweep conditions dryRun carried)
  | proceed =>
    simp only [World.step]
    split
    · next hphase => exact .proceeded hphase
    · exact .same
  | reclaim =>
    simp only [World.step]
    split
    · next c hphase =>
      split
      · split
        · exact .renewed rfl (.emptied c) (.inr ⟨c, rfl⟩)
        · exact .rested hphase
      · exact .rested hphase
    · next hphase => exact .rested hphase
    · exact .same
  | name =>
    simp only [World.step]
    split
    · next c hphase => exact .named hphase
    · exact .same
  | store ok =>
    simp only [World.step]
    split
    · next hphase =>
      cases ok with
      | true => exact .stored hphase
      | false => exact .unstored hphase
    · exact .same
  | crash => exact absurd rfl hcrash

/-- The checkpoint that a sweep under way leaves, unless its reclaim has emptied the file. -/
def settling (w : World) : Option Checkpoint :=
  match w.phase with
  | .idle => some (w.now.disk.checkpoint.getD .default)
  | .sweeping todo _ => some ((todo.getLast?.getD w.now).disk.checkpoint.getD .default)
  | .emptied _ => none
  | .named _ _ => none

theorem settling_withFile (w : World) (disk : PushDisk)
    (hcheckpoint : disk.checkpoint = w.now.disk.checkpoint) :
    (w.withFile disk).settling = w.settling := by
  simp only [settling, withFile]
  cases w.phase with
  | idle => rw [hcheckpoint]
  | sweeping todo offered =>
    cases hlast : todo.getLast? with
    | none => simp only [hlast, Option.getD_none, hcheckpoint]
    | some moment => simp only [hlast, Option.getD_some]
  | emptied c => rfl
  | named c measured => rfl

/-- The next sweep comes behind the record: it reads a later file, or this one behind it. -/
def Passed (digest : Bytes → String) (w : World) (f : SpoolFile) (place : ℕ × ℕ) : Prop :=
  place.1 < f.generation ∨ place.1 = f.generation ∧ ∃ c, w.settling = some c ∧
    place.2 < c.offset ∧ Identity.restart digest c.spool f c.offset = none

theorem Passed.congr {digest : Bytes → String} {f : SpoolFile} {place : ℕ × ℕ}
    (h : w.Passed digest f place) {w' : World} (hsettling : w'.settling = w.settling) :
    w'.Passed digest f place := by
  rw [Passed, hsettling]
  exact h

/-- With the file emptied, the next sweep reads a later one. -/
theorem Passed.later {digest : Bytes → String} {f : SpoolFile} {place : ℕ × ℕ}
    (h : w.Passed digest f place) (hsettling : w.settling = none) :
    place.1 < f.generation := by
  obtain hlt | ⟨-, c, hc, -⟩ := h
  · exact hlt
  · rw [hsettling] at hc
    cases hc

/-- What a move does to the file, and to what the next sweep has passed. -/
theorem Moved.passed {w' : World} (h : Moved r w w') {place : ℕ × ℕ}
    (hplace : place.1 < w.now.disk.files)
    (hpassed : ∀ f, w.now.disk.spool = some f → w.Passed r.digest f place) :
    ∀ f, w'.now.disk.spool = some f → w'.Passed r.digest f place := by
  cases h with
  | same => exact hpassed
  | @appended f hf more =>
    intro f' hf'
    cases hf'
    have hsettling :=
      w.settling_withFile { w.now.disk with spool := some (f.append more) } rfl
    obtain hlt | ⟨heq, c, hc, hoffset, hrestart⟩ := hpassed f hf
    · exact .inl hlt
    · exact .inr ⟨heq, c, hsettling.trans hc, hoffset, restart_append hrestart more⟩
  | renewed hgeneration phase hof =>
    intro f' hf'
    cases hf'
    exact .inl (hgeneration ▸ hplace)
  | @proceeded moment todo offered hphase =>
    intro f hf
    refine (hpassed f hf).congr ?_
    simp only [settling, hphase, List.getLast?_cons]
    cases todo.getLast? <;> rfl
  | rested hphase =>
    intro f hf
    refine (hpassed f hf).congr ?_
    simp only [settling, hphase]
    rfl
  | named hphase =>
    intro f hf
    refine (hpassed f hf).congr ?_
    simp only [settling, hphase]
  | stored hphase =>
    intro f hf
    have hsettling : w.settling = none := by simp only [settling, hphase]
    exact .inl ((hpassed f hf).later hsettling)
  | unstored hphase =>
    intro f hf
    have hsettling : w.settling = none := by simp only [settling, hphase]
    exact .inl ((hpassed f hf).later hsettling)

theorem Moved.files_le {w' : World} (h : Moved r w w') :
    w.now.disk.files ≤ w'.now.disk.files := by
  cases h with
  | renewed hgeneration phase hof => exact Nat.le_succ _
  | _ => exact le_rfl

end World

/-! ## The invariant of a wake -/

theorem PostsRead.mono {before log : List PushEvent} {read read' : List (ℕ × ℕ)}
    (h : PostsRead before read log) (hread : read ⊆ read') : PostsRead before read' log := by
  obtain ⟨since, hlog, hsince⟩ := h
  refine ⟨since, hlog, ?_⟩
  intro generation signal lines answer hmem line hline
  exact hread (hsince generation signal lines answer hmem line hline)

theorem LeftBy.mono {before : List PushEvent} {read read' : List (ℕ × ℕ)} {moment : Moment}
    (h : LeftBy before read moment) (hread : read ⊆ read') : LeftBy before read' moment :=
  ⟨h.shared, h.posted.mono hread⟩

/-- What one sweep leaves, behind those before it. -/
theorem LeftBy.behind {before : List PushEvent} {read read' : List (ℕ × ℕ)} {base moment : Moment}
    (h : LeftBy base.log read' moment) (hbase : LeftBy before read base) :
    LeftBy before (read ++ read') moment := by
  obtain ⟨first, hfirst, hreadFirst⟩ := hbase.posted.mono (List.subset_append_left read read')
  obtain ⟨second, hsecond, hreadSecond⟩ := h.posted.mono (List.subset_append_right read read')
  refine ⟨h.shared, first ++ second, ?_, ?_⟩
  · rw [hsecond, hfirst, List.append_assoc]
  · intro generation signal lines answer hmem
    obtain hmem | hmem := List.mem_append.mp hmem
    · exact hreadFirst generation signal lines answer hmem
    · exact hreadSecond generation signal lines answer hmem

theorem mem_readBy {digest : Bytes → String} {moment : Moment} {place : ℕ × ℕ}
    (h : place ∈ readBy digest moment) : ∃ f d, moment.disk.spool = some f ∧
      drain digest (some f) (moment.disk.checkpoint.getD .default).offset
        (moment.disk.checkpoint.getD .default).spool = .ok d ∧
      ∃ line ∈ d.lines, place = (f.generation, line.offset) := by
  simp only [readBy] at h
  cases hfile : moment.disk.spool with
  | none =>
    simp only [hfile, drain, Drain.places] at h
    cases h
  | some f =>
    rw [hfile] at h
    split at h
    · cases h
    · next d hdrain =>
      obtain ⟨line, hline, rfl⟩ := List.mem_map.mp h
      refine ⟨f, d, rfl, hdrain, line, hline, ?_⟩
      rw [PushDisk.generation, hfile]
      rfl

/-- What a sweep reads goes up. -/
theorem ordered_readBy (digest : Bytes → String) (moment : Moment) :
    (readBy digest moment).Pairwise (Prod.Lex (· < ·) (· < ·)) := by
  simp only [readBy]
  split
  · exact .nil
  · next d hdrain =>
    exact List.pairwise_map.mpr ((drain_ordered hdrain).1.imp fun hlt => .right _ hlt)

/-- What a sweep reads starts behind what was passed. -/
theorem World.Passed.lex {r : Reader} {w : World} (hphase : w.phase = .idle) {place : ℕ × ℕ}
    (hpassed : ∀ f, w.now.disk.spool = some f → w.Passed r.digest f place) {place' : ℕ × ℕ}
    (hread : place' ∈ readBy r.digest w.now) : Prod.Lex (· < ·) (· < ·) place place' := by
  obtain ⟨f, d, hfile, hdrain, line, hline, rfl⟩ := mem_readBy hread
  obtain hlt | ⟨heq, c, hc, hoffset, hrestart⟩ := hpassed f hfile
  · exact Prod.lex_def.mpr (.inl hlt)
  · refine Prod.lex_def.mpr (.inr ⟨heq, ?_⟩)
    simp only [settling, hphase] at hc
    obtain rfl := Option.some.inj hc
    have hle := (drain_ordered hdrain).2 line hline
    rw [Drain.first, (drain_some hdrain).restarted, hrestart] at hle
    exact hoffset.trans_le hle

theorem goesOn_eq_true {tally : Tally} {elapsed : ℕ} {swept : Swept}
    (h : goesOn tally elapsed swept = true) : swept.complete = true ∧ tally.passes < maxPasses := by
  simp only [goesOn] at h
  split at h
  · cases h
  next hgoes =>
  split at h
  · cases h
  next hpasses =>
  simp only [Bool.or_eq_true, not_or, Bool.not_eq_true, Bool.not_eq_false'] at hgoes
  exact ⟨hgoes.1.2, not_le.mp hpasses⟩

namespace Wake

structure Invariant (r : Reader) (w : Wake) : Prop where
  fresh : ∀ f, w.world.now.disk.spool = some f → f.generation < w.world.now.disk.files
  now : LeftBy w.before w.read w.world.now
  todo : ∀ todo offered, w.world.phase = .sweeping todo offered → ∀ moment ∈ todo,
    LeftBy w.before w.read moment
  named : ∀ c measured, w.world.phase = .named c measured → c.Shared
  passes : w.tally.passes ≤ maxPasses
  next : w.due = true → w.tally.passes < maxPasses
  former : ∀ place ∈ w.read, place.1 < w.world.now.disk.files
  ordered : w.read.Pairwise (Prod.Lex (· < ·) (· < ·))
  passed : w.due = true → ∀ place ∈ w.read, ∀ f, w.world.now.disk.spool = some f →
    w.world.Passed r.digest f place

variable {r : Reader} {w : Wake}

/-- A world that is at rest has no moment to come and no checkpoint to store. -/
theorem invariant_idle (hphase : w.world.phase = .idle)
    (hfresh : ∀ f, w.world.now.disk.spool = some f → f.generation < w.world.now.disk.files)
    (hnow : LeftBy w.before w.read w.world.now) (hpasses : w.tally.passes ≤ maxPasses)
    (hnext : w.due = true → w.tally.passes < maxPasses)
    (hformer : ∀ place ∈ w.read, place.1 < w.world.now.disk.files)
    (hordered : w.read.Pairwise (Prod.Lex (· < ·) (· < ·)))
    (hpassed : w.due = true → ∀ place ∈ w.read, ∀ f, w.world.now.disk.spool = some f →
      w.world.Passed r.digest f place) : Invariant r w := by
  refine ⟨hfresh, hnow, ?_, ?_, hpasses, hnext, hformer, hordered, hpassed⟩
  · intro todo offered hsweeping
    rw [hphase] at hsweeping
    cases hsweeping
  · intro c measured hnamed
    rw [hphase] at hnamed
    cases hnamed

theorem invariant_start (r : Reader) : Invariant r start := by
  refine invariant_idle rfl ?_ ⟨rfl, .refl _ _⟩ (Nat.zero_le _) ?_ ?_ .nil ?_
  · intro f hf
    cases hf
  · intro hdue
    cases hdue
  · intro place hplace
    cases hplace
  · intro hdue
    cases hdue

/-- A wake begins. -/
theorem Invariant.wake (h : Invariant r w) (hphase : w.world.phase = .idle) (dryRun : Bool) :
    Invariant r ⟨w.world, dryRun, ⟨0, 0⟩, true, [], w.world.now.log⟩ := by
  refine invariant_idle hphase h.fresh ⟨h.now.shared, .refl _ _⟩ (Nat.zero_le _)
    (fun _ => (by decide : 0 < maxPasses)) ?_ .nil ?_
  · intro place hplace
    cases hplace
  · intro _ place hplace
    cases hplace

/-- The others, and the rest of a sweep. -/
theorem Invariant.moved (h : Invariant r w) {world : World} (hmoved : w.world.Moved r world) :
    Invariant r { w with world := world } := by
  have hpassed := fun hdue place hmem =>
    hmoved.passed (h.former place hmem) (h.passed hdue place hmem)
  have hformer : ∀ place ∈ w.read, place.1 < world.now.disk.files := fun place hmem =>
    (h.former place hmem).trans_le hmoved.files_le
  cases hmoved with
  | same => exact h
  | @appended f hf more =>
    refine ⟨?_, ⟨h.now.shared, h.now.posted⟩, h.todo, h.named, h.passes, h.next, hformer,
      h.ordered, hpassed⟩
    intro f' hf'
    cases hf'
    exact h.fresh f hf
  | renewed hgeneration phase hof =>
    refine ⟨?_, ⟨h.now.shared, h.now.posted⟩, ?_, ?_, h.passes, h.next, hformer, h.ordered,
      hpassed⟩
    · intro f' hf'
      cases hf'
      exact hgeneration ▸ Nat.lt_succ_self _
    · intro todo offered hphase
      obtain rfl | ⟨c, rfl⟩ := hof
      · exact h.todo todo offered hphase
      · cases hphase
    · intro c measured hphase
      obtain rfl | ⟨c', rfl⟩ := hof
      · exact h.named c measured hphase
      · cases hphase
  | proceeded hphase =>
    have hmoment := h.todo _ _ hphase _ (List.mem_cons_self ..)
    refine ⟨h.fresh, ⟨hmoment.shared, hmoment.posted⟩, ?_, ?_, h.passes, h.next, hformer,
      h.ordered, hpassed⟩
    · intro todo' offered' hphase' moment hmem
      cases hphase'
      exact h.todo _ _ hphase moment (List.mem_cons_of_mem _ hmem)
    · intro c measured hnamed
      cases hnamed
  | rested hphase =>
    exact invariant_idle rfl h.fresh h.now h.passes h.next hformer h.ordered hpassed
  | named hphase =>
    refine ⟨h.fresh, h.now, ?_, ?_, h.passes, h.next, hformer, h.ordered, hpassed⟩
    · intro todo offered hsweeping
      cases hsweeping
    · intro c measured hnamed
      cases hnamed
      rfl
  | stored hphase =>
    exact invariant_idle rfl h.fresh ⟨h.named _ _ hphase, h.now.posted.stored _ _⟩ h.passes
      h.next hformer h.ordered hpassed
  | unstored hphase =>
    exact invariant_idle rfl h.fresh h.now h.passes h.next hformer h.ordered hpassed

/-- The process is killed, and its wake with it. -/
theorem Invariant.crash (h : Invariant r w) :
    Invariant r { w with world := World.step r w.world .crash, due := false } := by
  refine invariant_idle rfl h.fresh ⟨h.now.shared, h.now.posted.killed⟩ h.passes ?_ h.former
    h.ordered ?_
  · intro hdue
    cases hdue
  · intro hdue
    cases hdue

/-- What a sweep has read is passed if another one follows. -/
theorem passed_sweep (hphase : w.world.phase = .idle) (hnow : LeftBy w.before w.read w.world.now)
    {conditions : Conditions} {swept : Swept}
    (hswept : (sweepOnce ⟨r, conditions⟩ w.dryRun w.tally.records w.world.now).1 = some swept)
    (hcomplete : swept.complete = true) {place : ℕ × ℕ}
    (hplace : place ∈ readBy r.digest w.world.now ∨
      ∀ f, w.world.now.disk.spool = some f → w.world.Passed r.digest f place) :
    ∀ f, w.world.now.disk.spool = some f → World.Passed r.digest
      (World.step r w.world (.sweep conditions w.dryRun w.tally.records)) f place := by
  obtain ⟨f, d, hfile, hdrain, hlines, hstored, hnext⟩ := sweepOnce_complete _ _ _ hswept hcomplete
  obtain ⟨hreaching, hsynced, hsame⟩ :=
    passOnce_reaching ⟨r, conditions⟩ w.dryRun w.tally.records hfile rfl hnow.shared hdrain
  have hdrained := drain_some hdrain
  have hsettling : (World.step r w.world
      (.sweep conditions w.dryRun w.tally.records)).settling =
      some (passOnce ⟨r, conditions⟩ w.dryRun w.tally.records w.world.now).2.journal.state := by
    obtain ⟨rest, hrest⟩ := hsynced.opened
    have hlast := hsynced.latest
    rw [← hrest, List.singleton_append, List.getLast?_cons] at hlast
    simp only [World.step, hphase, World.settling]
    rw [hsame hstored, hsynced.stored, ← hrest, List.singleton_append, List.tail_cons,
      Option.some.inj hlast]
  have hspool : (World.step r w.world (.sweep conditions w.dryRun w.tally.records)).now =
      w.world.now := by
    simp only [World.step, hphase]
  generalize (passOnce ⟨r, conditions⟩ w.dryRun w.tally.records w.world.now).2 = m
    at hreaching hsettling hnext
  obtain ⟨first, rest, hfirst⟩ := List.exists_cons_of_ne_nil hlines
  obtain ⟨hpos, hsize⟩ := hdrained.lt_next (hfirst ▸ List.mem_cons_self ..)
  -- A state behind what was read has left the first byte, so it has the name of the file.
  have hrestart :
      Identity.restart r.digest m.journal.state.spool f m.journal.state.offset = none := by
    refine restart_eq_none_iff.mpr
      ⟨hreaching.le_next.trans hsize, hreaching.named.resolve_right ?_⟩
    rintro ⟨hzero, -⟩
    omega
  intro f' hf'
  obtain rfl := Option.some.inj (hfile.symm.trans hf')
  obtain hread | hbefore := hplace
  · obtain ⟨f', d', hfile', hdrain', line, hline, rfl⟩ := mem_readBy hread
    obtain rfl := Option.some.inj (hfile.symm.trans hfile')
    obtain rfl := Except.ok.inj (hdrain.symm.trans hdrain')
    exact .inr ⟨rfl, _, hsettling, (hdrained.lt_next hline).1.trans_le hnext, hrestart⟩
  · obtain hlt | ⟨heq, c, hc, hoffset, hbehind⟩ := hbefore f hfile
    · exact .inl hlt
    · simp only [World.settling, hphase] at hc
      obtain rfl := Option.some.inj hc
      have hfirst := hdrained.first_le
      rw [Drain.first, hdrained.restarted, hbehind] at hfirst
      exact .inr ⟨heq, _, hsettling, (hoffset.trans_le hfirst).trans_le hnext, hrestart⟩

/-- A sweep of the wake. -/
theorem Invariant.sweep (h : Invariant r w) (hphase : w.world.phase = .idle) (hdue : w.due = true)
    (conditions : Conditions) (elapsed : ℕ) :
    Invariant r (step r w (.sweep conditions elapsed)) := by
  obtain ⟨-, hleaves⟩ := passOnce_leaves ⟨r, conditions⟩ w.dryRun w.tally.records h.now.shared
  simp only [step, hphase, hdue, if_true]
  refine ⟨?_, ?_, ?_, ?_, ?_, ?_, ?_, ?_, ?_⟩
  · simpa only [World.step, hphase] using h.fresh
  · simpa only [World.step, hphase] using h.now.mono (List.subset_append_left _ _)
  · intro todo offered hsweeping moment hmem
    simp only [World.step, hphase] at hsweeping
    cases hsweeping
    exact (hleaves moment (List.mem_of_mem_tail hmem)).behind h.now
  · intro c measured hnamed
    simp only [World.step, hphase] at hnamed
    cases hnamed
  · cases (sweepOnce ⟨r, conditions⟩ w.dryRun w.tally.records w.world.now).1 with
    | none => exact h.passes
    | some swept => exact h.next hdue
  · intro hgoes
    cases hswept : (sweepOnce ⟨r, conditions⟩ w.dryRun w.tally.records w.world.now).1 with
    | none => exact h.next hdue
    | some swept =>
      rw [hswept] at hgoes
      exact (goesOn_eq_true hgoes).2
  · intro place hmem
    simp only [World.step, hphase]
    obtain hmem | hmem := List.mem_append.mp hmem
    · exact h.former place hmem
    · obtain ⟨f, d, hfile, -, line, -, rfl⟩ := mem_readBy hmem
      exact h.fresh f hfile
  · refine List.pairwise_append.mpr ⟨h.ordered, ordered_readBy r.digest w.world.now, ?_⟩
    intro place hmem place' hread
    exact World.Passed.lex hphase (h.passed hdue place hmem) hread
  · intro hgoes place hmem
    cases hswept : (sweepOnce ⟨r, conditions⟩ w.dryRun w.tally.records w.world.now).1 with
    | none =>
      rw [hswept] at hgoes
      cases hgoes
    | some swept =>
      rw [hswept] at hgoes
      have hpassed := passed_sweep hphase h.now hswept (goesOn_eq_true hgoes).1
        ((List.mem_append.mp hmem).symm.imp_right (h.passed hdue place))
      simpa only [World.step, hphase] using hpassed

theorem Invariant.step (h : Invariant r w) (act : Act) : Invariant r (Wake.step r w act) := by
  cases act with
  | wake dryRun =>
    simp only [Wake.step]
    split
    · next hphase =>
      split
      · exact h
      · exact h.wake hphase dryRun
    · exact h
  | sweep conditions elapsed =>
    by_cases hsweeps : w.world.phase = .idle ∧ w.due = true
    · exact h.sweep hsweeps.1 hsweeps.2 conditions elapsed
    · simp only [Wake.step]
      split
      · next hphase =>
        rw [if_neg fun hdue => hsweeps ⟨hphase, hdue⟩]
        exact h
      · exact h
  | other act =>
    by_cases hcrash : act = .crash
    · subst hcrash
      exact h.crash
    by_cases hsweep : ∃ conditions dryRun carried, act = .sweep conditions dryRun carried
    · obtain ⟨conditions, dryRun, carried, rfl⟩ := hsweep
      exact h
    have hmoved := World.moved_step r w.world hcrash fun conditions dryRun carried heq =>
      hsweep ⟨conditions, dryRun, carried, heq⟩
    have hstep : Wake.step r w (.other act) = { w with world := World.step r w.world act } := by
      cases act with
      | sweep conditions dryRun carried => exact absurd ⟨_, _, _, rfl⟩ hsweep
      | crash => exact absurd rfl hcrash
      | _ => rfl
    rw [hstep]
    exact h.moved hmoved

theorem invariant_run (r : Reader) (acts : List Act) : Invariant r (run r start acts) := by
  suffices hrun : ∀ w, Invariant r w → Invariant r (run r w acts) from hrun _ (invariant_start r)
  induction acts with
  | nil => exact fun w h => h
  | cons act acts ih => exact fun w h => ih (Wake.step r w act) (h.step act)

/-- In every wake of every run, whatever the collector answers and whatever others do to the spool
meanwhile: what the sweeps read only goes up, by the file and by the place in it, so that no two of
them read the same record; every request since the wake began is about what it has read; and there
are at most `maxPasses` sweeps. -/
theorem wake_reads_once (r : Reader) (acts : List Act) :
    (run r start acts).read.Pairwise (Prod.Lex (· < ·) (· < ·)) ∧
      PostsRead (run r start acts).before (run r start acts).read
        (run r start acts).world.now.log ∧
      (run r start acts).tally.passes ≤ maxPasses :=
  have h := invariant_run r acts
  ⟨h.ordered, h.now.posted, h.passes⟩

end Wake

end Push

end Governance
