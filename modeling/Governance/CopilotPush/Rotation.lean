import Governance.CopilotPush.Conserve
import Governance.Lib.Runs

/-!
# A spool that others write

Copilot appends to the spool and may put another file in its place while a sweep is under way. A
sweep reads the file once, at its start; what it then does on disk and on the wire is a list of
moments, and an append, a replacement or a crash can fall between any two of them. Only the size
check of a reclaim and its truncation are one step.

The checkpoint on disk is `Anchored`: its offsets are at the first byte, or it names a file of the
generation it was measured against, and covers that file as long as it is in place.
-/

namespace Governance

open Utf8Text ByteLines

namespace Push

variable (env : PushEnv)

/-- `sweep::once` up to the reclaim, and whether it offers one. -/
def passOnce (dryRun : Bool) (carried : ℕ) (moment : Moment) : Bool × Machine :=
  let state := moment.disk.checkpoint.getD .default
  match drain env.digest moment.disk.spool state.offset state.spool with
  | .error _ => (false, .start moment (.new [] state none false))
  | .ok d =>
    let m := Machine.start moment (.new d.lines state d.identity d.restarted.isSome)
    if d.missing then (false, m)
    else if d.lines = [] then
      if dryRun then (false, m)
      else if d.restarted.isSome then m.commit env false 0
      else (true, m)
    else if dryRun then (false, m)
    else
      let outcome := both env d.nextOffset m
      (outcome.2.finished (carried + outcome.1.pushed) outcome.1.stalled env.now).commit env false 0

/-- A sweep in which nobody interferes. -/
theorem sweepOnce_machine (dryRun : Bool) (carried : ℕ) (moment : Moment) :
    (sweepOnce env dryRun carried moment).2 =
      if (passOnce env dryRun carried moment).1 then
        reclaim env (passOnce env dryRun carried moment).2
      else (passOnce env dryRun carried moment).2 := by
  cases hdrain : drain env.digest moment.disk.spool
      (moment.disk.checkpoint.getD .default).offset
      (moment.disk.checkpoint.getD .default).spool with
  | error err => simp only [sweepOnce, passOnce, hdrain, Bool.false_eq_true, if_false]
  | ok d =>
    simp only [sweepOnce, passOnce, hdrain]
    by_cases hmissing : d.missing = true
    · simp only [hmissing, if_true, Bool.false_eq_true, if_false]
    · by_cases hlines : d.lines = []
      · cases dryRun
        · by_cases hrestarted : d.restarted.isSome = true
          · simp only [hmissing, hlines, hrestarted, if_true, if_false, Bool.false_eq_true, closing]
          · simp only [hmissing, hlines, hrestarted, if_true, if_false, Bool.false_eq_true]
        · simp only [hmissing, hlines, if_true, if_false, Bool.false_eq_true]
      · cases dryRun
        · simp only [hmissing, hlines, if_false, Bool.false_eq_true, closing]
        · simp only [hmissing, hlines, if_true, if_false, Bool.false_eq_true]

/-! ## The steps -/

/-- What the process is doing. -/
inductive Phase where
  | idle
  | sweeping (todo : List Moment) (offered : Option Checkpoint)
  | emptied (state : Checkpoint)
  | named (state : Checkpoint) (measured : ℕ)

/-- The disk and the log, the process, and the files that there have been. -/
structure World where
  now : Moment
  phase : Phase
  seen : List SpoolFile

inductive Act where
  | append (more : Bytes)
  | replace (inode device : Option ℕ) (bytes : Bytes)
  | sweep (conditions : Conditions) (dryRun : Bool) (carried : ℕ)
  | proceed
  | reclaim
  | name
  | store (ok : Bool)
  | crash

namespace World

/-- No file and no checkpoint. -/
def start : World := ⟨⟨⟨none, none, [], 0, 0⟩, []⟩, .idle, []⟩

/-- Another disk, with the file on it. -/
def withFile (w : World) (disk : PushDisk) : World :=
  { w with now := ⟨disk, w.now.log⟩, seen := w.seen ++ disk.spool.toList }

/-- The reclaim is offered for this checkpoint and finds this file, of the size it wants. -/
def Truncates (w : World) (c : Checkpoint) (f : SpoolFile) : Prop :=
  w.phase = .sweeping [] (some c) ∧ w.now.disk.spool = some f ∧ reclaimAbove < c.offset ∧
    f.bytes.length = c.offset

/-- One step. What is not possible in a phase has no effect. -/
def step (r : Reader) (w : World) : Act → World
  | .append more =>
    match w.now.disk.spool with
    | none => w
    | some f => w.withFile { w.now.disk with spool := some (f.append more) }
  | .replace inode device bytes =>
    w.withFile { w.now.disk with
      spool := some ⟨inode, device, bytes, w.now.disk.files⟩
      files := w.now.disk.files + 1 }
  | .sweep conditions dryRun carried =>
    match w.phase with
    | .idle =>
      let pass := passOnce ⟨r, conditions⟩ dryRun carried w.now
      { w with phase :=
          .sweeping pass.2.trail.tail (if pass.1 then some pass.2.journal.state else none) }
    | _ => w
  | .proceed =>
    match w.phase with
    | .sweeping (moment :: todo) offered =>
      { w with
        now := ⟨{ w.now.disk with
          checkpoint := moment.disk.checkpoint
          ledger := moment.disk.ledger
          measured := moment.disk.measured }, moment.log⟩
        phase := .sweeping todo offered }
    | _ => w
  | .reclaim =>
    match w.phase with
    | .sweeping [] (some c) =>
      match w.now.disk.spool with
      | some f =>
        if reclaimAbove < c.offset ∧ f.bytes.length = c.offset then
          { w.withFile (w.now.disk.truncate f) with phase := .emptied c }
        else { w with phase := .idle }
      | none => { w with phase := .idle }
    | .sweeping [] none => { w with phase := .idle }
    | _ => w
  | .name =>
    match w.phase with
    | .emptied c =>
      { w with phase := .named (c.reclaimed r.digest w.now.disk) w.now.disk.generation }
    | _ => w
  | .store ok =>
    match w.phase with
    | .named c measured =>
      if ok then
        { w with
          now := ⟨{ w.now.disk with checkpoint := some c, measured := measured },
            w.now.log ++ [.stored measured c]⟩
          phase := .idle }
      else { w with phase := .idle }
    | _ => w
  | .crash => { w with now := ⟨w.now.disk, w.now.log ++ [.killed]⟩, phase := .idle }

/-- A run. -/
def run (r : Reader) (w : World) (acts : List Act) : World := acts.foldl (step r) w

end World

/-- No file passes for one of another generation. -/
def ToldApart (digest : Bytes → String) (seen : List SpoolFile) : Prop :=
  ∀ f ∈ seen, ∀ f' ∈ seen, f.bytes ≠ [] → f.generation ≠ f'.generation →
    Identity.same digest (.of digest f) f' = false

/-- The offsets are all at the first byte. -/
def Checkpoint.AtStart (c : Checkpoint) : Prop := c.offset = 0 ∧ ∀ signal, c.signalOffset signal = 0

/-- What a checkpoint on disk says. -/
def Anchored (r : Reader) (seen : List SpoolFile) (file : Option SpoolFile) (c : Checkpoint)
    (ledger : List Counted) (measured : ℕ) (log : List PushEvent) : Prop :=
  c.AtStart ∨ ∃ f₀ ∈ seen, f₀.bytes ≠ [] ∧ f₀.generation = measured ∧
    c.spool = some (.of r.digest f₀) ∧
    ∀ f, file = some f → f.generation = measured →
      (f.inode = f₀.inode ∧ f.device = f₀.device ∧ f₀.bytes <+: f.bytes) ∧
        Covers r log ledger f c

namespace Anchored

variable {r : Reader} {seen seen' : List SpoolFile} {file : Option SpoolFile} {c : Checkpoint}
  {ledger : List Counted} {measured : ℕ} {log log' : List PushEvent}

theorem mono (h : Anchored r seen file c ledger measured log) (hseen : seen ⊆ seen')
    (hlog : log ⊆ log') : Anchored r seen' file c ledger measured log' := by
  obtain hstart | ⟨f₀, hmem, hne, hgeneration, hspool, hcovers⟩ := h
  · exact .inl hstart
  · refine .inr ⟨f₀, hseen hmem, hne, hgeneration, hspool, ?_⟩
    intro f hf hmeasured
    exact ⟨(hcovers f hf hmeasured).1,
      (hcovers f hf hmeasured).2.mono hlog (List.Subset.refl _)⟩

theorem append {f : SpoolFile} (h : Anchored r seen (some f) c ledger measured log) (more : Bytes) :
    Anchored r seen (some (f.append more)) c ledger measured log := by
  obtain hstart | ⟨f₀, hmem, hne, hgeneration, hspool, hcovers⟩ := h
  · exact .inl hstart
  · refine .inr ⟨f₀, hmem, hne, hgeneration, hspool, ?_⟩
    intro f' hf' hmeasured
    cases hf'
    obtain ⟨⟨hinode, hdevice, hprefix⟩, hcover⟩ := hcovers f rfl hmeasured
    exact ⟨⟨hinode, hdevice, hprefix.trans (List.prefix_append _ _)⟩, hcover.append more⟩

/-- A file of a new generation is not the one that was measured. -/
theorem renew (h : Anchored r seen file c ledger measured log) {f : SpoolFile}
    (hfresh : ∀ f' ∈ seen, f'.generation < f.generation) :
    Anchored r seen (some f) c ledger measured log := by
  obtain hstart | ⟨f₀, hmem, hne, hgeneration, hspool, -⟩ := h
  · exact .inl hstart
  · refine .inr ⟨f₀, hmem, hne, hgeneration, hspool, ?_⟩
    intro f' hf' hmeasured
    cases hf'
    have hlt := hfresh f₀ hmem
    omega

/-- A sweep that does not start over reads a file that its checkpoint covers. -/
theorem covers {f : SpoolFile} (h : Anchored r seen (some f) c ledger measured log)
    (hapart : ToldApart r.digest seen) (hf : f ∈ seen)
    (hrestart : Identity.restart r.digest c.spool f c.offset = none) : Covers r log ledger f c := by
  obtain hstart | ⟨f₀, hmem, hne, hgeneration, hspool, hcovers⟩ := h
  · exact Covers.of_zero r log ledger f hstart.1 hstart.2
  · by_cases hmeasured : f.generation = measured
    · exact (hcovers f rfl hmeasured).2
    · have hsame := hapart f₀ hmem f hf hne (by rw [hgeneration]; exact Ne.symm hmeasured)
      rw [hspool, Identity.restart] at hrestart
      split at hrestart
      · cases hrestart
      · simp only [hsame, Bool.false_eq_true, if_false] at hrestart
        cases hrestart

/-- What a sweep leaves behind. -/
theorem of_kept {f : SpoolFile} {base moment : Moment} (h : Kept r f base moment) (hf : f ∈ seen)
    (hbase : Anchored r seen (some f) (base.disk.checkpoint.getD .default) base.disk.ledger
      base.disk.measured base.log) :
    Anchored r seen (some f) (moment.disk.checkpoint.getD .default) moment.disk.ledger
      moment.disk.measured moment.log := by
  obtain ⟨hcheckpoint, hledger, hmeasured⟩ | ⟨c, hcheckpoint, hspool, hmeasured, hcovers⟩ :=
    h.checkpoint
  · rw [hcheckpoint, hledger, hmeasured]
    exact hbase.mono (List.Subset.refl _) h.log
  · rw [hcheckpoint, hmeasured, Option.getD_some]
    by_cases hne : f.bytes = []
    · -- Every offset is a boundary of an empty file.
      have hzero : ∀ signal, c.signalOffset signal = 0 := by
        intro signal
        have hle := (hcovers.boundary signal).1
        rw [hne, List.length_nil] at hle
        omega
      refine .inl ⟨?_, hzero⟩
      rw [hcovers.shared, hzero, hzero]
      rfl
    · refine .inr ⟨f, hf, hne, rfl, hspool, ?_⟩
      intro f' hf' _
      cases hf'
      exact ⟨⟨rfl, rfl, List.prefix_refl _⟩, hcovers⟩

end Anchored

/-! ## The pass of a sweep -/

/-- The journal knows what is stored, and the moments go from the first to the present one. -/
structure Synced (base : Moment) (m : Machine) : Prop where
  stored : m.journal.stored = m.now.disk.checkpoint.getD .default
  opened : [base] <+: m.trail
  latest : m.trail.getLast? = some m.now

namespace Synced

variable {env : PushEnv} {offer : Offer} {lines : List Line} {base : Moment} {m : Machine}

theorem post (h : Synced base m) (signal : Signal) (ls : List Line) :
    Synced base (m.post env signal ls).2 :=
  ⟨h.stored, h.opened.trans (List.prefix_append _ _), List.getLast?_concat⟩

theorem commit (env : PushEnv) (h : Synced base m) (inLoop : Bool) (owed : ℕ) :
    Synced base (m.commit env inLoop owed).2 ∧ ((m.commit env inLoop owed).1 = true →
      (m.commit env inLoop owed).2.journal.state =
        (m.commit env inLoop owed).2.journal.stored) := by
  obtain ⟨hsame, hcommit⟩ | ⟨-, m', hm', hcommit⟩ := Machine.commit_cases env m inLoop owed
  · rw [hcommit]
    exact ⟨h, fun _ => hsame⟩
  · have h' : Synced base m' := by
      rw [hm']
      exact ⟨h.stored, h.opened, h.latest⟩
    have htried : m'.tried = m.tried := by rw [hm']
    rw [hcommit]
    cases hok : env.storeOk m.tried with
    | true =>
      rw [if_pos rfl]
      simp only [Machine.store, htried, hok, if_true]
      exact ⟨⟨rfl, h'.opened.trans (List.prefix_append _ _), List.getLast?_concat⟩,
        fun _ => trivial⟩
    | false =>
      simp only [Machine.store, htried, hok, Bool.false_eq_true, if_false]
      exact ⟨⟨h'.stored, h'.opened, h'.latest⟩, fun h => by cases h⟩

theorem advance (h : Synced base m) (signal : Signal) (reached refused : ℕ) (inLoop : Bool) :
    Synced base (m.advance env signal reached refused inLoop).2 := by
  have hcharged : Synced base (m.charge env signal reached refused) :=
    ⟨h.stored, h.opened, h.latest⟩
  exact (hcharged.commit env inLoop refused).1

theorem commitPass (h : Synced base m) (inLoop : Bool) (p : Progress) :
    Synced base (Push.commit env offer lines inLoop p m).2.2 := by
  simp only [Push.commit]
  split
  · exact h
  · exact h.advance _ _ _ inLoop

theorem step {a b : Progress × Machine} (h : Synced base a.2)
    (hstep : PassStep env offer lines a b) : Synced base b.2 := by
  cases hstep with
  | committed p m => exact h.commitPass true p
  | tallied m keeps => exact h
  | noted p m q => exact ⟨h.stored, h.opened, h.latest⟩
  | nothing m lt le none => exact h
  | declined p m => exact h.post _ _
  | accepted lt le answer => exact h.post _ _
  | gaveUp m key getLine => exact ⟨h.stored, h.opened, h.latest⟩
  | jumped key getLine kind lt getAhead none answer =>
    exact ⟨(h.post _ _).stored, (h.post _ _).opened, (h.post _ _).latest⟩

theorem steps {a b : Progress × Machine} (h : Synced base a.2)
    (hsteps : Relation.ReflTransGen (PassStep env offer lines) a b) : Synced base b.2 := by
  induction hsteps with
  | refl => exact h
  | tail _ hstep ih => exact ih.step hstep

theorem offerSignal (h : Synced base m) (signal : Signal) (last : ℕ) :
    Synced base (offerSignal env signal last m).2 := by
  rw [Push.offerSignal, exportSignal_machine]
  have hpass := steps (a := (.default, m)) h (exported_steps env ⟨signal, env.now, last⟩
    (pendingFor m.journal.state signal m.journal.lines) m)
  exact hpass.commitPass false _

theorem finished (h : Synced base m) (records : ℕ) (stalled : Bool) (now : ℕ) :
    Synced base (m.finished records stalled now) :=
  ⟨h.stored, h.opened, h.latest⟩

theorem both (env : PushEnv) (h : Synced base m) (last : ℕ) :
    Synced base (both env last m).2 := by
  rw [both_machine]
  have hpruned : Synced base (m.withQuarantine (m.journal.state.quarantine.prune env.now)) :=
    ⟨h.stored, h.opened, h.latest⟩
  exact (hpruned.offerSignal .metrics last).offerSignal .logs last

end Synced

theorem synced_start (moment : Moment) {lines : List Line} {identity : Option Identity}
    {restarted : Bool} : Synced moment (.start moment
      (.new lines (moment.disk.checkpoint.getD .default) identity restarted)) :=
  ⟨rfl, List.prefix_refl _, rfl⟩

/-- A sweep starts with a journal that its file bears out. -/
theorem journaled_start {r : Reader} {f : SpoolFile} {moment : Moment} {seen : List SpoolFile}
    {d : Drain} {c : Checkpoint} (hfile : moment.disk.spool = some f) (hf : f ∈ seen)
    (hapart : ToldApart r.digest seen) (hc : moment.disk.checkpoint.getD .default = c)
    (hanchored : Anchored r seen (some f) c moment.disk.ledger moment.disk.measured moment.log)
    (hdrain : drain r.digest (some f) c.offset c.spool = .ok d) :
    Journaled r f (d.first c.offset) d.nextOffset moment
      (.start moment (.new d.lines c d.identity d.restarted.isSome)) := by
  have hdrained := drain_some hdrain
  obtain ⟨hordered, hlines⟩ := drain_ordered hdrain
  have hstate : (Journal.new d.lines c d.identity d.restarted.isSome).state.offset =
      d.first c.offset := by
    rw [Journal.new, Drain.first]
    split <;> rfl
  have hcovers : Covers r moment.log moment.disk.ledger f
      (Journal.new d.lines c d.identity d.restarted.isSome).state := by
    rw [Journal.new]
    cases hrestarted : d.restarted with
    | some why =>
      refine Covers.of_zero _ _ _ _ rfl ?_
      intro signal
      cases signal <;> rfl
    | none =>
      rw [hdrained.restarted] at hrestarted
      exact hanchored.covers hapart hf hrestarted
  have hboundary : Boundary f.bytes (d.first c.offset) := by
    rw [← hstate]
    exact hcovers.boundary_offset
  obtain ⟨hnext, hle, hrecords⟩ := hdrained.records hboundary
  have hbelow : below d.lines (d.first c.offset) = [] := below_eq_nil hlines
  have hkept : Kept r f moment moment := ⟨List.Subset.refl _, .inl ⟨rfl, rfl, rfl⟩⟩
  refine ⟨hfile, hdrained.identity, hrecords, ⟨hordered, ?_, .inl hcovers.shared⟩, hstate.ge, ?_,
    hnext, hcovers, hkept, ?_⟩
  · show 0 = (below d.lines
        (Journal.new d.lines c d.identity d.restarted.isSome).state.offset).length
    rw [hstate, hbelow]
    rfl
  · rw [Machine.start, hstate]
    exact hle
  · intro moment' hmem
    obtain rfl := List.mem_singleton.mp hmem
    exact hkept

/-- What a sweep does up to its reclaim. -/
theorem passOnce_spec (env : PushEnv) (dryRun : Bool) (carried : ℕ) {moment : Moment}
    {seen : List SpoolFile} (hfile : ∀ f, moment.disk.spool = some f → f ∈ seen)
    (hapart : ToldApart env.digest seen)
    (hanchored : Anchored env.toReader seen moment.disk.spool
      (moment.disk.checkpoint.getD .default) moment.disk.ledger moment.disk.measured moment.log) :
    Synced moment (passOnce env dryRun carried moment).2 ∧
      ((passOnce env dryRun carried moment).1 = true →
        (passOnce env dryRun carried moment).2.journal.state =
          (passOnce env dryRun carried moment).2.journal.stored) ∧
      ∀ moment' ∈ (passOnce env dryRun carried moment).2.trail,
        Anchored env.toReader seen moment.disk.spool (moment'.disk.checkpoint.getD .default)
          moment'.disk.ledger moment'.disk.measured moment'.log := by
  have hidle : ∀ {lines : List Line} {identity : Option Identity} {restarted : Bool},
      ∀ moment' ∈ (Machine.start moment (.new lines (moment.disk.checkpoint.getD .default)
        identity restarted)).trail,
        Anchored env.toReader seen moment.disk.spool (moment'.disk.checkpoint.getD .default)
          moment'.disk.ledger moment'.disk.measured moment'.log := by
    intro _ _ _ moment' hmem
    obtain rfl := List.mem_singleton.mp hmem
    exact hanchored
  generalize hc : moment.disk.checkpoint.getD .default = c at hidle hanchored
  simp only [passOnce, hc]
  cases hdrain : drain env.digest moment.disk.spool c.offset c.spool with
  | error err => exact ⟨hc ▸ synced_start moment, nofun, hidle⟩
  | ok d =>
    simp only
    by_cases hmissing : d.missing = true
    · rw [if_pos hmissing]
      exact ⟨hc ▸ synced_start moment, nofun, hidle⟩
    · rw [if_neg hmissing]
      cases hspool : moment.disk.spool with
      | none =>
        rw [hspool] at hdrain
        cases hdrain
        exact absurd rfl hmissing
      | some f =>
        rw [hspool] at hdrain hanchored
        have hmem := hfile f hspool
        have hstart := journaled_start hspool hmem hapart hc hanchored hdrain
        have hsynced : Synced moment
            (.start moment (.new d.lines c d.identity d.restarted.isSome)) :=
          hc ▸ synced_start moment
        have hkept : ∀ {m : Machine},
            Journaled env.toReader f (d.first c.offset) d.nextOffset moment m →
            ∀ moment' ∈ m.trail, Anchored env.toReader seen (some f)
              (moment'.disk.checkpoint.getD .default) moment'.disk.ledger moment'.disk.measured
              moment'.log := by
          intro m hm moment' hmem'
          exact Anchored.of_kept (hm.trail moment' hmem') hmem (hc ▸ hanchored)
        by_cases hlines : d.lines = []
        · rw [if_pos hlines]
          cases dryRun with
          | true => exact ⟨hsynced, nofun, hkept hstart⟩
          | false =>
            by_cases hrestarted : d.restarted.isSome = true
            · rw [if_neg Bool.false_ne_true, if_pos hrestarted]
              obtain ⟨hsynced', hstored⟩ := hsynced.commit env false 0
              exact ⟨hsynced', hstored, hkept (hstart.commit false 0)⟩
            · rw [if_neg Bool.false_ne_true, if_neg hrestarted]
              refine ⟨hsynced, fun _ => ?_, hkept hstart⟩
              rw [Machine.start, Journal.new, if_neg hrestarted]
        · rw [if_neg hlines]
          cases dryRun with
          | true => exact ⟨hsynced, nofun, hkept hstart⟩
          | false =>
            rw [if_neg Bool.false_ne_true]
            obtain ⟨hsynced', hstored⟩ :=
              ((hsynced.both env d.nextOffset).finished _ _ _).commit env false 0
            exact ⟨hsynced', hstored, hkept ((hstart.both.finished _ _ _).commit false 0)⟩

end Push

end Governance
