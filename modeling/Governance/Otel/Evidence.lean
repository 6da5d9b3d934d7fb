import Governance.Otel.Drain
import Governance.Spool.Refusals

/-!
# What a discard rests on

Every entry of the refusal table, in memory or on a disk that a crash can leave, is backed by
refusals that were observed (`EntryBacked`), because only `record_refusal` adds to the table
and it is only called behind a refusal. So a record that becomes eligible was refused in two
attempts recorded at least `MIN_SEPARATION_SECONDS` apart, or one of the same content was. The
records a walk jumps over have one refusal each, all of them in that walk.
-/

namespace Governance

open Utf8Text ByteLines

/-! ## Checkpoints in memory and on disk -/

namespace DurableSpool

/-- What holds of the checkpoint in memory and of those on every disk a crash can leave. -/
structure Everywhere (P : Checkpoint → Prop) (s : DurableSpool) : Prop where
  memory : P s.checkpoint
  disk : ∀ c, s.disk.checkpoint = some c → P c
  trail : ∀ d ∈ s.trail, ∀ c, d.checkpoint = some c → P c

/-- A property that does not look at the place in the file. -/
def PlaceFree (P : Checkpoint → Prop) : Prop :=
  ∀ c offset spool, P c → P { c with offset := offset, spool := spool }

namespace Everywhere

variable {P Q : Checkpoint → Prop} {s : DurableSpool} {env : SpoolEnv}

theorem mono (h : Everywhere P s) (hPQ : ∀ c, P c → Q c) : Everywhere Q s :=
  ⟨hPQ _ h.memory, fun c hc => hPQ c (h.disk c hc), fun d hd c hc => hPQ c (h.trail d hd c hc)⟩

theorem openAt {d : Disk} {trail : List Disk} (hdefault : P .default)
    (hd : ∀ c, d.checkpoint = some c → P c)
    (htrail : ∀ d ∈ trail, ∀ c, d.checkpoint = some c → P c) :
    Everywhere P { DurableSpool.openAt d with trail := trail } := by
  refine ⟨?_, hd, htrail⟩
  show P (d.checkpoint.getD .default)
  cases hc : d.checkpoint with
  | none => exact hdefault
  | some c => exact hd c hc

/-- A new checkpoint in memory. -/
theorem withCheckpoint (h : Everywhere P s) {c : Checkpoint} (hc : P c)
    (identity : Option Identity) :
    Everywhere P { s with checkpoint := c, pendingIdentity := identity } :=
  ⟨hc, h.disk, h.trail⟩

theorem persist (h : Everywhere P s) {d : Disk} (hd : ∀ c, d.checkpoint = some c → P c) :
    Everywhere P (s.persist d) := by
  refine ⟨h.memory, hd, ?_⟩
  intro d' hd'
  rcases List.mem_append.mp hd' with hd' | hd'
  · exact h.trail d' hd'
  · rw [List.mem_singleton.mp hd']
    exact hd

theorem setFile (h : Everywhere P s) (f : SpoolFile) : Everywhere P (s.setFile f) :=
  h.persist h.disk

theorem store (h : Everywhere P s) : Everywhere P s.store := by
  refine h.persist ?_
  intro c hc
  obtain rfl := Option.some.inj hc
  exact h.memory

theorem retain (h : Everywhere P s) (r : Record) : Everywhere P (s.retain env r).2 := by
  simp only [DurableSpool.retain]
  split
  · exact h
  · exact h.setFile _

theorem compact (hP : PlaceFree P) (h : Everywhere P s) :
    Everywhere P (s.compactIfStuck env).2 := by
  obtain hsame | ⟨f, -, -, -, hnew⟩ := compact_spec env s
  · rw [hsame]
    exact h
  · rw [hnew]
    exact ((h.setFile _).withCheckpoint (hP _ _ _ h.memory) _).store

/-- A commit writes the committed checkpoint, and then perhaps the same at another place. -/
theorem commitPast (hP : PlaceFree P) (h : Everywhere P s) {boundary lost now : ℕ}
    (hc : P (s.committed boundary lost now)) : Everywhere P (s.commitPast boundary lost now) := by
  have hstore := (h.withCheckpoint hc s.pendingIdentity).store
  by_cases hreclaim : ∃ f, s.disk.spool = some f ∧ reclaimAbove < boundary ∧
      f.bytes.length = boundary
  · obtain ⟨f, hf, habove, hsize⟩ := hreclaim
    rw [commitPast_reclaims lost now hf habove hsize]
    exact ((hstore.setFile _).withCheckpoint (hP _ _ _ hc) _).store
  · rw [commitPast_keeps lost now]
    · exact hstore
    · intro f hf habove hsize
      exact hreclaim ⟨f, hf, habove, hsize⟩

end Everywhere

end DurableSpool

/-! ## The refusals behind the table -/

/-- How many records an observation adds to `discarded_total`. -/
def Observation.given : Observation → ℕ
  | .skipped lines => lines
  | .discarded _ jumped _ => jumped.length + 1
  | _ => 0

/-- What the observations account for. -/
def accounted (log : List Observation) : ℕ := (log.map Observation.given).sum

/-- A refusal, recorded at `t`. -/
def refusal (p : Pending) (t : ℕ) : List Observation := [.attempt p .refused, .recorded p t]

/-- A record of this key was refused in an attempt recorded at `t`. -/
def RefusedAt (log : List Observation) (key : String) (t : ℕ) : Prop :=
  ∃ p : Pending, p.refusalKey = key ∧ refusal p t <:+: log

/-- Records of this key were refused in two attempts recorded far enough apart. -/
def Separated (log : List Observation) (key : String) : Prop :=
  ∃ t₁ t₂, t₁ + minSeparationSeconds ≤ t₂ ∧ RefusedAt log key t₁ ∧ RefusedAt log key t₂

/-- An entry of the table counts refusals that were observed. -/
structure EntryBacked (log : List Observation) (key : String) (e : QuarantineEntry) : Prop where
  once : 1 ≤ e.refusals → RefusedAt log key e.lastSeenUnix
  twice : 2 ≤ e.refusals → Separated log key

/-- A checkpoint whose table is backed and whose total is at most `bound`. -/
structure Backed (log : List Observation) (bound : ℕ) (c : Checkpoint) : Prop where
  entries : ∀ k e, (k, e) ∈ c.quarantine.entries → EntryBacked log k e
  total : c.discardedTotal ≤ bound

@[simp] theorem accounted_append (log log' : List Observation) :
    accounted (log ++ log') = accounted log + accounted log' := by
  simp [accounted]

theorem RefusedAt.mono {log log' : List Observation} {key : String} {t : ℕ}
    (h : RefusedAt log key t) (hlog : log <+: log') : RefusedAt log' key t := by
  obtain ⟨p, hp, hinfix⟩ := h
  exact ⟨p, hp, hinfix.trans hlog.isInfix⟩

theorem Separated.mono {log log' : List Observation} {key : String} (h : Separated log key)
    (hlog : log <+: log') : Separated log' key := by
  obtain ⟨t₁, t₂, ht, h₁, h₂⟩ := h
  exact ⟨t₁, t₂, ht, h₁.mono hlog, h₂.mono hlog⟩

theorem EntryBacked.mono {log log' : List Observation} {key : String} {e : QuarantineEntry}
    (h : EntryBacked log key e) (hlog : log <+: log') : EntryBacked log' key e :=
  ⟨fun hone => (h.once hone).mono hlog, fun htwo => (h.twice htwo).mono hlog⟩

namespace Backed

variable {log log' : List Observation} {bound bound' : ℕ} {c : Checkpoint}

theorem mono (h : Backed log bound c) (hlog : log <+: log') (hbound : bound ≤ bound') :
    Backed log' bound' c :=
  ⟨fun k e he => (h.entries k e he).mono hlog, h.total.trans hbound⟩

theorem default (log : List Observation) (bound : ℕ) : Backed log bound .default :=
  ⟨fun _ e he => absurd he List.not_mem_nil, Nat.zero_le _⟩

theorem placeFree (log : List Observation) (bound : ℕ) :
    DurableSpool.PlaceFree (Backed log bound) := by
  intro c offset spool h
  exact ⟨h.entries, h.total⟩

/-- Fewer entries are backed too. -/
theorem shrink (h : Backed log bound c) {q : Quarantine}
    (hsub : q.entries ⊆ c.quarantine.entries) : Backed log bound { c with quarantine := q } :=
  ⟨fun k e he => h.entries k e (hsub he), h.total⟩

end Backed

namespace Quarantine

/-- Recording a refusal that was observed leaves the table backed, and the answer `true` means
that two of them were far enough apart. -/
theorem refused_backed {log : List Observation} {q : Quarantine} {p : Pending} {now : ℕ}
    (hq : ∀ k e, (k, e) ∈ q.entries → EntryBacked log k e)
    (hnow : RefusedAt log p.refusalKey now) :
    (∀ k e, (k, e) ∈ (q.refused p.refusalKey now minSeparationSeconds).2.entries →
      EntryBacked log k e) ∧
    ((q.refused p.refusalKey now minSeparationSeconds).1 = true →
      Separated log p.refusalKey) := by
  obtain ⟨old, new, heq, hold, hnew⟩ := refused_spec q p.refusalKey now minSeparationSeconds
  have hbefore : EntryBacked log p.refusalKey old := by
    rcases hold with hmem | hzero
    · exact hq _ _ hmem
    · constructor <;> intro hpos <;> omega
  have hafter : EntryBacked log p.refusalKey new := by
    rcases hnew with rfl | ⟨hgap, rfl⟩
    · exact hbefore
    · refine ⟨fun _ => hnow, ?_⟩
      intro htwo
      have hpos : 0 < minSeparationSeconds := by decide
      exact ⟨old.lastSeenUnix, now, by omega, hbefore.once (by simp only at htwo; omega), hnow⟩
  rw [heq]
  refine ⟨?_, ?_⟩
  · intro k e he
    rcases mem_insert he with hpair | he
    · obtain ⟨rfl, rfl⟩ := Prod.mk.inj hpair
      exact hafter
    · exact hq k e he
  · intro heligible
    exact hafter.twice (of_decide_eq_true heligible)

end Quarantine

/-! ## The invariant of a run -/

/-- The observations of a walk so far: the refusal it starts with, and those it jumped over. -/
def walkLog (stuck : Pending) (t : ℕ) (jumped : List Pending) : List Observation :=
  refusal stuck t ++ jumped.map fun p => Observation.attempt p .refused

/-- Records in the order in which they end. -/
def InOrder (ps : List Pending) : Prop := ps.IsChain fun p q => p.boundary < q.boundary

/-- What a walk has established. -/
structure ProbeWalk (log : List Observation) (stuck : Pending) (jumped : List Pending) : Prop where
  separated : Separated log stuck.refusalKey
  observed : ∃ t, walkLog stuck t jumped <:+ log
  order : InOrder (stuck :: jumped)
  few : jumped.length ≤ maxLookahead

/-- What a discard rests on: two refusals of the record at the head, or of records of its
content, far enough apart; then, without anything in between, the walk, which starts with a
refusal of the record itself, has one refusal for each record jumped over and ends with the
acceptance of a record behind all of them. -/
structure Justified (before : List Observation) (stuck : Pending) (jumped : List Pending)
    (probe : Pending) : Prop where
  separated : Separated before stuck.refusalKey
  observed : ∃ t, walkLog stuck t jumped ++ [Observation.attempt probe .accepted] <:+ before
  order : InOrder (stuck :: jumped ++ [probe])
  few : jumped.length < maxLookahead

/-- What the consumer can rely on where it stands. -/
def PhaseInv (log : List Observation) : Phase → Prop
  | .refused p => [Observation.attempt p .refused] <:+ log
  | .eligible p => ProbeWalk log p []
  | .walking p jumped => ProbeWalk log p jumped
  | .probing p jumped probe => ProbeWalk log p jumped ∧ jumped.length < maxLookahead ∧
      (Drainer.cursor p jumped).boundary < probe.boundary
  | .confirmed p jumped probe => Justified log p jumped probe
  | _ => True

namespace Drainer

/-- Every discard so far was justified when it was made. -/
def PastJustified (log : List Observation) : Prop :=
  ∀ before stuck jumped probe after,
    log = before ++ Observation.discarded stuck jumped probe :: after →
      Justified before stuck jumped probe

/-- The invariant of a run. -/
structure Inv (d : Drainer) : Prop where
  backed : d.spool.Everywhere (Backed d.log (accounted d.log))
  phase : PhaseInv d.log d.phase
  past : PastJustified d.log

variable {env : SpoolEnv} {d : Drainer}

theorem inv_init : Inv init := by
  refine ⟨⟨.default _ _, ?_, ?_⟩, trivial, ?_⟩
  · intro c hc
    cases hc
  · intro disk hdisk c hc
    rw [List.mem_singleton.mp hdisk] at hc
    cases hc
  · intro before stuck jumped probe after h
    simp [init] at h

/-- An observation that is not a discard. -/
theorem PastJustified.append {log : List Observation} (h : PastJustified log) {o : Observation}
    (ho : ∀ stuck jumped probe, o = .discarded stuck jumped probe →
      Justified log stuck jumped probe) : PastJustified (log ++ [o]) := by
  intro before stuck jumped probe after heq
  obtain hnil | ⟨after', x, hafter⟩ := List.eq_nil_or_concat after
  · rw [hnil] at heq
    obtain ⟨rfl, hlast⟩ := List.append_inj' heq rfl
    exact ho stuck jumped probe (List.singleton_inj.mp hlast)
  · rw [hafter, List.concat_eq_append, ← List.cons_append, ← List.append_assoc] at heq
    exact h before stuck jumped probe after' (List.append_inj' heq rfl).1

/-- The spool's other callers do not touch what the invariant speaks of. -/
theorem Inv.withSpool (h : Inv d) {s : DurableSpool}
    (hs : s.Everywhere (Backed d.log (accounted d.log))) : Inv { d with spool := s } :=
  ⟨hs, h.phase, h.past⟩

/-- A step of the consumer that observes `o`. -/
theorem Inv.observe (h : Inv d) {s : DurableSpool} {phase : Phase} {o : Observation}
    (hs : s.Everywhere (Backed (d.log ++ [o]) (accounted (d.log ++ [o]))))
    (hphase : PhaseInv (d.log ++ [o]) phase)
    (ho : ∀ stuck jumped probe, o = .discarded stuck jumped probe →
      Justified d.log stuck jumped probe) : Inv ⟨s, phase, d.log ++ [o]⟩ :=
  ⟨hs, hphase, h.past.append ho⟩

/-- The answer to a request is no discard. -/
theorem Inv.attempted (h : Inv d) {s : DurableSpool} {phase : Phase} {p : Pending}
    {outcome : ProbeOutcome}
    (hs : s.Everywhere (Backed (d.log ++ [Observation.attempt p outcome])
      (accounted (d.log ++ [Observation.attempt p outcome]))))
    (hphase : PhaseInv (d.log ++ [Observation.attempt p outcome]) phase) :
    Inv ⟨s, phase, d.log ++ [Observation.attempt p outcome]⟩ := by
  apply h.observe hs hphase
  intro stuck jumped probe hdiscard
  cases hdiscard

/-- More observations back the same checkpoints. -/
theorem Inv.backed_append (h : Inv d) (o : Observation) :
    d.spool.Everywhere (Backed (d.log ++ [o]) (accounted (d.log ++ [o]))) := by
  apply h.backed.mono
  intro c hc
  refine hc.mono (List.prefix_append _ _) ?_
  rw [accounted_append]
  omega

end Drainer

/-- A probe is behind the record it was looked for from. -/
theorem DurableSpool.peekNext_boundary {env : SpoolEnv} {s : DurableSpool} {after probe : Pending}
    (h : s.peekNext env after = .ok (some probe)) : after.boundary < probe.boundary := by
  simp only [peekNext, peekAt] at h
  cases hdrain : drain env.digest s.disk.spool after.boundary s.checkpoint.spool with
  | error err => simp [hdrain] at h
  | ok out =>
    simp only [hdrain] at h
    cases hrestarted : out.restarted with
    | some why => simp [hrestarted] at h
    | none =>
      cases hfirst : out.lines.head? with
      | none => simp [hrestarted, hfirst] at h
      | some first =>
        simp only [hrestarted, hfirst, Option.isSome_none, Bool.false_eq_true, if_false] at h
        split at h
        · cases h
        · next pending identity heq =>
          split at heq
          · have hpending := (Prod.mk.inj (Except.ok.inj heq)).1
            have hprobe := Option.some.inj (Except.ok.inj h)
            cases hpending
            rw [← hprobe]
            exact lt_boundary hdrain hrestarted hfirst
          · cases (Prod.mk.inj (Except.ok.inj heq)).1
        · cases h

@[simp] theorem DurableSpool.committed_quarantine (s : DurableSpool) (boundary lost now : ℕ) :
    (s.committed boundary lost now).quarantine = s.checkpoint.quarantine := by
  simp only [committed, Checkpoint.recordDiscard]
  split <;> rfl

/-- A commit adds what it gives up to the total. -/
theorem Backed.committed {log : List Observation} {bound : ℕ} {s : DurableSpool}
    (h : Backed log bound s.checkpoint) {boundary lost now : ℕ}
    (hbound : s.checkpoint.discardedTotal + lost ≤ bound) :
    Backed log bound (s.committed boundary lost now) := by
  refine ⟨?_, ?_⟩
  · rw [DurableSpool.committed_quarantine]
    exact h.entries
  · rw [DurableSpool.committed_discardedTotal]
    exact hbound

/-- The loop of `next` adds to the total what it skips. -/
theorem DurableSpool.Everywhere.nextLoop {env : SpoolEnv} {log : List Observation} {bound now fuel : ℕ}
    {s : DurableSpool} (h : s.Everywhere (Backed log bound))
    (hbound : s.checkpoint.discardedTotal + s.skippedBy env now fuel ≤ bound) :
    (s.nextLoop env now fuel).2.Everywhere (Backed log bound) := by
  induction fuel generalizing s with
  | zero => exact h
  | succ fuel ih =>
    rw [DurableSpool.nextLoop]
    rw [DurableSpool.skippedBy] at hbound
    cases hpeek : s.peekAt env s.checkpoint.offset with
    | error err => exact h
    | ok out =>
      obtain ⟨peeked, identity⟩ := out
      simp only [hpeek] at hbound
      have hseen := h.withCheckpoint h.memory identity
      cases peeked with
      | empty => exact hseen
      | restarted =>
        exact ih (h.withCheckpoint (Backed.placeFree _ _ _ 0 identity h.memory) identity) hbound
      | undecodable boundary =>
        have htotal := commitPast_discardedTotal { s with pendingIdentity := identity } boundary 1 now
        simp only at hbound htotal
        refine ih (hseen.commitPast (.placeFree _ _) (.committed hseen.memory ?_)) ?_
        · simp only
          omega
        · omega
      | decoded p => exact hseen

namespace Drainer

variable {env : SpoolEnv} {d : Drainer}

theorem Inv.idle (h : Inv d) (hphase : d.phase = .idle) (now : ℕ) (outcome : ProbeOutcome) :
    Inv (d.consume env now outcome) := by
  let skipped := (d.spool.pruned now).skippedBy env now (d.spool.fileSize + 3)
  have hpruned : (d.spool.pruned now).Everywhere
      (Backed (d.log ++ [Observation.skipped skipped])
        (accounted (d.log ++ [Observation.skipped skipped]))) :=
    (h.backed_append _).withCheckpoint
      ((h.backed_append _).memory.shrink (Quarantine.prune_subset _ now)) _
  have hbound : (d.spool.pruned now).checkpoint.discardedTotal + skipped ≤
      accounted (d.log ++ [Observation.skipped skipped]) := by
    rw [accounted_append]
    exact Nat.add_le_add h.backed.memory.total (by simp [accounted, Observation.given])
  have hnext : (d.spool.next env now).2.Everywhere
      (Backed (d.log ++ [Observation.skipped skipped])
        (accounted (d.log ++ [Observation.skipped skipped]))) :=
    hpruned.nextLoop hbound
  have hother : ∀ stuck jumped probe, Observation.skipped skipped = .discarded stuck jumped probe →
      Justified d.log stuck jumped probe := by
    intro stuck jumped probe hdiscard
    cases hdiscard
  simp only [consume, hphase]
  split
  · next p s heq =>
    rw [heq] at hnext
    exact h.observe hnext trivial hother
  · next s heq =>
    rw [heq] at hnext
    exact h.observe hnext trivial hother

theorem Inv.offered (h : Inv d) {p : Pending} (hphase : d.phase = .offered p) (now : ℕ)
    (outcome : ProbeOutcome) : Inv (d.consume env now outcome) := by
  have hbacked := h.backed_append (.attempt p outcome)
  simp only [consume, hphase]
  cases outcome with
  | accepted => exact h.attempted hbacked trivial
  | refused => exact h.attempted hbacked (List.suffix_append _ _)
  | unknown => exact h.attempted hbacked trivial

theorem Inv.accepted (h : Inv d) {p : Pending} (hphase : d.phase = .accepted p) (now : ℕ)
    (outcome : ProbeOutcome) : Inv (d.consume env now outcome) := by
  simp only [consume, hphase]
  exact ⟨h.backed.commitPast (.placeFree _ _) (.committed h.backed.memory h.backed.memory.total),
    trivial, h.past⟩

/-- Recording a refusal. The table then has it, and a record that becomes eligible starts a
walk. -/
theorem Inv.refused (h : Inv d) {p : Pending} (hphase : d.phase = .refused p) (now : ℕ)
    (outcome : ProbeOutcome) : Inv (d.consume env now outcome) := by
  have hattempt : [Observation.attempt p .refused] <:+ d.log := by
    have hinv := h.phase
    rwa [hphase] at hinv
  have hwalk : refusal p now <:+ d.log ++ [Observation.recorded p now] := by
    obtain ⟨before, hbefore⟩ := hattempt
    refine ⟨before, ?_⟩
    rw [← hbefore, List.append_assoc]
    rfl
  have hbacked := h.backed_append (.recorded p now)
  have hnow : RefusedAt (d.log ++ [Observation.recorded p now]) p.refusalKey now :=
    ⟨p, rfl, hwalk.isInfix⟩
  obtain ⟨hentries, heligible⟩ := Quarantine.refused_backed hbacked.memory.entries hnow
  have hstored := (hbacked.withCheckpoint
    (c := { d.spool.checkpoint with quarantine :=
      (d.spool.checkpoint.quarantine.refused p.refusalKey now minSeparationSeconds).2 })
    ⟨hentries, hbacked.memory.total⟩ d.spool.pendingIdentity).store
  simp only [consume, hphase]
  refine h.observe hstored ?_ ?_
  · split
    · next htrue =>
      refine ⟨heligible htrue, ⟨now, ?_⟩, List.isChain_singleton _, Nat.zero_le _⟩
      simpa [walkLog] using hwalk
    · trivial
  · intro stuck jumped probe hdiscard
    cases hdiscard

theorem Inv.eligible (h : Inv d) {p : Pending} (hphase : d.phase = .eligible p) (now : ℕ)
    (outcome : ProbeOutcome) : Inv (d.consume env now outcome) := by
  have hwalk : ProbeWalk d.log p [] := by
    have hinv := h.phase
    rwa [hphase] at hinv
  simp only [consume, hphase]
  refine ⟨h.backed, ?_, h.past⟩
  split
  · trivial
  · exact hwalk

theorem Inv.walking (h : Inv d) {p : Pending} {jumped : List Pending}
    (hphase : d.phase = .walking p jumped) (now : ℕ) (outcome : ProbeOutcome) :
    Inv (d.consume env now outcome) := by
  have hwalk : ProbeWalk d.log p jumped := by
    have hinv := h.phase
    rwa [hphase] at hinv
  simp only [consume, hphase]
  split
  · exact ⟨h.backed, trivial, h.past⟩
  · next hfew =>
    have hlt : jumped.length < maxLookahead := Nat.lt_of_le_of_ne hwalk.few hfew
    split
    · next probe hpeek =>
      exact ⟨h.backed, ⟨hwalk, hlt, DurableSpool.peekNext_boundary hpeek⟩, h.past⟩
    · exact ⟨h.backed, trivial, h.past⟩

/-- A record behind the last one tried keeps the order. -/
theorem inOrder_append {p probe : Pending} {jumped : List Pending} (h : InOrder (p :: jumped))
    (hlater : (cursor p jumped).boundary < probe.boundary) :
    InOrder (p :: jumped ++ [probe]) := by
  refine List.isChain_append.mpr ⟨h, List.isChain_singleton _, ?_⟩
  intro x hx y hy
  obtain rfl : probe = y := by simpa using hy
  have hlast : x = cursor p jumped := by
    rw [List.getLast?_cons] at hx
    simpa [cursor] using hx.symm
  rw [hlast]
  exact hlater

/-- The answer to a probe. A refusal makes the walk longer, an acceptance ends it. -/
theorem Inv.probing (h : Inv d) {p probe : Pending} {jumped : List Pending}
    (hphase : d.phase = .probing p jumped probe) (now : ℕ) (outcome : ProbeOutcome) :
    Inv (d.consume env now outcome) := by
  obtain ⟨hwalk, hlt, hlater⟩ : ProbeWalk d.log p jumped ∧ jumped.length < maxLookahead ∧
      (cursor p jumped).boundary < probe.boundary := by
    have hinv := h.phase
    rwa [hphase] at hinv
  have horder := inOrder_append hwalk.order hlater
  have hseparated := hwalk.separated.mono (List.prefix_append d.log [.attempt probe outcome])
  have hbacked := h.backed_append (.attempt probe outcome)
  obtain ⟨t, before, hbefore⟩ := hwalk.observed
  have hobserved : walkLog p t jumped ++ [Observation.attempt probe outcome] <:+
      d.log ++ [Observation.attempt probe outcome] := by
    refine ⟨before, ?_⟩
    rw [← hbefore, List.append_assoc]
  simp only [consume, hphase]
  cases outcome with
  | accepted =>
    exact h.attempted hbacked ⟨hseparated, ⟨t, hobserved⟩, horder, hlt⟩
  | refused =>
    refine h.attempted hbacked ⟨hseparated, ⟨t, ?_⟩, horder, ?_⟩
    · simpa [walkLog] using hobserved
    · rw [List.length_append, List.length_singleton]
      omega
  | unknown => exact h.attempted hbacked trivial

theorem Inv.confirmed (h : Inv d) {p probe : Pending} {jumped : List Pending}
    (hphase : d.phase = .confirmed p jumped probe) (now : ℕ) (outcome : ProbeOutcome) :
    Inv (d.consume env now outcome) := by
  have hjustified : Justified d.log p jumped probe := by
    have hinv := h.phase
    rwa [hphase] at hinv
  have hbacked := h.backed_append (.discarded p jumped probe)
  have hforgotten := hbacked.withCheckpoint
    (hbacked.memory.shrink (Quarantine.forget_subset _ p.refusalKey)) d.spool.pendingIdentity
  simp only [consume, hphase]
  refine h.observe (hforgotten.commitPast (.placeFree _ _) (.committed hforgotten.memory ?_)) trivial ?_
  · rw [accounted_append]
    exact Nat.add_le_add h.backed.memory.total (by simp [accounted, Observation.given])
  · rintro stuck jumped' probe' heq
    cases heq
    exact hjustified

theorem inv_act (h : Inv d) (a : DrainAct) : Inv (d.act env a) := by
  cases a with
  | retain r => exact h.withSpool (h.backed.retain r)
  | compact => exact h.withSpool (h.backed.compact (.placeFree _ _))
  | step now outcome =>
    show Inv (d.consume env now outcome)
    cases hphase : d.phase with
    | idle => exact h.idle hphase now outcome
    | offered p => exact h.offered hphase now outcome
    | accepted p => exact h.accepted hphase now outcome
    | refused p => exact h.refused hphase now outcome
    | eligible p => exact h.eligible hphase now outcome
    | walking p jumped => exact h.walking hphase now outcome
    | probing p jumped probe => exact h.probing hphase now outcome
    | confirmed p jumped probe => exact h.confirmed hphase now outcome

theorem inv_reopen {disk : Disk} {trail : List Disk} {log : List Observation}
    (hdisk : ∀ c, disk.checkpoint = some c → Backed log (accounted log) c)
    (htrail : ∀ d ∈ trail, ∀ c, d.checkpoint = some c → Backed log (accounted log) c)
    (hpast : PastJustified log) : Inv (reopen disk trail log) :=
  ⟨.openAt (.default _ _) hdisk htrail, trivial, hpast⟩

theorem inv_event (h : Inv d) (e : DrainEvent) : Inv (d.event env e) := by
  cases e with
  | act a => exact inv_act h a
  | kill => exact inv_reopen h.backed.disk h.backed.trail h.past
  | crash a n =>
    have hact : Inv (d.act env a) := inv_act h a
    have htrail : ∀ disk ∈ (d.act env a).spool.trail.take (d.spool.trail.length + n + 1),
        ∀ c, disk.checkpoint = some c → Backed (d.act env a).log (accounted (d.act env a).log) c := by
      intro disk hdisk
      exact hact.backed.trail disk (List.mem_of_mem_take hdisk)
    refine inv_reopen ?_ htrail hact.past
    cases hlast : ((d.act env a).spool.trail.take (d.spool.trail.length + n + 1)).getLast? with
    | none => exact hact.backed.disk
    | some disk => exact htrail disk (List.mem_of_getLast? hlast)

theorem inv_run (events : List DrainEvent) (h : Inv d) : Inv (d.run env events) := by
  induction events generalizing d with
  | nil => exact h
  | cons e rest ih => exact ih (inv_event h e)

end Drainer

end Governance
