import Governance.Spool.Concurrency

/-!
# A crash loses nothing

A crash keeps the disk as one of the durable steps left it: `World.crash` cuts the trail of
a call behind any of its steps and opens the spool again on the last disk of what is left.

When no record is held across a compaction, the checkpoint and the record held always name
the file on disk (`Steady`). So a disk between two steps of a call is one of three: the disk
before or after the call, or one whose checkpoint names a file of the generation before.
That one is read from its first byte (`Resumes.former`). In all of them the records not yet
settled are offered in order (`crash_offers`), if every record fits the reader's window.
-/

namespace Governance

open Utf8Text ByteLines

/-- The identity of a file of the trail, of the generation of `file`, which it names. -/
def Current (digest : Bytes → String) (trail : List Disk) (spool : Option Identity)
    (file : Option SpoolFile) : Prop :=
  ∃ f f₀ d, file = some f ∧ spool = some (Identity.of digest f₀) ∧ d ∈ trail ∧
    d.spool = some f₀ ∧ f₀.bytes ≠ [] ∧ f₀.generation = f.generation ∧
    Identity.same digest (Identity.of digest f₀) f = true

namespace Current

variable {digest : Bytes → String} {trail trail' : List Disk} {spool : Option Identity}
  {file : Option SpoolFile} {f f' : SpoolFile}

theorem names (h : Current digest trail spool file) : Names digest spool file := by
  obtain ⟨f, f₀, d, hf, hspool, -, -, -, -, hsame⟩ := h
  intro I hI
  obtain rfl : Identity.of digest f₀ = I := by simpa [hspool] using hI
  exact ⟨f, hf, hsame⟩

theorem mono (h : Current digest trail spool file) (hsub : trail ⊆ trail') :
    Current digest trail' spool file := by
  obtain ⟨f, f₀, d, hf, hspool, hd, hrest⟩ := h
  exact ⟨f, f₀, d, hf, hspool, hsub hd, hrest⟩

theorem append (h : Current digest trail spool (some f)) (more : Bytes) :
    Current digest trail spool (some (f.append more)) := by
  obtain ⟨f₁, f₀, d, hf, hspool, hd, hf₀, hne, hgen, hsame⟩ := h
  obtain rfl := Option.some.inj hf
  exact ⟨_, f₀, d, rfl, hspool, hd, hf₀, hne, hgen, Identity.same_append digest hsame more⟩

/-- Once the file is replaced, its identity is a former one. -/
theorem former (h : Current digest trail spool (some f)) (hgen : f'.generation = f.generation + 1) :
    Former digest trail spool (some f') := by
  obtain ⟨f₁, f₀, d, hf, hspool, hd, hf₀, hne, hgen₀, -⟩ := h
  obtain rfl := Option.some.inj hf
  exact ⟨f', f₀, d, rfl, hspool, hd, hf₀, hne, by omega⟩

end Current

namespace World

variable (env : SpoolEnv)

/-- What holds between calls when no record is held across a compaction. -/
structure Steady (w : World) : Prop where
  last : w.spool.trail.getLast? = some w.spool.disk
  names : Names env.digest w.spool.checkpoint.spool w.spool.disk.spool
  stored : (w.spool.disk.checkpoint.getD .default).Agrees w.spool.checkpoint
  current : w.spool.checkpoint.offset = 0 ∨
    Current env.digest w.spool.trail w.spool.checkpoint.spool w.spool.disk.spool
  pending : w.held = [] ∨
    Current env.digest w.spool.trail w.spool.pendingIdentity w.spool.disk.spool

variable {env} {w : World} {k j : ℕ}

theorem steady_init (env : SpoolEnv) : Steady env init :=
  ⟨rfl, names_none _ _, ⟨rfl, rfl, rfl⟩, .inl rfl, .inl rfl⟩

/-- The calls of a steady world are safe. -/
theorem Steady.safe (h : Steady env w) (act : Act) : w.Safe env act := by
  have hpending : ∀ {boundary}, w.held ≠ [] → ¬ w.Overruns env boundary := by
    rintro boundary hne ⟨-, f, I, hf, hI, hsame, -⟩
    obtain hnil | hcurrent := h.pending
    · exact hne hnil
    · obtain ⟨f', hf', hsame'⟩ := hcurrent.names I hI
      obtain rfl : f = f' := by simpa [hf] using hf'
      rw [hsame] at hsame'
      cases hsame'
  cases act with
  | advance now =>
    intro p i rest hheld
    exact hpending (by rw [hheld]; exact List.cons_ne_nil _ _)
  | discardConfirmed now =>
    intro p i hlast
    refine hpending ?_
    rintro hnil
    rw [hnil] at hlast
    cases hlast
  | compact =>
    rintro ⟨-, f, I, hf, hI, hsame, -⟩
    obtain ⟨f', hf', hsame'⟩ := h.names I hI
    obtain rfl : f = f' := by simpa [hf] using hf'
    rw [hsame] at hsame'
    cases hsame'
  | retain r => trivial
  | next now => trivial
  | recordRefusal now => trivial
  | peekNext => trivial

/-! ## The calls keep a world steady -/

theorem Steady.retain (h : Steady env w) (hfile : FileHolds w.spool.disk.spool (w.retained.drop k))
    (r : Record) : Steady env (w.step env (.retain r)) := by
  obtain ⟨err, hretain⟩ | ⟨f, hretain, -, hold, -⟩ := @DurableSpool.retain_spec env _ _ hfile r
  · simp only [step, hretain]
    exact h
  · have hcurrent : ∀ {spool}, Current env.digest w.spool.trail spool w.spool.disk.spool →
        Current env.digest (w.spool.setFile f).trail spool (w.spool.setFile f).disk.spool := by
      intro spool hcurrent
      obtain ⟨f₀, hf₀⟩ : ∃ f₀, w.spool.disk.spool = some f₀ := by
        obtain ⟨f₀, -, -, hf₀, -⟩ := hcurrent
        exact ⟨f₀, hf₀⟩
      rw [hf₀] at hcurrent
      show Current env.digest _ spool (some f)
      rw [hold f₀ hf₀]
      exact (hcurrent.append _).mono (List.subset_append_left _ _)
    simp only [step, hretain]
    refine ⟨List.getLast?_concat, ?_, h.stored, h.current.imp_right hcurrent,
      h.pending.imp_right hcurrent⟩
    intro I hI
    obtain ⟨f₀, hf₀, hsame⟩ := h.names I hI
    exact ⟨f, rfl, by rw [hold f₀ hf₀]; exact Identity.same_append _ hsame _⟩

theorem Steady.withQuarantine (h : Steady env w) (q : Quarantine) :
    Steady env { w with spool := { w.spool with
      checkpoint := { w.spool.checkpoint with quarantine := q } } } :=
  ⟨h.last, h.names, ⟨h.stored.offset, h.stored.spool, h.stored.discardedTotal⟩, h.current,
    h.pending⟩

/-- The checkpoint of a steady world is measured against its file. -/
theorem Steady.measured (h : Steady env w) (hinv : InvAt env w k j)
    (hdist : Distinct env.digest w.spool.trail) :
    j ≤ (w.retained.drop k).length ∧
      w.spool.checkpoint.offset = endOf ((w.retained.drop k).take j) := by
  cases hinv.sound.resume with
  | measured le offset _ => exact ⟨le, offset⟩
  | former hformer =>
    obtain ⟨f, I, hf, hI, hsame⟩ := hformer.not_same hinv.sound.mem hdist
    obtain ⟨f', hf', hsame'⟩ := h.names I hI
    obtain rfl : f = f' := by simpa [hf] using hf'
    rw [hsame] at hsame'
    cases hsame'

theorem Steady.next (hcodec : env.codec.Lawful) (h : Steady env w) (hinv : InvAt env w k j)
    (hdist : Distinct env.digest w.spool.trail) (now : ℕ) :
    Steady env (w.step env (.next now)) := by
  have hpruned := h.withQuarantine (w.spool.checkpoint.quarantine.prune now)
  obtain ⟨hj, hoffset⟩ := h.measured hinv hdist
  obtain ⟨r, rest, err, -, -, hnext⟩ | ⟨-, hnext⟩ | ⟨r, rest, p, hcons, -, -, -, hnext⟩ :=
    DurableSpool.next_measured hcodec hinv.sound.file hj hoffset h.names now
  · simp only [step, hnext]
    exact ⟨h.last, h.names, hpruned.stored, h.current, .inl rfl⟩
  · simp only [step, hnext]
    exact ⟨h.last, h.names, hpruned.stored, h.current, .inl rfl⟩
  · simp only [step, hnext]
    refine ⟨h.last, h.names, hpruned.stored, h.current, .inr ?_⟩
    have hne : w.retained.drop k ≠ [] := by
      apply List.ne_nil_of_drop_ne_nil (i := j)
      rw [hcons]
      exact List.cons_ne_nil _ _
    -- the record offered was read from the file as it is
    cases hf : w.spool.disk.spool with
    | none =>
      have hfile := hinv.sound.file
      rw [hf] at hfile
      exact absurd hfile.eq_nil hne
    | some f =>
      have hbytes : f.bytes = recordBytes (w.retained.drop k) :=
        FileHolds.bytes (hf ▸ hinv.sound.file)
      refine ⟨f, f, w.spool.disk, hf, by simp [DurableSpool.read, hf], hinv.sound.mem, hf, ?_, rfl,
        Identity.same_of _ _⟩
      rw [hbytes]
      exact mt eq_nil_of_recordBytes hne

theorem Steady.commit (h : Steady env w) (hheld : w.held ≠ []) (boundary lost now : ℕ)
    (delivered discarded : List ℕ) :
    Steady env ⟨w.spool.commitPast boundary lost now, w.retained, delivered, discarded, []⟩ := by
  have hcurrent := h.pending.resolve_left hheld
  by_cases hreclaim : ∃ f, w.spool.disk.spool = some f ∧ reclaimAbove < boundary ∧
      f.bytes.length = boundary
  · obtain ⟨f, hf, habove, hsize⟩ := hreclaim
    rw [DurableSpool.commitPast_reclaims lost now hf habove hsize]
    exact ⟨List.getLast?_concat, names_none _ _, ⟨rfl, rfl, rfl⟩, .inl rfl, .inl rfl⟩
  · rw [DurableSpool.commitPast_keeps lost now]
    · have hspool := DurableSpool.committed_spool w.spool boundary lost now
      refine ⟨List.getLast?_concat, ?_, ⟨rfl, rfl, rfl⟩, .inr ?_, .inl rfl⟩
      · show Names env.digest (w.spool.committed boundary lost now).spool w.spool.disk.spool
        rw [hspool]
        exact hcurrent.names
      · show Current env.digest _ (w.spool.committed boundary lost now).spool w.spool.disk.spool
        rw [hspool]
        exact hcurrent.mono (List.subset_append_left _ _)
    · intro f hf habove hsize
      exact hreclaim ⟨f, hf, habove, hsize⟩

theorem Steady.compact (h : Steady env w) (hheld : w.held = []) :
    Steady env (w.step env .compact) := by
  obtain hsame | ⟨f, -, -, -, hnew⟩ := DurableSpool.compact_spec env w.spool
  · simp only [step, hsame]
    exact h
  · simp only [step, hnew]
    exact ⟨List.getLast?_concat, names_none _ _, ⟨rfl, rfl, rfl⟩, .inl rfl, .inl hheld⟩

theorem Steady.recordRefusal (h : Steady env w) (now : ℕ) :
    Steady env (w.step env (.recordRefusal now)) := by
  simp only [step]
  split
  · exact h
  · refine ⟨List.getLast?_concat, h.names, ⟨rfl, rfl, rfl⟩, h.current.imp_right ?_,
      h.pending.imp_right ?_⟩
    · intro hcurrent
      exact hcurrent.mono (List.subset_append_left _ _)
    · intro hcurrent
      exact hcurrent.mono (List.subset_append_left _ _)

theorem Steady.peekNext (h : Steady env w) : Steady env (w.step env .peekNext) := by
  simp only [step]
  split
  · exact h
  · next p i hlast =>
    split
    · refine ⟨h.last, h.names, h.stored, h.current, .inr (h.pending.resolve_left ?_)⟩
      rintro hnil
      rw [hnil] at hlast
      cases hlast
    · exact h

theorem steady_step (hcodec : env.codec.Lawful) (h : Steady env w) (hinv : InvAt env w k j)
    (hdist : Distinct env.digest w.spool.trail) {act : Act} (hact : act = .compact → w.held = []) :
    Steady env (w.step env act) := by
  cases act with
  | retain r => exact h.retain hinv.sound.file r
  | compact => exact h.compact (hact rfl)
  | next now => exact h.next hcodec hinv hdist now
  | advance now =>
    simp only [step]
    split
    · exact h
    · next hheld => exact h.commit (by rw [hheld]; exact List.cons_ne_nil _ _) _ _ _ _ _
  | recordRefusal now => exact h.recordRefusal now
  | peekNext => exact h.peekNext
  | discardConfirmed now =>
    obtain hsame | ⟨q, probe, i, -, htwo, hstep⟩ := step_discardConfirmed env w now
    · rw [hsame]
      exact h
    · rw [hstep]
      refine (h.withQuarantine q).commit ?_ _ _ _ _ _
      apply List.ne_nil_of_length_pos
      exact Nat.lt_of_lt_of_le Nat.zero_lt_two htwo

/-- The record held by a steady world is the one behind its checkpoint. -/
theorem Steady.fresh (h : Steady env w) (hinv : InvAt env w k j)
    (hdist : Distinct env.digest w.spool.trail) (hheld : w.held ≠ []) : Fresh env w k j := by
  obtain ⟨f, f₀, d, hf, hpending, hd, hf₀, hne, hfresh⟩ := hinv.held.resolve_left hheld
  apply hfresh
  by_contra hgen
  have hsame := hdist d hd _ hinv.sound.mem f₀ f hf₀ hf hne hgen
  obtain ⟨f', hf', hsame'⟩ := (h.pending.resolve_left hheld).names _ hpending
  obtain rfl : f = f' := by simpa [hf] using hf'
  rw [hsame] at hsame'
  cases hsame'

/-! ## Crashes -/

/-- The spool opened again on its disk. -/
def reopen (w : World) : World :=
  { w with spool := { DurableSpool.openAt w.spool.disk with trail := w.spool.trail }, held := [] }

variable (env) in
/-- A crash behind the `n`-th durable step of a call, and the spool opened again. Before the
first step, the call has not been made. -/
def crash (w : World) (act : Act) (n : ℕ) : World :=
  let trail := (w.step env act).spool.trail.take (w.spool.trail.length + n)
  let disk := trail.getLast?.getD w.spool.disk
  { (if n = 0 then w else w.step env act) with
    spool := { DurableSpool.openAt disk with trail := trail }, held := [] }

theorem crash_zero (h : Steady env w) (act : Act) : w.crash env act 0 = w.reopen := by
  have htrail : (w.step env act).spool.trail.take (w.spool.trail.length + 0) = w.spool.trail :=
    (List.prefix_iff_eq_take.mp (trail_step env w act)).symm
  simp only [crash, htrail, h.last, Option.getD_some, if_true, reopen]

/-- Behind the last step, the call has been made. -/
theorem crash_done {act : Act} {n : ℕ} (h : Steady env (w.step env act)) (hn : n ≠ 0)
    (hlen : (w.step env act).spool.trail.length ≤ w.spool.trail.length + n) :
    w.crash env act n = (w.step env act).reopen := by
  simp only [crash, List.take_of_length_le hlen, h.last, Option.getD_some, if_neg hn, reopen]

/-- Behind a step that is not the last, the disk is the one of that step. -/
theorem crash_between {act : Act} {n : ℕ} {before rest : List Disk} {d : Disk}
    (htrail : (w.step env act).spool.trail = before ++ d :: rest)
    (hlen : before.length + 1 = w.spool.trail.length + n) (hn : n ≠ 0) :
    w.crash env act n = { w.step env act with
      spool := { DurableSpool.openAt d with trail := before ++ [d] }, held := [] } := by
  have htake : (w.step env act).spool.trail.take (w.spool.trail.length + n) = before ++ [d] := by
    rw [htrail, ← hlen, List.append_cons, List.take_left']
    simp
  simp only [crash, htake, List.getLast?_concat, Option.getD_some, if_neg hn]

/-- Opening a spool again changes nothing on a steady disk. -/
theorem Steady.reopen (h : Steady env w) (hinv : InvAt env w k j) : InvAt env w.reopen k j := by
  refine ⟨hinv.le, ?_, hinv.resolved, .inl rfl, ?_⟩
  · exact hinv.sound.inMemory rfl rfl (hinv.sound.resume.congr h.stored.offset h.stored.spool)
  · show w.discarded.length ≤ (w.spool.disk.checkpoint.getD .default).discardedTotal
    rw [h.stored.discardedTotal]
    exact hinv.counted

end World

/-- Between the replacement of the file and the store of the checkpoint, the disk has a
checkpoint for the former file: the new one is read from its first byte. -/
theorem Sound.replaced {env : SpoolEnv} {s : DurableSpool} {rs rs' : List Record} {j : ℕ}
    (h : Sound env s rs j) {f f' : SpoolFile} {c : Checkpoint} (hf : s.disk.spool = some f)
    (hgen : f'.generation = f.generation + 1) (hholds : FileHolds (some f') rs')
    (hc : s.disk.checkpoint = some c) (hcurrent : Current env.digest s.trail c.spool (some f)) :
    Sound env { DurableSpool.openAt (s.setFile f').disk with trail := (s.setFile f').trail } rs' 0 := by
  refine ⟨hholds, List.mem_append_right _ (List.mem_singleton.mpr rfl), ?_, ?_⟩
  · intro d hd f₀ hf₀
    refine ⟨f', rfl, ?_⟩
    rcases List.mem_append.mp hd with hd | hd
    · obtain ⟨f₁, hf₁, hle⟩ := h.newest d hd f₀ hf₀
      obtain rfl : f = f₁ := by simpa [hf] using hf₁
      omega
    · obtain rfl := List.mem_singleton.mp hd
      obtain rfl : f' = f₀ := by simpa using hf₀
      exact le_rfl
  · apply Resumes.former
    show Former env.digest (s.trail ++ [_]) (s.disk.checkpoint.getD .default).spool (some f')
    rw [hc]
    exact (hcurrent.former hgen).mono (List.subset_append_left _ _)

namespace World

variable {env : SpoolEnv} {w : World} {k j : ℕ}

/-- A crash within a commit. The trail has one new disk, or three when the commit empties
the file: the new checkpoint, the empty file, the checkpoint reset. -/
theorem inv_crash_commit {w' : World} (h : Steady env w') (hinv : InvAt env w' k j)
    (hdist : Distinct env.digest w'.spool.trail) (htrail : w'.spool.trail = w.spool.trail)
    {m lost now : ℕ} {p : Pending} {i : Option ℕ} (hm : w'.held[m]? = some (p, i))
    {act : Act} {delivered discarded : List ℕ}
    (hstep : w.step env act =
      ⟨w'.spool.commitPast p.boundary lost now, w'.retained, delivered, discarded, []⟩)
    (hdone : Inv env (w.step env act)) {n : ℕ} (hn : n ≠ 0)
    (hlen : w.spool.trail.length + n < (w.step env act).spool.trail.length) :
    Inv env (w.crash env act n) := by
  have hheld : w'.held ≠ [] := by
    rintro hnil
    rw [hnil] at hm
    cases hm
  have hfresh := h.fresh hinv hdist hheld
  obtain ⟨hlt, hboundary, -⟩ := hfresh.chain m p i hm
  by_cases hreclaim : ∃ f, w'.spool.disk.spool = some f ∧ reclaimAbove < p.boundary ∧
      f.bytes.length = p.boundary
  · obtain ⟨f, hf, habove, hsize⟩ := hreclaim
    have hcommit := DurableSpool.commitPast_reclaims lost now hf habove hsize
    obtain ⟨k', j', hinv'⟩ := hdone
    rw [hstep, hcommit] at hinv'
    -- the emptied file says that every record is settled
    have hall : w'.retained.length ≤ k' :=
      List.drop_eq_nil_iff.mp (eq_nil_of_recordBytes hinv'.sound.file)
    have hresolved : ∀ i < w'.retained.length, i ∈ delivered ∨ i ∈ discarded := by
      intro i hi
      exact hinv'.resolved i (by omega)
    have hsound := hinv.sound.committed (Nat.succ_le_of_lt hlt) hboundary hfresh.pending lost now
    have hbytes : f.bytes = recordBytes (w'.retained.drop k) := FileHolds.bytes (hf ▸ hinv.sound.file)
    have hlast : j + m + 1 = (w'.retained.drop k).length := by
      apply eq_length_of_endOf (Nat.succ_le_of_lt hlt)
      rw [← hboundary, ← hsize, hbytes, endOf]
    have hle := hinv.le
    rw [List.length_drop] at hlast
    let c := w'.spool.committed p.boundary lost now
    have hsteps : (w.step env act).spool.trail = w'.spool.trail ++
        [{ w'.spool.disk with checkpoint := some c }, ⟨some (DurableSpool.emptied f), some c⟩,
          ⟨some (DurableSpool.emptied f), some { c with offset := 0, spool := none }⟩] := by
      rw [hstep, hcommit]
      simp only [DurableSpool.store, DurableSpool.setFile, DurableSpool.persist,
        List.append_assoc, List.cons_append, List.nil_append]
      rfl
    rw [hsteps, List.length_append, htrail] at hlen
    obtain rfl | rfl : n = 1 ∨ n = 2 := by
      simp only [List.length_cons, List.length_nil] at hlen
      omega
    · rw [crash_between hsteps (by rw [htrail]) hn, hstep]
      refine ⟨k, j + m + 1, hle, hsound.inMemory rfl rfl (hsound.resume.congr rfl rfl), ?_,
        .inl rfl, hinv'.counted⟩
      intro i hi
      exact hresolved i (by omega)
    · rw [crash_between (hsteps.trans (List.append_cons ..))
        (by rw [List.length_append, htrail]; rfl) hn, hstep]
      refine ⟨w'.retained.length, 0, le_rfl, ?_, ?_, .inl rfl, hinv'.counted⟩
      · rw [List.drop_length]
        refine hsound.replaced hf (show (DurableSpool.emptied f).generation = _ from rfl) rfl rfl ?_
        have hcurrent := h.pending.resolve_left hheld
        rw [hf] at hcurrent
        rw [DurableSpool.committed_spool]
        exact hcurrent.mono (List.subset_append_left _ _)
      · intro i hi
        exact hresolved i (by omega)
  · rw [hstep, DurableSpool.commitPast_keeps lost now] at hlen
    · simp only [DurableSpool.store, DurableSpool.persist, List.length_append,
        List.length_singleton, htrail] at hlen
      omega
    · intro f hf habove hsize
      exact hreclaim ⟨f, hf, habove, hsize⟩

/-- A crash within a compaction: behind the rename, the checkpoint is the one of the file that
was replaced. -/
theorem inv_crash_compact (h : Steady env w) (hinv : InvAt env w k j)
    (hdist : Distinct env.digest w.spool.trail) {n : ℕ} (hn : n ≠ 0)
    (hlen : w.spool.trail.length + n < (w.step env .compact).spool.trail.length) :
    Inv env (w.crash env .compact n) := by
  obtain hsame | ⟨f, hf, habove, -, hnew⟩ := DurableSpool.compact_spec env w.spool
  · simp only [step, hsame] at hlen
    omega
  · obtain ⟨hj, hoffset⟩ := h.measured hinv hdist
    let f' := DurableSpool.compacted env f w.spool.checkpoint.offset
    have hsteps : (w.step env .compact).spool.trail = w.spool.trail ++
        [{ w.spool.disk with spool := some f' }, ⟨some f',
          some { w.spool.checkpoint with offset := 0, spool := none }⟩] := by
      simp only [step, hnew, DurableSpool.store, DurableSpool.setFile, DurableSpool.persist,
        List.append_assoc, List.cons_append, List.nil_append]
      rfl
    rw [hsteps, List.length_append] at hlen
    obtain rfl : n = 1 := by
      simp only [List.length_cons, List.length_nil] at hlen
      omega
    have hcurrent := h.current.resolve_left (by omega)
    rw [hf] at hcurrent
    obtain ⟨c, hc⟩ : ∃ c, w.spool.disk.checkpoint = some c := by
      cases hdisk : w.spool.disk.checkpoint with
      | some c => exact ⟨c, rfl⟩
      | none =>
        -- without a checkpoint on disk the offset is zero
        have hzero := h.stored.offset
        rw [hdisk] at hzero
        have hdefault : w.spool.checkpoint.offset = 0 := hzero.symm
        omega
    have hcspool : c.spool = w.spool.checkpoint.spool := by
      have hstored := h.stored.spool
      rw [hc] at hstored
      exact hstored
    have hbytes : f.bytes = recordBytes (w.retained.drop k) := FileHolds.bytes (hf ▸ hinv.sound.file)
    have hholds : FileHolds (some f') (w.retained.drop (k + j)) := by
      show recordBytes _ = f.bytes.drop w.spool.checkpoint.offset
      rw [hoffset, hbytes, drop_recordBytes, List.drop_drop]
    have hle := hinv.le
    rw [List.length_drop] at hj
    rw [crash_between hsteps rfl hn]
    simp only [step]
    refine ⟨k + j, 0, by show k + j ≤ w.retained.length; omega,
      hinv.sound.replaced hf rfl hholds hc (hcspool ▸ hcurrent), hinv.resolved, .inl rfl, ?_⟩
    show w.discarded.length ≤ (w.spool.disk.checkpoint.getD .default).discardedTotal
    rw [h.stored.discardedTotal]
    exact hinv.counted

/-- Wherever a call is cut off, the world reopened is sound. -/
theorem inv_crash (hcodec : env.codec.Lawful) (h : Steady env w) (hinv : Inv env w) {act : Act}
    (hdist : Distinct env.digest w.spool.trail) (hact : act = .compact → w.held = []) (n : ℕ) :
    Inv env (w.crash env act n) := by
  obtain ⟨k, j, hinv⟩ := hinv
  have hdone : Inv env (w.step env act) := inv_step hcodec ⟨k, j, hinv⟩ hdist (h.safe act)
  have hsteady := steady_step hcodec h hinv hdist hact
  by_cases hn : n = 0
  · rw [hn, crash_zero h]
    exact ⟨k, j, h.reopen hinv⟩
  by_cases hlen : (w.step env act).spool.trail.length ≤ w.spool.trail.length + n
  · rw [crash_done hsteady hn hlen]
    obtain ⟨k', j', hinv'⟩ := hdone
    exact ⟨k', j', hsteady.reopen hinv'⟩
  -- what is left are the calls of two or three steps
  rw [not_le] at hlen
  cases act with
  | retain r =>
    exfalso
    obtain ⟨err, hretain⟩ | ⟨f, hretain, -⟩ := @DurableSpool.retain_spec env _ _ hinv.sound.file r
    · simp only [step, hretain] at hlen
      omega
    · simp only [step, hretain, DurableSpool.setFile, DurableSpool.persist, List.length_append,
        List.length_singleton] at hlen
      omega
  | compact => exact inv_crash_compact h hinv hdist hn hlen
  | next now =>
    exfalso
    obtain ⟨hj, hoffset⟩ := h.measured hinv hdist
    obtain ⟨r, rest, err, -, -, hnext⟩ | ⟨-, hnext⟩ | ⟨r, rest, p, -, -, -, -, hnext⟩ :=
      DurableSpool.next_measured hcodec hinv.sound.file hj hoffset h.names now
    all_goals
      simp only [step, hnext, DurableSpool.pruned, DurableSpool.read] at hlen
      omega
  | advance now =>
    cases hheld : w.held with
    | nil =>
      simp only [step, hheld] at hlen
      omega
    | cons x rest =>
      obtain ⟨p, i⟩ := x
      exact inv_crash_commit h hinv hdist rfl (m := 0) (by rw [hheld]; rfl)
        (by simp only [step, hheld]; rfl) hdone hn hlen
  | recordRefusal now =>
    exfalso
    simp only [step] at hlen
    split at hlen
    · omega
    · simp only [DurableSpool.recordRefusal, DurableSpool.store, DurableSpool.persist,
        List.length_append, List.length_singleton] at hlen
      omega
  | peekNext =>
    exfalso
    have htrail : (w.step env .peekNext).spool = w.spool := by
      simp only [step]
      split
      · rfl
      · split <;> rfl
    rw [htrail] at hlen
    omega
  | discardConfirmed now =>
    obtain hsame | ⟨q, probe, i, hm, -, hstep⟩ := step_discardConfirmed env w now
    · rw [hsame] at hlen
      omega
    · exact inv_crash_commit (w := w) (h.withQuarantine q) (hinv.withQuarantine q) hdist rfl hm
        hstep hdone hn hlen

variable (env) in
/-- A run in which no record is held across a compaction. -/
def Unheld : World → List Act → Prop
  | _, [] => True
  | w, act :: rest => (act = .compact → w.held = []) ∧ Unheld (w.step env act) rest

theorem steady_run (hcodec : env.codec.Lawful) (acts : List Act) {w : World} (h : Steady env w)
    (hinv : Inv env w) (hdist : Distinct env.digest (w.run env acts).spool.trail)
    (hunheld : Unheld env w acts) : Steady env (w.run env acts) ∧ Inv env (w.run env acts) := by
  induction acts generalizing w with
  | nil => exact ⟨h, hinv⟩
  | cons act rest ih =>
    have hdist' : Distinct env.digest w.spool.trail :=
      hdist.of_isPrefix (trail_run env w (act :: rest))
    obtain ⟨k, j, hinv⟩ := hinv
    exact ih (steady_step hcodec h hinv hdist' hunheld.1)
      (inv_step hcodec ⟨k, j, hinv⟩ hdist' (h.safe act)) hdist hunheld.2

end World

/-! ## What is offered afterwards -/

theorem Distinct.commitPast {env : SpoolEnv} {s : DurableSpool} (h : Distinct env.digest s.trail)
    (hmem : s.disk ∈ s.trail) (boundary lost now : ℕ) :
    Distinct env.digest (s.commitPast boundary lost now).trail := by
  by_cases hreclaim : ∃ f, s.disk.spool = some f ∧ reclaimAbove < boundary ∧
      f.bytes.length = boundary
  · obtain ⟨f, hf, habove, hsize⟩ := hreclaim
    rw [DurableSpool.commitPast_reclaims lost now hf habove hsize]
    -- the disk with the new checkpoint, then twice the emptied file
    refine ((h.append ?_).append ?_).append ?_
    · intro d hd f hf
      obtain rfl := List.mem_singleton.mp hd
      exact .inr ⟨s.disk, hmem, hf⟩
    · intro d hd f hf
      obtain rfl := List.mem_singleton.mp hd
      obtain rfl := Option.some.inj hf
      exact .inl rfl
    · intro d hd f hf
      obtain rfl := List.mem_singleton.mp hd
      obtain rfl := Option.some.inj hf
      exact .inl rfl
  · rw [DurableSpool.commitPast_keeps lost now]
    · refine h.append ?_
      intro d hd f hf
      obtain rfl := List.mem_singleton.mp hd
      exact .inr ⟨s.disk, hmem, hf⟩
    · intro f hf habove hsize
      exact hreclaim ⟨f, hf, habove, hsize⟩

/-- What a consumer is offered that delivers every record, one call of `next` at each of the
given times. -/
def DurableSpool.offered (env : SpoolEnv) : List ℕ → DurableSpool → List Pending
  | [], _ => []
  | now :: times, s =>
    match s.next env now with
    | (.ok (some p), s') => p :: offered env times (s'.advance p now)
    | _ => []

/-- A sound spool offers the records from where it resumes on. -/
theorem Sound.offered {env : SpoolEnv} (hcodec : env.codec.Lawful) (times : List ℕ)
    {s : DurableSpool} {rs : List Record} {j : ℕ} (h : Sound env s rs j)
    (hdist : Distinct env.digest s.trail) (hfits : ∀ r ∈ rs.drop j, r.fits = true)
    (hlen : (rs.drop j).length ≤ times.length) :
    List.Forall₂ (Offers env.codec) (s.offered env times) (rs.drop j) := by
  induction times generalizing s rs j with
  | nil =>
    rw [List.length_nil, Nat.le_zero, List.length_eq_zero_iff] at hlen
    rw [hlen]
    exact .nil
  | cons now times ih =>
    obtain ⟨r, rest, err, hcons, hlarge, -⟩ | ⟨c, hoffset, hj, hnames, -, hread⟩ :=
      DurableSpool.next_spec hcodec h.file h.resume h.mem hdist now
    · have hr := hfits r (by rw [hcons]; exact List.mem_cons_self)
      rw [hlarge] at hr
      cases hr
    · obtain ⟨hnil, hnext⟩ | ⟨r, rest, p, hcons, -, hoffers, hboundary, hnext⟩ := hread
      · simp only [DurableSpool.offered, hnext, hnil]
        exact .nil
      · have hlt : j < rs.length := by
          apply List.length_lt_of_drop_ne_nil
          rw [hcons]
          exact List.cons_ne_nil _ _
        have hrest : rs.drop (j + 1) = rest := by
          rw [← List.drop_drop, hcons, List.drop_one, List.tail_cons]
        have hsound : Sound env (s.read env c) rs j :=
          h.inMemory rfl rfl (.measured hj hoffset hnames)
        have hdist' : Distinct env.digest ((s.read env c).advance p now).trail :=
          Distinct.commitPast (s := s.read env c) hdist h.mem _ _ _
        rw [hcons, List.length_cons, List.length_cons] at hlen
        have htail : List.Forall₂ (Offers env.codec)
            (((s.read env c).advance p now).offered env times) rest := by
          obtain hkeep | ⟨hall, hempty⟩ :=
            hsound.commit_measured hlt hboundary (names_of _ _) 0 now
          · rw [← hrest]
            refine ih hkeep hdist' ?_ (by rw [hrest]; omega)
            intro r' hr'
            refine hfits r' ?_
            rw [hrest] at hr'
            rw [hcons]
            exact List.mem_cons_of_mem _ hr'
          · have hdone : rest = [] := by
              rw [← hrest]
              exact List.drop_of_length_le hall.ge
            rw [hdone]
            exact ih hempty hdist' (by simp) (by simp)
        simp only [DurableSpool.offered, hnext, hcons]
        exact .cons hoffers htail

namespace World

variable (env : SpoolEnv)

theorem trail_crash (w : World) (act : Act) (n : ℕ) :
    w.spool.trail <+: (w.crash env act n).spool.trail := by
  have htake : w.spool.trail = (w.step env act).spool.trail.take w.spool.trail.length :=
    List.prefix_iff_eq_take.mp (trail_step env w act)
  have hle : (w.step env act).spool.trail.take w.spool.trail.length <+:
      (w.step env act).spool.trail.take (w.spool.trail.length + n) := by
    apply List.take_prefix_take_left
    exact Nat.le_add_right _ _
  rw [← htake] at hle
  exact hle

theorem unheld_append {w : World} {acts : List Act} {act : Act}
    (h : Unheld env w (acts ++ [act])) :
    Unheld env w acts ∧ (act = .compact → (w.run env acts).held = []) := by
  induction acts generalizing w with
  | nil => exact ⟨trivial, h.1⟩
  | cons a acts ih =>
    obtain ⟨hfirst, hrest⟩ := h
    obtain ⟨hacts, hact⟩ := ih hrest
    exact ⟨⟨hfirst, hacts⟩, hact⟩

theorem inv_retains {w : World} (h : Inv env w) (more : List Record) :
    Inv env (w.run env (more.map .retain)) := by
  induction more generalizing w with
  | nil => exact h
  | cons r more ih =>
    obtain ⟨k, j, h⟩ := h
    have hfirst : Inv env (w.step env (.retain r)) := ⟨k, j, h.retain r⟩
    rw [List.map_cons, run]
    exact ih hfirst

/-- A run, a crash behind the `n`-th durable step of a last call, a reopen, and some retains. -/
def recovered (acts : List Act) (act : Act) (n : ℕ) (more : List Record) : World :=
  ((init.run env acts).crash env act n).run env (more.map .retain)

/-- After a run that holds no record across a compaction, a crash at any durable step of any
call, a reopen and further retains, the records offered are those retained, in order, from
some place on before which every record was delivered or counted. -/
theorem crash_offers (hcodec : env.codec.Lawful) (acts : List Act) (act : Act) (n : ℕ)
    (more : List Record) (hunheld : Unheld env init (acts ++ [act]))
    (hdist : Distinct env.digest (recovered env acts act n more).spool.trail)
    (hfits : ∀ r ∈ (recovered env acts act n more).retained, r.fits = true) :
    ∃ m, (∀ i < m, i ∈ (recovered env acts act n more).delivered ∨
        i ∈ (recovered env acts act n more).discarded) ∧
      ∀ times : List ℕ, (recovered env acts act n more).retained.length ≤ times.length →
        List.Forall₂ (Offers env.codec)
          ((recovered env acts act n more).spool.offered env times)
          ((recovered env acts act n more).retained.drop m) := by
  obtain ⟨hrun, hact⟩ := unheld_append env hunheld
  have hcrash : Distinct env.digest ((init.run env acts).crash env act n).spool.trail :=
    hdist.of_isPrefix (trail_run env _ _)
  have hacts : Distinct env.digest (init.run env acts).spool.trail :=
    hcrash.of_isPrefix (trail_crash env _ act n)
  obtain ⟨hsteady, hinv⟩ := steady_run hcodec acts (steady_init env) (inv_init env) hacts hrun
  obtain ⟨k, j, h⟩ := inv_retains env (inv_crash hcodec hsteady hinv hacts hact n) more
  refine ⟨k + j, h.resolved, ?_⟩
  intro times htimes
  rw [← List.drop_drop]
  refine Sound.offered hcodec times h.sound hdist ?_ ?_
  · intro r hr
    exact hfits r (List.mem_of_mem_drop (List.mem_of_mem_drop hr))
  · rw [List.length_drop, List.length_drop]
    exact (Nat.sub_le _ _).trans ((Nat.sub_le _ _).trans htimes)

/-- A small metrics record. -/
def small (b : UInt8) : Record := ⟨.metrics, [10, b], .protobuf⟩

/-- The commit of a first record is cut off behind its only step; a second record follows. -/
theorem crash_offers_second : (recovered numberedEnv [.retain (small 0), .next 7] (.advance 8) 1
      [small 1]).retained = [small 0, small 1] ∧
    ∃ m, (∀ i < m, i ∈ (recovered numberedEnv [.retain (small 0), .next 7] (.advance 8) 1
          [small 1]).delivered ∨
        i ∈ (recovered numberedEnv [.retain (small 0), .next 7] (.advance 8) 1
          [small 1]).discarded) ∧
      ∀ times : List ℕ, (recovered numberedEnv [.retain (small 0), .next 7] (.advance 8) 1
          [small 1]).retained.length ≤ times.length →
        List.Forall₂ (Offers numberedEnv.codec)
          ((recovered numberedEnv [.retain (small 0), .next 7] (.advance 8) 1
            [small 1]).spool.offered numberedEnv times)
          ((recovered numberedEnv [.retain (small 0), .next 7] (.advance 8) 1
            [small 1]).retained.drop m) := by
  obtain ⟨hgen, hfits, hretained⟩ :
      (recovered numberedEnv [.retain (small 0), .next 7] (.advance 8) 1
        [small 1]).spool.trail.all (fun d => d.spool.all fun f => f.generation = 0) = true ∧
      (recovered numberedEnv [.retain (small 0), .next 7] (.advance 8) 1
        [small 1]).retained.all Record.fits = true ∧
      (recovered numberedEnv [.retain (small 0), .next 7] (.advance 8) 1
        [small 1]).retained = [small 0, small 1] := by
    decide +kernel
  refine ⟨hretained, crash_offers numberedEnv (EnvelopeCodec.lawful_printed _ _) _ _ _ _
    ⟨nofun, nofun, nofun, trivial⟩ (distinct_of_generation hgen) ?_⟩
  intro r hr
  exact List.all_eq_true.mp hfits r hr

/-- No call of `next` gets past a record the reader cannot take. -/
theorem offered_too_large {env : SpoolEnv} (hcodec : env.codec.Lawful) {s : DurableSpool}
    {rs rest : List Record} {j : ℕ} {r : Record} (h : Sound env s rs j)
    (hdist : Distinct env.digest s.trail) (hcons : rs.drop j = r :: rest) (hlarge : r.fits = false)
    (times : List ℕ) : s.offered env times = [] := by
  cases times with
  | nil => rfl
  | cons now times =>
    obtain ⟨r', rest', err, -, -, hnext⟩ | ⟨c, -, -, -, -, hread⟩ :=
      DurableSpool.next_spec hcodec h.file h.resume h.mem hdist now
    · simp only [DurableSpool.offered, hnext]
    · obtain ⟨hnil, -⟩ | ⟨r', rest', p, hcons', hfits, -⟩ := hread
      · rw [hcons] at hnil
        cases hnil
      · rw [hcons] at hcons'
        obtain ⟨rfl, -⟩ := List.cons.inj hcons'
        rw [hlarge] at hfits
        cases hfits

/-- A first record that the reader cannot take is retained, and a crash behind its append
leaves a spool that never offers it. -/
theorem recovered_too_large {r : Record} (hroom : endOf [r] ≤ capacity) (hlarge : r.fits = false) :
    Distinct numberedEnv.digest (recovered numberedEnv [] (.retain r) 1 []).spool.trail ∧
      (recovered numberedEnv [] (.retain r) 1 []).retained = [r] ∧
      (recovered numberedEnv [] (.retain r) 1 []).delivered = [] ∧
      (recovered numberedEnv [] (.retain r) 1 []).discarded = [] ∧
      ∀ times, (recovered numberedEnv [] (.retain r) 1 []).spool.offered numberedEnv times = [] := by
  obtain ⟨s, hretain, hstands⟩ := Stands.first r hroom
  have hstep : init.step numberedEnv (.retain r) = ⟨s, [r], [], [], []⟩ := by
    simp only [step, hretain]
    rfl
  have hinv := (invAt_init numberedEnv).retain r
  have hsteady := (steady_init numberedEnv).retain (k := 0) rfl r
  have hlen : s.trail.length ≤ init.spool.trail.length + 1 := by
    obtain ⟨err, hspec⟩ | ⟨f, hspec, -⟩ :=
      @DurableSpool.retain_spec numberedEnv _ _ (invAt_init numberedEnv).sound.file r
    · rw [hretain] at hspec
      cases hspec
    · rw [hretain] at hspec
      obtain ⟨-, rfl⟩ := Prod.mk.inj hspec
      exact le_of_eq (List.length_append)
  have hcrash : recovered numberedEnv [] (.retain r) 1 [] = World.reopen ⟨s, [r], [], [], []⟩ := by
    have hdone := crash_done hsteady one_ne_zero (by rw [hstep]; exact hlen)
    rw [hstep] at hdone
    exact hdone
  rw [hstep] at hinv hsteady
  rw [hcrash]
  refine ⟨hstands.distinct, rfl, rfl, rfl, ?_⟩
  exact offered_too_large (EnvelopeCodec.lawful_printed _ _) (hsteady.reopen hinv).sound
    hstands.distinct rfl hlarge

theorem crash_never_offers :
    Unheld numberedEnv init [.retain oversize] ∧
    Distinct numberedEnv.digest (recovered numberedEnv [] (.retain oversize) 1 []).spool.trail ∧
    (recovered numberedEnv [] (.retain oversize) 1 []).retained = [oversize] ∧
    (recovered numberedEnv [] (.retain oversize) 1 []).delivered = [] ∧
    (recovered numberedEnv [] (.retain oversize) 1 []).discarded = [] ∧
    ∀ times, (recovered numberedEnv [] (.retain oversize) 1 []).spool.offered numberedEnv times =
      [] :=
  ⟨⟨nofun, trivial⟩, recovered_too_large (by rw [endOf_oversize]; decide) fits_oversize⟩

end World

end Governance
