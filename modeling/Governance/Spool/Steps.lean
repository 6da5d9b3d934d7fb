import Governance.Spool.Layout

/-!
# What the operations do to the records

`Resumes` is where `next` goes on reading: at the end of record `j`, when the checkpoint is
measured against the file as it is, or at the first byte, when it still names the file of a
former generation. The lemmas of this module give one operation each: `next_spec`,
`retain_spec`, `commitPast_keeps`, `commitPast_reclaims`, `compact_spec`.

That a checkpoint of a former generation is recognised rests on one assumption about the
file system, `Distinct`: the identity of a file that holds something is not the identity of
a file of another generation.
-/

namespace Governance

open Utf8Text ByteLines

/-- No file of the trail passes for a file of another generation. -/
def Distinct (digest : Bytes → String) (trail : List Disk) : Prop :=
  ∀ d ∈ trail, ∀ d' ∈ trail, ∀ f f', d.spool = some f → d'.spool = some f' → f.bytes ≠ [] →
    f.generation ≠ f'.generation → Identity.same digest (Identity.of digest f) f' = false

theorem Distinct.of_isPrefix {digest : Bytes → String} {trail trail' : List Disk}
    (h : Distinct digest trail') (hpre : trail <+: trail') : Distinct digest trail := by
  intro d hd d' hd'
  exact h d (hpre.subset hd) d' (hpre.subset hd')

/-- Files of one generation need not be told apart. -/
theorem distinct_of_generation {digest : Bytes → String} {trail : List Disk} {g : ℕ}
    (h : trail.all (fun d => d.spool.all fun f => f.generation = g) = true) :
    Distinct digest trail := by
  have hgen : ∀ d ∈ trail, ∀ f, d.spool = some f → f.generation = g := by
    intro d hd f hf
    have hall := List.all_eq_true.mp h d hd
    rw [hf] at hall
    simpa using hall
  intro d hd d' hd' f f' hf hf' _ hne
  exact absurd ((hgen d hd f hf).trans (hgen d' hd' f' hf').symm) hne

/-- A disk with an empty file, or with a file of the trail, adds nothing to tell apart. -/
theorem Distinct.append {digest : Bytes → String} {trail ds : List Disk}
    (h : Distinct digest trail) (hds : ∀ d ∈ ds, ∀ f, d.spool = some f →
      f.bytes = [] ∨ ∃ d' ∈ trail, d'.spool = some f) : Distinct digest (trail ++ ds) := by
  have hold : ∀ d ∈ trail ++ ds, ∀ f, d.spool = some f →
      f.bytes = [] ∨ ∃ d' ∈ trail, d'.spool = some f := by
    intro d hd f hf
    rcases List.mem_append.mp hd with hd | hd
    · exact .inr ⟨d, hd, hf⟩
    · exact hds d hd f hf
  intro d hd d' hd' f f' hf hf' hne hgen
  obtain hnil | ⟨e, he, hef⟩ := hold d hd f hf
  · exact absurd hnil hne
  · obtain hnil | ⟨e', he', hef'⟩ := hold d' hd' f' hf'
    · -- an empty file has no head
      rw [Bool.eq_false_iff]
      intro hsame
      have hhead := ((Identity.same_iff digest).mp hsame).1
      have hpos := List.length_pos_iff.mpr hne
      simp only [Identity.of, Identity.read, List.length_take, hnil, List.length_nil, headBytes]
        at hhead
      omega
    · exact h e he e' he' f f' hef hef' hne hgen

/-- The identity of a file of the trail, of another generation than `file`. -/
def Former (digest : Bytes → String) (trail : List Disk) (spool : Option Identity)
    (file : Option SpoolFile) : Prop :=
  ∃ f f₀ d, file = some f ∧ spool = some (Identity.of digest f₀) ∧ d ∈ trail ∧
    d.spool = some f₀ ∧ f₀.bytes ≠ [] ∧ f₀.generation ≠ f.generation

/-- Where a reader with this checkpoint goes on in a file that holds `rs`. -/
inductive Resumes (digest : Bytes → String) (trail : List Disk) (file : Option SpoolFile)
    (c : Checkpoint) (rs : List Record) : ℕ → Prop where
  | measured {j : ℕ} (le : j ≤ rs.length) (offset : c.offset = endOf (rs.take j))
      (names : Names digest c.spool file) : Resumes digest trail file c rs j
  | former (h : Former digest trail c.spool file) : Resumes digest trail file c rs 0

theorem Former.not_same {digest : Bytes → String} {trail : List Disk} {spool : Option Identity}
    {d : Disk} (h : Former digest trail spool d.spool) (hd : d ∈ trail)
    (hdist : Distinct digest trail) :
    ∃ f I, d.spool = some f ∧ spool = some I ∧ Identity.same digest I f = false := by
  obtain ⟨f, f₀, d₀, hf, hspool, hd₀, hf₀, hne, hgen⟩ := h
  exact ⟨f, _, hf, hspool, hdist d₀ hd₀ d hd f₀ f hf₀ hf hne hgen⟩

theorem restart_of_not_same {digest : Bytes → String} {I : Identity} {f : SpoolFile}
    (h : Identity.same digest I f = false) (offset : ℕ) :
    ∃ r, Identity.restart digest (some I) f offset = some r := by
  by_cases hlt : f.bytes.length < offset
  · exact ⟨.truncated, by simp [Identity.restart, hlt]⟩
  · exact ⟨.replaced, by simp [Identity.restart, hlt, h]⟩

/-- A read under the name of a former file notices, unless the first record stops it. -/
theorem peekAt_restarts {env : SpoolEnv} {s : DurableSpool} {rs : List Record} {f : SpoolFile}
    {I : Identity} (hholds : FileHolds s.disk.spool rs) (hf : s.disk.spool = some f)
    (hI : s.checkpoint.spool = some I) (hsame : Identity.same env.digest I f = false)
    (offset : ℕ) :
    (∃ r rest, rs = r :: rest ∧ r.fits = false ∧
      s.peekAt env offset = .error (.recordTooLarge 0)) ∨
    (∀ r rest, rs = r :: rest → r.fits = true) ∧
      s.peekAt env offset = .ok (.restarted, some (Identity.of env.digest f)) := by
  obtain ⟨why, hwhy⟩ := restart_of_not_same hsame offset
  rw [hf] at hholds
  have hlines : ∀ t ∈ rs.map Record.line, IsLine t := by
    intro t ht
    obtain ⟨r, -, rfl⟩ := List.mem_map.mp ht
    exact isLine_line r
  obtain ⟨t, ts, hts, hlarge, herr⟩ | ⟨hsmall, d, hd, hres, hid⟩ :=
    drain_restarted env.digest hholds.bytes hlines hwhy
  · obtain ⟨r, rest, rfl, rfl, -⟩ := List.map_eq_cons_iff.mp hts
    refine .inl ⟨r, rest, rfl, by simpa [Record.fits] using hlarge, ?_⟩
    simp only [DurableSpool.peekAt, hf, hI, herr]
  · refine .inr ⟨?_, ?_⟩
    · rintro r rest rfl
      simpa [Record.fits] using hsmall r.line (rest.map Record.line) rfl
    · simp only [DurableSpool.peekAt, hf, hI, hd, hres, hid, Option.isSome_some, if_true]

namespace DurableSpool

variable {env : SpoolEnv} {s : DurableSpool} {rs : List Record} {j : ℕ}

/-! ## `next` -/

/-- The state with its refusal table pruned. -/
def pruned (s : DurableSpool) (now : ℕ) : DurableSpool :=
  { s with checkpoint := { s.checkpoint with quarantine := s.checkpoint.quarantine.prune now } }

/-- The state after a successful read under the checkpoint `c`. -/
def read (env : SpoolEnv) (s : DurableSpool) (c : Checkpoint) : DurableSpool :=
  { s with checkpoint := c, pendingIdentity := s.disk.spool.map (Identity.of env.digest) }

/-- A turn of the loop of `next` that does not restart is its last. -/
theorem nextLoop_measured (hcodec : env.codec.Lawful) (hholds : FileHolds s.disk.spool rs)
    (hj : j ≤ rs.length) (hoffset : s.checkpoint.offset = endOf (rs.take j))
    (hnames : Names env.digest s.checkpoint.spool s.disk.spool) (now fuel : ℕ) :
    (∃ r rest err, rs.drop j = r :: rest ∧ r.fits = false ∧
      s.nextLoop env now (fuel + 1) = (.error err, s)) ∨
    (rs.drop j = [] ∧ s.nextLoop env now (fuel + 1) = (.ok none, s.read env s.checkpoint)) ∨
    ∃ r rest p, rs.drop j = r :: rest ∧ r.fits = true ∧ Offers env.codec p r ∧
      p.boundary = endOf (rs.take (j + 1)) ∧
      s.nextLoop env now (fuel + 1) = (.ok (some p), s.read env s.checkpoint) := by
  obtain ⟨hnil, hpeek⟩ | ⟨r, rest, hcons, ⟨hfits, hpeek⟩ | ⟨hfits, p, hoffers, hbound, hpeek⟩⟩ :=
    peekAt_spec hcodec hholds hnames hj
  · refine .inr (.inl ⟨hnil, ?_⟩)
    rw [nextLoop, hoffset, hpeek]
    rfl
  · refine .inl ⟨r, rest, .recordTooLarge (endOf (rs.take j)), hcons, hfits, ?_⟩
    rw [nextLoop, hoffset, hpeek]
  · refine .inr (.inr ⟨r, rest, p, hcons, hfits, hoffers, hbound, ?_⟩)
    rw [nextLoop, hoffset, hpeek]
    rfl

/-- `next` under a checkpoint measured against the file. It fails only on a record too large
for the reader, and changes nothing but the refusal table and the identity it has seen. -/
theorem next_measured (hcodec : env.codec.Lawful) (hholds : FileHolds s.disk.spool rs)
    (hj : j ≤ rs.length) (hoffset : s.checkpoint.offset = endOf (rs.take j))
    (hnames : Names env.digest s.checkpoint.spool s.disk.spool) (now : ℕ) :
    (∃ r rest err, rs.drop j = r :: rest ∧ r.fits = false ∧
      s.next env now = (.error err, s.pruned now)) ∨
    (rs.drop j = [] ∧ s.next env now = (.ok none, s.read env (s.pruned now).checkpoint)) ∨
    ∃ r rest p, rs.drop j = r :: rest ∧ r.fits = true ∧ Offers env.codec p r ∧
      p.boundary = endOf (rs.take (j + 1)) ∧
      s.next env now = (.ok (some p), s.read env (s.pruned now).checkpoint) :=
  nextLoop_measured (s := s.pruned now) hcodec hholds hj hoffset hnames now (s.fileSize + 2)

/-- `next` offers the record it resumes at. It fails only on a record too large for the
reader, and then changes nothing but the refusal table. -/
theorem next_spec (hcodec : env.codec.Lawful) (hholds : FileHolds s.disk.spool rs)
    (hres : Resumes env.digest s.trail s.disk.spool s.checkpoint rs j) (hmem : s.disk ∈ s.trail)
    (hdist : Distinct env.digest s.trail) (now : ℕ) :
    (∃ r rest err, rs.drop j = r :: rest ∧ r.fits = false ∧
      s.next env now = (.error err, s.pruned now)) ∨
    ∃ c, c.offset = endOf (rs.take j) ∧ j ≤ rs.length ∧ Names env.digest c.spool s.disk.spool ∧
      c.discardedTotal = s.checkpoint.discardedTotal ∧
      ((rs.drop j = [] ∧ s.next env now = (.ok none, s.read env c)) ∨
      ∃ r rest p, rs.drop j = r :: rest ∧ r.fits = true ∧ Offers env.codec p r ∧
        p.boundary = endOf (rs.take (j + 1)) ∧ s.next env now = (.ok (some p), s.read env c)) := by
  cases hres with
  | measured hj hoffset hnames =>
    obtain ⟨r, rest, err, hcons, hfits, hloop⟩ | ⟨hnil, hloop⟩ |
        ⟨r, rest, p, hcons, hfits, hoffers, hbound, hloop⟩ :=
      next_measured hcodec hholds hj hoffset hnames now
    · exact .inl ⟨r, rest, err, hcons, hfits, hloop⟩
    · exact .inr ⟨(s.pruned now).checkpoint, hoffset, hj, hnames, rfl, .inl ⟨hnil, hloop⟩⟩
    · exact .inr ⟨(s.pruned now).checkpoint, hoffset, hj, hnames, rfl,
        .inr ⟨r, rest, p, hcons, hfits, hoffers, hbound, hloop⟩⟩
  | former h =>
    obtain ⟨f, I, hf, hI, hsame⟩ := h.not_same hmem hdist
    obtain ⟨r, rest, rfl, hfits, hpeek⟩ | ⟨hfirst, hpeek⟩ :=
      peekAt_restarts (s := s.pruned now) hholds hf hI hsame (s.pruned now).checkpoint.offset
    · refine .inl ⟨r, rest, .recordTooLarge 0, rfl, hfits, ?_⟩
      show nextLoop env now (s.fileSize + 2 + 1) (s.pruned now) = _
      rw [nextLoop, hpeek]
    · -- the restart puts the checkpoint at the start of the file it now names
      let s₂ : DurableSpool := { s with
        checkpoint := { (s.pruned now).checkpoint.restart with
          spool := some (Identity.of env.digest f) }
        pendingIdentity := some (Identity.of env.digest f) }
      have hstep : s.next env now = nextLoop env now (s.fileSize + 1 + 1) s₂ := by
        show nextLoop env now (s.fileSize + 2 + 1) (s.pruned now) = _
        rw [nextLoop, hpeek]
        rfl
      have hnames₂ : Names env.digest s₂.checkpoint.spool s₂.disk.spool := by
        have hname := names_of env.digest s.disk.spool
        rw [hf] at hname
        show Names env.digest (some (Identity.of env.digest f)) s.disk.spool
        rw [hf]
        exact hname
      have hread : s₂.read env s₂.checkpoint = s.read env s₂.checkpoint := rfl
      obtain ⟨r, rest, err, hcons, hfits, hloop⟩ | ⟨hnil, hloop⟩ |
          ⟨r, rest, p, hcons, hfits, hoffers, hbound, hloop⟩ :=
        nextLoop_measured (s := s₂) hcodec hholds (Nat.zero_le _) rfl hnames₂ now (s.fileSize + 1)
      · rw [hfirst r rest hcons] at hfits
        cases hfits
      · exact .inr ⟨s₂.checkpoint, rfl, Nat.zero_le _, hnames₂, rfl,
          .inl ⟨hnil, by rw [hstep, hloop, hread]⟩⟩
      · exact .inr ⟨s₂.checkpoint, rfl, Nat.zero_le _, hnames₂, rfl,
          .inr ⟨r, rest, p, hcons, hfits, hoffers, hbound, by rw [hstep, hloop, hread]⟩⟩

/-! ## The other operations -/

/-- `retain` refuses without a change, or appends the record. -/
theorem retain_spec (hholds : FileHolds s.disk.spool rs) (r : Record) :
    (∃ err, s.retain env r = (.error err, s)) ∨
    ∃ f, s.retain env r = (.ok (), s.setFile f) ∧ FileHolds (some f) (rs ++ [r]) ∧
      (∀ f₀, s.disk.spool = some f₀ → f = f₀.append (recordBytes [r])) ∧
      (s.disk.spool = none → f.generation = 0) := by
  simp only [retain]
  split
  · exact .inl ⟨_, rfl⟩
  · refine .inr ⟨_, rfl, ?_, ?_, ?_⟩
    · cases hf : s.disk.spool with
      | none =>
        rw [hf] at hholds
        obtain rfl := hholds.eq_nil
        simp [FileHolds, SpoolFile.append]
      | some f =>
        rw [hf] at hholds
        simp [FileHolds, SpoolFile.append, hholds.bytes]
    · intro f₀ hf₀
      rw [hf₀, recordBytes_singleton]
      rfl
    · intro hnone
      rw [hnone]
      rfl

/-- The checkpoint `commit_past` stores. -/
def committed (s : DurableSpool) (boundary lost now : ℕ) : Checkpoint :=
  { s.checkpoint with spool := s.pendingIdentity, offset := boundary }.recordDiscard lost now

@[simp] theorem committed_offset (s : DurableSpool) (boundary lost now : ℕ) :
    (s.committed boundary lost now).offset = boundary := by
  simp only [committed, Checkpoint.recordDiscard]
  split <;> rfl

@[simp] theorem committed_spool (s : DurableSpool) (boundary lost now : ℕ) :
    (s.committed boundary lost now).spool = s.pendingIdentity := by
  simp only [committed, Checkpoint.recordDiscard]
  split <;> rfl

@[simp] theorem committed_discardedTotal (s : DurableSpool) (boundary lost now : ℕ) :
    (s.committed boundary lost now).discardedTotal = s.checkpoint.discardedTotal + lost := by
  simp only [committed, Checkpoint.recordDiscard]
  split
  · next h => simp [h]
  · rfl

/-- A commit that does not empty the file stores the checkpoint and nothing else. -/
theorem commitPast_keeps {boundary : ℕ} (lost now : ℕ)
    (h : ∀ f, s.disk.spool = some f → reclaimAbove < boundary → f.bytes.length ≠ boundary) :
    s.commitPast boundary lost now =
      { s with checkpoint := s.committed boundary lost now }.store := by
  show { s with checkpoint := s.committed boundary lost now }.store.tryReclaim = _
  have hoffset : ({ s with checkpoint := s.committed boundary lost now }.store).checkpoint.offset =
      boundary := committed_offset ..
  have hdisk : ({ s with checkpoint := s.committed boundary lost now }.store).disk.spool =
      s.disk.spool := rfl
  rw [tryReclaim, hoffset]
  split
  · rfl
  · next habove =>
    cases hf : s.disk.spool with
    | none => rw [hdisk, hf]
    | some f =>
      rw [hdisk, hf]
      simp only
      rw [if_pos (h f hf (by omega))]

/-- The file a truncation leaves. -/
def emptied (f : SpoolFile) : SpoolFile := { f with bytes := [], generation := f.generation + 1 }

/-- A commit past the last byte of a large file empties it: the checkpoint is stored, the
file truncated, and the checkpoint reset. -/
theorem commitPast_reclaims {boundary : ℕ} (lost now : ℕ) {f : SpoolFile}
    (hf : s.disk.spool = some f) (habove : reclaimAbove < boundary)
    (hsize : f.bytes.length = boundary) :
    s.commitPast boundary lost now =
      { ({ s with checkpoint := s.committed boundary lost now }.store).setFile (emptied f) with
        checkpoint := { s.committed boundary lost now with offset := 0, spool := none } }.store := by
  show { s with checkpoint := s.committed boundary lost now }.store.tryReclaim = _
  have hoffset : ({ s with checkpoint := s.committed boundary lost now }.store).checkpoint.offset =
      boundary := committed_offset ..
  have hdisk : ({ s with checkpoint := s.committed boundary lost now }.store).disk.spool =
      some f := hf
  rw [tryReclaim, hoffset, if_neg (by omega), hdisk]
  simp only
  rw [if_neg (by simpa using hsize)]
  rfl

/-- A commit counts what it gives up. -/
theorem commitPast_discardedTotal (s : DurableSpool) (boundary lost now : ℕ) :
    (s.commitPast boundary lost now).checkpoint.discardedTotal =
      s.checkpoint.discardedTotal + lost := by
  by_cases h : ∃ f, s.disk.spool = some f ∧ reclaimAbove < boundary ∧ f.bytes.length = boundary
  · obtain ⟨f, hf, habove, hsize⟩ := h
    rw [commitPast_reclaims lost now hf habove hsize]
    exact committed_discardedTotal ..
  · rw [commitPast_keeps lost now]
    · exact committed_discardedTotal ..
    · intro f hf habove hsize
      exact h ⟨f, hf, habove, hsize⟩

/-- The file a compaction leaves. -/
def compacted (env : SpoolEnv) (f : SpoolFile) (offset : ℕ) : SpoolFile :=
  ⟨(env.ids (f.generation + 1)).1, (env.ids (f.generation + 1)).2, f.bytes.drop offset,
    f.generation + 1⟩

/-- A compaction does nothing, or keeps the bytes behind the checkpoint and resets it. -/
theorem compact_spec (env : SpoolEnv) (s : DurableSpool) :
    s.compactIfStuck env = (false, s) ∨
    ∃ f, s.disk.spool = some f ∧ reclaimAbove < s.checkpoint.offset ∧
      s.checkpoint.offset ≤ f.bytes.length ∧
      s.compactIfStuck env = (true,
        { s.setFile (compacted env f s.checkpoint.offset) with
          checkpoint := { s.checkpoint with offset := 0, spool := none } }.store) := by
  simp only [compactIfStuck]
  split
  · exact .inl rfl
  · next habove =>
    cases hf : s.disk.spool with
    | none => exact .inl rfl
    | some f =>
      simp only
      split
      · exact .inl rfl
      · next hsize => exact .inr ⟨f, rfl, by omega, by omega, rfl⟩

end DurableSpool

/-! ## What every operation keeps -/

/-- A spool whose file holds `rs` and whose next read is at record `j`. The file is the
newest of its trail. -/
structure Sound (env : SpoolEnv) (s : DurableSpool) (rs : List Record) (j : ℕ) : Prop where
  file : FileHolds s.disk.spool rs
  mem : s.disk ∈ s.trail
  newest : ∀ d ∈ s.trail, ∀ f₀, d.spool = some f₀ →
    ∃ f, s.disk.spool = some f ∧ f₀.generation ≤ f.generation
  resume : Resumes env.digest s.trail s.disk.spool s.checkpoint rs j

theorem Former.mono {digest : Bytes → String} {trail trail' : List Disk} {spool : Option Identity}
    {file : Option SpoolFile} (h : Former digest trail spool file) (hsub : trail ⊆ trail') :
    Former digest trail' spool file := by
  obtain ⟨f, f₀, d, hf, hspool, hd, hrest⟩ := h
  exact ⟨f, f₀, d, hf, hspool, hsub hd, hrest⟩

theorem Resumes.mono {digest : Bytes → String} {trail trail' : List Disk} {file : Option SpoolFile}
    {c : Checkpoint} {rs : List Record} {j : ℕ} (h : Resumes digest trail file c rs j)
    (hsub : trail ⊆ trail') : Resumes digest trail' file c rs j := by
  cases h with
  | measured le offset names => exact .measured le offset names
  | former h => exact .former (h.mono hsub)

theorem Resumes.congr {digest : Bytes → String} {trail : List Disk} {file : Option SpoolFile}
    {c c' : Checkpoint} {rs : List Record} {j : ℕ} (h : Resumes digest trail file c rs j)
    (hoffset : c'.offset = c.offset) (hspool : c'.spool = c.spool) :
    Resumes digest trail file c' rs j := by
  cases h with
  | measured le offset names => exact .measured le (hoffset.trans offset) (hspool ▸ names)
  | former h => exact .former (hspool ▸ h)

namespace Sound

variable {env : SpoolEnv} {s : DurableSpool} {rs : List Record} {j : ℕ}

theorem le (h : Sound env s rs j) : j ≤ rs.length := by
  cases h.resume with
  | measured le _ _ => exact le
  | former _ => exact Nat.zero_le _

/-- A change of the state in memory only. -/
theorem inMemory (h : Sound env s rs j) {s' : DurableSpool} {j' : ℕ} (hdisk : s'.disk = s.disk)
    (htrail : s'.trail = s.trail)
    (hres : Resumes env.digest s.trail s.disk.spool s'.checkpoint rs j') : Sound env s' rs j' := by
  refine ⟨hdisk ▸ h.file, hdisk ▸ htrail ▸ h.mem, ?_, hdisk ▸ htrail ▸ hres⟩
  rw [hdisk, htrail]
  exact h.newest

/-- A store of a checkpoint that resumes in the same file. -/
theorem store (h : Sound env s rs j) {c : Checkpoint} {j' : ℕ}
    (hres : Resumes env.digest s.trail s.disk.spool c rs j') :
    Sound env { s with checkpoint := c }.store rs j' := by
  have hsub : s.trail ⊆ s.trail ++ [{ s.disk with checkpoint := some c }] :=
    List.subset_append_left _ _
  refine ⟨h.file, by simp [DurableSpool.store, DurableSpool.persist], ?_, hres.mono hsub⟩
  intro d hd f₀ hf₀
  rcases List.mem_append.mp hd with hd | hd
  · exact h.newest d hd f₀ hf₀
  · obtain rfl := List.mem_singleton.mp hd
    exact ⟨f₀, hf₀, le_rfl⟩

/-- The append of a record. -/
theorem append (h : Sound env s rs j) {f : SpoolFile} {r : Record}
    (hholds : FileHolds (some f) (rs ++ [r]))
    (hold : ∀ f₀, s.disk.spool = some f₀ → f = f₀.append (recordBytes [r])) :
    Sound env (s.setFile f) (rs ++ [r]) j := by
  have hgen : ∀ f₀, s.disk.spool = some f₀ → f.generation = f₀.generation := by
    intro f₀ hf₀
    rw [hold f₀ hf₀]
    rfl
  refine ⟨hholds, by simp [DurableSpool.setFile, DurableSpool.persist], ?_, ?_⟩
  · intro d hd f₀ hf₀
    rcases List.mem_append.mp hd with hd | hd
    · obtain ⟨f₁, hf₁, hle⟩ := h.newest d hd f₀ hf₀
      exact ⟨f, rfl, by rw [hgen f₁ hf₁]; exact hle⟩
    · obtain rfl := List.mem_singleton.mp hd
      exact ⟨f₀, hf₀, le_rfl⟩
  · cases h.resume with
    | measured le offset names =>
      refine .measured (by simp; omega) ?_ ?_
      · rw [List.take_append_of_le_length le]
        exact offset
      · cases hf₀ : s.disk.spool with
        | none =>
          intro I hI
          obtain ⟨f', hf', -⟩ := names I hI
          rw [hf₀] at hf'
          cases hf'
        | some f₀ =>
          rw [hf₀] at names
          show Names env.digest s.checkpoint.spool (some f)
          rw [hold f₀ hf₀]
          exact names.append _
    | former hformer =>
      obtain ⟨f₁, f₀, d, hf₁, hspool, hd, hf₀, hne, hdiff⟩ := hformer
      exact .former ⟨f, f₀, d, rfl, hspool, List.mem_append_left _ hd, hf₀, hne,
        by rw [hgen f₁ hf₁]; exact hdiff⟩

/-- The replacement of the file by the first of a new generation, with the reset of the
checkpoint behind it. -/
theorem renew (h : Sound env s rs j) {f f' : SpoolFile} {rs' : List Record} {c : Checkpoint}
    (hf : s.disk.spool = some f) (hgen : f'.generation = f.generation + 1)
    (hholds : FileHolds (some f') rs') (hoffset : c.offset = 0) (hspool : c.spool = none) :
    Sound env { s.setFile f' with checkpoint := c }.store rs' 0 := by
  refine ⟨hholds, by simp [DurableSpool.store, DurableSpool.persist], ?_, ?_⟩
  · intro d hd f₀ hf₀
    refine ⟨f', rfl, ?_⟩
    rcases List.mem_append.mp hd with hd | hd
    · rcases List.mem_append.mp hd with hd | hd
      · obtain ⟨f₁, hf₁, hle⟩ := h.newest d hd f₀ hf₀
        obtain rfl : f = f₁ := by simpa [hf] using hf₁
        omega
      · obtain rfl := List.mem_singleton.mp hd
        obtain rfl : f' = f₀ := by simpa using hf₀
        exact le_rfl
    · obtain rfl := List.mem_singleton.mp hd
      obtain rfl : f' = f₀ := by simpa [DurableSpool.setFile, DurableSpool.persist] using hf₀
      exact le_rfl
  · refine .measured (Nat.zero_le _) hoffset ?_
    show Names env.digest c.spool _
    rw [hspool]
    exact names_none _ _

/-- The first step of a commit past a record of the file. -/
theorem committed (h : Sound env s rs j) {m boundary : ℕ} (hm : m ≤ rs.length)
    (hboundary : boundary = endOf (rs.take m))
    (hnames : Names env.digest s.pendingIdentity s.disk.spool) (lost now : ℕ) :
    Sound env { s with checkpoint := s.committed boundary lost now }.store rs m := by
  refine h.store (.measured hm ?_ ?_)
  · rw [DurableSpool.committed_offset, hboundary]
  · rw [DurableSpool.committed_spool]
    exact hnames

/-- A commit past a record of the file puts the next read behind it. If it was the last of a
large file, the file is emptied. -/
theorem commit_measured (h : Sound env s rs j) {m boundary : ℕ} (hm : m ≤ rs.length)
    (hboundary : boundary = endOf (rs.take m))
    (hnames : Names env.digest s.pendingIdentity s.disk.spool) (lost now : ℕ) :
    Sound env (s.commitPast boundary lost now) rs m ∨
      (m = rs.length ∧ Sound env (s.commitPast boundary lost now) [] 0) := by
  have hstore := h.committed hm hboundary hnames lost now
  by_cases hreclaim : ∃ f, s.disk.spool = some f ∧ reclaimAbove < boundary ∧
      f.bytes.length = boundary
  · obtain ⟨f, hf, habove, hsize⟩ := hreclaim
    have hbytes : f.bytes = recordBytes rs := FileHolds.bytes (hf ▸ h.file)
    refine .inr ⟨?_, ?_⟩
    · apply eq_length_of_endOf hm
      rw [← hboundary, ← hsize, hbytes, endOf]
    · rw [DurableSpool.commitPast_reclaims lost now hf habove hsize]
      exact hstore.renew hf rfl rfl rfl rfl
  · refine .inl ?_
    rw [DurableSpool.commitPast_keeps lost now]
    · exact hstore
    · intro f hf habove hsize
      exact hreclaim ⟨f, hf, habove, hsize⟩

/-- A commit under the name of a former file makes the next read start over, unless it
empties the file. -/
theorem commit_former (h : Sound env s rs j) {boundary : ℕ}
    (hformer : Former env.digest s.trail s.pendingIdentity s.disk.spool)
    (hkeep : ∀ f, s.disk.spool = some f → reclaimAbove < boundary → f.bytes.length ≠ boundary)
    (lost now : ℕ) : Sound env (s.commitPast boundary lost now) rs 0 := by
  rw [DurableSpool.commitPast_keeps lost now hkeep]
  refine h.store (.former ?_)
  rw [DurableSpool.committed_spool]
  exact hformer

end Sound

end Governance
