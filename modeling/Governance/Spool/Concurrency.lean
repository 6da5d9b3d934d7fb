import Governance.Spool.World

/-!
# No retained record is lost

A commit writes the boundary of the record the consumer holds, and the identity of the file
it was read from. When a compaction has replaced that file meanwhile, the next read notices
the foreign identity and starts over, so nothing is lost, with two exceptions: the commit
itself truncates a file whose size happens to equal the boundary (`Overruns`), and a second
compaction cuts the new file at the boundary of the old one (`Misreads`). In every run
without these two kinds of steps every record is accounted for (`run_accounted`); a run with
one of them loses a record (`run_loses_record`).
-/

namespace Governance

open Utf8Text ByteLines

namespace World

variable (env : SpoolEnv)

/-- A commit past `boundary` would truncate a file it was not measured against. -/
def Overruns (w : World) (boundary : ℕ) : Prop :=
  reclaimAbove < boundary ∧ ∃ f I, w.spool.disk.spool = some f ∧
    w.spool.pendingIdentity = some I ∧ Identity.same env.digest I f = false ∧
    f.bytes.length = boundary

/-- A compaction would cut a file its checkpoint was not measured against. -/
def Misreads (w : World) : Prop :=
  reclaimAbove < w.spool.checkpoint.offset ∧ ∃ f I, w.spool.disk.spool = some f ∧
    w.spool.checkpoint.spool = some I ∧ Identity.same env.digest I f = false ∧
    w.spool.checkpoint.offset ≤ f.bytes.length

/-- A call that is neither of the two. -/
def Safe (w : World) : Act → Prop
  | .advance _ => ∀ p i rest, w.held = (p, i) :: rest → ¬ w.Overruns env p.boundary
  | .discardConfirmed _ => ∀ p i, w.held.getLast? = some (p, i) → ¬ w.Overruns env p.boundary
  | .compact => ¬ w.Misreads env
  | _ => True

/-- Every record retained was delivered, is counted as given up, or is in the file at or
behind the place where the next read starts. -/
structure Accounted (w : World) : Prop where
  file : FileHolds w.spool.disk.spool (w.retained.drop w.dropped)
  records : ∀ i < w.retained.length, i ∈ w.delivered ∨ i ∈ w.discarded ∨
    (w.dropped ≤ i ∧ w.spool.resumePosition env ≤
      endOf ((w.retained.drop w.dropped).take (i - w.dropped)))
  counted : w.discarded.length ≤ w.spool.checkpoint.discardedTotal

/-- The records held are those behind the checkpoint, which was measured against the file. -/
structure Fresh (w : World) (k j : ℕ) : Prop where
  offset : w.spool.checkpoint.offset = endOf ((w.retained.drop k).take j)
  names : Names env.digest w.spool.checkpoint.spool w.spool.disk.spool
  pending : Names env.digest w.spool.pendingIdentity w.spool.disk.spool
  chain : ∀ n p i, w.held[n]? = some (p, i) → j + n < (w.retained.drop k).length ∧
    p.boundary = endOf ((w.retained.drop k).take (j + n + 1)) ∧ i = some (k + j + n)

/-- Records are held only under the identity of a file of the trail, and are fresh as long
as that file was not replaced. -/
def HeldFrom (w : World) (k j : ℕ) : Prop :=
  w.held = [] ∨ ∃ f f₀ d, w.spool.disk.spool = some f ∧
    w.spool.pendingIdentity = some (Identity.of env.digest f₀) ∧ d ∈ w.spool.trail ∧
    d.spool = some f₀ ∧ f₀.bytes ≠ [] ∧ (f₀.generation = f.generation → Fresh env w k j)

/-- What holds between calls: the file starts at record `k`, and the next read is `j` records
behind that. -/
structure InvAt (w : World) (k j : ℕ) : Prop where
  le : k ≤ w.retained.length
  sound : Sound env w.spool (w.retained.drop k) j
  resolved : ∀ i < k + j, i ∈ w.delivered ∨ i ∈ w.discarded
  held : HeldFrom env w k j
  counted : w.discarded.length ≤ w.spool.checkpoint.discardedTotal

def Inv (w : World) : Prop := ∃ k j, InvAt env w k j

variable {env} {w : World} {k j : ℕ}

theorem InvAt.dropped_eq (h : InvAt env w k j) : w.dropped = k :=
  World.dropped_eq h.le h.sound.file

/-- The place where the next read starts is at most the end of the records before it. -/
theorem Sound.resumePosition_le {s : DurableSpool} {rs : List Record} (h : Sound env s rs j)
    (hdist : Distinct env.digest s.trail) : s.resumePosition env ≤ endOf (rs.take j) := by
  cases hf : s.disk.spool with
  | none => simp [DurableSpool.resumePosition, hf]
  | some f =>
    simp only [DurableSpool.resumePosition, hf]
    cases h.resume with
    | measured le offset names =>
      split
      · exact Nat.zero_le _
      · exact offset.le
    | former hformer =>
      obtain ⟨f', I, hf', hI, hsame⟩ := hformer.not_same h.mem hdist
      obtain rfl : f = f' := by simpa [hf] using hf'
      obtain ⟨why, hwhy⟩ := restart_of_not_same hsame s.checkpoint.offset
      simp [hI, hwhy]

theorem endOf_take_mono (rs : List Record) {a b : ℕ} (hab : a ≤ b) :
    endOf (rs.take a) ≤ endOf (rs.take b) := by
  have h := endOf_take_le (rs.take b) a
  rwa [List.take_take, min_eq_left hab] at h

theorem InvAt.accounted (h : InvAt env w k j) (hdist : Distinct env.digest w.spool.trail) :
    Accounted env w := by
  refine ⟨by rw [h.dropped_eq]; exact h.sound.file, ?_, h.counted⟩
  intro i hi
  rw [h.dropped_eq]
  by_cases hlt : i < k + j
  · rcases h.resolved i hlt with hmem | hmem
    · exact .inl hmem
    · exact .inr (.inl hmem)
  · have hpos := Sound.resumePosition_le h.sound hdist
    have hmono := endOf_take_mono (w.retained.drop k) (show j ≤ i - k by omega)
    exact .inr (.inr ⟨by omega, hpos.trans hmono⟩)

/-! ## The calls, one by one -/

theorem invAt_init (env : SpoolEnv) : InvAt env init 0 0 := by
  refine ⟨le_rfl, ⟨rfl, List.mem_singleton.mpr rfl, ?_, ?_⟩, ?_, .inl rfl, le_rfl⟩
  · intro d hd f₀ hf₀
    obtain rfl := List.mem_singleton.mp hd
    cases hf₀
  · exact .measured le_rfl rfl (names_none _ _)
  · intro i hi
    omega

theorem inv_init (env : SpoolEnv) : Inv env init := ⟨0, 0, invAt_init env⟩

/-- An append leaves the records held where they are. -/
theorem Fresh.append {s : DurableSpool} {f f₀ : SpoolFile} {r : Record} (h : Fresh env w k j)
    (hle : k ≤ w.retained.length) (hj : j ≤ (w.retained.drop k).length)
    (hf₀ : w.spool.disk.spool = some f₀) (hf : f = f₀.append (recordBytes [r]))
    (hs : s = w.spool.setFile f) :
    Fresh env { w with spool := s, retained := w.retained ++ [r] } k j := by
  have hdrop : (w.retained ++ [r]).drop k = w.retained.drop k ++ [r] :=
    List.drop_append_of_le_length hle
  have hnames : ∀ {spool : Option Identity}, Names env.digest spool w.spool.disk.spool →
      Names env.digest spool (some f) := by
    intro spool h
    rw [hf₀] at h
    rw [hf]
    exact h.append _
  subst hs
  refine ⟨?_, hnames h.names, hnames h.pending, ?_⟩
  · show w.spool.checkpoint.offset = endOf (((w.retained ++ [r]).drop k).take j)
    rw [hdrop, List.take_append_of_le_length hj]
    exact h.offset
  · intro n p i hn
    obtain ⟨hlt, hboundary, hi⟩ := h.chain n p i hn
    show j + n < ((w.retained ++ [r]).drop k).length ∧
      p.boundary = endOf (((w.retained ++ [r]).drop k).take (j + n + 1)) ∧ i = some (k + j + n)
    rw [hdrop, List.take_append_of_le_length (by omega)]
    exact ⟨by rw [List.length_append]; omega, hboundary, hi⟩

theorem InvAt.retain (h : InvAt env w k j) (r : Record) : InvAt env (w.step env (.retain r)) k j := by
  obtain ⟨err, hretain⟩ | ⟨f, hretain, hholds, hold, -⟩ :=
    @DurableSpool.retain_spec env _ _ h.sound.file r
  · simp only [step, hretain]
    exact h
  · have hdrop : (w.retained ++ [r]).drop k = w.retained.drop k ++ [r] :=
      List.drop_append_of_le_length h.le
    simp only [step, hretain]
    refine ⟨?_, ?_, h.resolved, ?_, h.counted⟩
    · simp only [List.length_append]
      have hle := h.le
      omega
    · show Sound env (w.spool.setFile f) ((w.retained ++ [r]).drop k) j
      rw [hdrop]
      exact h.sound.append hholds hold
    · obtain hnil | ⟨f₁, f₀, d, hf₁, hpending, hd, hf₀, hne, hfresh⟩ := h.held
      · exact .inl hnil
      · refine .inr ⟨f, f₀, d, rfl, hpending, List.mem_append_left _ hd, hf₀, hne, ?_⟩
        intro hgen
        refine (hfresh ?_).append h.le h.sound.le hf₁ (hold f₁ hf₁) rfl
        rw [hgen, hold f₁ hf₁]
        rfl

/-- A change of the refusal table does not matter. -/
theorem InvAt.withQuarantine (h : InvAt env w k j) (q : Quarantine) :
    InvAt env { w with spool := { w.spool with
      checkpoint := { w.spool.checkpoint with quarantine := q } } } k j := by
  refine ⟨h.le, h.sound.inMemory rfl rfl (h.sound.resume.congr rfl rfl), h.resolved, ?_, h.counted⟩
  obtain hnil | ⟨f, f₀, d, hf, hpending, hd, hf₀, hne, hfresh⟩ := h.held
  · exact .inl hnil
  · refine .inr ⟨f, f₀, d, hf, hpending, hd, hf₀, hne, ?_⟩
    intro hgen
    obtain ⟨hoffset, hnames, hpend, hchain⟩ := hfresh hgen
    exact ⟨hoffset, hnames, hpend, hchain⟩

theorem InvAt.recordRefusal (h : InvAt env w k j) (now : ℕ) :
    InvAt env (w.step env (.recordRefusal now)) k j := by
  simp only [step]
  split
  · exact h
  · next p i rest hheld =>
    obtain ⟨hle, hsound, hresolved, hheld, hcounted⟩ := h.withQuarantine
      (w.spool.checkpoint.quarantine.refused (p.signal.display ++ ":" ++ p.key) now
        minSeparationSeconds).2
    refine ⟨hle, hsound.store hsound.resume, hresolved, ?_, hcounted⟩
    obtain hnil | ⟨f, f₀, d, hf, hpending, hd, hf₀, hne, hfresh⟩ := hheld
    · exact .inl hnil
    · refine .inr ⟨f, f₀, d, hf, hpending, List.mem_append_left _ hd, hf₀, hne, ?_⟩
      intro hgen
      obtain ⟨hoffset, hnames, hpend, hchain⟩ := hfresh hgen
      exact ⟨hoffset, hnames, hpend, hchain⟩

/-- A safe compaction cuts where the next read starts. Records held from the old file are
stale from then on. -/
theorem InvAt.compact (h : InvAt env w k j) (hdist : Distinct env.digest w.spool.trail)
    (hsafe : ¬ w.Misreads env) : Inv env (w.step env .compact) := by
  obtain hsame | ⟨f, hf, habove, hle, hnew⟩ := DurableSpool.compact_spec env w.spool
  · refine ⟨k, j, ?_⟩
    simp only [step, hsame]
    exact h
  · obtain ⟨hj, hoffset⟩ : j ≤ (w.retained.drop k).length ∧
        w.spool.checkpoint.offset = endOf ((w.retained.drop k).take j) := by
      cases h.sound.resume with
      | measured le offset names => exact ⟨le, offset⟩
      | former hformer =>
        obtain ⟨f', I, hf', hI, hsame⟩ := hformer.not_same h.sound.mem hdist
        obtain rfl : f = f' := by simpa [hf] using hf'
        exact absurd ⟨habove, f, I, hf, hI, hsame, hle⟩ hsafe
    have hbytes : f.bytes = recordBytes (w.retained.drop k) := FileHolds.bytes (hf ▸ h.sound.file)
    have hholds : FileHolds (some (DurableSpool.compacted env f w.spool.checkpoint.offset))
        (w.retained.drop (k + j)) := by
      show recordBytes _ = f.bytes.drop w.spool.checkpoint.offset
      rw [hoffset, hbytes, drop_recordBytes, List.drop_drop]
    rw [List.length_drop] at hj
    have hk := h.le
    refine ⟨k + j, 0, ?_⟩
    simp only [step, hnew]
    refine ⟨by show k + j ≤ w.retained.length; omega,
      h.sound.renew hf rfl hholds rfl rfl, h.resolved, ?_, h.counted⟩
    obtain hnil | ⟨f₁, f₀, d, hf₁, hpending, hd, hf₀, hne, -⟩ := h.held
    · exact .inl hnil
    · refine .inr ⟨DurableSpool.compacted env f w.spool.checkpoint.offset, f₀, d, rfl, hpending,
        List.mem_append_left _ (List.mem_append_left _ hd), hf₀, hne, ?_⟩
      intro hgen
      -- the file held from is at most as new as the one that was replaced
      obtain ⟨f₂, hf₂, hold⟩ := h.sound.newest d hd f₀ hf₀
      obtain rfl : f = f₂ := by simpa [hf] using hf₂
      simp only [DurableSpool.compacted] at hgen
      omega

theorem InvAt.next (hcodec : env.codec.Lawful) (h : InvAt env w k j)
    (hdist : Distinct env.digest w.spool.trail) (now : ℕ) :
    InvAt env (w.step env (.next now)) k j := by
  obtain ⟨r, rest, err, -, -, hnext⟩ | ⟨c, hoffset, hj, hnames, hcount, hread⟩ :=
    DurableSpool.next_spec hcodec h.sound.file h.sound.resume h.sound.mem hdist now
  · simp only [step, hnext]
    obtain ⟨hle, hsound, hresolved, -, hcounted⟩ :=
      h.withQuarantine (w.spool.checkpoint.quarantine.prune now)
    exact ⟨hle, hsound, hresolved, .inl rfl, hcounted⟩
  · have hsound : Sound env (w.spool.read env c) (w.retained.drop k) j :=
      h.sound.inMemory rfl rfl (.measured hj hoffset hnames)
    have hcounted : w.discarded.length ≤ c.discardedTotal := hcount ▸ h.counted
    obtain ⟨-, hnext⟩ | ⟨r, rest, p, hcons, -, -, hboundary, hnext⟩ := hread
    · simp only [step, hnext]
      exact ⟨h.le, hsound, h.resolved, .inl rfl, hcounted⟩
    · have hrest : (w.retained.drop k).drop j ≠ [] := by
        rw [hcons]
        exact List.cons_ne_nil _ _
      have hlt : j < (w.retained.drop k).length := List.length_lt_of_drop_ne_nil hrest
      have hne : w.retained.drop k ≠ [] := List.ne_nil_of_drop_ne_nil hrest
      simp only [step, hnext]
      refine ⟨h.le, hsound, h.resolved, .inr ?_, hcounted⟩
      cases hf : w.spool.disk.spool with
      | none =>
        have hfile := h.sound.file
        rw [hf] at hfile
        exact absurd hfile.eq_nil hne
      | some f =>
        have hbytes : f.bytes = recordBytes (w.retained.drop k) :=
          FileHolds.bytes (hf ▸ h.sound.file)
        refine ⟨f, f, w.spool.disk, hf, by simp [DurableSpool.read, hf], h.sound.mem, hf, ?_, ?_⟩
        · intro hnil
          have hpos := endOf_pos hne
          rw [endOf, ← hbytes, hnil] at hpos
          cases hpos
        · intro _
          refine ⟨hoffset, hnames, names_of _ _, ?_⟩
          intro n q i hn
          cases n with
          | zero =>
            have hnumber := numberAt_endOf (w := { w with spool := w.spool.read env c }) h.le
              h.sound.file j hj
            simp only [List.getElem?_cons_zero, Option.some.injEq, Prod.mk.injEq] at hn
            obtain ⟨rfl, rfl⟩ := hn
            refine ⟨hlt, hboundary, ?_⟩
            rw [show (w.spool.read env c).checkpoint.offset = _ from hoffset]
            exact hnumber
          | succ n => simp at hn

/-- A record found behind those held is the next one. -/
theorem InvAt.peekNext (hcodec : env.codec.Lawful) (h : InvAt env w k j) :
    InvAt env (w.step env .peekNext) k j := by
  simp only [step]
  split
  · exact h
  · next p i hlast =>
    split
    · next q hpeek =>
      refine ⟨h.le, h.sound, h.resolved, ?_, h.counted⟩
      obtain hnil | ⟨f, f₀, d, hf, hpending, hd, hf₀, hne, hfresh⟩ := h.held
      · rw [hnil] at hlast
        cases hlast
      · refine .inr ⟨f, f₀, d, hf, hpending, hd, hf₀, hne, ?_⟩
        intro hgen
        obtain ⟨hoffset, hnames, hpend, hchain⟩ := hfresh hgen
        refine ⟨hoffset, hnames, hpend, ?_⟩
        intro n q' i' hn
        rw [List.getElem?_append] at hn
        split at hn
        · exact hchain n q' i' hn
        · next hge =>
          -- the read starts where the last record held ends
          have hpos : 0 < w.held.length := by
            cases hheld : w.held with
            | nil => simp [hheld] at hlast
            | cons => simp
          have hn' : n = w.held.length := by
            by_contra hne
            rw [List.getElem?_eq_none (by simp; omega)] at hn
            cases hn
          subst hn'
          obtain ⟨hlt, hboundary, -⟩ := hchain (w.held.length - 1) p i
            (by rw [← List.getLast?_eq_getElem?]; exact hlast)
          rw [show j + (w.held.length - 1) + 1 = j + w.held.length by omega] at hboundary
          simp only [Nat.sub_self, List.getElem?_cons_zero, Option.some.injEq,
            Prod.mk.injEq] at hn
          obtain ⟨rfl, rfl⟩ := hn
          have hnumber := numberAt_endOf h.le h.sound.file (j + w.held.length) (by omega)
          rw [← hboundary] at hnumber
          rw [DurableSpool.peekNext] at hpeek
          obtain ⟨-, hspec⟩ | ⟨r, rest, hcons, ⟨-, hspec⟩ | ⟨-, p', -, hp', hspec⟩⟩ :=
            peekAt_spec hcodec h.sound.file hnames (show j + w.held.length ≤ _ by omega)
          · rw [hboundary, hspec] at hpeek
            simp at hpeek
          · rw [hboundary, hspec] at hpeek
            simp at hpeek
          · rw [hboundary, hspec] at hpeek
            simp only [Except.ok.injEq, Option.some.injEq] at hpeek
            subst hpeek
            refine ⟨List.length_lt_of_drop_ne_nil ?_, hp', by rw [hnumber, Nat.add_assoc]⟩
            rw [hcons]
            exact List.cons_ne_nil _ _
    · exact h

/-- A safe commit of the records held up to number `n`. -/
theorem InvAt.commit (h : InvAt env w k j) (hdist : Distinct env.digest w.spool.trail) {n : ℕ}
    {p : Pending} {i : Option ℕ} (hn : w.held[n]? = some (p, i))
    (hsafe : ¬ w.Overruns env p.boundary) {delivered discarded : List ℕ} (lost now : ℕ)
    (hmono : ∀ i, i ∈ w.delivered ∨ i ∈ w.discarded → i ∈ delivered ∨ i ∈ discarded)
    (hnew : Fresh env w k j → ∀ m ≤ n, k + j + m ∈ delivered ∨ k + j + m ∈ discarded)
    (hcount : discarded.length ≤ w.discarded.length + lost) :
    Inv env ⟨w.spool.commitPast p.boundary lost now, w.retained, delivered, discarded, []⟩ := by
  have hle := h.le
  have hcounted : discarded.length ≤
      (w.spool.commitPast p.boundary lost now).checkpoint.discardedTotal := by
    rw [DurableSpool.commitPast_discardedTotal]
    exact hcount.trans (Nat.add_le_add_right h.counted lost)
  obtain hnil | ⟨f, f₀, d, hf, hpending, hd, hf₀, hne, hfresh⟩ := h.held
  · rw [hnil] at hn
    cases hn
  by_cases hgen : f₀.generation = f.generation
  · -- the file is the one the records were read from
    have hfresh := hfresh hgen
    obtain ⟨hlt, hboundary, -⟩ := hfresh.chain n p i hn
    have hresolved : ∀ i < k + (j + n + 1), i ∈ delivered ∨ i ∈ discarded := by
      intro i hi
      by_cases hold : i < k + j
      · exact hmono i (h.resolved i hold)
      · have hm := hnew hfresh (i - (k + j)) (by omega)
        rwa [show k + j + (i - (k + j)) = i by omega] at hm
    obtain hsound | ⟨hall, hsound⟩ := h.sound.commit_measured (show j + n + 1 ≤ _ by omega)
      hboundary hfresh.pending lost now
    · exact ⟨k, j + n + 1, hle, hsound, hresolved, .inl rfl, hcounted⟩
    · rw [List.length_drop] at hall
      refine ⟨w.retained.length, 0, le_rfl, ?_, ?_, .inl rfl, hcounted⟩
      · rw [List.drop_length]
        exact hsound
      · intro i hi
        exact hresolved i (by omega)
  · -- the file was replaced: the commit goes under the old name
    have hformer : Former env.digest w.spool.trail w.spool.pendingIdentity w.spool.disk.spool :=
      ⟨f, f₀, d, hf, hpending, hd, hf₀, hne, hgen⟩
    obtain ⟨f', I, hf', hI, hsame⟩ := hformer.not_same h.sound.mem hdist
    have hkeep : ∀ f, w.spool.disk.spool = some f → reclaimAbove < p.boundary →
        f.bytes.length ≠ p.boundary := by
      intro f'' hf'' habove hsize
      obtain rfl : f' = f'' := by simpa [hf'] using hf''
      exact hsafe ⟨habove, f', I, hf', hI, hsame, hsize⟩
    refine ⟨k, 0, hle, h.sound.commit_former hformer hkeep lost now, ?_, .inl rfl, hcounted⟩
    intro i hi
    exact hmono i (h.resolved i (by omega))

theorem InvAt.advance (h : InvAt env w k j) (hdist : Distinct env.digest w.spool.trail) (now : ℕ)
    (hsafe : w.Safe env (.advance now)) : Inv env (w.step env (.advance now)) := by
  simp only [step]
  split
  · exact ⟨k, j, h⟩
  · next p i rest hheld =>
    refine h.commit hdist (n := 0) (i := i) (by rw [hheld]; rfl) (hsafe p i rest hheld) 0 now
      ?_ ?_ le_rfl
    · rintro x (hx | hx)
      · exact .inl (List.mem_append_left _ hx)
      · exact .inr hx
    · intro hfresh m hm
      obtain ⟨-, -, rfl⟩ := hfresh.chain 0 p i (by rw [hheld]; rfl)
      obtain rfl : m = 0 := by omega
      exact .inl (List.mem_append_right _ (List.mem_singleton.mpr rfl))

theorem InvAt.discardConfirmed (h : InvAt env w k j) (hdist : Distinct env.digest w.spool.trail)
    (now : ℕ) (hsafe : w.Safe env (.discardConfirmed now)) :
    Inv env (w.step env (.discardConfirmed now)) := by
  obtain hsame | ⟨q, probe, i, hn, htwo, hstep⟩ := step_discardConfirmed env w now
  · rw [hsame]
    exact ⟨k, j, h⟩
  · rw [hstep]
    have hlast : w.held.getLast? = some (probe, i) := by
      rw [List.getLast?_eq_getElem?]
      exact hn
    refine (h.withQuarantine q).commit hdist hn (hsafe probe i hlast) (w.held.length - 1) now
      ?_ ?_ ?_
    · rintro x (hx | hx)
      · exact .inl (List.mem_append_left _ hx)
      · exact .inr (List.mem_append_left _ hx)
    · intro hfresh m hm
      have hlt : m < w.held.length := by omega
      obtain ⟨⟨p, i'⟩, hp⟩ : ∃ x, w.held[m]? = some x := ⟨_, List.getElem?_eq_getElem hlt⟩
      obtain ⟨-, -, rfl⟩ := hfresh.chain m p i' hp
      by_cases hprobe : m = w.held.length - 1
      · rw [← hprobe, hp] at hn
        obtain ⟨-, rfl⟩ : p = probe ∧ some (k + j + m) = i := by simpa using hn
        exact .inl (List.mem_append_right _ (List.mem_singleton.mpr rfl))
      · refine .inr (List.mem_append_right _ (List.mem_filterMap.mpr ⟨(p, _), ?_, rfl⟩))
        apply List.mem_of_getElem? (i := m)
        rw [List.getElem?_dropLast, if_pos (by omega)]
        exact hp
    · rw [List.length_append]
      have hfilter := List.length_filterMap_le Prod.snd w.held.dropLast
      rw [List.length_dropLast] at hfilter
      exact Nat.add_le_add_left hfilter _

/-! ## Runs -/

theorem inv_step (hcodec : env.codec.Lawful) (h : Inv env w)
    (hdist : Distinct env.digest w.spool.trail) {act : Act} (hsafe : w.Safe env act) :
    Inv env (w.step env act) := by
  obtain ⟨k, j, h⟩ := h
  cases act with
  | retain r => exact ⟨k, j, h.retain r⟩
  | compact => exact h.compact hdist hsafe
  | next now => exact ⟨k, j, h.next hcodec hdist now⟩
  | advance now => exact h.advance hdist now hsafe
  | recordRefusal now => exact ⟨k, j, h.recordRefusal now⟩
  | peekNext => exact ⟨k, j, h.peekNext hcodec⟩
  | discardConfirmed now => exact h.discardConfirmed hdist now hsafe

variable (env) in
/-- A run of safe calls. -/
def SafeRun : World → List Act → Prop
  | _, [] => True
  | w, act :: rest => w.Safe env act ∧ SafeRun (w.step env act) rest

theorem inv_run (hcodec : env.codec.Lawful) {acts before : List Act} (hpre : before <+: acts)
    {w : World} (h : Inv env w) (hdist : Distinct env.digest (w.run env before).spool.trail)
    (hsafe : SafeRun env w acts) : Inv env (w.run env before) := by
  induction before generalizing w acts with
  | nil => exact h
  | cons act before ih =>
    obtain ⟨rest, rfl⟩ := hpre
    have hstep : Inv env (w.step env act) :=
      inv_step hcodec h (Distinct.of_isPrefix hdist (trail_run env w (act :: before))) hsafe.1
    exact ih (List.prefix_append before rest) hstep hdist hsafe.2

/-- In every run without a misplaced truncation or cut, every record whose `retain` was
accepted is accounted for in every state the run goes through. -/
theorem run_accounted (env : SpoolEnv) (hcodec : env.codec.Lawful) (acts : List Act)
    (hdist : Distinct env.digest (init.run env acts).spool.trail) (hsafe : SafeRun env init acts)
    (before : List Act) (hpre : before <+: acts) : Accounted env (init.run env before) := by
  have hdist' : Distinct env.digest (init.run env before).spool.trail := by
    obtain ⟨rest, rfl⟩ := hpre
    rw [run_append] at hdist
    exact Distinct.of_isPrefix hdist (trail_run env _ rest)
  obtain ⟨k, j, h⟩ := inv_run hcodec hpre (inv_init env) hdist' hsafe
  exact h.accounted hdist'

/-- One record, retained, read and delivered. -/
def deliverOne : List Act := [.retain ⟨.metrics, [10, 0], .protobuf⟩, .next 7, .advance 8]

theorem run_accounted_deliverOne : (init.run numberedEnv deliverOne).delivered = [0] ∧
    Accounted numberedEnv (init.run numberedEnv deliverOne) := by
  obtain ⟨hgen, hsmall, hdelivered⟩ :
      (init.run numberedEnv deliverOne).spool.trail.all
        (fun d => d.spool.all fun f => f.generation = 0) = true ∧
      (init.run numberedEnv (deliverOne.take 2)).held.all
        (fun x => x.1.boundary ≤ reclaimAbove) = true ∧
      (init.run numberedEnv deliverOne).delivered = [0] := by
    decide +kernel
  refine ⟨hdelivered, run_accounted numberedEnv (EnvelopeCodec.lawful_printed _ _) _ ?_ ?_ _
    (List.prefix_refl _)⟩
  · exact distinct_of_generation hgen
  · refine ⟨trivial, trivial, ?_, trivial⟩
    rintro p i rest hheld ⟨habove, -⟩
    have hp := List.all_eq_true.mp hsmall (p, i)
      (by rw [show (init.run numberedEnv (deliverOne.take 2)).held = _ from hheld]; simp)
    simp only [decide_eq_true_eq] at hp
    omega

/-! ## A lost record -/

/-- A record whose line is a little over a mebibyte long. -/
def bulky (b : UInt8) : Record := ⟨.metrics, List.replicate 800000 b, .protobuf⟩

theorem endOf_bulky (b : UInt8) : endOf [bulky b] = 1066719 := by
  have hover : envelopeOverhead .metrics .protobuf = 50 := by decide
  rw [endOf_singleton, length_encode_line]
  simp only [bulky, List.length_replicate, hover]

theorem fits_bulky (b : UInt8) : (bulky b).fits = true := by
  have hend := endOf_bulky b
  rw [endOf_singleton] at hend
  exact decide_eq_true (by rw [maxRead]; omega)

/-- Where a spool stands whose file holds `rs` and whose checkpoint is behind `j` of them. -/
structure Stands (s : DurableSpool) (generation : ℕ) (rs : List Record) (j : ℕ) : Prop where
  file : s.disk.spool = some ⟨some generation, some 0, recordBytes rs, generation⟩
  mem : s.disk ∈ s.trail
  offset : s.checkpoint.offset = endOf (rs.take j)
  names : Names numberedEnv.digest s.checkpoint.spool s.disk.spool
  le : j ≤ rs.length
  numbered : ∀ d ∈ s.trail, ∀ f, d.spool = some f → f.generation ≤ generation ∧
    f.inode = some f.generation

variable {s : DurableSpool} {g j : ℕ} {rs : List Record}

theorem Stands.holds (h : Stands s g rs j) : FileHolds s.disk.spool rs := by
  rw [h.file]
  rfl

theorem Stands.fileSize (h : Stands s g rs j) : s.fileSize = endOf rs := by
  rw [DurableSpool.fileSize, h.file]
  rfl

/-- A file system that gives each file its number keeps the generations apart. -/
theorem Stands.distinct (h : Stands s g rs j) : Distinct numberedEnv.digest s.trail := by
  intro d hd d' hd' f f' hf hf' _ hne
  obtain ⟨-, hi⟩ := h.numbered d hd f hf
  obtain ⟨-, hi'⟩ := h.numbered d' hd' f' hf'
  rw [Bool.eq_false_iff]
  intro hsame
  obtain ⟨-, hagree, -⟩ := (Identity.same_iff numberedEnv.digest).mp hsame
  have hof : (Identity.of numberedEnv.digest f).inode = f.inode := rfl
  rw [hof, hi, hi'] at hagree
  simp only [Identity.agree, decide_eq_true_eq] at hagree
  exact hne hagree

theorem Stands.retain (h : Stands s g rs j) (r : Record)
    (hroom : endOf rs - endOf (rs.take j) + endOf [r] ≤ capacity) :
    ∃ s', s.retain numberedEnv r = (.ok (), s') ∧ Stands s' g (rs ++ [r]) j ∧
      s'.pendingIdentity = s.pendingIdentity := by
  obtain ⟨f, hretain, hfile⟩ : ∃ f, s.retain numberedEnv r = (.ok (), s.setFile f) ∧
      f = ⟨some g, some 0, recordBytes (rs ++ [r]), g⟩ := by
    refine ⟨_, ?_, rfl⟩
    rw [endOf_singleton] at hroom
    simp only [DurableSpool.retain, h.fileSize, h.offset]
    rw [if_neg (by omega), DurableSpool.appendLine, h.file, recordBytes_append,
      recordBytes_singleton]
    rfl
  refine ⟨_, hretain, ⟨by rw [← hfile]; rfl, List.mem_append_right _ (List.mem_singleton.mpr rfl),
    ?_, ?_, ?_, ?_⟩, rfl⟩
  · rw [List.take_append_of_le_length h.le]
    exact h.offset
  · have hnames := h.names
    rw [h.file] at hnames
    have happ := hnames.append (recordBytes [r])
    rw [SpoolFile.append, ← recordBytes_append] at happ
    show Names _ _ (some f)
    rw [hfile]
    exact happ
  · rw [List.length_append]
    exact h.le.trans (Nat.le_add_right _ _)
  · intro d hd f' hf'
    rcases List.mem_append.mp hd with hd | hd
    · exact h.numbered d hd f' hf'
    · obtain rfl := List.mem_singleton.mp hd
      obtain rfl : f = f' := by simpa using hf'
      rw [hfile]
      exact ⟨le_rfl, rfl⟩

theorem Stands.first (r : Record) (hroom : endOf [r] ≤ capacity) :
    ∃ s', init.spool.retain numberedEnv r = (.ok (), s') ∧ Stands s' 0 [r] 0 := by
  obtain ⟨f, hretain, hfile⟩ : ∃ f, init.spool.retain numberedEnv r =
      (.ok (), init.spool.setFile f) ∧ f = ⟨some 0, some 0, recordBytes [r], 0⟩ := by
    refine ⟨_, ?_, rfl⟩
    rw [endOf_singleton] at hroom
    have hzero : init.spool.fileSize - init.spool.checkpoint.offset = 0 := rfl
    simp only [DurableSpool.retain, hzero]
    rw [if_neg (by omega), recordBytes_singleton]
    rfl
  refine ⟨_, hretain, by rw [← hfile]; rfl, List.mem_append_right _ (List.mem_singleton.mpr rfl),
    rfl, names_none _ _, Nat.zero_le _, ?_⟩
  intro d hd f' hf'
  rcases List.mem_append.mp hd with hd | hd
  · obtain rfl := List.mem_singleton.mp hd
    cases hf'
  · obtain rfl := List.mem_singleton.mp hd
    obtain rfl : f = f' := by simpa using hf'
    rw [hfile]
    exact ⟨le_rfl, rfl⟩

theorem Stands.next (h : Stands s g rs j) (now : ℕ) {r : Record} {rest : List Record}
    (hcons : rs.drop j = r :: rest) (hfits : r.fits = true) :
    ∃ p s', s.next numberedEnv now = (.ok (some p), s') ∧ Stands s' g rs j ∧
      p.boundary = endOf (rs.take (j + 1)) ∧
      Names numberedEnv.digest s'.pendingIdentity s'.disk.spool := by
  obtain ⟨r', rest', err, hcons', hfits', -⟩ |
      ⟨c, hoffset, -, hnames, -, ⟨hnil, -⟩ | ⟨r', rest', p, -, -, -, hboundary, hnext⟩⟩ :=
    DurableSpool.next_spec (EnvelopeCodec.lawful_printed _ _) h.holds
      (.measured h.le h.offset h.names) h.mem h.distinct now
  · rw [hcons] at hcons'
    obtain ⟨rfl, rfl⟩ := List.cons.inj hcons'
    rw [hfits] at hfits'
    cases hfits'
  · rw [hcons] at hnil
    cases hnil
  · exact ⟨p, _, hnext, ⟨h.file, h.mem, hoffset, hnames, h.le, h.numbered⟩, hboundary,
      names_of _ _⟩

theorem Stands.advance (h : Stands s g rs j) {p : Pending} (now : ℕ) {m : ℕ} (hm : m < rs.length)
    (hboundary : p.boundary = endOf (rs.take m))
    (hnames : Names numberedEnv.digest s.pendingIdentity s.disk.spool) :
    Stands (s.advance p now) g rs m := by
  have hkeep : ∀ f, s.disk.spool = some f → reclaimAbove < p.boundary →
      f.bytes.length ≠ p.boundary := by
    intro f hf _ hsize
    rw [h.file] at hf
    obtain rfl := Option.some.inj hf
    rw [hboundary] at hsize
    exact absurd (eq_length_of_endOf hm.le hsize.symm) (by omega)
  rw [DurableSpool.advance, DurableSpool.commitPast_keeps 0 now hkeep]
  refine ⟨h.file, List.mem_append_right _ (List.mem_singleton.mpr rfl), ?_, ?_, hm.le, ?_⟩
  · exact (DurableSpool.committed_offset ..).trans hboundary
  · show Names _ (s.committed p.boundary 0 now).spool _
    rw [DurableSpool.committed_spool]
    exact hnames
  · intro d hd f hf
    rcases List.mem_append.mp hd with hd | hd
    · exact h.numbered d hd f hf
    · obtain rfl := List.mem_singleton.mp hd
      exact h.numbered s.disk h.mem f hf

theorem Stands.compact (h : Stands s g rs j) (habove : reclaimAbove < endOf (rs.take j)) :
    Stands (s.compactIfStuck numberedEnv).2 (g + 1) (rs.drop j) 0 ∧
      (s.compactIfStuck numberedEnv).2.pendingIdentity = s.pendingIdentity := by
  have hle : endOf (rs.take j) ≤ (recordBytes rs).length := endOf_take_le rs j
  obtain ⟨f, hcompact, hfile⟩ : ∃ f, (s.compactIfStuck numberedEnv).2 =
      { s.setFile f with checkpoint := { s.checkpoint with offset := 0, spool := none } }.store ∧
      f = ⟨some (g + 1), some 0, recordBytes (rs.drop j), g + 1⟩ := by
    refine ⟨_, ?_, rfl⟩
    simp only [DurableSpool.compactIfStuck, h.offset, h.file]
    rw [if_neg (by omega), if_neg (by omega), drop_recordBytes]
    rfl
  rw [hcompact]
  refine ⟨⟨by rw [← hfile]; rfl, List.mem_append_right _ (List.mem_singleton.mpr rfl), rfl,
    names_none _ _, Nat.zero_le _, ?_⟩, rfl⟩
  intro d hd f' hf'
  rcases List.mem_append.mp hd with hd | hd
  · rcases List.mem_append.mp hd with hd | hd
    · obtain ⟨hgen, hinode⟩ := h.numbered d hd f' hf'
      exact ⟨by omega, hinode⟩
    · obtain rfl := List.mem_singleton.mp hd
      obtain rfl : f = f' := by simpa using hf'
      rw [hfile]
      exact ⟨le_rfl, rfl⟩
  · obtain rfl := List.mem_singleton.mp hd
    obtain rfl : f = f' := by simpa [DurableSpool.setFile, DurableSpool.persist] using hf'
    rw [hfile]
    exact ⟨le_rfl, rfl⟩

/-- The consumer reads the second record, a compaction drops the first, a third record takes
its place, and the commit of the second empties the file. -/
def lossyRun (a b c : Record) : List Act :=
  [.retain a, .retain b, .next 1, .advance 2, .next 3, .compact, .retain c, .advance 4]

/-- With three lines of the same length, above a mebibyte, the third record is lost. -/
theorem lossyRun_loses {a b c : Record} {len : ℕ} (ha : endOf [a] = len) (hb : endOf [b] = len)
    (hc : endOf [c] = len) (habove : reclaimAbove < len) (hroom : 2 * len ≤ capacity)
    (hfits : a.fits = true) (hfits' : b.fits = true) :
    Distinct numberedEnv.digest (init.run numberedEnv (lossyRun a b c)).spool.trail ∧
      (init.run numberedEnv (lossyRun a b c)).retained = [a, b, c] ∧
      (init.run numberedEnv (lossyRun a b c)).delivered = [0, 1] ∧
      (init.run numberedEnv (lossyRun a b c)).discarded = [] ∧
      (init.run numberedEnv (lossyRun a b c)).spool.fileBytes = [] := by
  have hsum : ∀ {x y : Record}, endOf [x] = len → endOf [y] = len → endOf [x, y] = 2 * len := by
    intro x y hx hy
    rw [← List.singleton_append, endOf_append, hx, hy]
    omega
  obtain ⟨s₁, hs₁, h₁⟩ := Stands.first a (by omega)
  obtain ⟨s₂, hs₂, h₂, -⟩ := h₁.retain b (by simp only [List.take_zero, ha, hb, endOf_nil]; omega)
  obtain ⟨p, s₃, hs₃, h₃, hp, hpend₃⟩ := h₂.next 1 rfl hfits
  have h₄ := h₃.advance (p := p) 2 (m := 1) (by simp) hp hpend₃
  obtain ⟨q, s₅, hs₅, h₅, hq, hpend₅⟩ := h₄.next 3 rfl hfits'
  obtain ⟨h₆, -⟩ := h₅.compact (by
    show reclaimAbove < endOf [a]
    omega)
  obtain ⟨s₇, hs₇, h₇, -⟩ := h₆.retain c (by
    show endOf [b] - endOf [] + endOf [c] ≤ capacity
    rw [endOf_nil]
    omega)
  have hq' : q.boundary = 2 * len := hq.trans (hsum ha hb)
  have hsize : (recordBytes [b, c]).length = q.boundary := by
    rw [hq']
    exact hsum hb hc
  have hadvance := DurableSpool.commitPast_reclaims 0 4 h₇.file (by rw [hq']; omega) hsize
  have hi : World.numberAt ⟨s₃, [a, b], [], [], []⟩ s₃.checkpoint.offset = some 0 := by
    rw [h₃.offset]
    exact numberAt_endOf (k := 0) (Nat.zero_le _) h₃.holds 0 (Nat.zero_le _)
  have hi' : World.numberAt ⟨s₅, [a, b], [0], [], []⟩ s₅.checkpoint.offset = some 1 := by
    rw [h₅.offset]
    exact numberAt_endOf (k := 0) (Nat.zero_le _) h₅.holds 1 (by simp)
  have hrun : init.run numberedEnv (lossyRun a b c) =
      ⟨s₇.advance q 4, [a, b, c], [0, 1], [], []⟩ := by
    have hw₃ : init.run numberedEnv [Act.retain a, Act.retain b, Act.next 1] =
        ⟨s₃, [a, b], [], [], [(p, some 0)]⟩ := by
      simp only [run, step, hs₁, hs₂, hs₃]
      rw [← hi]
      rfl
    have hw₅ : init.run numberedEnv ([Act.retain a, Act.retain b, Act.next 1] ++
        [Act.advance 2, Act.next 3]) =
        ⟨s₅, [a, b], [0], [], [(q, some 1)]⟩ := by
      rw [run_append, hw₃]
      simp only [run, step, hs₅]
      rw [← hi']
      rfl
    have hsplit : lossyRun a b c = ([Act.retain a, Act.retain b, Act.next 1] ++
      [Act.advance 2, Act.next 3]) ++ [Act.compact, Act.retain c, Act.advance 4] := rfl
    rw [hsplit, run_append, hw₅]
    simp only [run, step, hs₇]
    rfl
  rw [hrun]
  refine ⟨?_, rfl, rfl, rfl, ?_⟩
  · show Distinct _ (s₇.commitPast q.boundary 0 4).trail
    rw [hadvance]
    -- the disk with the new checkpoint, then twice the emptied file
    refine ((h₇.distinct.append ?_).append ?_).append ?_
    · intro d hd f hf
      obtain rfl := List.mem_singleton.mp hd
      exact .inr ⟨s₇.disk, h₇.mem, hf⟩
    · intro d hd f hf
      obtain rfl := List.mem_singleton.mp hd
      obtain rfl := Option.some.inj hf
      exact .inl rfl
    · intro d hd f hf
      obtain rfl := List.mem_singleton.mp hd
      obtain rfl := Option.some.inj hf
      exact .inl rfl
  · show DurableSpool.fileBytes (s₇.commitPast q.boundary 0 4) = []
    rw [hadvance]
    rfl

/-- The third of three bulky records is nowhere any more. -/
theorem run_loses_record :
    Distinct numberedEnv.digest
      (init.run numberedEnv (lossyRun (bulky 0) (bulky 1) (bulky 2))).spool.trail ∧
    (init.run numberedEnv (lossyRun (bulky 0) (bulky 1) (bulky 2))).retained =
      [bulky 0, bulky 1, bulky 2] ∧
    ¬ Accounted numberedEnv (init.run numberedEnv (lossyRun (bulky 0) (bulky 1) (bulky 2))) := by
  obtain ⟨hdist, hretained, hdelivered, hdiscarded, hbytes⟩ :=
    lossyRun_loses (endOf_bulky 0) (endOf_bulky 1) (endOf_bulky 2) (by decide) (by decide)
      (fits_bulky 0) (fits_bulky 1)
  refine ⟨hdist, hretained, ?_⟩
  intro h
  have hdropped : (init.run numberedEnv (lossyRun (bulky 0) (bulky 1) (bulky 2))).dropped = 3 := by
    rw [dropped, hbytes, hretained]
    rfl
  have hrecord := h.records 2 (by rw [hretained]; decide)
  rw [hdelivered, hdiscarded, hdropped] at hrecord
  obtain hmem | hmem | ⟨hle, -⟩ := hrecord
  · revert hmem
    decide
  · cases hmem
  · omega

end World

end Governance
