import Governance.CopilotPush.Charge

/-!
# The loss count when stores fail

A commit charges the journal in memory before it stores it. When the store fails, the losses of
the transform stay charged and are not charged again, but the records given up since the last
commit are: the pass has not noted that they were charged, and the commit after the loop charges
them a second time. `Balanced` is the exact account of this, for every pattern of failures:
what the total has too much is what the failed commits at the top of a loop had charged
(`excess`).
-/

namespace Governance

open Utf8Text ByteLines

namespace Push

/-- What the transform lost of the lines below an offset. -/
def lossBelow (lost : Text → ℕ) (lines : List Line) (through : ℕ) : ℕ :=
  Machine.lossOf lost (below lines through)

/-- A store at the top of an export loop that failed and had charged records given up. -/
def Write.twice (w : Write) : Bool := !w.ok && w.inLoop && decide (0 < w.owed)

/-- What the failed stores at the top of an export loop had charged. -/
def excess (writes : List Write) : ℕ :=
  ((writes.filter fun w => !w.ok && w.inLoop).map Write.owed).sum

theorem excess_concat (writes : List Write) (w : Write) :
    excess (writes ++ [w]) = excess writes + if !w.ok && w.inLoop then w.owed else 0 := by
  unfold excess
  rw [List.filter_append, List.map_append, List.sum_append]
  congr 1
  cases h : !w.ok && w.inLoop <;> simp [h]

theorem lossOf_append (lost : Text → ℕ) (lines lines' : List Line) :
    Machine.lossOf lost (lines ++ lines') =
      Machine.lossOf lost lines + Machine.lossOf lost lines' := by
  simp [Machine.lossOf]

section

variable (lost : Text → ℕ) (before : ℕ)

/-- The account of a store: what it stores, with what had been charged twice before it. -/
def Accounted (lines : List Line) (writes : List Write) (w : Write) : Prop :=
  w.given.Nodup ∧ w.c.discardedTotal =
    before + w.given.length + lossBelow lost lines w.through + excess writes

/-- The account of a machine, with `owed` records given up that are not charged yet. -/
structure Balanced (owed : ℕ) (m : Machine) : Prop where
  charged : Charged m.journal
  given : m.given.Nodup
  total : m.journal.state.discardedTotal + owed = before + m.given.length +
    lossBelow lost m.journal.lines m.journal.state.offset + excess m.writes
  writes : ∀ ws w, ws ++ [w] <+: m.writes → Accounted lost before m.journal.lines ws w

variable {lost before} {env : PushEnv} {owed : ℕ} {m : Machine}

/-- The account is one of the offsets and the total. -/
theorem Balanced.withState (h : Balanced lost before owed m) {state : Checkpoint}
    (hoffset : state.offset = m.journal.state.offset)
    (hsignal : ∀ s, state.signalOffset s = m.journal.state.signalOffset s)
    (htotal : state.discardedTotal = m.journal.state.discardedTotal) :
    Balanced lost before owed { m with journal := { m.journal with state := state } } := by
  refine ⟨⟨h.charged.ordered, ?_, ?_⟩, h.given, ?_, h.writes⟩
  · simpa only [hoffset] using h.charged.charged
  · simpa only [Checkpoint.Shared, hoffset, hsignal] using h.charged.shared
  · simpa only [hoffset, htotal] using h.total

/-- A store of the total adds its account. A failed one at the top of a loop leaves what it had
charged to be charged again. -/
theorem Balanced.store (h : Balanced lost before 0 m) {c : Checkpoint}
    (hc : c.discardedTotal = m.journal.state.discardedTotal) (inLoop : Bool) (owed : ℕ) :
    Balanced lost before (if !env.storeOk m.tried && inLoop then owed else 0)
      (m.store env c inLoop owed m.journal.state.offset).2 := by
  have htotal := h.total
  rw [Nat.add_zero] at htotal
  refine ⟨?_, ?_, ?_, ?_⟩
  · rw [Machine.store_journal]
    exact h.charged
  · rw [Machine.store_given]
    exact h.given
  · rw [Machine.store_journal, Machine.store_given, Machine.store_writes, excess_concat, htotal,
      Nat.add_assoc]
  · intro ws w hws
    rw [Machine.store_writes, List.prefix_concat_iff] at hws
    rw [Machine.store_journal]
    rcases hws with hws | hws
    · obtain ⟨rfl, hw⟩ := List.append_inj' hws rfl
      obtain rfl := List.singleton_inj.mp hw
      exact ⟨h.given, hc.trans htotal⟩
    · exact h.writes ws w hws

theorem Balanced.commit (h : Balanced lost before 0 m) (inLoop : Bool) (owed : ℕ) :
    Balanced lost before (if !(m.commit env inLoop owed).1 && inLoop then owed else 0)
      (m.commit env inLoop owed).2 := by
  obtain ⟨-, hcommit⟩ | ⟨-, m', hm', hcommit⟩ := Machine.commit_cases env m inLoop owed
  · rw [hcommit]
    exact h
  have h' : Balanced lost before 0 m' := by
    rw [hm']
    exact h.withState rfl (fun _ => rfl) rfl
  have htried : m'.tried = m.tried := by rw [hm']
  have hstore : Balanced lost before (if !env.storeOk m'.tried && inLoop then owed else 0)
      (m'.store env m'.journal.state inLoop owed m'.journal.state.offset).2 :=
    h'.store rfl inLoop owed
  rw [htried] at hstore
  rw [hcommit]
  cases hok : env.storeOk m.tried with
  | true =>
    rw [hok] at hstore
    have hj := hstore.charged
    rw [Machine.store_journal] at hj
    refine ⟨⟨hj.ordered, hj.charged, hj.shared⟩, hstore.given, ?_, ?_⟩
    · simpa using hstore.total
    · simpa using hstore.writes
  | false =>
    rw [hok] at hstore
    exact hstore

/-- What `Journal::advance` charges settles what was owed. -/
theorem Balanced.charge (h : Balanced lost before owed m) (hlost : env.lost = lost)
    (signal : Signal) (reached : ℕ) :
    Balanced lost before 0 (m.charge env signal reached owed) := by
  refine ⟨Machine.charge_charged signal reached owed h.charged, h.given, ?_, h.writes⟩
  have hbelow := Machine.below_fresh signal reached h.charged
  have htotal := h.total
  have hloss : lossBelow lost m.journal.lines (m.journal.state.raise signal reached).offset =
      lossBelow lost m.journal.lines m.journal.state.offset +
        Machine.lossOf lost (m.fresh signal reached) := by
    rw [lossBelow, hbelow, lossOf_append]
    rfl
  rw [Machine.charge_discardedTotal, Machine.charge_offset, hlost]
  change _ = before + m.given.length +
    lossBelow lost m.journal.lines (m.journal.state.raise signal reached).offset + excess m.writes
  omega

theorem Balanced.advance (h : Balanced lost before owed m) (hlost : env.lost = lost)
    (signal : Signal) (reached : ℕ) (inLoop : Bool) :
    Balanced lost before
      (if !(m.advance env signal reached owed inLoop).1 && inLoop then owed else 0)
      (m.advance env signal reached owed inLoop).2 :=
  (h.charge hlost signal reached).commit inLoop owed

theorem Balanced.post (h : Balanced lost before owed m) (signal : Signal) (lines : List Line) :
    Balanced lost before owed (m.post env signal lines).2 :=
  ⟨h.charged, h.given, h.total, h.writes⟩

theorem Balanced.withQuarantine (h : Balanced lost before owed m) (q : Quarantine) :
    Balanced lost before owed (m.withQuarantine q) :=
  h.withState rfl (fun _ => rfl) rfl

/-- A record given up is owed. -/
theorem Balanced.giveUp (h : Balanced lost before owed m) {line : Line} (hline : line ∉ m.given)
    (offer : Offer) (key : String) (last : ℕ) (p : Progress) :
    Balanced lost before (owed + 1) (giveUp offer line key last p m).2 := by
  refine ⟨⟨h.charged.ordered, h.charged.charged, h.charged.shared⟩, ?_, ?_, h.writes⟩
  · change (m.given ++ [line]).Nodup
    rw [List.nodup_append]
    refine ⟨h.given, List.nodup_singleton line, ?_⟩
    intro l hl l' hl' heq
    exact hline (List.mem_singleton.mp hl' ▸ heq ▸ hl)
  · change m.journal.state.discardedTotal + (owed + 1) = before + (m.given ++ [line]).length +
      lossBelow lost m.journal.lines m.journal.state.offset + excess m.writes
    have htotal := h.total
    rw [List.length_append, List.length_singleton]
    omega

end

/-! ## A pass -/

section Pass

variable (env : PushEnv) (offer : Offer) (lines : List Line) (before : ℕ) (old : List Line)

/-- The account of a pass. The records it gave up are in its resolved prefix, the others are
`old`. -/
structure PassBalanced (p : Progress) (m : Machine) : Prop where
  balanced : Balanced env.lost before (p.discarded - p.committedDiscards) m
  le : p.committedDiscards ≤ p.discarded
  committed : ∀ k, p.committed = some k → k ≤ p.resolved
  settled : p.committed = some p.resolved → p.discarded = p.committedDiscards
  given : ∀ line ∈ m.given,
    line ∈ lines.take p.resolved ∧ env.kind line.text = some offer.signal ∨ line ∈ old

variable {env offer lines before old} {p : Progress} {m : Machine}

theorem PassBalanced.start (h : Balanced env.lost before 0 m) :
    PassBalanced env offer lines before m.given .default m :=
  ⟨h, le_rfl, fun _ hk => (by cases hk), fun _ => rfl, fun _ hl => .inr hl⟩

theorem notMem_take {lines : List Line} (hnodup : lines.Nodup) {i : ℕ} {line : Line}
    (hline : lines[i]? = some line) : line ∉ lines.take i := by
  obtain ⟨hlt, rfl⟩ := List.getElem?_eq_some_iff.mp hline
  rw [← List.take_append_drop i lines, List.drop_eq_getElem_cons hlt, List.nodup_append] at hnodup
  intro hmem
  exact hnodup.2.2 _ hmem _ (List.mem_cons_self ..) rfl

/-- A longer prefix is not committed yet. -/
theorem PassBalanced.resolve (h : PassBalanced env offer lines before old p m) {last : ℕ}
    (hlt : p.resolved < last) :
    PassBalanced env offer lines before old { p with resolved := last } m := by
  refine ⟨h.balanced, h.le, ?_, ?_, ?_⟩
  · intro k hk
    exact (h.committed k hk).trans hlt.le
  · intro hk
    have hle := h.committed last hk
    omega
  · intro line hline
    rcases h.given line hline with ⟨hmem, hkind⟩ | hmem
    · exact .inl ⟨List.take_subset_take_left lines hlt.le hmem, hkind⟩
    · exact .inr hmem

theorem PassBalanced.post (h : PassBalanced env offer lines before old p m) (signal : Signal)
    (ls : List Line) : PassBalanced env offer lines before old p (m.post env signal ls).2 :=
  ⟨h.balanced.post signal ls, h.le, h.committed, h.settled, h.given⟩

theorem PassBalanced.giveUp (h : PassBalanced env offer lines before old p m)
    (hnodup : lines.Nodup) (hold : ∀ line ∈ old, env.kind line.text ≠ some offer.signal)
    {line : Line} (hline : lines[p.resolved]? = some line)
    (hkind : env.kind line.text = some offer.signal) (key : String) {last : ℕ}
    (hlt : p.resolved < last) :
    PassBalanced env offer lines before old (giveUp offer line key last p m).1
      (giveUp offer line key last p m).2 := by
  have hnew : line ∉ m.given := by
    intro hmem
    rcases h.given line hmem with ⟨hmem, -⟩ | hmem
    · exact notMem_take hnodup hline hmem
    · exact hold line hmem hkind
  have hbalanced := h.balanced.giveUp hnew offer key last p
  have hle := h.le
  refine ⟨?_, ?_, ?_, ?_, ?_⟩
  · have howed : p.discarded + 1 - p.committedDiscards = p.discarded - p.committedDiscards + 1 := by
      omega
    change Balanced env.lost before (p.discarded + 1 - p.committedDiscards) _
    rw [howed]
    exact hbalanced
  · exact hle.trans (Nat.le_succ _)
  · intro k hk
    exact (h.committed k hk).trans hlt.le
  · intro hk
    have := h.committed last hk
    omega
  · intro l hl
    rcases List.mem_append.mp hl with hl | hl
    · exact (h.resolve hlt).given l hl
    · obtain rfl := List.mem_singleton.mp hl
      refine .inl ⟨List.mem_of_getElem? (i := p.resolved) ?_, hkind⟩
      rw [Push.giveUp, List.getElem?_take_of_lt hlt]
      exact hline

/-- A commit at the top of the loop. -/
theorem PassBalanced.commit (h : PassBalanced env offer lines before old p m) :
    PassBalanced env offer lines before old (commit env offer lines true p m).2.1
      (commit env offer lines true p m).2.2 := by
  have hadvance := h.balanced.advance rfl offer.signal
    (advancedTo lines p.resolved offer.endOffset) true
  have hgiven := h.given
  simp only [Push.commit]
  split
  · exact h
  · rw [← Machine.advance_given env m offer.signal
      (advancedTo lines p.resolved offer.endOffset) (p.discarded - p.committedDiscards) true]
      at hgiven
    generalize m.advance env offer.signal (advancedTo lines p.resolved offer.endOffset)
      (p.discarded - p.committedDiscards) true = r at hadvance hgiven ⊢
    obtain ⟨ok, m'⟩ := r
    cases ok with
    | true =>
      refine ⟨?_, le_rfl, ?_, fun _ => rfl, hgiven⟩
      · simpa using hadvance
      · rintro k ⟨⟩
        exact le_rfl
    | false => exact ⟨by simpa using hadvance, h.le, h.committed, h.settled, hgiven⟩

/-- The commit behind the loop settles the pass, whether or not it is stored. -/
theorem PassBalanced.settle (h : PassBalanced env offer lines before old p m) :
    Balanced env.lost before 0 (Push.commit env offer lines false p m).2.2 := by
  have hadvance := h.balanced.advance rfl offer.signal
    (advancedTo lines p.resolved offer.endOffset) false
  simp only [Push.commit]
  split
  · next hcommitted =>
    have hbalanced := h.balanced
    rwa [h.settled hcommitted, Nat.sub_self] at hbalanced
  · simpa using hadvance

/-- Every step of a pass keeps its account. -/
theorem PassBalanced.step (hnodup : lines.Nodup)
    (hold : ∀ line ∈ old, env.kind line.text ≠ some offer.signal) {a b : Progress × Machine}
    (h : PassBalanced env offer lines before old a.1 a.2) (hstep : PassStep env offer lines a b) :
    PassBalanced env offer lines before old b.1 b.2 := by
  cases hstep with
  | committed p m => exact h.commit
  | @tallied p p' m keeps =>
    refine ⟨?_, ?_, ?_, ?_, ?_⟩
    · rw [keeps.discarded, keeps.committedDiscards]
      exact h.balanced
    · rw [keeps.discarded, keeps.committedDiscards]
      exact h.le
    · rw [keeps.resolved, keeps.committed]
      exact h.committed
    · rw [keeps.discarded, keeps.committedDiscards, keeps.resolved, keeps.committed]
      exact h.settled
    · rw [keeps.resolved]
      exact h.given
  | noted p m q => exact ⟨h.balanced.withQuarantine q, h.le, h.committed, h.settled, h.given⟩
  | nothing m lt => exact h.resolve lt
  | declined p m => exact h.post _ _
  | accepted lt => exact (h.post _ _).resolve lt
  | gaveUp m key hline hkind => exact h.giveUp hnodup hold hline hkind key (Nat.lt_succ_self _)
  | jumped key hline hkind lt =>
    exact (h.post _ _).giveUp hnodup hold hline hkind key (Nat.lt_succ_of_lt lt)

theorem PassBalanced.steps (hnodup : lines.Nodup)
    (hold : ∀ line ∈ old, env.kind line.text ≠ some offer.signal) {a b : Progress × Machine}
    (h : PassBalanced env offer lines before old a.1 a.2)
    (hsteps : Relation.ReflTransGen (PassStep env offer lines) a b) :
    PassBalanced env offer lines before old b.1 b.2 := by
  induction hsteps with
  | refl => exact h
  | tail _ hstep ih => exact ih.step hnodup hold hstep

/-- A pass leaves nothing owed. -/
theorem Balanced.exportSignal (h : Balanced env.lost before 0 m) (hnodup : lines.Nodup)
    (hold : ∀ line ∈ m.given, env.kind line.text ≠ some offer.signal) :
    Balanced env.lost before 0 (exportSignal env offer lines m).2 ∧
      ∀ line ∈ (exportSignal env offer lines m).2.given,
        line ∈ m.given ∨ env.kind line.text = some offer.signal := by
  have hpass : PassBalanced env offer lines before m.given (exported env offer lines m).1
      (exported env offer lines m).2 :=
    (PassBalanced.start h).steps hnodup hold (exported_steps env offer lines m)
  rw [exportSignal_machine]
  refine ⟨hpass.settle, ?_⟩
  intro line hline
  rw [commit_given] at hline
  rcases hpass.given line hline with ⟨-, hkind⟩ | hmem
  · exact .inr hkind
  · exact .inl hmem

end Pass

/-! ## A sweep -/

section

variable {env : PushEnv} {before : ℕ} {m : Machine}

theorem nodup_pendingFor {lines : List Line} (h : Ordered lines) (state : Checkpoint)
    (signal : Signal) : (pendingFor state signal lines).Nodup := by
  have hsub : Ordered (pendingFor state signal lines) := h.sublist List.filter_sublist
  apply hsub.imp
  intro l l' hlt heq
  rw [heq] at hlt
  exact lt_irrefl _ hlt

theorem Balanced.offerSignal (h : Balanced env.lost before 0 m) {signal : Signal}
    (hold : ∀ line ∈ m.given, env.kind line.text ≠ some signal) (last : ℕ) :
    Balanced env.lost before 0 (offerSignal env signal last m).2 ∧
      ∀ line ∈ (Push.offerSignal env signal last m).2.given,
        line ∈ m.given ∨ env.kind line.text = some signal := by
  rw [Push.offerSignal]
  exact h.exportSignal (nodup_pendingFor h.charged.ordered _ signal) hold

theorem Balanced.both (h : Balanced env.lost before 0 m) (hgiven : m.given = []) (last : ℕ) :
    Balanced env.lost before 0 (both env last m).2 := by
  have hpruned := h.withQuarantine (m.journal.state.quarantine.prune env.now)
  rw [both_machine]
  generalize hm' : m.withQuarantine (m.journal.state.quarantine.prune env.now) = m' at hpruned ⊢
  have hnil : m'.given = [] := by
    rw [← hm']
    exact hgiven
  have hnone : ∀ line ∈ m'.given, env.kind line.text ≠ some .metrics := by
    simp [hnil]
  obtain ⟨hmetrics, hkind⟩ := hpruned.offerSignal hnone last
  refine (hmetrics.offerSignal ?_ last).1
  intro line hline
  rcases hkind line hline with hmem | hmetric
  · simp [hnil] at hmem
  · simp [hmetric]

theorem Balanced.finished (h : Balanced env.lost before 0 m) (records : ℕ) (stalled : Bool)
    (now : ℕ) : Balanced env.lost before 0 (m.finished records stalled now) := by
  apply h.withState
  · split <;> split <;> rfl
  · intro s
    split <;> split <;> rfl
  · split <;> split <;> rfl

theorem Balanced.reclaim (h : Balanced env.lost before 0 m) :
    Balanced env.lost before 0 (reclaim env m) := by
  simp only [Push.reclaim]
  split
  · exact h
  split
  · exact h
  split
  · exact h
  · next f _ _ =>
    have hreach : Balanced env.lost before 0 (m.reach ⟨m.now.disk.truncate f, m.now.log⟩) :=
      ⟨h.charged, h.given, h.total, h.writes⟩
    have htotal : (m.journal.state.reclaimed env.digest
        (m.now.disk.truncate f)).discardedTotal = m.journal.state.discardedTotal := rfl
    have hstore : Balanced env.lost before _ ((m.reach ⟨m.now.disk.truncate f, m.now.log⟩).store env
        (m.journal.state.reclaimed env.digest (m.now.disk.truncate f)) false 0
        m.journal.state.offset).2 := hreach.store htotal false 0
    rwa [ite_self] at hstore

theorem Balanced.closing (h : Balanced env.lost before 0 m) :
    Balanced env.lost before 0 (closing env m).2 := by
  have hcommit : Balanced env.lost before _ (m.commit env false 0).2 := h.commit false 0
  rw [ite_self] at hcommit
  simp only [Push.closing]
  split
  · exact hcommit.reclaim
  · exact hcommit

theorem balanced_start (lost : Text → ℕ) (moment : Moment) {lines : List Line} (c : Checkpoint)
    (identity : Option Identity) {restarted : Bool} (hord : Ordered lines)
    (hle : ∀ line ∈ lines, (if restarted then 0 else c.offset) ≤ line.offset) :
    Balanced lost c.discardedTotal 0 (.start moment (.new lines c identity restarted)) := by
  have hoffset : (Journal.new lines c identity restarted).state.offset =
      if restarted then 0 else c.offset := by
    cases restarted <;> rfl
  have htotal : (Journal.new lines c identity restarted).state.discardedTotal =
      c.discardedTotal := by
    cases restarted <;> rfl
  have hnil : below lines (Journal.new lines c identity restarted).state.offset = [] := by
    apply below_eq_nil
    rwa [hoffset]
  refine ⟨⟨hord, ?_, .inr ?_⟩, List.nodup_nil, ?_, ?_⟩
  · exact (congrArg List.length hnil).symm
  · simp only [Machine.start, hoffset]
    exact hle
  · change (Journal.new lines c identity restarted).state.discardedTotal + 0 = c.discardedTotal + 0 +
      Machine.lossOf lost (below lines (Journal.new lines c identity restarted).state.offset) + 0
    rw [hnil, htotal]
    rfl
  · intro ws w hws
    simpa using List.prefix_nil.mp hws

/-- The account of a whole sweep. -/
theorem sweepOnce_balanced (env : PushEnv) (dryRun : Bool) (carried : ℕ) (moment : Moment) :
    Balanced env.lost (moment.disk.checkpoint.getD .default).discardedTotal 0
      (sweepOnce env dryRun carried moment).2 := by
  generalize hc : moment.disk.checkpoint.getD .default = c
  obtain h | ⟨d, hdrain, h⟩ := sweepOnce_cases env dryRun carried moment hc
  · rw [h]
    exact balanced_start env.lost moment c none .nil (by simp)
  · obtain ⟨hord, hle⟩ := drain_ordered hdrain
    have hstart := balanced_start env.lost moment c d.identity hord hle
    generalize (sweepOnce env dryRun carried moment).2 = m at h ⊢
    cases h with
    | nothing => exact hstart
    | caughtUp => exact hstart.reclaim
    | restarted => exact hstart.closing
    | offered missing lines records stalled =>
      exact ((hstart.both rfl d.nextOffset).finished records stalled env.now).closing

end

/-- Every checkpoint that was stored counts what was counted before the sweep, the records given
up, and what the transform lost below the shared offset. -/
def CountsExactly (lost : Text → ℕ) (before : ℕ) (m : Machine) : Prop :=
  ∀ w ∈ m.writes, w.ok = true → w.c.discardedTotal =
    before + w.given.dedup.length + lossBelow lost m.journal.lines w.through

/-- A store at the top of an export loop fails while records are given up and not yet committed,
and a later store of the sweep succeeds. -/
def ChargedTwice (m : Machine) : Prop :=
  ∃ (ws : List Write) (w : Write) (ws' : List Write), m.writes = ws ++ w :: ws' ∧ w.twice = true ∧
    ∃ w' ∈ ws', w'.ok = true

theorem excess_pos {writes : List Write} {w : Write} (hw : w ∈ writes)
    (htwice : w.twice = true) : 0 < excess writes := by
  simp only [Write.twice, Bool.and_eq_true, decide_eq_true_eq] at htwice
  obtain ⟨hfailed, howed⟩ := htwice
  have hmem : w.owed ∈ (writes.filter fun w => !w.ok && w.inLoop).map Write.owed := by
    apply List.mem_map_of_mem
    rw [List.mem_filter]
    exact ⟨hw, by simpa using hfailed⟩
  exact howed.trans_le (List.single_le_sum (by simp) _ hmem)

theorem excess_eq_zero {writes : List Write} (h : ∀ w ∈ writes, w.twice = false) :
    excess writes = 0 := by
  rw [excess, List.sum_eq_zero_iff]
  intro owed howed
  obtain ⟨w, hw, rfl⟩ := List.mem_map.mp howed
  obtain ⟨hmem, hfailed⟩ := List.mem_filter.mp hw
  have hw := h w hmem
  simp only [Write.twice, hfailed, Bool.true_and, decide_eq_false_iff_not] at hw
  omega

/-- For every spool, every answer of the collector and every pattern of failing stores: what a
sweep stores counts every loss exactly once if and only if nothing is charged twice. -/
theorem sweep_counts_exactly_iff (env : PushEnv) (dryRun : Bool) (carried : ℕ) (moment : Moment) :
    CountsExactly env.lost (moment.disk.checkpoint.getD .default).discardedTotal
        (sweepOnce env dryRun carried moment).2 ↔
      ¬ ChargedTwice (sweepOnce env dryRun carried moment).2 := by
  have hbalanced := sweepOnce_balanced env dryRun carried moment
  generalize (sweepOnce env dryRun carried moment).2 = m at hbalanced ⊢
  constructor
  · rintro hexact ⟨ws, w, ws', hwrites, htwice, w', hw', hok⟩
    obtain ⟨u, v, rfl⟩ := List.append_of_mem hw'
    have hpre : (ws ++ w :: u) ++ [w'] <+: m.writes := ⟨v, by simp [hwrites]⟩
    obtain ⟨hnodup, htotal⟩ := hbalanced.writes _ _ hpre
    have hcount := hexact w' (hpre.subset (by simp)) hok
    have hw : w ∈ ws ++ w :: u := by simp
    have hpos := excess_pos hw htwice
    rw [hnodup.dedup] at hcount
    omega
  · intro hnot w hw hok
    obtain ⟨ws, ws', hwrites⟩ := List.append_of_mem hw
    have hpre : ws ++ [w] <+: m.writes := ⟨ws', by simp [hwrites]⟩
    obtain ⟨hnodup, htotal⟩ := hbalanced.writes _ _ hpre
    have hzero : excess ws = 0 := by
      apply excess_eq_zero
      intro v hv
      by_contra htwice
      obtain ⟨u, u', rfl⟩ := List.append_of_mem hv
      exact hnot ⟨u, v, u' ++ w :: ws', by simp [hwrites], by simpa using htwice, w, by simp, hok⟩
    rw [hnodup.dedup, htotal, hzero, Nat.add_zero]

instance (lost : Text → ℕ) (before : ℕ) (m : Machine) : Decidable (CountsExactly lost before m) :=
  inferInstanceAs (Decidable (∀ w ∈ m.writes, w.ok = true → w.c.discardedTotal =
    before + w.given.dedup.length + lossBelow lost m.journal.lines w.through))

/-- Reads a line with a body as a log record, and any other as lost. -/
def bodyReader : Reader where
  digest := numberedEnv.digest
  kind text := if "\x7b\"_body\":".toList.isPrefixOf text then some .logs else none
  lost text := if "\x7b\"_body\":".toList.isPrefixOf text then 0 else 1

/-- Two log records, behind a sweep in which the collector refused everything. -/
def refusedOnce : Moment :=
  (sweepOnce ⟨bodyReader, ⟨0, fun _ => 0, fun _ => .refused, fun _ => true⟩⟩ false 0
    ⟨⟨some ⟨some 0, some 0,
      lineBytes ["\x7b\"_body\":1\x7d".toList, "\x7b\"_body\":2\x7d".toList], 0⟩,
      none, [], 0, 1⟩, []⟩).2.now

/-- The first record is refused again, the probe behind it is accepted, and the first store
fails. -/
def firstStoreFails : PushEnv :=
  ⟨bodyReader, ⟨300, fun _ => 300, fun i => if i < 2 then .refused else .accepted,
    fun i => decide (i ≠ 0)⟩⟩

/-- The one record given up is stored as two. -/
theorem given_up_counted_twice :
    ¬ CountsExactly bodyReader.lost (refusedOnce.disk.checkpoint.getD .default).discardedTotal
      (sweepOnce firstStoreFails false 0 refusedOnce).2 := by
  decide +kernel

end Push

end Governance
