import Governance.Lib.Runs
import Governance.Auth.Session

/-!
# Refresh tokens are spent once

The lock makes a read, a refresh and a write of one invocation one operation for the others. The
migration of `configure` is outside of it: what it puts at the state path is the session that it
read before, whatever was stored in between.
-/

namespace Governance

namespace Session

/-! ## The condition -/

/-- `configure` is between its `exists` check and the end of its migration, with a file at the
cache path or with a copy of one in hand. -/
def State.Migrates (s : State) : Phase → Prop
  | .checkingLegacy c | .readingLegacy c | .verifying c | .unlinking c | .fallingBack c =>
    c = .configure ∧ s.legacy ≠ none
  | .writingCopy c _ | .renamingCopy c => c = .configure
  | _ => False

/-- A file is at the cache path that is not the session stored last. -/
def State.StaleLegacy (s : State) : Prop := s.legacy ≠ none ∧ s.legacy ≠ s.stored

/-- The lock is taken while no `configure` migrates. -/
def State.UndisturbedLock (s : State) : Action → Prop
  | .acquire p =>
    match s.phase p with
    | .locking _ => ∀ q, ¬ s.Migrates (s.phase q)
    | _ => True
  | _ => True

instance (s : State) : Decidable s.StaleLegacy :=
  inferInstanceAs (Decidable (s.legacy ≠ none ∧ s.legacy ≠ s.stored))

/-- `configure` finds nothing at the state path while nobody has the lock, or finds nothing at the
cache path either; `exists` does not fail over a stale file at the cache path, and `logout` is not
cut short before such a file. -/
def State.undisturbedFiles (s : State) : Action → Bool
  | .io p ok =>
    match s.phase p with
    | .checking c =>
      (c = .configure → ok = true ∧ s.session ≠ none ∨ s.lock = none ∨ s.legacy = none) ∧
        (ok = false → s.session = none ∨ ¬ s.StaleLegacy)
    | .clearingLegacy => ok = false → ¬ s.StaleLegacy
    | _ => true
  | .kill p =>
    match s.phase p with
    | .clearingLegacy => ¬ s.StaleLegacy
    | _ => true
  | _ => true

/-- `configure` migrates as if it held the lock, and no stale file at the cache path comes into
force. -/
def State.Undisturbed (s : State) (a : Action) : Prop :=
  s.UndisturbedLock a ∧ s.undisturbedFiles a = true

/-- What a step is to do: a token that it sends is not rotated yet, and a session that it loads is
the one stored last. -/
def State.Correct (s : State) (a : Action) : Prop :=
  (∀ token ∈ s.sends a, token ∉ s.rotated) ∧ ∀ session ∈ s.loads a, s.stored = some session

instance (s : State) (a : Action) : Decidable (s.Correct a) :=
  inferInstanceAs (Decidable ((∀ token ∈ s.sends a, token ∉ s.rotated) ∧
    ∀ session ∈ s.loads a, s.stored = some session))

/-! ## The invariant -/

/-- The invocation holds the lock. -/
def Phase.locked : Phase → Bool
  | .idle | .locking _ => false
  | .checking c | .checkingLegacy c | .readingLegacy c | .writingCopy c _ | .renamingCopy c
  | .verifying c | .unlinking c | .fallingBack c | .reading c | .loaded c _ => c ≠ .configure
  | _ => true

/-- A refresh has succeeded and its session is not stored yet. -/
def Phase.storing : Phase → Bool
  | .writingTmp c _ | .renamingTmp c _ => c ≠ .login
  | _ => false

/-- The refresh token of a session is the server's, and is not rotated. -/
def State.Unspent (s : State) (session : CachedSession) : Prop :=
  ∀ token ∈ session.refreshToken, token ∈ s.issued ∧ token ∉ s.rotated

/-- What a phase says about the files. -/
def State.PhaseOk (s : State) : Phase → Prop
  | .checkingLegacy _ | .readingLegacy _ | .verifying _ | .unlinking _ | .fallingBack _ =>
    ¬ s.StaleLegacy
  | .writingCopy _ bytes => ¬ s.StaleLegacy ∧ s.stored = some bytes
  | .renamingCopy _ => ¬ s.StaleLegacy ∧ (s.tmp = none ∨ s.tmp = s.stored)
  | .loaded c session => c ≠ .configure → ∀ session' ∈ session, s.stored = some session'
  | .exchanging c token =>
    c ≠ .login ∧ ∃ session, s.stored = some session ∧ session.refreshToken = some token
  | .writingTmp _ session => s.Unspent session
  | .renamingTmp _ session => s.tmp = some session ∧ s.Unspent session
  | .clearingLegacy => s.session = none
  | _ => True

structure Invariant (s : State) : Prop where
  holder : ∀ p, (s.phase p).locked = true → s.lock = some p
  quiet : s.lock ≠ none → ∀ p, ¬ s.Migrates (s.phase p)
  phases : ∀ p, s.PhaseOk (s.phase p)
  session : s.session = none ∨ s.session = s.stored
  legacy : s.session = none → ¬ s.StaleLegacy ∨ ∃ p, s.phase p = .clearingLegacy
  known : ∀ token ∈ s.rotated, token ∈ s.issued
  unspent : (∀ session ∈ s.stored, s.Unspent session) ∨ ∃ p, (s.phase p).storing = true

section Steps

variable {s s' : State} {p q : ℕ} {phase : Phase} {c : Command}

@[simp] theorem phase_set_eq : (s.set p phase).phase p = phase := by
  simp [State.set]

theorem phase_set_ne (h : q ≠ p) : (s.set p phase).phase q = s.phase q := by
  simp [State.set, h]

theorem forall_update {P : Phase → Prop} (hself : P phase) (hother : ∀ q, q ≠ p → P (s.phase q)) :
    ∀ q, P (Function.update s.phase p phase q) := by
  intro q
  by_cases hqp : q = p
  · subst hqp
    simpa using hself
  · simpa [hqp] using hother q hqp

theorem Phase.locked_of_storing (h : phase.storing = true) : phase.locked = true := by
  cases phase with
  | writingTmp c session | renamingTmp c session => rfl
  | _ => cases h

/-! ### The other invocations -/

/-- Under the lock no other invocation has it. -/
theorem Invariant.other_unlocked (h : Invariant s) (hp : s.lock = some p) (hqp : q ≠ p) :
    (s.phase q).locked = false := by
  by_contra hq
  have hlock := h.holder q (by simpa using hq)
  exact hqp (Option.some.inj (hlock.symm.trans hp))

theorem Invariant.unlocked_of_none (h : Invariant s) (hlock : s.lock = none) (q : ℕ) :
    (s.phase q).locked = false := by
  by_contra hq
  have hheld := h.holder q (by simpa using hq)
  rw [hlock] at hheld
  cases hheld

/-- An invocation with the lock may do as it likes: the others have read nothing. -/
theorem phaseOk_of_quiet (hunlocked : phase.locked = false) (hquiet : ¬ s.Migrates phase)
    (hlegacy : s'.legacy = s.legacy ∨ s'.legacy = none) : s'.PhaseOk phase := by
  have hnone : ∀ c : Command, c = .configure → ¬ (c = .configure ∧ s.legacy ≠ none) →
      ¬ s'.StaleLegacy := by
    rintro c hc hno ⟨hsome, -⟩
    have hlegacy' : s.legacy = none := by
      by_contra hne
      exact hno ⟨hc, hne⟩
    rcases hlegacy with heq | heq
    · exact hsome (heq.trans hlegacy')
    · exact hsome heq
  cases phase with
  | checkingLegacy c | readingLegacy c | verifying c | unlinking c | fallingBack c =>
    exact hnone c (by simpa [Phase.locked] using hunlocked) hquiet
  | writingCopy c bytes =>
    have hc : c = .configure := by simpa [Phase.locked] using hunlocked
    exact absurd hc hquiet
  | renamingCopy c =>
    have hc : c = .configure := by simpa [Phase.locked] using hunlocked
    exact absurd hc hquiet
  | loaded c session =>
    intro hc
    exact absurd (by simpa [Phase.locked] using hunlocked) hc
  | exchanging c token | writingTmp c session | renamingTmp c session | clearingLegacy =>
    cases hunlocked
  | _ => trivial

/-- A migration of the session stored last leaves the other migrations right. -/
theorem State.PhaseOk.migrate (h : s.PhaseOk phase) (hunlocked : phase.locked = false)
    (hstored : s'.stored = s.stored) (hlegacy : s'.legacy = s.legacy ∨ s'.legacy = none)
    (htmp : s'.tmp = s.tmp ∨ s'.tmp = none ∨ s'.tmp = s.stored) : s'.PhaseOk phase := by
  have hstale : ¬ s.StaleLegacy → ¬ s'.StaleLegacy := by
    rintro hfresh ⟨hsome, hother⟩
    rcases hlegacy with heq | heq
    · exact hfresh ⟨heq ▸ hsome, heq ▸ hstored ▸ hother⟩
    · exact hsome heq
  cases phase with
  | checkingLegacy c | readingLegacy c | verifying c | unlinking c | fallingBack c =>
    exact hstale h
  | writingCopy c bytes => exact ⟨hstale h.1, hstored.trans h.2⟩
  | renamingCopy c =>
    refine ⟨hstale h.1, ?_⟩
    rw [hstored]
    rcases htmp with heq | hnone | heq
    · rw [heq]
      exact h.2
    · exact .inl hnone
    · exact .inr heq
  | loaded c session =>
    intro hc
    exact absurd (by simpa [Phase.locked] using hunlocked) hc
  | exchanging c token | writingTmp c session | renamingTmp c session | clearingLegacy =>
    cases hunlocked
  | _ => trivial

theorem State.Migrates.of_legacy (h : s'.Migrates phase)
    (hlegacy : s'.legacy = s.legacy ∨ s'.legacy = none) : s.Migrates phase := by
  have hsome : s'.legacy ≠ none → s.legacy ≠ none := by
    intro hne
    rcases hlegacy with heq | heq
    · rwa [← heq]
    · exact absurd heq hne
  cases phase with
  | checkingLegacy c | readingLegacy c | verifying c | unlinking c | fallingBack c =>
    exact h.imp_right hsome
  | _ => exact h

/-! ### Steps -/

/-- One invocation moves on, and nothing else changes. -/
theorem Invariant.move (h : Invariant s) {old : Phase} (hp : s.phase p = old)
    (hlocked : phase.locked = true → old.locked = true)
    (hquiet : s.lock ≠ none → ¬ s.Migrates phase) (hok : s.PhaseOk phase)
    (hclear : old = .clearingLegacy → ¬ s.StaleLegacy)
    (hstoring : old.storing = false) : Invariant (s.set p phase) where
  holder := by
    intro q
    by_cases hqp : q = p
    · subst hqp
      rw [phase_set_eq]
      exact fun hq => h.holder q (by rw [hp]; exact hlocked hq)
    · rw [phase_set_ne hqp]
      exact h.holder q
  quiet hlock := forall_update (P := fun x => ¬ s.Migrates x) (hquiet hlock) fun q _ =>
    h.quiet hlock q
  phases := forall_update hok fun q _ => h.phases q
  session := h.session
  legacy := by
    intro hnone
    rcases h.legacy hnone with hfresh | ⟨q, hq⟩
    · exact .inl hfresh
    · by_cases hqp : q = p
      · subst hqp
        exact .inl (hclear (hp.symm.trans hq))
      · exact .inr ⟨q, by rw [phase_set_ne hqp, hq]⟩
  known := h.known
  unspent := by
    refine h.unspent.imp_right ?_
    rintro ⟨q, hq⟩
    have hqp : q ≠ p := by
      rintro rfl
      rw [hp, hstoring] at hq
      cases hq
    exact ⟨q, by rw [phase_set_ne hqp, hq]⟩

/-- A migration puts a copy of the session stored last in place, or removes the file at the cache
path. -/
theorem Invariant.migrate (h : Invariant s) (hphase : s'.phase = Function.update s.phase p phase)
    (hlock : s'.lock = s.lock) (hstored : s'.stored = s.stored)
    (hlegacy : s'.legacy = s.legacy ∨ s'.legacy = none)
    (htmp : s'.tmp = s.tmp ∨ s'.tmp = none ∨ s'.tmp = s.stored)
    (hsession : s'.session = s.session ∨ s'.session = s.stored)
    (hissued : s'.issued = s.issued) (hrotated : s'.rotated = s.rotated)
    (hp : (s.phase p).locked = true ∨ s.lock = none)
    (hlocked : phase.locked = true → (s.phase p).locked = true)
    (hquiet : s.lock ≠ none → ¬ s'.Migrates phase) (hok : s'.PhaseOk phase)
    (hclear : s.phase p ≠ .clearingLegacy) (hstoring : (s.phase p).storing = false) :
    Invariant s' := by
  have hunlocked : ∀ q, q ≠ p → (s.phase q).locked = false := by
    intro q hqp
    rcases hp with hp | hnone
    · exact h.other_unlocked (h.holder p hp) hqp
    · exact h.unlocked_of_none hnone q
  constructor
  · rw [hphase, hlock]
    intro q
    by_cases hqp : q = p
    · subst hqp
      rw [Function.update_self]
      exact fun hq => h.holder q (hlocked hq)
    · rw [Function.update_of_ne hqp, hunlocked q hqp]
      intro hq
      cases hq
  · rw [hphase, hlock]
    intro hheld
    refine forall_update (P := fun x => ¬ s'.Migrates x) (hquiet hheld) ?_
    intro q _ hmigrates
    exact h.quiet hheld q (hmigrates.of_legacy hlegacy)
  · rw [hphase]
    exact forall_update hok fun q hqp =>
      (h.phases q).migrate (hunlocked q hqp) hstored hlegacy htmp
  · rw [hstored]
    rcases hsession with heq | heq
    · rw [heq]
      exact h.session
    · exact .inr heq
  · intro hnone
    left
    rintro ⟨hsome, hother⟩
    have hkept : s'.legacy = s.legacy := hlegacy.resolve_right hsome
    rw [hkept] at hsome hother
    rw [hstored] at hother
    have hsession' : s.session = none := by
      rcases hsession with heq | heq
      · rw [← heq, hnone]
      · rcases h.session with hnone' | heq'
        · exact hnone'
        · rw [heq', ← heq, hnone]
    rcases h.legacy hsession' with hfresh | ⟨q, hq⟩
    · exact hfresh ⟨hsome, hother⟩
    · have hqp : q ≠ p := by
        rintro rfl
        exact hclear hq
      have hq' := hunlocked q hqp
      rw [hq] at hq'
      cases hq'
  · rw [hissued, hrotated]
    exact h.known
  · left
    intro session hsome
    rw [hstored] at hsome
    rcases h.unspent with hunspent | ⟨q, hq⟩
    · intro token htoken
      rw [hissued, hrotated]
      exact hunspent session hsome token htoken
    · exfalso
      by_cases hqp : q = p
      · subst hqp
        rw [hstoring] at hq
        cases hq
      · have hq' := hunlocked q hqp
        rw [Phase.locked_of_storing hq] at hq'
        cases hq'

/-- An invocation with the lock changes what it likes, as long as the files and the tokens are
right after it. -/
theorem Invariant.own (h : Invariant s) (hphase : s'.phase = Function.update s.phase p phase)
    (hlock : s'.lock = s.lock) (hp : (s.phase p).locked = true)
    (hlegacy : s'.legacy = s.legacy ∨ s'.legacy = none) (hquiet : ¬ s'.Migrates phase)
    (hok : s'.PhaseOk phase) (hsession : s'.session = none ∨ s'.session = s'.stored)
    (hfresh : s'.session = none → ¬ s'.StaleLegacy ∨ phase = .clearingLegacy)
    (hknown : ∀ token ∈ s'.rotated, token ∈ s'.issued)
    (hunspent : (∀ session ∈ s'.stored, s'.Unspent session) ∨ phase.storing = true) :
    Invariant s' := by
  have hheld := h.holder p hp
  have hother : ∀ q, q ≠ p → (s.phase q).locked = false := fun q hqp => h.other_unlocked hheld hqp
  have hcalm := h.quiet (by rw [hheld]; exact Option.some_ne_none p)
  constructor
  · rw [hphase, hlock, hheld]
    intro q
    by_cases hqp : q = p
    · subst hqp
      exact fun _ => rfl
    · rw [Function.update_of_ne hqp, hother q hqp]
      intro hq
      cases hq
  · rw [hphase]
    intro _
    refine forall_update (P := fun x => ¬ s'.Migrates x) hquiet ?_
    intro q _ hmigrates
    exact hcalm q (hmigrates.of_legacy hlegacy)
  · rw [hphase]
    exact forall_update hok fun q hqp => phaseOk_of_quiet (hother q hqp) (hcalm q) hlegacy
  · exact hsession
  · intro hnone
    refine (hfresh hnone).imp_right fun hclearing => ⟨p, ?_⟩
    rw [hphase, Function.update_self, hclearing]
  · exact hknown
  · refine hunspent.imp_right fun hstoring => ⟨p, ?_⟩
    rw [hphase, Function.update_self, hstoring]

/-- Nobody else is between a refresh and its store while an invocation has the lock. -/
theorem Invariant.unspent_of_locked (h : Invariant s) (hp : (s.phase p).locked = true)
    (hstoring : (s.phase p).storing = false) : ∀ session ∈ s.stored, s.Unspent session := by
  rcases h.unspent with hunspent | ⟨q, hq⟩
  · exact hunspent
  · have hqp : q ≠ p := by
      rintro rfl
      rw [hstoring] at hq
      cases hq
    have hq' := h.other_unlocked (h.holder p hp) hqp
    rw [Phase.locked_of_storing hq] at hq'
    cases hq'

/-- Nobody else is about to clear the cache path while an invocation has the lock. -/
theorem Invariant.fresh_of_locked (h : Invariant s) (hp : (s.phase p).locked = true)
    (hclear : s.phase p ≠ .clearingLegacy) (hnone : s.session = none) : ¬ s.StaleLegacy := by
  rcases h.legacy hnone with hfresh | ⟨q, hq⟩
  · exact hfresh
  · have hqp : q ≠ p := by
      rintro rfl
      exact hclear hq
    have hq' := h.other_unlocked (h.holder p hp) hqp
    rw [hq] at hq'
    cases hq'

theorem locked_finish (hc : c.finish.locked = true) : c ≠ .configure := by
  rintro rfl
  cases hc

theorem not_migrates_finish : ¬ s.Migrates c.finish := by
  cases c <;> exact id

theorem phaseOk_finish : s.PhaseOk c.finish := by
  cases c <;> trivial

/-- A command that is done, or whose `load` has failed. -/
theorem Invariant.finish (h : Invariant s) {old : Phase} (hp : s.phase p = old)
    (hlocked : c ≠ .configure → old.locked = true) (hclear : old ≠ .clearingLegacy)
    (hstoring : old.storing = false) : Invariant (s.set p c.finish) :=
  h.move hp (fun hc => hlocked (locked_finish hc)) (fun _ => not_migrates_finish) phaseOk_finish
    (fun heq => absurd heq hclear) hstoring

theorem State.eq_stored_of_fresh (h : ¬ s.StaleLegacy) {bytes : CachedSession}
    (hlegacy : s.legacy = some bytes) : s.stored = some bytes := by
  by_contra hne
  apply h
  rw [State.StaleLegacy, hlegacy]
  exact ⟨Option.some_ne_none _, fun heq => hne heq.symm⟩

/-- A `load` that finds nothing at the state path finds nothing stale at the cache path. -/
theorem Invariant.checking (h : Invariant s) {ok : Bool} (hp : s.phase p = .checking c)
    (hund : s.undisturbedFiles (.io p ok) = true) (hno : ¬ (ok = true ∧ s.session ≠ none)) :
    Invariant (s.set p (.checkingLegacy c)) := by
  simp only [State.undisturbedFiles, hp, decide_eq_true_eq] at hund
  obtain ⟨hconfigure, herror⟩ := hund
  have hlate : c = .configure → s.lock = none ∨ s.legacy = none := fun hc =>
    (hconfigure hc).resolve_left hno
  refine h.move hp id ?_ ?_ nofun rfl
  · rintro hlock ⟨hc, hlegacy⟩
    exact (hlate hc).elim hlock hlegacy
  · have hsession : s.session = none ∨ ¬ s.StaleLegacy := by
      cases ok with
      | false => exact herror rfl
      | true =>
        left
        by_contra hsome
        exact hno ⟨rfl, hsome⟩
    rcases hsession with hnone | hfresh
    · by_cases hc : c = .configure
      · rcases hlate hc with hlock | hlegacy
        · rcases h.legacy hnone with hfresh | ⟨q, hq⟩
          · exact hfresh
          · have hq' := h.unlocked_of_none hlock q
            rw [hq] at hq'
            cases hq'
        · exact fun hstale => hstale.1 hlegacy
      · refine h.fresh_of_locked (p := p) ?_ ?_ hnone
        · rw [hp]
          simpa [Phase.locked] using hc
        · rw [hp]
          nofun
    · exact hfresh

/-- The phases of a migration, which only the lock's holder and `configure` are in. -/
theorem Invariant.locked_or_none (h : Invariant s)
    (hlocked : c ≠ .configure → (s.phase p).locked = true)
    (hmigrates : c = .configure → s.Migrates (s.phase p)) :
    (s.phase p).locked = true ∨ s.lock = none := by
  by_cases hc : c = .configure
  · right
    by_contra hlock
    exact h.quiet hlock p (hmigrates hc)
  · exact .inl (hlocked hc)

theorem Invariant.writingCopy (h : Invariant s) {bytes : CachedSession}
    (hp : s.phase p = .writingCopy c bytes) :
    Invariant { s.set p (.renamingCopy c) with tmp := some bytes } := by
  have hok := h.phases p
  rw [hp] at hok
  have hlocked : c ≠ .configure → (s.phase p).locked = true := by
    intro hc
    rw [hp]
    simpa [Phase.locked] using hc
  refine h.migrate rfl rfl rfl (.inl rfl) (.inr (.inr hok.2.symm)) (.inl rfl) rfl rfl
    (h.locked_or_none hlocked ?_) ?_ ?_ ⟨hok.1, .inr hok.2.symm⟩ ?_ ?_
  · intro hc
    rw [hp]
    exact hc
  · rw [hp]
    exact id
  · intro hlock hc
    exact h.quiet hlock p (by rw [hp]; exact hc)
  · rw [hp]
    nofun
  · rw [hp]
    rfl

theorem Invariant.renamingCopy (h : Invariant s) {bytes : CachedSession}
    (hp : s.phase p = .renamingCopy c) (htmp : s.tmp = some bytes) :
    Invariant { s.set p (.verifying c) with session := some bytes, tmp := none } := by
  have hok := h.phases p
  rw [hp] at hok
  have hstored : some bytes = s.stored := by
    rcases hok.2 with hnone | heq
    · rw [htmp] at hnone
      cases hnone
    · rw [← htmp, heq]
  refine h.migrate rfl rfl rfl (.inl rfl) (.inr (.inl rfl)) (.inr hstored) rfl rfl
    (h.locked_or_none (c := c) ?_ ?_) ?_ ?_ hok.1 ?_ ?_
  · intro hc
    rw [hp]
    simpa [Phase.locked] using hc
  · intro hc
    rw [hp]
    exact hc
  · rw [hp]
    exact id
  · rintro hlock ⟨hc, -⟩
    exact h.quiet hlock p (by rw [hp]; exact hc)
  · rw [hp]
    nofun
  · rw [hp]
    rfl

theorem Invariant.unlinking (h : Invariant s) (hp : s.phase p = .unlinking c)
    (hlegacy : s.legacy ≠ none) : Invariant { s.set p (.reading c) with legacy := none } := by
  refine h.migrate rfl rfl rfl (.inr rfl) (.inl rfl) (.inl rfl) rfl rfl
    (h.locked_or_none (c := c) ?_ ?_) ?_ ?_ trivial ?_ ?_
  · intro hc
    rw [hp]
    simpa [Phase.locked] using hc
  · intro hc
    rw [hp]
    exact ⟨hc, hlegacy⟩
  · rw [hp]
    exact id
  · exact fun _ => id
  · rw [hp]
    nofun
  · rw [hp]
    rfl

theorem Invariant.writingTmp (h : Invariant s) {session : CachedSession}
    (hp : s.phase p = .writingTmp c session) :
    Invariant { s.set p (.renamingTmp c session) with tmp := some session } := by
  have hok := h.phases p
  rw [hp] at hok
  have hlocked : (s.phase p).locked = true := by rw [hp]; rfl
  refine h.own rfl rfl hlocked (.inl rfl) id ⟨rfl, hok⟩ h.session ?_ h.known ?_
  · exact fun hnone => .inl (h.fresh_of_locked hlocked (by rw [hp]; nofun) hnone)
  · by_cases hc : c = .login
    · refine .inl (h.unspent_of_locked hlocked ?_)
      rw [hp, hc]
      rfl
    · right
      simpa [Phase.storing] using hc

theorem Invariant.renamingTmp (h : Invariant s) {session : CachedSession}
    (hp : s.phase p = .renamingTmp c session) :
    Invariant { s.set p c.finish with
      session := some session, tmp := none, stored := some session } := by
  have hok := h.phases p
  rw [hp] at hok
  refine h.own rfl rfl (by rw [hp]; rfl) (.inl rfl) not_migrates_finish phaseOk_finish (.inr rfl)
    nofun h.known (.inl ?_)
  intro session' hsession'
  obtain rfl := Option.some.inj hsession'
  exact hok.2

theorem Invariant.clearing (h : Invariant s) (hp : s.phase p = .clearing) :
    Invariant { s.set p .clearingLegacy with session := none } := by
  have hlocked : (s.phase p).locked = true := by rw [hp]; rfl
  exact h.own rfl rfl hlocked (.inl rfl) id rfl (.inl rfl) (fun _ => .inr rfl) h.known
    (.inl (h.unspent_of_locked hlocked (by rw [hp]; rfl)))

theorem Invariant.clearingLegacy (h : Invariant s) (hp : s.phase p = .clearingLegacy) :
    Invariant { s.set p .unlocking with legacy := none, stored := none } := by
  have hok := h.phases p
  rw [hp] at hok
  exact h.own rfl rfl (by rw [hp]; rfl) (.inr rfl) id trivial (.inl hok)
    (fun _ => .inl fun hstale => hstale.1 rfl) h.known (.inl nofun)

/-- The next file-system operation. -/
theorem Invariant.io (h : Invariant s) {ok : Bool} (hstore : s.storeCompletes (.io p ok) = true)
    (hund : s.undisturbedFiles (.io p ok) = true) : Invariant (s.io p ok) := by
  have hok := h.phases p
  have hquiet : s.lock ≠ none → ¬ s.Migrates (s.phase p) := fun hlock => h.quiet hlock p
  unfold State.io
  cases hp : s.phase p with
  | locking c =>
    dsimp only
    split
    · exact h
    · exact h.move hp nofun (fun _ => id) trivial nofun rfl
  | checking c =>
    dsimp only
    split
    · exact h.move hp id (fun _ => id) trivial nofun rfl
    · next hno => exact h.checking hp hund hno
  | checkingLegacy c =>
    rw [hp] at hok hquiet
    dsimp only
    split
    · exact h.move hp id hquiet hok nofun rfl
    · exact h.move hp id (fun _ => id) trivial nofun rfl
  | readingLegacy c =>
    rw [hp] at hok hquiet
    dsimp only
    split
    · next bytes hlegacy =>
      refine h.move hp id ?_ ⟨hok, s.eq_stored_of_fresh hok hlegacy⟩ nofun rfl
      intro hlock hc
      exact hquiet hlock ⟨hc, by rw [hlegacy]; exact Option.some_ne_none _⟩
    · exact h.move hp id hquiet hok nofun rfl
  | writingCopy c bytes =>
    rw [hp] at hok hquiet
    dsimp only
    split
    · exact h.writingCopy hp
    · exact h.move hp id (fun hlock hc => hquiet hlock hc.1) hok.1 nofun rfl
  | renamingCopy c =>
    rw [hp] at hok hquiet
    dsimp only
    split
    · next bytes htmp => exact h.renamingCopy hp htmp
    · exact h.move hp id (fun hlock hc => hquiet hlock hc.1) hok.1 nofun rfl
  | verifying c =>
    rw [hp] at hok hquiet
    dsimp only
    split
    · exact h.move hp id hquiet hok nofun rfl
    · exact h.move hp id hquiet hok nofun rfl
  | unlinking c =>
    rw [hp] at hok hquiet
    dsimp only
    split
    · next hlegacy => exact h.unlinking hp hlegacy.2
    · exact h.move hp id hquiet hok nofun rfl
  | fallingBack c =>
    rw [hp] at hok hquiet
    dsimp only
    split
    · exact h.move hp id (fun _ => id) (fun _ _ hlegacy => s.eq_stored_of_fresh hok hlegacy)
        nofun rfl
    · exact h.finish hp (by simp [Phase.locked]) nofun rfl
  | reading c =>
    dsimp only
    split
    · refine h.move hp id (fun _ => id) ?_ nofun rfl
      intro _ session hsession
      rcases h.session with hnone | heq
      · rw [Option.mem_def, hnone] at hsession
        cases hsession
      · rw [← heq, hsession]
    · exact h.finish hp (by simp [Phase.locked]) nofun rfl
  | writingTmp c session =>
    simp only [State.storeCompletes, hp] at hstore
    subst hstore
    exact h.writingTmp hp
  | renamingTmp c session =>
    simp only [State.storeCompletes, hp, Bool.and_eq_true] at hstore
    obtain ⟨rfl, -⟩ := hstore
    rw [hp] at hok
    simp only [hok.1]
    exact h.renamingTmp hp
  | clearing =>
    dsimp only
    split
    · exact h.clearing hp
    · exact h.move hp (fun _ => rfl) (fun _ => id) trivial nofun rfl
  | clearingLegacy =>
    dsimp only
    split
    · exact h.clearingLegacy hp
    · next hfails =>
      simp only [State.undisturbedFiles, hp, decide_eq_true_eq] at hund
      exact h.move hp (fun _ => rfl) (fun _ => id) trivial (fun _ => hund (by simpa using hfails))
        rfl
  | _ => exact h

/-- A command that has loaded a session is done, clears it, or sends its refresh token. -/
theorem afterLoad_cases (now : ℕ) (c : Command) (session : Option CachedSession) :
    afterLoad now c session = c.finish ∨
    c = .logout ∧ afterLoad now c session = .clearing ∨
    c ≠ .login ∧ c ≠ .configure ∧ ∃ session' token, session = some session' ∧
      session'.refreshToken = some token ∧ afterLoad now c session = .exchanging c token := by
  have hrefresh : ∀ session', session = some session' → c ≠ .login → c ≠ .configure →
      afterLoad now c session = refreshOrFail c session' →
      afterLoad now c session = c.finish ∨
      c = .logout ∧ afterLoad now c session = .clearing ∨
      c ≠ .login ∧ c ≠ .configure ∧ ∃ session' token, session = some session' ∧
        session'.refreshToken = some token ∧ afterLoad now c session = .exchanging c token := by
    intro session' hsession hlogin hconfigure heq
    rw [heq]
    unfold refreshOrFail
    cases htoken : session'.refreshToken with
    | none => exact .inl rfl
    | some token =>
      exact .inr (.inr ⟨hlogin, hconfigure, session', token, hsession, htoken, rfl⟩)
  cases c with
  | login => exact .inl rfl
  | configure => exact .inl rfl
  | logout => exact .inr (.inl ⟨rfl, rfl⟩)
  | refresh =>
    cases session with
    | none => exact .inl rfl
    | some session => exact hrefresh session rfl nofun nofun rfl
  | currentSession freshness =>
    cases session with
    | none => exact .inl rfl
    | some session =>
      by_cases hfresh : session.isFreshFor now (freshness.requiredRemainingSecs session) = true
      · left
        simp only [afterLoad, hfresh, if_true]
      · refine hrefresh session rfl nofun nofun ?_
        simp only [afterLoad, hfresh]
        rfl

theorem Invariant.decide (h : Invariant s) {session : Option CachedSession}
    (hp : s.phase p = .loaded c session) : Invariant (s.set p (afterLoad s.now c session)) := by
  have hok := h.phases p
  rw [hp] at hok
  rcases afterLoad_cases s.now c session with
    heq | ⟨rfl, heq⟩ | ⟨hlogin, hconfigure, session', token, hsession, htoken, heq⟩
  · rw [heq]
    exact h.finish hp (by simp [Phase.locked]) nofun rfl
  · rw [heq]
    exact h.move hp (fun _ => rfl) (fun _ => id) trivial nofun rfl
  · rw [heq]
    refine h.move hp ?_ (fun _ => id) ⟨hlogin, session', hok hconfigure session' hsession, htoken⟩
      nofun rfl
    simpa [Phase.locked] using hconfigure

/-- An invocation that sends a token sends one that is in force. -/
theorem Invariant.unspent_exchanging (h : Invariant s) {token : String}
    (hp : s.phase p = .exchanging c token) : token ∈ s.issued ∧ token ∉ s.rotated := by
  have hok := h.phases p
  rw [hp] at hok
  obtain ⟨-, session, hstored, htoken⟩ := hok
  exact h.unspent_of_locked (by rw [hp]; rfl) (by rw [hp]; rfl) session hstored token htoken

theorem Invariant.exchange (h : Invariant s) {token : String} {response : TokenResponse}
    (hp : s.phase p = .exchanging c token) (hissues : s.Issues response) :
    Invariant { s.set p (.writingTmp c (refreshed s.now response token)) with
      issued := response.refreshToken.toList ++ s.issued
      rotated := if response.refreshToken = none then s.rotated else token :: s.rotated } := by
  obtain ⟨hissued, hrotated⟩ := h.unspent_exchanging hp
  have hlocked : (s.phase p).locked = true := by rw [hp]; rfl
  have hok := h.phases p
  rw [hp] at hok
  refine h.own rfl rfl hlocked (.inl rfl) id ?_ h.session ?_ ?_ (.inr ?_)
  · intro token' htoken'
    cases hresponse : response.refreshToken with
    | none =>
      have heq : token = token' := by simpa [refreshed, intoSession, hresponse] using htoken'
      subst heq
      simpa [hresponse] using ⟨hissued, hrotated⟩
    | some fresh =>
      have heq : fresh = token' := by simpa [refreshed, intoSession, hresponse] using htoken'
      subst heq
      have hnew : fresh ∉ s.issued := hissues fresh hresponse
      have hne : fresh ≠ token := by
        rintro rfl
        exact hnew hissued
      have hunrotated : fresh ∉ s.rotated := fun hmem => hnew (h.known fresh hmem)
      simpa [hresponse, hne] using hunrotated
  · exact fun hnone => .inl (h.fresh_of_locked hlocked (by rw [hp]; nofun) hnone)
  · intro token' hmem
    apply List.mem_append_right
    dsimp only at hmem
    split at hmem
    · exact h.known token' hmem
    · rcases List.mem_cons.mp hmem with rfl | hold
      · exact hissued
      · exact h.known token' hold
  · simpa [Phase.storing] using hok.1

theorem Invariant.authorize (h : Invariant s) {response : TokenResponse}
    (hp : s.phase p = .authorizing) (hissues : s.Issues response) :
    Invariant { s.set p (.writingTmp .login (intoSession s.now response)) with
      issued := response.refreshToken.toList ++ s.issued } := by
  have hlocked : (s.phase p).locked = true := by rw [hp]; rfl
  refine h.own rfl rfl hlocked (.inl rfl) id ?_ h.session ?_ ?_ (.inl ?_)
  · intro token htoken
    have htoken' : token ∈ response.refreshToken := htoken
    refine ⟨List.mem_append_left _ (Option.mem_toList.mpr htoken'), ?_⟩
    exact fun hmem => hissues token htoken' (h.known token hmem)
  · exact fun hnone => .inl (h.fresh_of_locked hlocked (by rw [hp]; nofun) hnone)
  · exact fun token hmem => List.mem_append_right _ (h.known token hmem)
  · intro session hsession token htoken
    obtain ⟨hissued, hrotated⟩ :=
      h.unspent_of_locked hlocked (by rw [hp]; rfl) session hsession token htoken
    exact ⟨List.mem_append_right _ hissued, hrotated⟩

/-! ### The lock -/

theorem Invariant.acquire (h : Invariant s) (hlock : s.lock = none)
    (hund : ∀ q, ¬ s.Migrates (s.phase q)) (hquiet : ¬ s.Migrates phase) (hok : s.PhaseOk phase)
    (hp : s.phase p = .locking c) : Invariant { s.set p phase with lock := some p } where
  holder := by
    intro q
    by_cases hqp : q = p
    · subst hqp
      exact fun _ => rfl
    · intro hq
      have hq' : (s.phase q).locked = true := by
        rw [← phase_set_ne hqp]
        exact hq
      rw [h.unlocked_of_none hlock q] at hq'
      cases hq'
  quiet _ := forall_update (P := fun x => ¬ s.Migrates x) hquiet fun q _ => hund q
  phases := forall_update hok fun q _ => h.phases q
  session := h.session
  legacy := by
    intro hnone
    rcases h.legacy hnone with hfresh | ⟨q, hq⟩
    · exact .inl hfresh
    · have hq' := h.unlocked_of_none hlock q
      rw [hq] at hq'
      cases hq'
  known := h.known
  unspent := by
    rcases h.unspent with hunspent | ⟨q, hq⟩
    · exact .inl hunspent
    · have hq' := h.unlocked_of_none hlock q
      rw [Phase.locked_of_storing hq] at hq'
      cases hq'

/-- An invocation that is outside leaves no lock behind. -/
theorem Invariant.unlock (h : Invariant s) (hp : (s.phase p).locked = false) :
    Invariant { s with lock := if s.lock = some p then none else s.lock } where
  holder := by
    intro q hq
    have hqp : s.lock ≠ some p := by
      intro hlock
      have heq := Option.some.inj ((h.holder q hq).symm.trans hlock)
      subst heq
      rw [hp] at hq
      cases hq
    simpa only [hqp, if_false] using h.holder q hq
  quiet := by
    intro hlock
    dsimp only at hlock
    split at hlock
    · exact absurd rfl hlock
    · exact h.quiet hlock
  phases := h.phases
  session := h.session
  legacy := h.legacy
  known := h.known
  unspent := h.unspent

theorem Invariant.kill (h : Invariant s) (hstore : s.storeCompletes (.kill p) = true)
    (hund : s.undisturbedFiles (.kill p) = true) :
    Invariant { s.set p .idle with lock := if s.lock = some p then none else s.lock } := by
  have hidle : Invariant (s.set p .idle) := by
    refine h.move rfl nofun (fun _ => id) trivial ?_ ?_
    · intro hp
      simpa only [State.undisturbedFiles, hp, decide_eq_true_eq] using hund
    · cases hp : s.phase p with
      | writingTmp c session | renamingTmp c session =>
        simp only [State.storeCompletes, hp, decide_eq_true_eq] at hstore
        subst hstore
        rfl
      | _ => rfl
  exact hidle.unlock (p := p) (by rw [phase_set_eq]; rfl)

theorem Invariant.release (h : Invariant s) (hp : s.phase p = .unlocking) :
    Invariant { s.set p .idle with lock := none } := by
  have hidle : Invariant (s.set p .idle) := h.move hp nofun (fun _ => id) trivial nofun rfl
  have hlock : (s.set p .idle).lock = some p := h.holder p (by rw [hp]; rfl)
  have hunlock := hidle.unlock (p := p) (by rw [phase_set_eq]; rfl)
  rwa [if_pos hlock] at hunlock

theorem Invariant.step (h : Invariant s) {a : Action} (hstore : s.storeCompletes a = true)
    (hund : s.Undisturbed a) : Invariant (Session.step s a) := by
  cases a with
  | start p c =>
    simp only [Session.step]
    split
    · next hp =>
      refine h.move hp ?_ ?_ ?_ nofun rfl
      all_goals split
      all_goals simp_all [Phase.locked, State.Migrates, State.PhaseOk]
    · exact h
  | acquire p =>
    simp only [Session.step]
    split
    · next c hp hlock =>
      have hcalm := hund.1
      simp only [State.UndisturbedLock, hp] at hcalm
      refine h.acquire hlock hcalm ?_ ?_ hp
      all_goals split
      all_goals simp [State.Migrates, State.PhaseOk]
    · exact h
  | io p ok => exact h.io hstore hund.2
  | decide p =>
    simp only [Session.step]
    split
    · next c session hp => exact h.decide hp
    · exact h
  | exchange p answer =>
    simp only [Session.step]
    split
    · next c token response hp =>
      split
      · next hissues => exact h.exchange hp hissues
      · exact h
    · next c token hp => exact h.finish hp (fun _ => rfl) nofun rfl
    · exact h
  | authorize p answer =>
    simp only [Session.step]
    split
    · next response hp =>
      split
      · next hissues => exact h.authorize hp hissues
      · exact h
    · next hp => exact h.move hp (fun _ => rfl) (fun _ => id) trivial nofun rfl
    · exact h
  | release p =>
    simp only [Session.step]
    split
    · next hp => exact h.release hp
    · exact h
  | kill p => exact h.kill hstore hund.2
  | tick elapsed =>
    exact ⟨h.holder, h.quiet, h.phases, h.session, h.legacy, h.known, h.unspent⟩

/-- A step does what it is to do wherever the invariant holds. -/
theorem Invariant.correct (h : Invariant s) (a : Action) : s.Correct a := by
  constructor
  · intro token hsends
    cases a with
    | exchange p answer =>
      simp only [State.sends] at hsends
      split at hsends
      · next c token' hp =>
        obtain rfl := Option.some.inj hsends
        exact (h.unspent_exchanging hp).2
      · cases hsends
    | _ => cases hsends
  · intro session hloads
    cases a with
    | io p ok =>
      cases ok with
      | false => cases hloads
      | true =>
        simp only [State.loads] at hloads
        split at hloads
        · next c hp =>
          have hok := h.phases p
          rw [hp] at hok
          exact s.eq_stored_of_fresh hok hloads
        · rcases h.session with hnone | heq
          · rw [Option.mem_def, hnone] at hloads
            cases hloads
          · rw [← heq]
            exact hloads
        · cases hloads
    | _ => cases hloads

end Steps

/-! ## Runs -/

theorem invariant_initial (session legacy tmp : Option CachedSession) :
    Invariant (State.initial session legacy tmp) where
  holder := nofun
  quiet := fun hlock => absurd rfl hlock
  phases := fun _ => trivial
  session := by
    cases session with
    | none => exact .inl rfl
    | some session => exact .inr rfl
  legacy := by
    rintro rfl
    exact .inl fun hstale => hstale.2 rfl
  known := nofun
  unspent := by
    left
    intro session' hstored token htoken
    refine ⟨?_, nofun⟩
    apply List.mem_flatMap.mpr
    refine ⟨session', ?_, Option.mem_toList.mpr htoken⟩
    cases session with
    | none => exact List.mem_append_right _ (Option.mem_toList.mpr hstored)
    | some session => exact List.mem_append_left _ (Option.mem_toList.mpr hstored)

/-- For any number of invocations of any commands in any interleaving, with stores that complete:
if every `configure` migrates as if it held the lock, and no stale file at the cache path comes
into force, then no rotated refresh token is sent again, and every session that is loaded is the
one stored last. -/
theorem refresh_token_spent_once (session legacy tmp : Option CachedSession)
    (actions : List Action)
    (hstore : Runs.Always step (State.storeCompletes · ·) (.initial session legacy tmp) actions)
    (hund : Runs.Always step State.Undisturbed (.initial session legacy tmp) actions) :
    Runs.Always step State.Correct (.initial session legacy tmp) actions :=
  (hstore.and hund).of_invariant (invariant_initial session legacy tmp)
    (fun _ _ h hallowed => h.step hallowed.1 hallowed.2) fun _ a h _ => h.correct a

/-! ## One invocation after another -/

/-- The invocation that an action is of. -/
def Action.process : Action → Option ℕ
  | .start p _ | .acquire p | .io p _ | .decide p | .exchange p _ | .authorize p _ | .release p
  | .kill p => some p
  | .tick _ => none

theorem phase_io_of_ne {s : State} {p q : ℕ} {ok : Bool} (h : q ≠ p) :
    (s.io p ok).phase q = s.phase q := by
  unfold State.io
  repeat' split
  all_goals first | rfl | exact phase_set_ne h

theorem phase_step_of_ne {s : State} {a : Action} {q : ℕ} (h : ∀ p ∈ a.process, q ≠ p) :
    (step s a).phase q = s.phase q := by
  cases a with
  | tick elapsed => rfl
  | io p ok => exact phase_io_of_ne (h p rfl)
  | kill p => exact phase_set_ne (h p rfl)
  | start p c | acquire p | decide p | exchange p answer | authorize p answer | release p =>
    simp only [step]
    repeat' split
    all_goals first | rfl | exact phase_set_ne (h p rfl)

/-- A command that runs alone takes the lock undisturbed. -/
theorem undisturbed_of_single {s : State} {p : ℕ} {actions : List Action}
    (hidle : ∀ q, q ≠ p → s.phase q = .idle)
    (hsingle : ∀ a ∈ actions, ∀ q ∈ a.process, q = p)
    (hfiles : Runs.Always step (State.undisturbedFiles · ·) s actions) :
    Runs.Always step State.Undisturbed s actions := by
  induction actions generalizing s with
  | nil => trivial
  | cons a rest ih =>
    refine ⟨⟨?_, hfiles.1⟩, ih ?_ (fun b hb => hsingle b (List.mem_cons_of_mem a hb)) hfiles.2⟩
    · cases a with
      | acquire r =>
        obtain rfl := hsingle (.acquire r) List.mem_cons_self r rfl
        simp only [State.UndisturbedLock]
        split
        · next c hp =>
          intro q
          by_cases hq : q = r
          · rw [hq, hp]
            exact id
          · rw [hidle q hq]
            exact id
        · trivial
      | _ => trivial
    · intro q hq
      rw [phase_step_of_ne, hidle q hq]
      intro r hr
      rw [hsingle a List.mem_cons_self r hr]
      exact hq

/-- The session of an older build. -/
def olderSession : CachedSession := ⟨"a0", some "r0", 100, none⟩

/-- `configure` moves the session of an older build; `token` refreshes it when it is stale, and
`refresh` does so again. -/
def oneByOne : List Action :=
  [.start 1 .configure, .io 1 true, .io 1 true, .io 1 true, .io 1 true, .io 1 true, .io 1 true,
    .io 1 true, .io 1 true, .decide 1, .tick 90,
    .start 1 (.currentSession (.forHelper 240000)), .acquire 1, .io 1 true, .io 1 true, .decide 1,
    .exchange 1 (some ⟨"a1", some "r1", some 900⟩), .io 1 true, .io 1 true, .release 1,
    .start 1 .refresh, .acquire 1, .io 1 true, .io 1 true, .decide 1,
    .exchange 1 (some ⟨"a2", some "r2", some 900⟩), .io 1 true, .io 1 true, .release 1]

theorem refresh_token_spent_once_one_by_one :
    Runs.Always step State.Correct (.initial none (some olderSession) none) oneByOne ∧
      (runFrom (.initial none (some olderSession) none) oneByOne).rotated = ["r1", "r0"] := by
  refine ⟨refresh_token_spent_once none (some olderSession) none oneByOne ?_ ?_, by decide⟩
  · decide
  · exact undisturbed_of_single (p := 1) (fun _ _ => rfl) (by decide) (by decide)

/-- `configure` reads the session of an older build. Another process moves it and refreshes it;
then `configure` puts the copy that it read over the one that was stored, and the next refresh
sends the rotated token again. -/
theorem configure_puts_back_spent_token :
    let start := State.initial none (some olderSession) none
    let actions : List Action :=
      [.start 1 .configure, .io 1 true, .io 1 true, .io 1 true,
        .start 2 .refresh, .acquire 2, .io 2 true, .io 2 true, .io 2 true, .io 2 true, .io 2 true,
        .io 2 true, .io 2 true, .io 2 true, .decide 2,
        .exchange 2 (some ⟨"a1", some "r1", some 900⟩), .io 2 true, .io 2 true, .release 2,
        .io 1 true, .io 1 true,
        .start 2 .refresh, .acquire 2, .io 2 true, .io 2 true, .decide 2]
    Runs.Always step (State.storeCompletes · ·) start (actions ++ [.exchange 2 none]) ∧
      (runFrom start actions).sends (.exchange 2 none) = some "r0" ∧
      "r0" ∈ (runFrom start actions).rotated ∧
      ¬ Runs.Always step State.Correct start (actions ++ [.exchange 2 none]) := by
  decide

end Session

end Governance
