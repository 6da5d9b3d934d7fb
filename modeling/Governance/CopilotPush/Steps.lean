import Governance.CopilotPush.Sweep
import Mathlib.Logic.Relation

/-!
# What a pass can do

`PassStep` is one thing that `export::signal` does to its progress and to the machine. Every
range of the stack starts at or before the resolved prefix and the one behind it goes on where
it ends (`Stacked`), so what a turn offers starts exactly where the prefix ends. An invariant of
the pass is proved against `PassStep`, one case for each step, and holds of the whole loop by
`exportLoop_steps`.
-/

namespace Governance

open Utf8Text ByteLines

namespace Push

/-- The lines from `first` to before `last`. -/
def slice (lines : List Line) (first last : ℕ) : List Line :=
  (lines.drop first).take (last - first)

/-- Nothing that a commit looks at has changed. -/
structure Progress.Keeps (p' p : Progress) : Prop where
  resolved : p'.resolved = p.resolved
  discarded : p'.discarded = p.discarded
  committed : p'.committed = p.committed
  committedDiscards : p'.committedDiscards = p.committedDiscards

theorem build_eq_none {r : Reader} {lines : List Line} {signal : Signal} :
    build r lines signal = none ↔ ∀ line ∈ lines, r.kind line.text ≠ some signal := by
  unfold build
  constructor
  · intro h line hline hkind
    have hpos : 0 < lines.countP fun line => r.kind line.text = some signal :=
      List.countP_pos_iff.mpr ⟨line, hline, by simpa using hkind⟩
    split at h
    · omega
    · cases h
  · intro h
    have hzero : (lines.countP fun line => r.kind line.text = some signal) = 0 := by
      rw [List.countP_eq_zero]
      intro line hline
      simpa using h line hline
    simp only [hzero]

theorem build_pos {r : Reader} {lines : List Line} {signal : Signal} {records : ℕ}
    (h : build r lines signal = some records) : 0 < records := by
  unfold build at h
  split at h
  · cases h
  · next hne =>
    obtain rfl := Option.some.inj h
    exact Nat.pos_of_ne_zero hne

theorem build_singleton {r : Reader} {line : Line} {signal : Signal} {records : ℕ}
    (h : build r [line] signal = some records) : r.kind line.text = some signal := by
  by_contra hkind
  have hnone : build r [line] signal = none := by
    rw [build_eq_none]
    intro l hl
    obtain rfl := List.mem_singleton.mp hl
    exact hkind
  rw [hnone] at h
  cases h

variable (env : PushEnv) (offer : Offer) (lines : List Line)

/-- One step of a pass. -/
inductive PassStep : Progress × Machine → Progress × Machine → Prop where
  | committed (p : Progress) (m : Machine) : PassStep (p, m) (commit env offer lines true p m).2
  | tallied {p p' : Progress} (m : Machine) (keeps : p'.Keeps p) : PassStep (p, m) (p', m)
  | noted (p : Progress) (m : Machine) (q : Quarantine) : PassStep (p, m) (p, m.withQuarantine q)
  | nothing {p : Progress} (m : Machine) {last : ℕ} (lt : p.resolved < last)
      (le : last ≤ lines.length)
      (none : ∀ line ∈ slice lines p.resolved last, env.kind line.text ≠ some offer.signal) :
      PassStep (p, m) ({ p with resolved := last }, m)
  | declined (p : Progress) (m : Machine) {ls : List Line} (sub : ls ⊆ lines.drop p.resolved)
      (answer : (m.post env offer.signal ls).1 ≠ .accepted) :
      PassStep (p, m) (p, (m.post env offer.signal ls).2)
  | accepted {p : Progress} {m : Machine} {last : ℕ} (lt : p.resolved < last)
      (le : last ≤ lines.length)
      (answer : (m.post env offer.signal (slice lines p.resolved last)).1 = .accepted) :
      PassStep (p, m) ({ p with resolved := last },
        (m.post env offer.signal (slice lines p.resolved last)).2)
  | gaveUp {p : Progress} (m : Machine) {line : Line} (key : String)
      (getLine : lines[p.resolved]? = some line) (kind : env.kind line.text = some offer.signal) :
      PassStep (p, m) (giveUp offer line key (p.resolved + 1) p m)
  | jumped {p : Progress} {m : Machine} {line : Line} (key : String) {next : ℕ} {ahead : Line}
      (getLine : lines[p.resolved]? = some line) (kind : env.kind line.text = some offer.signal)
      (lt : p.resolved < next) (getAhead : lines[next]? = some ahead)
      (none : ∀ line ∈ slice lines (p.resolved + 1) next, env.kind line.text ≠ some offer.signal)
      (answer : (m.post env offer.signal [ahead]).1 = .accepted) :
      PassStep (p, m) (giveUp offer line key (next + 1) p (m.post env offer.signal [ahead]).2)

/-- What `isolate::probe` does: it finds nothing to offer, or it offers the next line that has a
record of the signal. -/
theorem probe_cases (next : ℕ) (rest : List Line) (p : Progress) (m : Machine) :
    probe env offer next rest p m = (none, { p with exhausted := true }, m) ∨
    ∃ (skipped : List Line) (ahead : Line) (behind : List Line) (records : ℕ),
      rest = skipped ++ ahead :: behind ∧
      (∀ line ∈ skipped, env.kind line.text ≠ some offer.signal) ∧
      build env.toReader [ahead] offer.signal = some records ∧
      probe env offer next rest p m =
        match (m.post env offer.signal [ahead]).1 with
        | .accepted => (some (next + skipped.length + 1), { p with
            requests := p.requests + 1
            accepted := p.accepted + records }, (m.post env offer.signal [ahead]).2)
        | _ => (none, { p with requests := p.requests + 1 },
            (m.post env offer.signal [ahead]).2) := by
  induction rest generalizing next with
  | nil => exact .inl rfl
  | cons line rest ih =>
    cases hbuild : build env.toReader [line] offer.signal with
    | none =>
      have hkind := build_eq_none.1 hbuild line (List.mem_singleton_self line)
      simp only [probe, hbuild]
      obtain h | ⟨skipped, ahead, behind, records, rfl, hskipped, hahead, h⟩ := ih (next + 1)
      · exact .inl h
      · refine .inr ⟨line :: skipped, ahead, behind, records, rfl, ?_, hahead, ?_⟩
        · intro l hl
          rcases List.mem_cons.mp hl with rfl | hl
          · exact hkind
          · exact hskipped l hl
        · rw [h, List.length_cons, Nat.add_assoc next 1, Nat.add_comm 1]
    | some records =>
      refine .inr ⟨[], line, rest, records, rfl, by simp, hbuild, ?_⟩
      cases hanswer : (m.post env offer.signal [line]).1 <;> simp [probe, hbuild, hanswer]

/-- The ranges of the stack cover what is behind the prefix without a gap. -/
def Stacked : ℕ → List (ℕ × ℕ) → Prop
  | _, [] => True
  | resolved, (start, last) :: rest => start ≤ resolved ∧ Stacked (max resolved last) rest

variable {env offer lines}

theorem Stacked.mono {resolved resolved' : ℕ} {stack : List (ℕ × ℕ)}
    (h : Stacked resolved stack) (hle : resolved ≤ resolved') : Stacked resolved' stack := by
  induction stack generalizing resolved resolved' with
  | nil => trivial
  | cons range rest ih =>
    obtain ⟨start, last⟩ := range
    exact ⟨h.1.trans hle, ih h.2 (by omega)⟩

theorem slice_succ {first last : ℕ} {line : Line} (hline : lines[first]? = some line)
    (hlast : last = first + 1) : slice lines first last = [line] := by
  obtain ⟨hlt, rfl⟩ := List.getElem?_eq_some_iff.mp hline
  rw [slice, hlast, Nat.add_sub_cancel_left, List.drop_eq_getElem_cons hlt, List.take_succ_cons,
    List.take_zero]

/-- What `isolate::refused` does to a record of the signal at the end of the prefix. -/
theorem refused_steps {p : Progress} (m : Machine) {line : Line}
    (hline : lines[p.resolved]? = some line) (hkind : env.kind line.text = some offer.signal) :
    Relation.ReflTransGen (PassStep env offer lines) (p, m)
        (refused env offer lines p.resolved p m).2 ∧
      ((refused env offer lines p.resolved p m).1 = true →
        p.resolved < (refused env offer lines p.resolved p m).2.1.resolved) := by
  simp only [refused, hline]
  generalize hkey : Quarantine.key env.digest line.text = key
  generalize m.journal.state.quarantine.refused key offer.now 0 = entry
  have hnoted : Relation.ReflTransGen (PassStep env offer lines) (p, m)
      (p, m.withQuarantine entry.2) := .single (.noted p m entry.2)
  generalize m.withQuarantine entry.2 = m at hnoted ⊢
  cases hentry : entry.1 with
  | false =>
    simp only [Bool.not_false, if_true]
    exact ⟨hnoted.tail (.tallied _ ⟨rfl, rfl, rfl, rfl⟩), fun h => by cases h⟩
  | true =>
  simp only [Bool.not_true, Bool.false_eq_true, if_false]
  by_cases haccepted : p.accepted > 0
  · simp only [haccepted, if_true]
    exact ⟨hnoted.tail (.gaveUp _ key hline hkind), fun _ => Nat.lt_succ_self _⟩
  simp only [haccepted, if_false]
  obtain hprobe | ⟨skipped, ahead, behind, records, hrest, hskipped, -, hprobe⟩ :=
    probe_cases env offer (p.resolved + 1) (lines.drop (p.resolved + 1)) p m
  · rw [hprobe]
    exact ⟨hnoted.tail (.tallied _ ⟨rfl, rfl, rfl, rfl⟩), fun h => by cases h⟩
  have hahead : lines[p.resolved + 1 + skipped.length]? = some ahead := by
    rw [← List.getElem?_drop, hrest, List.getElem?_append_right le_rfl, Nat.sub_self]
    rfl
  have hslice : slice lines (p.resolved + 1) (p.resolved + 1 + skipped.length) = skipped := by
    rw [slice, hrest, Nat.add_sub_cancel_left, List.take_left]
  have hsub : [ahead] ⊆ lines.drop p.resolved := by
    intro l hl
    obtain rfl := List.mem_singleton.mp hl
    refine (List.drop_subset_drop_left lines (Nat.le_succ p.resolved)) ?_
    rw [hrest]
    simp
  rw [hprobe]
  cases hanswer : (m.post env offer.signal [ahead]).1 with
  | accepted =>
    have hlt : p.resolved < p.resolved + 1 + skipped.length := by omega
    rw [← hslice] at hskipped
    have htallied : PassStep env offer lines (p, m) ({ p with
        requests := p.requests + 1
        accepted := p.accepted + records }, m) := .tallied m ⟨rfl, rfl, rfl, rfl⟩
    refine ⟨(hnoted.tail htallied).tail (.jumped key hline hkind hlt hahead hskipped hanswer), ?_⟩
    intro _
    exact Nat.lt_succ_of_lt hlt
  | refused =>
    refine ⟨(hnoted.tail (.declined p m hsub ?_)).tail (.tallied _ ⟨rfl, rfl, rfl, rfl⟩), ?_⟩
    · rw [hanswer]
      simp
    · intro h
      cases h
  | error =>
    refine ⟨(hnoted.tail (.declined p m hsub ?_)).tail (.tallied _ ⟨rfl, rfl, rfl, rfl⟩), ?_⟩
    · rw [hanswer]
      simp
    · intro h
      cases h

theorem commit_resolved (env : PushEnv) (offer : Offer) (lines : List Line) (inLoop : Bool)
    (p : Progress) (m : Machine) :
    (commit env offer lines inLoop p m).2.1.resolved = p.resolved := by
  simp only [commit]
  split
  · rfl
  · split <;> rfl

/-- The loop does nothing but the steps of a pass. -/
theorem exportLoop_steps (fuel : ℕ) {stack : List (ℕ × ℕ)} {p : Progress} (m : Machine)
    (hstack : Stacked p.resolved stack) :
    Relation.ReflTransGen (PassStep env offer lines) (p, m)
      (exportLoop env offer lines fuel stack p m) := by
  induction fuel generalizing stack p m with
  | zero => exact .refl
  | succ fuel ih =>
    cases stack with
    | nil => exact .refl
    | cons range rest =>
      obtain ⟨start, last⟩ := range
      have hcommitted : PassStep env offer lines (p, m) (commit env offer lines true p m).2 :=
        .committed p m
      have hresolved := commit_resolved env offer lines true p m
      simp only [exportLoop]
      generalize commit env offer lines true p m = c at hcommitted hresolved ⊢
      obtain ⟨ok, p, m⟩ := c
      simp only at hresolved hcommitted
      rw [← hresolved] at hstack
      cases ok with
      | false => exact .tail (.single hcommitted) (.tallied m ⟨rfl, rfl, rfl, rfl⟩)
      | true =>
        refine .trans (.single hcommitted) ?_
        obtain ⟨hstart, hrest⟩ := hstack
        have hmax : max start p.resolved = p.resolved := by omega
        simp only [hmax]
        split
        · next hge => exact ih m (hrest.mono (by omega))
        next hlt =>
        split
        · exact .single (.tallied m ⟨rfl, rfl, rfl, rfl⟩)
        split
        · exact .single (.tallied m ⟨rfl, rfl, rfl, rfl⟩)
        next hle =>
        have hlast : max p.resolved last = last := by omega
        rw [hlast] at hrest
        have hslice : List.take (last - p.resolved) (List.drop p.resolved lines) =
          slice lines p.resolved last := rfl
        rw [hslice]
        split
        · next hnone =>
          have hstep : PassStep env offer lines (p, m) ({ p with resolved := last }, m) :=
            .nothing m (by omega) (by omega) (build_eq_none.1 hnone)
          exact .head hstep (ih m hrest)
        next records hbuild =>
        have hsub : slice lines p.resolved last ⊆ lines.drop p.resolved := List.take_subset _ _
        have hcounted : ∀ (p' : Progress) (m' : Machine), p'.Keeps p →
            PassStep env offer lines (p, m') (p', m') := fun _ m' h => .tallied m' h
        split
        · next m' hpost =>
          have hstep : PassStep env offer lines (p, m)
              (p, (m.post env offer.signal (slice lines p.resolved last)).2) :=
            .declined p m hsub (by rw [hpost]; simp)
          rw [hpost] at hstep
          exact .tail (.single hstep) (hcounted _ m' ⟨rfl, rfl, rfl, rfl⟩)
        · next m' hpost =>
          have hstep : PassStep env offer lines (p, m) ({ p with resolved := last },
              (m.post env offer.signal (slice lines p.resolved last)).2) :=
            .accepted (by omega) (by omega) (by rw [hpost])
          rw [hpost] at hstep
          refine .head hstep (.head (.tallied m' ?_) (ih m' hrest))
          exact ⟨rfl, rfl, rfl, rfl⟩
        · next m' hpost =>
          have hstep : PassStep env offer lines (p, m)
              (p, (m.post env offer.signal (slice lines p.resolved last)).2) :=
            .declined p m hsub (by rw [hpost]; simp)
          rw [hpost] at hstep
          refine .head hstep (.head (hcounted { p with requests := p.requests + 1 } m'
            ⟨rfl, rfl, rfl, rfl⟩) ?_)
          split
          · next hlong =>
            apply ih
            refine ⟨le_rfl, ?_, ?_⟩
            · simp only
              omega
            · exact hrest.mono (by omega)
          · next hshort =>
            obtain ⟨line, hline⟩ : ∃ line, lines[p.resolved]? = some line :=
              ⟨_, List.getElem?_eq_getElem (by omega : p.resolved < lines.length)⟩
            have hsingle : slice lines p.resolved last = [line] := slice_succ hline (by omega)
            rw [hsingle] at hbuild
            obtain ⟨hsteps, hmoved⟩ :=
              refused_steps (p := { p with requests := p.requests + 1 }) m' hline
                (build_singleton hbuild)
            generalize refused env offer lines p.resolved { p with requests := p.requests + 1 } m' =
              r at hsteps hmoved ⊢
            obtain ⟨goOn, p', m''⟩ := r
            cases goOn with
            | false => exact hsteps
            | true =>
              have hlt' : p.resolved < p'.resolved := hmoved rfl
              exact hsteps.trans (ih m'' (hrest.mono (by omega)))

/-- The pass before its last commit. -/
def exported (env : PushEnv) (offer : Offer) (lines : List Line) (m : Machine) :
    Progress × Machine :=
  exportLoop env offer lines (2 * lines.length + 1) [(0, lines.length)] .default m

theorem exported_steps (env : PushEnv) (offer : Offer) (lines : List Line) (m : Machine) :
    Relation.ReflTransGen (PassStep env offer lines) (.default, m) (exported env offer lines m) :=
  exportLoop_steps _ m ⟨le_rfl, trivial⟩

theorem exportSignal_machine (env : PushEnv) (offer : Offer) (lines : List Line) (m : Machine) :
    (exportSignal env offer lines m).2 = (commit env offer lines false
      (exported env offer lines m).1 (exported env offer lines m).2).2.2 := by
  simp only [exportSignal, exported]

/-! ## The fuel of the loop -/

/-- How many turns a stack can take: a range of `n` lines is split at most `n - 1` times. -/
def turns : List (ℕ × ℕ) → ℕ
  | [] => 0
  | (start, last) :: rest => max 1 (2 * (last - start) - 1) + turns rest

/-- With a turn for each that the stack can take, more fuel changes nothing. -/
theorem exportLoop_fuel {fuel : ℕ} (more : ℕ) {stack : List (ℕ × ℕ)} (p : Progress) (m : Machine)
    (h : turns stack ≤ fuel) : exportLoop env offer lines (fuel + more) stack p m =
      exportLoop env offer lines fuel stack p m := by
  induction fuel generalizing stack p m with
  | zero =>
    cases stack with
    | nil => cases more <;> rfl
    | cons range rest =>
      simp only [turns] at h
      omega
  | succ fuel ih =>
    cases stack with
    | nil =>
      rw [Nat.succ_add]
      rfl
    | cons range rest =>
      obtain ⟨start, last⟩ := range
      simp only [turns] at h
      have hrest : turns rest ≤ fuel := by omega
      rw [Nat.succ_add]
      simp only [exportLoop]
      split
      · rfl
      next p m _ =>
      have hpop : ∀ p m, exportLoop env offer lines (fuel + more) rest p m =
          exportLoop env offer lines fuel rest p m := fun p m => ih p m hrest
      simp only [hpop]
      split
      · rfl
      next hlt =>
      split
      · rfl
      split
      · rfl
      split
      · rfl
      split
      · rfl
      · rfl
      · split
        · apply ih
          simp only [turns]
          omega
        · rfl

/-- The loop of `export::signal` ends by itself. -/
theorem exportLoop_ends (more : ℕ) (p : Progress) (m : Machine) :
    exportLoop env offer lines (2 * lines.length + 1 + more) [(0, lines.length)] p m =
      exportLoop env offer lines (2 * lines.length + 1) [(0, lines.length)] p m := by
  apply exportLoop_fuel
  simp only [turns]
  omega

end Push

end Governance
