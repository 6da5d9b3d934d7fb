import Governance.CopilotPush.Steps

/-!
# One pass, turn by turn

`turn` is one turn of the loop of `export::signal`, and `AtTop` is every state that the loop
has at its top. `turn_spec` says once what a turn can do: which requests it made, and into which
parts the newly resolved lines fall (`Grown`). These facts compose, so they hold from the start
of the pass to each of its commits.

The answers of the collector are a function of the number of the request, and every such function
is allowed: whatever a collector that remembers or contradicts itself answers, it answers in some
order.
-/

namespace Governance

open Utf8Text ByteLines

namespace Push

/-- The state of the loop at its top. -/
structure Turning where
  stack : List (ℕ × ℕ)
  p : Progress
  m : Machine

/-- What a turn comes to: another turn, or the end of the loop. -/
inductive TurnEnd where
  | again (t : Turning)
  | leave (p : Progress) (m : Machine)

namespace TurnEnd

def progress : TurnEnd → Progress
  | .again t => t.p
  | .leave p _ => p

def machine : TurnEnd → Machine
  | .again t => t.m
  | .leave _ m => m

end TurnEnd

section Turn

variable (env : PushEnv) (offer : Offer) (lines : List Line)

/-- One turn of the loop of `export::signal`, for the range on top of the stack. -/
def turn (range : ℕ × ℕ) (rest : List (ℕ × ℕ)) (p : Progress) (m : Machine) : TurnEnd :=
  match commit env offer lines true p m with
  | (false, p, m) => .leave { p with stopped := true } m
  | (true, p, m) =>
    let start := max range.1 p.resolved
    if start ≥ range.2 then .again ⟨rest, p, m⟩
    else if p.requests ≥ maxRequests then .leave { p with stopped := true } m
    else if range.2 > lines.length then .leave { p with stopped := true } m
    else
      let slice := (lines.drop start).take (range.2 - start)
      match build env.toReader slice offer.signal with
      | none => .again ⟨rest, { p with resolved := range.2 }, m⟩
      | some records =>
        let p := { p with requests := p.requests + 1 }
        match m.post env offer.signal slice with
        | (.error, m) => .leave { p with stopped := true } m
        | (.accepted, m) =>
          .again ⟨rest, { p with accepted := p.accepted + records, resolved := range.2 }, m⟩
        | (.refused, m) =>
          if range.2 - start > 1 then
            let middle := start + (range.2 - start) / 2
            .again ⟨(start, middle) :: (middle, range.2) :: rest, p, m⟩
          else
            match refused env offer lines start p m with
            | (false, p, m) => .leave p m
            | (true, p, m) => .again ⟨rest, p, m⟩

/-- The loop is its turns. -/
theorem exportLoop_turn (fuel : ℕ) (range : ℕ × ℕ) (rest : List (ℕ × ℕ)) (p : Progress)
    (m : Machine) : exportLoop env offer lines (fuel + 1) (range :: rest) p m =
      match turn env offer lines range rest p m with
      | .again t => exportLoop env offer lines fuel t.stack t.p t.m
      | .leave p m => (p, m) := by
  obtain ⟨start, last⟩ := range
  simp only [exportLoop, turn]
  generalize commit env offer lines true p m = c
  obtain ⟨ok, p, m⟩ := c
  cases ok with
  | false => rfl
  | true =>
    simp only
    split
    · rfl
    split
    · rfl
    split
    · rfl
    generalize (lines.drop (max start p.resolved)).take (last - max start p.resolved) = slice
    cases build env.toReader slice offer.signal with
    | none => rfl
    | some records =>
      simp only
      generalize m.post env offer.signal slice = r
      obtain ⟨answer, m⟩ := r
      cases answer with
      | accepted => rfl
      | error => rfl
      | refused =>
        simp only
        split
        · rfl
        · generalize refused env offer lines (max start p.resolved)
            { p with requests := p.requests + 1 } m = r
          obtain ⟨goOn, p, m⟩ := r
          cases goOn <;> rfl

/-- Every state that the loop has at its top, from the first turn on. -/
inductive AtTop (m₀ : Machine) : Turning → Prop where
  | start : AtTop m₀ ⟨[(0, lines.length)], .default, m₀⟩
  | turn {range : ℕ × ℕ} {rest : List (ℕ × ℕ)} {p : Progress} {m : Machine} {t : Turning}
      (before : AtTop m₀ ⟨range :: rest, p, m⟩)
      (again : turn env offer lines range rest p m = .again t) : AtTop m₀ t

/-- The loop ends in this state: the stack is empty, or a turn says so. -/
inductive LoopEnds (m₀ : Machine) : Progress × Machine → Prop where
  | empty {p : Progress} {m : Machine} (before : AtTop env offer lines m₀ ⟨[], p, m⟩) :
      LoopEnds m₀ (p, m)
  | left {range : ℕ × ℕ} {rest : List (ℕ × ℕ)} {p p' : Progress} {m m' : Machine}
      (before : AtTop env offer lines m₀ ⟨range :: rest, p, m⟩)
      (leaves : turn env offer lines range rest p m = .leave p' m') : LoopEnds m₀ (p', m')

/-- A state in which the pass commits: at the top of a turn, or behind the loop. -/
def AtCommit (m₀ : Machine) (p : Progress) (m : Machine) : Prop :=
  (∃ range rest, AtTop env offer lines m₀ ⟨range :: rest, p, m⟩) ∨
    LoopEnds env offer lines m₀ (p, m)

end Turn

/-! ## What the requests of a pass came to -/

/-- The lines of a request and its answer. -/
abbrev Post := List Line × Answer

/-- The requests among some events. -/
def postsOf (log : List PushEvent) : List Post :=
  log.filterMap fun
    | .posted _ _ lines answer => some (lines, answer)
    | _ => none

/-- The requests that were accepted. -/
def acceptedIn (posts : List Post) : List (List Line) :=
  posts.filterMap fun post => if post.2 = .accepted then some post.1 else none

/-- A part of the resolved lines: those of an accepted request, a record that was given up, or
lines between them. -/
inductive Part where
  | delivered (lines : List Line)
  | gaveUp (line : Line)
  | nothing (lines : List Line)

namespace Part

def lines : Part → List Line
  | .delivered lines => lines
  | .gaveUp line => [line]
  | .nothing lines => lines

def batch : Part → Option (List Line)
  | .delivered lines => some lines
  | _ => none

def lost : Part → Option Line
  | .gaveUp line => some line
  | _ => none

/-- The lines between the others have no record of the signal. -/
def Idle (env : PushEnv) (signal : Signal) : Part → Prop
  | .nothing lines => ∀ line ∈ lines, env.kind line.text ≠ some signal
  | _ => True

end Part

/-- From one state of a pass to a later one, with the requests made and the parts that the newly
resolved lines fall into. -/
structure Grown (env : PushEnv) (offer : Offer) (lines : List Line) (posts : List Post)
    (parts : List Part) (p : Progress) (m : Machine) (p' : Progress) (m' : Machine) : Prop where
  le : p.resolved ≤ p'.resolved
  log : postsOf m'.now.log = postsOf m.now.log ++ posts
  given : m'.given = m.given ++ parts.filterMap Part.lost
  divided : lines.take p'.resolved = lines.take p.resolved ++ parts.flatMap Part.lines
  batches : parts.filterMap Part.batch = acceptedIn posts
  idle : ∀ part ∈ parts, part.Idle env offer.signal
  requests : p'.requests = p.requests + posts.length
  accepted : 0 < p'.accepted ↔ 0 < p.accepted ∨ acceptedIn posts ≠ []

section Grown

variable {env : PushEnv} {offer : Offer} {lines : List Line} {posts posts' : List Post}
  {parts parts' : List Part} {p p' p'' : Progress} {m m' m'' : Machine}

@[simp] theorem postsOf_append (log log' : List PushEvent) :
    postsOf (log ++ log') = postsOf log ++ postsOf log' := List.filterMap_append

@[simp] theorem acceptedIn_append (posts posts' : List Post) :
    acceptedIn (posts ++ posts') = acceptedIn posts ++ acceptedIn posts' := List.filterMap_append

theorem Grown.trans (h : Grown env offer lines posts parts p m p' m')
    (h' : Grown env offer lines posts' parts' p' m' p'' m'') :
    Grown env offer lines (posts ++ posts') (parts ++ parts') p m p'' m'' where
  le := h.le.trans h'.le
  log := by rw [h'.log, h.log, List.append_assoc]
  given := by rw [h'.given, h.given, List.filterMap_append, List.append_assoc]
  divided := by rw [h'.divided, h.divided, List.flatMap_append, List.append_assoc]
  batches := by rw [List.filterMap_append, h.batches, h'.batches, acceptedIn_append]
  idle part hpart := (List.mem_append.mp hpart).elim (h.idle part) (h'.idle part)
  requests := by
    rw [h'.requests, h.requests, List.length_append]
    omega
  accepted := by
    rw [h'.accepted, h.accepted, acceptedIn_append, ne_eq, ne_eq, ne_eq, List.append_eq_nil_iff]
    tauto

/-- A step that made no request and resolved nothing comes first. -/
theorem Grown.trans_of_nil (h : Grown env offer lines [] [] p m p' m')
    (h' : Grown env offer lines posts parts p' m' p'' m'') :
    Grown env offer lines posts parts p m p'' m'' := by
  simpa using h.trans h'

end Grown

/-! ## What a turn does -/

section TurnSpec

variable (env : PushEnv) (offer : Offer) (lines : List Line)

/-- Why a turn gave up a record: it was refused when it was offered alone, `Quarantine::refused`
says that separate wakes refused it, and the collector has accepted something, if only the
probe. -/
structure GivenUp (p : Progress) (m : Machine) (posts : List Post) (line : Line) : Prop where
  enough : (m.journal.state.quarantine.refused (Quarantine.key env.digest line.text)
    offer.now 0).1 = true
  proven : (0 < p.accepted ∧ posts = [([line], .refused)]) ∨
    ∃ ahead, posts = [([line], .refused), ([ahead], .accepted)]

/-- The ranges of the stack cover what is behind the prefix, up to the last line. -/
def Spans : ℕ → List (ℕ × ℕ) → Prop
  | resolved, [] => resolved = lines.length
  | resolved, (start, last) :: rest =>
    start ≤ resolved ∧ last ≤ lines.length ∧ Spans (max resolved last) rest

/-- What a turn does. -/
structure TurnSpec (range : ℕ × ℕ) (rest : List (ℕ × ℕ)) (p : Progress) (m : Machine)
    (posts : List Post) (parts : List Part) (o : TurnEnd) : Prop where
  grown : Grown env offer lines posts parts p m o.progress o.machine
  within : o.progress.resolved ≤ lines.length
  short : posts.length ≤ 2
  room : posts = [] ∨ p.requests < maxRequests
  lost : parts.filterMap Part.lost = [] ∨
    ∃ line, parts.filterMap Part.lost = [line] ∧ GivenUp env offer p m posts line
  again : ∀ t, o = .again t → t.p.stopped = p.stopped ∧ Spans lines t.p.resolved t.stack ∧
    turns t.stack < turns (range :: rest)
  leave : ∀ p' m', o = .leave p' m' → p'.stopped = true

variable {env offer lines}

theorem Spans.mono {resolved resolved' : ℕ} {stack : List (ℕ × ℕ)} (h : Spans lines resolved stack)
    (hle : resolved ≤ resolved') (hlast : resolved' ≤ lines.length) :
    Spans lines resolved' stack := by
  induction stack generalizing resolved resolved' with
  | nil => exact le_antisymm hlast (h.symm.le.trans hle)
  | cons range rest ih =>
    obtain ⟨start, last⟩ := range
    obtain ⟨hstart, hle', hrest⟩ := h
    exact ⟨hstart.trans hle, hle', ih hrest (by omega) (by omega)⟩

theorem take_append_slice {first last : ℕ} (h : first ≤ last) :
    lines.take last = lines.take first ++ slice lines first last := by
  rw [slice, ← List.take_add, Nat.add_sub_cancel' h]

theorem drop_of_getElem? {n : ℕ} {line : Line} (h : lines[n]? = some line) :
    lines.drop n = line :: lines.drop (n + 1) := by
  obtain ⟨hlt, rfl⟩ := List.getElem?_eq_some_iff.mp h
  exact List.drop_eq_getElem_cons hlt

theorem acceptedIn_singleton_of_ne {ls : List Line} {answer : Answer} (h : answer ≠ .accepted) :
    acceptedIn [(ls, answer)] = [] := by
  simp [acceptedIn, h]

/-- Nothing that a turn looks at has changed. -/
structure Quiet (p : Progress) (m : Machine) (p' : Progress) (m' : Machine) : Prop where
  resolved : p'.resolved = p.resolved
  requests : p'.requests = p.requests
  accepted : p'.accepted = p.accepted
  stopped : p'.stopped = p.stopped
  log : postsOf m'.now.log = postsOf m.now.log
  given : m'.given = m.given
  quarantine : m'.journal.state.quarantine = m.journal.state.quarantine

theorem Quiet.grown {p p' : Progress} {m m' : Machine} (h : Quiet p m p' m') :
    Grown env offer lines [] [] p m p' m' where
  le := h.resolved.symm.le
  log := by rw [h.log, List.append_nil]
  given := by
    rw [h.given]
    exact (List.append_nil _).symm
  divided := by
    rw [h.resolved]
    exact (List.append_nil _).symm
  batches := rfl
  idle := by simp
  requests := h.requests
  accepted := by simp [h.accepted, acceptedIn]

theorem raise_quarantine (c : Checkpoint) (signal : Signal) (reached : ℕ) :
    (c.raise signal reached).quarantine = c.quarantine := by
  unfold Checkpoint.raise
  split
  · cases signal <;> rfl
  · rfl

theorem recordDiscards_quarantine (c : Checkpoint) (count now : ℕ) :
    (c.recordDiscards count now).quarantine = c.quarantine := by
  unfold Checkpoint.recordDiscards
  split <;> rfl

theorem commit_quiet (env : PushEnv) (offer : Offer) (lines : List Line) (p : Progress)
    (m : Machine) (inLoop : Bool) : Quiet p m (commit env offer lines inLoop p m).2.1
      (commit env offer lines inLoop p m).2.2 := by
  have hadvance (reached refused : ℕ) :
      postsOf (m.advance env offer.signal reached refused inLoop).2.now.log = postsOf m.now.log ∧
      (m.advance env offer.signal reached refused inLoop).2.given = m.given ∧
      (m.advance env offer.signal reached refused inLoop).2.journal.state.quarantine =
        m.journal.state.quarantine := by
    have hq : (m.charge env offer.signal reached refused).journal.state.quarantine =
        m.journal.state.quarantine := by
      simp only [Machine.charge, recordDiscards_quarantine, raise_quarantine]
    have hlog : (m.charge env offer.signal reached refused).now.log = m.now.log := rfl
    have hgiven : (m.charge env offer.signal reached refused).given = m.given := rfl
    simp only [Machine.advance]
    generalize m.charge env offer.signal reached refused = charged at hq hlog hgiven ⊢
    simp only [Machine.commit]
    split
    · exact ⟨by rw [hlog], hgiven, hq⟩
    simp only [Machine.store]
    cases env.storeOk charged.tried with
    | false => exact ⟨by simp [hlog], hgiven, hq⟩
    | true =>
      refine ⟨?_, hgiven, hq⟩
      simp only [if_true, Machine.reach, postsOf_append, hlog]
      exact List.append_nil _
  unfold commit
  split
  · exact ⟨rfl, rfl, rfl, rfl, rfl, rfl, rfl⟩
  obtain ⟨hlog, hgiven, hq⟩ := hadvance (advancedTo lines p.resolved offer.endOffset)
    (p.discarded - p.committedDiscards)
  dsimp only
  split <;> exact ⟨rfl, rfl, rfl, rfl, hlog, hgiven, hq⟩

/-- A request that is not accepted resolves nothing. -/
theorem grown_declined {p p' : Progress} {m : Machine} {ls : List Line}
    (hanswer : (m.post env offer.signal ls).1 ≠ .accepted) (hresolved : p'.resolved = p.resolved)
    (hrequests : p'.requests = p.requests + 1) (haccepted : p'.accepted = p.accepted) :
    Grown env offer lines [(ls, (m.post env offer.signal ls).1)] [] p m p'
      (m.post env offer.signal ls).2 where
  le := hresolved.symm.le
  log := postsOf_append _ _
  given := (List.append_nil _).symm
  divided := by
    rw [hresolved]
    exact (List.append_nil _).symm
  batches := (acceptedIn_singleton_of_ne hanswer).symm
  idle := by simp
  requests := hrequests
  accepted := by simp [haccepted, acceptedIn_singleton_of_ne hanswer]

/-- What `isolate::refused` does about a record that was refused alone. -/
structure RefusedSpec (env : PushEnv) (offer : Offer) (lines : List Line) (line : Line)
    (p : Progress) (m : Machine) (posts : List Post) (parts : List Part)
    (r : Bool × Progress × Machine) : Prop where
  grown : Grown env offer lines posts parts p m r.2.1 r.2.2
  within : r.2.1.resolved ≤ lines.length
  short : posts.length ≤ 1
  held : r.1 = false → parts = [] ∧ r.2.1.stopped = true
  goesOn : r.1 = true → p.resolved < r.2.1.resolved ∧ r.2.1.stopped = p.stopped ∧
    parts.filterMap Part.lost = [line] ∧
    (m.journal.state.quarantine.refused (Quarantine.key env.digest line.text) offer.now 0).1 =
      true ∧
    ((0 < p.accepted ∧ posts = []) ∨ ∃ ahead, posts = [([ahead], .accepted)])

/-- A record that is held: the pass stops, with the requests that were made. -/
theorem refusedSpec_held {line : Line} {p p' : Progress} {m m' : Machine} {posts : List Post}
    (hgrown : Grown env offer lines posts [] p m p' m') (hwithin : p'.resolved ≤ lines.length)
    (hshort : posts.length ≤ 1) (hstopped : p'.stopped = true) :
    RefusedSpec env offer lines line p m posts [] (false, p', m') :=
  ⟨hgrown, hwithin, hshort, fun _ => ⟨rfl, hstopped⟩, fun h => by cases h⟩

theorem refused_spec {p : Progress} (m : Machine) {line : Line}
    (hline : lines[p.resolved]? = some line) :
    ∃ posts parts, RefusedSpec env offer lines line p m posts parts
      (refused env offer lines p.resolved p m) := by
  have hlt : p.resolved < lines.length := (List.getElem?_eq_some_iff.mp hline).1
  simp only [refused, hline]
  generalize hentry : m.journal.state.quarantine.refused (Quarantine.key env.digest line.text)
    offer.now 0 = entry
  have henough : (m.journal.state.quarantine.refused (Quarantine.key env.digest line.text)
      offer.now 0).1 = entry.1 := by rw [hentry]
  have hnoted : Grown env offer lines [] [] p m p (m.withQuarantine entry.2) :=
    ⟨le_rfl, (List.append_nil _).symm, (List.append_nil _).symm, (List.append_nil _).symm, rfl,
      by simp, rfl, by simp [acceptedIn]⟩
  have hheld {p' : Progress} (hresolved : p'.resolved = p.resolved)
      (hrequests : p'.requests = p.requests) (haccepted : p'.accepted = p.accepted) :
      Grown env offer lines [] [] p (m.withQuarantine entry.2) p' (m.withQuarantine entry.2) :=
    ⟨hresolved.symm.le, (List.append_nil _).symm, (List.append_nil _).symm,
      by rw [hresolved]; exact (List.append_nil _).symm, rfl, by simp, hrequests,
      by simp [haccepted, acceptedIn]⟩
  generalize m.withQuarantine entry.2 = m' at hnoted hheld ⊢
  cases hfirst : entry.1 with
  | false =>
    simp only [Bool.not_false, if_true]
    exact ⟨[], [], refusedSpec_held (hnoted.trans_of_nil (hheld rfl rfl rfl)) hlt.le
      (Nat.zero_le _) rfl⟩
  | true =>
  simp only [Bool.not_true, Bool.false_eq_true, if_false]
  by_cases haccepted : p.accepted > 0
  · simp only [haccepted, if_true]
    refine ⟨[], [.gaveUp line], ⟨?_, hlt, Nat.zero_le _, fun h => (by cases h), fun _ => ?_⟩⟩
    · apply hnoted.trans_of_nil
      exact ⟨Nat.le_succ _, (List.append_nil _).symm, rfl, by
        show lines.take (p.resolved + 1) = _
        rw [take_append_slice (Nat.le_succ p.resolved), slice_succ hline rfl]
        rfl, rfl, by simp [Part.Idle], rfl, by simp [giveUp, acceptedIn]⟩
    · exact ⟨Nat.lt_succ_self _, rfl, rfl, henough.trans hfirst, .inl ⟨haccepted, rfl⟩⟩
  simp only [haccepted, if_false]
  obtain hprobe | ⟨skipped, ahead, behind, records, hrest, hskipped, hbuild, hprobe⟩ :=
    probe_cases env offer (p.resolved + 1) (lines.drop (p.resolved + 1)) p m'
  · rw [hprobe]
    exact ⟨[], [], refusedSpec_held (hnoted.trans_of_nil (hheld rfl rfl rfl)) hlt.le
      (Nat.zero_le _) rfl⟩
  rw [hprobe]
  cases hanswer : (m'.post env offer.signal [ahead]).1 with
  | accepted =>
    have htake : lines.take (p.resolved + 1 + skipped.length + 1) =
        lines.take p.resolved ++ (line :: skipped ++ [ahead]) := by
      rw [take_append_slice (by omega : p.resolved ≤ p.resolved + 1 + skipped.length + 1), slice,
        drop_of_getElem? hline, hrest,
        show p.resolved + 1 + skipped.length + 1 - p.resolved = skipped.length + 1 + 1 by omega,
        List.take_succ_cons, List.take_append, List.take_of_length_le (Nat.le_succ _),
        Nat.add_sub_cancel_left, List.take_succ_cons, List.take_zero]
      rfl
    have hlength : p.resolved + 1 + skipped.length + 1 ≤ lines.length := by
      have := congrArg List.length hrest
      rw [List.length_drop, List.length_append, List.length_cons] at this
      omega
    refine ⟨[([ahead], .accepted)], [.gaveUp line, .nothing skipped, .delivered [ahead]],
      ⟨?_, hlength, le_rfl, fun h => (by cases h), fun _ => ?_⟩⟩
    · apply hnoted.trans_of_nil
      refine ⟨by show p.resolved ≤ p.resolved + 1 + skipped.length + 1; omega, ?_, rfl, ?_, rfl, ?_,
        rfl, ?_⟩
      · show postsOf (m'.now.log ++ [.posted _ _ [ahead] (m'.post env offer.signal [ahead]).1]) = _
        rw [hanswer, postsOf_append]
        rfl
      · show lines.take (p.resolved + 1 + skipped.length + 1) = _
        rw [htake]
        simp [Part.lines]
      · simpa [Part.Idle] using hskipped
      · have hpos := build_pos hbuild
        show 0 < p.accepted + records ↔ _
        simp [acceptedIn]
        omega
    · refine ⟨?_, rfl, rfl, henough.trans hfirst, .inr ⟨ahead, rfl⟩⟩
      show p.resolved < p.resolved + 1 + skipped.length + 1
      omega
  | refused =>
    have hne : (m'.post env offer.signal [ahead]).1 ≠ .accepted := by
      rw [hanswer]
      simp
    exact ⟨_, _, refusedSpec_held (hnoted.trans_of_nil (grown_declined hne rfl rfl rfl)) hlt.le
      le_rfl rfl⟩
  | error =>
    have hne : (m'.post env offer.signal [ahead]).1 ≠ .accepted := by
      rw [hanswer]
      simp
    exact ⟨_, _, refusedSpec_held (hnoted.trans_of_nil (grown_declined hne rfl rfl rfl)) hlt.le
      le_rfl rfl⟩

/-- A turn that ends the loop without having resolved anything. -/
theorem turnSpec_leave {range : ℕ × ℕ} {rest : List (ℕ × ℕ)} {p p' : Progress} {m m' : Machine}
    {posts : List Post} (hgrown : Grown env offer lines posts [] p m p' m')
    (hwithin : p'.resolved ≤ lines.length) (hshort : posts.length ≤ 2)
    (hroom : posts = [] ∨ p.requests < maxRequests) (hstopped : p'.stopped = true) :
    TurnSpec env offer lines range rest p m posts [] (.leave p' m') where
  grown := hgrown
  within := hwithin
  short := hshort
  room := hroom
  lost := .inl rfl
  again _ h := by cases h
  leave _ _ h := by
    cases h
    exact hstopped

/-- A turn that gave nothing up and goes on. -/
theorem turnSpec_again {range : ℕ × ℕ} {rest stack : List (ℕ × ℕ)} {p p' : Progress}
    {m m' : Machine} {posts : List Post} {parts : List Part}
    (hgrown : Grown env offer lines posts parts p m p' m') (hwithin : p'.resolved ≤ lines.length)
    (hshort : posts.length ≤ 2) (hroom : posts = [] ∨ p.requests < maxRequests)
    (hlost : parts.filterMap Part.lost = []) (hstopped : p'.stopped = p.stopped)
    (hspans : Spans lines p'.resolved stack) (hturns : turns stack < turns (range :: rest)) :
    TurnSpec env offer lines range rest p m posts parts (.again ⟨stack, p', m'⟩) where
  grown := hgrown
  within := hwithin
  short := hshort
  room := hroom
  lost := .inl hlost
  again t h := by
    cases h
    exact ⟨hstopped, hspans, hturns⟩
  leave _ _ h := by cases h

/-- What the commit at the top of a turn leaves alone. -/
theorem TurnSpec.of_quiet {range : ℕ × ℕ} {rest : List (ℕ × ℕ)} {p p' : Progress} {m m' : Machine}
    {posts : List Post} {parts : List Part} {o : TurnEnd} (hquiet : Quiet p m p' m')
    (h : TurnSpec env offer lines range rest p' m' posts parts o) :
    TurnSpec env offer lines range rest p m posts parts o where
  grown := hquiet.grown.trans_of_nil h.grown
  within := h.within
  short := h.short
  room := by
    rw [← hquiet.requests]
    exact h.room
  lost := by
    refine h.lost.imp_right ?_
    rintro ⟨line, hline, hgiven⟩
    refine ⟨line, hline, ?_, ?_⟩
    · rw [← hquiet.quarantine]
      exact hgiven.enough
    · rw [← hquiet.accepted]
      exact hgiven.proven
  again t ht := by
    rw [← hquiet.stopped]
    exact h.again t ht
  leave := h.leave

theorem turns_lt_cons (range : ℕ × ℕ) (rest : List (ℕ × ℕ)) :
    turns rest < turns (range :: rest) := by
  simp only [turns]
  omega

/-- A turn whose record was refused alone. -/
theorem turnSpec_alone {range : ℕ × ℕ} {rest : List (ℕ × ℕ)} {p : Progress} {m m' : Machine}
    {line : Line} (hline : lines[p.resolved]? = some line) (hroom : p.requests < maxRequests)
    (hoffered : Grown env offer lines [([line], .refused)] [] p m
      { p with requests := p.requests + 1 } m')
    (hjournal : m'.journal = m.journal) (hrest : Spans lines (p.resolved + 1) rest) :
    ∃ posts parts, TurnSpec env offer lines range rest p m posts parts
      (match refused env offer lines p.resolved { p with requests := p.requests + 1 } m' with
      | (false, p, m) => .leave p m
      | (true, p, m) => .again ⟨rest, p, m⟩) := by
  have hspec : ∃ posts parts, RefusedSpec env offer lines line
      { p with requests := p.requests + 1 } m' posts parts
      (refused env offer lines p.resolved { p with requests := p.requests + 1 } m') :=
    refused_spec m' hline
  generalize refused env offer lines p.resolved { p with requests := p.requests + 1 } m' = r
    at hspec ⊢
  obtain ⟨goOn, p₁, m₁⟩ := r
  obtain ⟨posts, parts, hspec⟩ := hspec
  have hshort : (([line], Answer.refused) :: posts).length ≤ 2 := Nat.succ_le_succ hspec.short
  have hgrown := hoffered.trans hspec.grown
  cases goOn with
  | false =>
    obtain ⟨rfl, hstopped⟩ := hspec.held rfl
    exact ⟨_, [], turnSpec_leave hgrown hspec.within hshort (.inr hroom) hstopped⟩
  | true =>
    obtain ⟨hlt, hstopped, hlost, henough, hproven⟩ := hspec.goesOn rfl
    refine ⟨_, parts, hgrown, hspec.within, hshort, .inr hroom, .inr ⟨line, hlost, ?_, ?_⟩, ?_, ?_⟩
    · rw [← hjournal]
      exact henough
    · refine hproven.imp ?_ ?_
      · rintro ⟨haccepted, rfl⟩
        exact ⟨haccepted, rfl⟩
      · rintro ⟨ahead, rfl⟩
        exact ⟨ahead, rfl⟩
    · intro t ht
      cases ht
      exact ⟨hstopped, hrest.mono hlt hspec.within, turns_lt_cons range rest⟩
    · intro _ _ h
      cases h

/-- Every turn, whatever the collector answers and whether or not the commit is stored. -/
theorem turn_spec {range : ℕ × ℕ} {rest : List (ℕ × ℕ)} {p : Progress} (m : Machine)
    (hspans : Spans lines p.resolved (range :: rest)) (hwithin : p.resolved ≤ lines.length) :
    ∃ posts parts, TurnSpec env offer lines range rest p m posts parts
      (turn env offer lines range rest p m) := by
  obtain ⟨start, last⟩ := range
  have hquiet := commit_quiet env offer lines p m true
  simp only [turn]
  generalize commit env offer lines true p m = c at hquiet ⊢
  obtain ⟨ok, p', m'⟩ := c
  simp only at hquiet
  suffices hafter :
      ∃ posts parts, TurnSpec env offer lines (start, last) rest p' m' posts parts _ by
    obtain ⟨posts, parts, h⟩ := hafter
    exact ⟨posts, parts, h.of_quiet hquiet⟩
  rw [← hquiet.resolved] at hspans hwithin
  clear hquiet
  have hstill : ∀ {p'' : Progress}, p''.resolved = p'.resolved → p''.requests = p'.requests →
      p''.accepted = p'.accepted → Grown env offer lines [] [] p' m' p'' m' := by
    intro p'' hresolved hrequests haccepted
    exact ⟨hresolved.symm.le, (List.append_nil _).symm, (List.append_nil _).symm,
      by rw [hresolved]; exact (List.append_nil _).symm, rfl, by simp, hrequests,
      by simp [haccepted, acceptedIn]⟩
  cases ok with
  | false => exact ⟨[], [], turnSpec_leave (hstill rfl rfl rfl) hwithin (by simp) (.inl rfl) rfl⟩
  | true =>
  obtain ⟨hstart, hlast, hrest⟩ := hspans
  have hmax : max start p'.resolved = p'.resolved := max_eq_right hstart
  have hpop := turns_lt_cons (start, last) rest
  simp only [hmax]
  split
  · next hge =>
    refine ⟨[], [], turnSpec_again (hstill rfl rfl rfl) hwithin (by simp) (.inl rfl) rfl rfl ?_
      hpop⟩
    rwa [max_eq_left hge] at hrest
  next hlt =>
  push Not at hlt
  split
  · exact ⟨[], [], turnSpec_leave (hstill rfl rfl rfl) hwithin (by simp) (.inl rfl) rfl⟩
  next hroom =>
  push Not at hroom
  rw [if_neg (by omega)]
  rw [max_eq_right hlt.le] at hrest
  have hslice : (lines.drop p'.resolved).take (last - p'.resolved) = slice lines p'.resolved last :=
    rfl
  have htake : lines.take last = lines.take p'.resolved ++ slice lines p'.resolved last :=
    take_append_slice hlt.le
  rw [hslice]
  cases hbuild : build env.toReader (slice lines p'.resolved last) offer.signal with
  | none =>
    refine ⟨[], [.nothing (slice lines p'.resolved last)],
      turnSpec_again ?_ hlast (by simp) (.inl rfl) rfl rfl hrest hpop⟩
    exact ⟨hlt.le, (List.append_nil _).symm, (List.append_nil _).symm, by simpa [Part.lines],
      rfl, by simpa [Part.Idle] using build_eq_none.1 hbuild, rfl, by simp [acceptedIn]⟩
  | some records =>
  have hroom' : ∀ posts : List Post, posts = [] ∨ p'.requests < maxRequests := fun _ => .inr hroom
  have hdeclined : ∀ {p'' : Progress},
      (m'.post env offer.signal (slice lines p'.resolved last)).1 ≠ .accepted →
      p''.resolved = p'.resolved → p''.requests = p'.requests + 1 → p''.accepted = p'.accepted →
      Grown env offer lines [(slice lines p'.resolved last,
        (m'.post env offer.signal (slice lines p'.resolved last)).1)] [] p' m' p''
        (m'.post env offer.signal (slice lines p'.resolved last)).2 := grown_declined
  have hlog : postsOf (m'.post env offer.signal (slice lines p'.resolved last)).2.now.log =
      postsOf m'.now.log ++ [(slice lines p'.resolved last,
        (m'.post env offer.signal (slice lines p'.resolved last)).1)] := postsOf_append _ _
  have hgiven : (m'.post env offer.signal (slice lines p'.resolved last)).2.given = m'.given := rfl
  have hjournal : (m'.post env offer.signal (slice lines p'.resolved last)).2.journal =
    m'.journal := rfl
  simp only
  generalize m'.post env offer.signal (slice lines p'.resolved last) = r
    at hdeclined hlog hgiven hjournal ⊢
  obtain ⟨answer, m''⟩ := r
  cases answer with
  | error =>
    exact ⟨_, [], turnSpec_leave (hdeclined (by simp) rfl rfl rfl) hwithin (by simp) (hroom' _) rfl⟩
  | accepted =>
    refine ⟨_, [.delivered (slice lines p'.resolved last)],
      turnSpec_again ⟨hlt.le, hlog, ?_, ?_, rfl, ?_, rfl, ?_⟩ hlast (by simp) (hroom' _) rfl rfl
        hrest hpop⟩
    · rw [hgiven]
      exact (List.append_nil _).symm
    · simpa [Part.lines]
    · simp [Part.Idle]
    · have hpos := build_pos hbuild
      simp [acceptedIn]
      omega
  | refused =>
    simp only
    split
    · next hlong =>
      refine ⟨_, [], turnSpec_again (hdeclined (by simp) rfl rfl rfl) hwithin (by simp) (hroom' _)
        rfl rfl ⟨le_rfl, by omega, by omega, by omega, ?_⟩ ?_⟩
      · rwa [show max (max p'.resolved (p'.resolved + (last - p'.resolved) / 2)) last = last by
          omega]
      · simp only [turns]
        omega
    · next hshort =>
      obtain ⟨line, hline⟩ : ∃ line, lines[p'.resolved]? = some line :=
        ⟨_, List.getElem?_eq_getElem (by omega : p'.resolved < lines.length)⟩
      have hsingle : slice lines p'.resolved last = [line] := slice_succ hline (by omega)
      have hoffered : Grown env offer lines [(slice lines p'.resolved last, .refused)] [] p' m'
          { p' with requests := p'.requests + 1 } m'' := hdeclined (by simp) rfl rfl rfl
      rw [hsingle] at hoffered
      rw [show last = p'.resolved + 1 by omega] at hrest
      exact turnSpec_alone hline hroom hoffered hjournal hrest

end TurnSpec

/-! ## The whole pass -/

section Pass

variable {env : PushEnv} {offer : Offer} {lines : List Line} {m₀ : Machine}

/-- What holds at the top of each turn. -/
structure PassInv (env : PushEnv) (offer : Offer) (lines : List Line) (m₀ : Machine) (t : Turning) :
    Prop where
  spans : Spans lines t.p.resolved t.stack
  within : t.p.resolved ≤ lines.length
  running : t.p.stopped = false
  budget : t.p.requests ≤ maxRequests + 1
  grown : ∃ posts parts, Grown env offer lines posts parts .default m₀ t.p t.m

theorem PassInv.spec {range : ℕ × ℕ} {rest : List (ℕ × ℕ)} {p : Progress} {m : Machine}
    (h : PassInv env offer lines m₀ ⟨range :: rest, p, m⟩) : ∃ posts parts,
      TurnSpec env offer lines range rest p m posts parts (turn env offer lines range rest p m) :=
  turn_spec m h.spans h.within

theorem TurnSpec.budget {range : ℕ × ℕ} {rest : List (ℕ × ℕ)} {p : Progress} {m : Machine}
    {posts : List Post} {parts : List Part} {o : TurnEnd}
    (h : TurnSpec env offer lines range rest p m posts parts o)
    (hbudget : p.requests ≤ maxRequests + 1) : o.progress.requests ≤ maxRequests + 1 := by
  have hrequests := h.grown.requests
  have hshort := h.short
  obtain rfl | hroom := h.room
  · rwa [hrequests]
  · omega

theorem passInv_of_atTop {t : Turning} (h : AtTop env offer lines m₀ t) :
    PassInv env offer lines m₀ t := by
  induction h with
  | start =>
    refine ⟨⟨le_rfl, le_rfl, ?_⟩, Nat.zero_le _, rfl, Nat.zero_le _, [], [], ?_⟩
    · exact max_eq_right (Nat.zero_le _)
    · exact ⟨le_rfl, (List.append_nil _).symm, (List.append_nil _).symm, (List.append_nil _).symm,
        rfl, by simp, rfl, by simp [acceptedIn]⟩
  | turn _ hturn ih =>
    rename_i range rest p m t _
    obtain ⟨posts, parts, hspec⟩ := ih.spec
    rw [hturn] at hspec
    obtain ⟨hstopped, hspans, -⟩ := hspec.again t rfl
    obtain ⟨posts₀, parts₀, hgrown⟩ := ih.grown
    exact ⟨hspans, hspec.within, hstopped.trans ih.running, hspec.budget ih.budget, _, _,
      hgrown.trans hspec.grown⟩

/-- What holds when the loop has ended. -/
theorem of_loopEnds {r : Progress × Machine} (h : LoopEnds env offer lines m₀ r) :
    r.1.resolved ≤ lines.length ∧ r.1.requests ≤ maxRequests + 1 ∧
      (r.1.stopped = false → r.1.resolved = lines.length) ∧
      ∃ posts parts, Grown env offer lines posts parts .default m₀ r.1 r.2 := by
  cases h with
  | empty hbefore =>
    have hinv := passInv_of_atTop hbefore
    exact ⟨hinv.within, hinv.budget, fun _ => hinv.spans, hinv.grown⟩
  | left hbefore hleave =>
    rename_i range rest p₁ p m₁ m
    have hinv := passInv_of_atTop hbefore
    obtain ⟨posts, parts, hspec⟩ := hinv.spec
    obtain ⟨posts₀, parts₀, hgrown⟩ := hinv.grown
    have hbudget := hspec.budget hinv.budget
    rw [hleave] at hspec hbudget
    have hstopped : p.stopped = true := hspec.leave p m rfl
    refine ⟨hspec.within, hbudget, fun h => ?_, _, _, hgrown.trans hspec.grown⟩
    rw [hstopped] at h
    cases h

/-- With a turn for each that the stack can take, the loop comes to its end. -/
theorem loopEnds_exportLoop {fuel : ℕ} {t : Turning} (h : AtTop env offer lines m₀ t)
    (hfuel : turns t.stack ≤ fuel) :
    LoopEnds env offer lines m₀ (exportLoop env offer lines fuel t.stack t.p t.m) := by
  induction fuel generalizing t with
  | zero =>
    obtain ⟨stack, p, m⟩ := t
    cases stack with
    | nil => exact .empty h
    | cons range rest =>
      have hlt := turns_lt_cons range rest
      exact absurd hfuel (by simp only; omega)
  | succ fuel ih =>
    obtain ⟨stack, p, m⟩ := t
    cases stack with
    | nil => exact .empty h
    | cons range rest =>
      have hinv := passInv_of_atTop h
      obtain ⟨posts, parts, hspec⟩ := hinv.spec
      show LoopEnds env offer lines m₀ (exportLoop env offer lines (fuel + 1) (range :: rest) p m)
      rw [exportLoop_turn]
      cases hturn : turn env offer lines range rest p m with
      | leave p' m' => exact .left h hturn
      | again t =>
        rw [hturn] at hspec
        obtain ⟨-, -, hturns⟩ := hspec.again t rfl
        exact ih (.turn h hturn) (by simp only at hfuel; omega)

theorem exported_loopEnds : LoopEnds env offer lines m₀ (exported env offer lines m₀) := by
  refine loopEnds_exportLoop .start ?_
  simp only [turns]
  omega

/-- The batches among some parts are lines of the parts, each taken once. -/
theorem flatten_batches_sublist (parts : List Part) :
    ((parts.filterMap Part.batch).flatten).Sublist (parts.flatMap Part.lines) := by
  induction parts with
  | nil => exact .slnil
  | cons part parts ih =>
    cases part with
    | delivered ls => exact ih.append_left ls
    | gaveUp line => exact ih.trans (List.sublist_append_right _ _)
    | nothing ls => exact ih.trans (List.sublist_append_right _ _)

/-- The resolved lines, at a commit: they fall into the batches of the accepted requests, the
records that were given up, and lines without a record of the signal between them. Each line is
in one part, and so the accepted requests, one behind the other, have no line of the prefix
twice. -/
structure PrefixSettled (env : PushEnv) (offer : Offer) (lines : List Line) (m₀ : Machine)
    (p : Progress) (m : Machine) : Prop where
  within : p.resolved ≤ lines.length
  divided : ∃ (posts : List Post) (parts : List Part),
    postsOf m.now.log = postsOf m₀.now.log ++ posts ∧
    m.given = m₀.given ++ parts.filterMap Part.lost ∧
    lines.take p.resolved = parts.flatMap Part.lines ∧
    parts.filterMap Part.batch = acceptedIn posts ∧
    (∀ part ∈ parts, part.Idle env offer.signal) ∧
    (acceptedIn posts).flatten.Sublist (lines.take p.resolved)

theorem Grown.prefixSettled {posts : List Post} {parts : List Part} {p : Progress} {m : Machine}
    (h : Grown env offer lines posts parts .default m₀ p m) (hwithin : p.resolved ≤ lines.length) :
    PrefixSettled env offer lines m₀ p m := by
  refine ⟨hwithin, posts, parts, h.log, h.given, h.divided, h.batches, h.idle, ?_⟩
  rw [← h.batches, h.divided]
  exact flatten_batches_sublist parts

/-- Why a turn gave up a record, with the requests from the start of the pass: it was refused when
offered alone, `Quarantine::refused` answered true for it, and a request was accepted earlier in
the pass or is the probe. -/
structure Rightly (env : PushEnv) (offer : Offer) (m₀ m m' : Machine) (line : Line) : Prop where
  enough : (m.journal.state.quarantine.refused (Quarantine.key env.digest line.text)
    offer.now 0).1 = true
  refused : ∃ before probe : List Post, postsOf m.now.log = postsOf m₀.now.log ++ before ∧
    postsOf m'.now.log = postsOf m.now.log ++ ([line], .refused) :: probe ∧
    ((acceptedIn before ≠ [] ∧ probe = []) ∨ ∃ ahead, probe = [([ahead], .accepted)])

/-- One pass of `export::signal`. -/
structure SignalPass (env : PushEnv) (offer : Offer) (lines : List Line) (m₀ : Machine) : Prop where
  /-- The turns come to an end, and the pass is its last state with one more commit. -/
  ends : LoopEnds env offer lines m₀ (exported env offer lines m₀)
  budget : ∃ posts, postsOf (exportSignal env offer lines m₀).2.now.log =
    postsOf m₀.now.log ++ posts ∧ posts.length ≤ maxRequests + 1
  settled : ∀ p m, AtCommit env offer lines m₀ p m → PrefixSettled env offer lines m₀ p m
  givenUp : ∀ range rest p m, AtTop env offer lines m₀ ⟨range :: rest, p, m⟩ →
    (turn env offer lines range rest p m).machine.given = m.given ∨
    ∃ line, (turn env offer lines range rest p m).machine.given = m.given ++ [line] ∧
      Rightly env offer m₀ m (turn env offer lines range rest p m).machine line
  complete : (exportSignal env offer lines m₀).1.stopped = false →
    (exportSignal env offer lines m₀).1.resolved = lines.length

theorem signal_pass (env : PushEnv) (offer : Offer) (lines : List Line) (m₀ : Machine) :
    SignalPass env offer lines m₀ := by
  have hends : LoopEnds env offer lines m₀ (exported env offer lines m₀) := exported_loopEnds
  obtain ⟨-, hbudget, hcomplete, posts, parts, hgrown⟩ := of_loopEnds hends
  have hquiet := commit_quiet env offer lines (exported env offer lines m₀).1
    (exported env offer lines m₀).2 false
  refine ⟨hends, ⟨posts, ?_, ?_⟩, ?_, ?_, ?_⟩
  · rw [exportSignal_machine, hquiet.log, hgrown.log]
  · rw [hgrown.requests] at hbudget
    exact (Nat.zero_add posts.length).symm.le.trans hbudget
  · rintro p m (⟨range, rest, htop⟩ | hends)
    · have hinv := passInv_of_atTop htop
      obtain ⟨posts, parts, hgrown⟩ := hinv.grown
      exact hgrown.prefixSettled hinv.within
    · obtain ⟨hwithin, -, -, posts, parts, hgrown⟩ := of_loopEnds hends
      exact hgrown.prefixSettled hwithin
  · intro range rest p m htop
    have hinv := passInv_of_atTop htop
    obtain ⟨posts, parts, hspec⟩ := hinv.spec
    obtain ⟨before, parts₀, hbefore⟩ := hinv.grown
    rw [hspec.grown.given]
    obtain hnone | ⟨line, hline, hgiven⟩ := hspec.lost
    · left
      rw [hnone, List.append_nil]
    · right
      refine ⟨line, by rw [hline], hgiven.enough, before, ?_⟩
      -- The record count of the pass is positive exactly if a request was accepted in it.
      have haccepted : 0 < p.accepted ↔ acceptedIn before ≠ [] := by
        simpa [Progress.default] using hbefore.accepted
      obtain ⟨hproven, hposts⟩ | ⟨ahead, hposts⟩ := hgiven.proven
      · refine ⟨[], hbefore.log, ?_, .inl ⟨haccepted.mp hproven, rfl⟩⟩
        rw [hspec.grown.log, hposts]
      · refine ⟨[([ahead], .accepted)], hbefore.log, ?_, .inr ⟨ahead, rfl⟩⟩
        rw [hspec.grown.log, hposts]
  · intro hstopped
    have hstored : (exportSignal env offer lines m₀).1.resolved =
        (exported env offer lines m₀).1.resolved := by
      rw [← hquiet.resolved]
      simp only [exportSignal, exported]
      split <;> rfl
    rw [hstored]
    apply hcomplete
    rw [← hquiet.stopped]
    revert hstopped
    simp only [exportSignal, exported]
    split
    · exact id
    · intro h
      cases h

end Pass

end Push

end Governance
