import Governance.Lib.Runs

/-!
# The model catalogue of the editor

`ide/vscode/src/catalogue.ts`: one cached answer, one fetch in flight that later callers join, and
an invalidation that forgets both. The invalidation does not stop a fetch that is running, and a
fetch writes the cache when it ends, whatever has happened since it began.
-/

namespace Governance

namespace Catalogue

variable {M : Type}

/-- How far a fetch has come: `fetchFresh` is running; it has returned models or thrown; the
`finally` behind it has run and the shared promise has settled. -/
inductive Phase (M : Type) where
  | running
  | settled (result : Option (List M)) (time : ℤ)
  | finished (result : Option (List M)) (time : ℤ)
  deriving DecidableEq

/-- What `fetchFresh` ended with, and when. -/
def Phase.outcome : Phase M → Option (Option (List M) × ℤ)
  | .running => none
  | .settled result time => some (result, time)
  | .finished result time => some (result, time)

/-- The shared promise has settled. -/
def Phase.isFinished : Phase M → Bool
  | .finished _ _ => true
  | _ => false

/-- A fetch, with the number of invalidations before its start. -/
structure Fetch (M : Type) where
  gatewayUrl : String
  invalidations : ℕ
  phase : Phase M
  deriving DecidableEq

/-- `Cached`, with the fetch whose models it holds. -/
structure Cached (M : Type) where
  models : List M
  storedAt : ℤ
  gatewayUrl : String
  source : ℕ
  deriving DecidableEq

/-- The value of `inflight`. -/
structure Inflight where
  gatewayUrl : String
  promise : ℕ
  deriving DecidableEq

/-- What a caller has: nothing to ask, a cached answer, or the wait for a shared promise and its
end. -/
inductive Answer (M : Type) where
  | noGateway
  | cached (entry : Cached M) (now : ℤ)
  | waiting (promise : ℕ)
  | resolved (promise : ℕ) (models : List M)
  | rejected (promise : ℕ)
  | aborted (promise : ℕ)
  deriving DecidableEq

/-- A call of `fetchCatalogue`, with the number of invalidations before it. -/
structure Call (M : Type) where
  gatewayUrl : Option String
  ttlMs : ℤ
  invalidations : ℕ
  answer : Answer M
  deriving DecidableEq

/-- The variables of the module, with all fetches and all calls so far. -/
structure State (M : Type) where
  cache : Option (Cached M)
  inflight : Option Inflight
  fetches : List (Fetch M)
  calls : List (Call M)
  invalidations : ℕ
  deriving DecidableEq

/-- The module when it is loaded. -/
def State.initial : State M := ⟨none, none, [], [], 0⟩

/-- What can happen between two turns of the event loop. -/
inductive Event (M : Type) where
  | fetchCatalogue (gatewayUrl : Option String) (ttlMs now : ℤ)
  | settle (promise : ℕ) (result : Option (List M)) (now : ℤ)
  | finish (promise : ℕ)
  | cancel (call : ℕ)
  | invalidateCatalogue
  deriving DecidableEq

namespace State

/-- The call is made and gets its answer, or begins to wait. -/
def record (s : State M) (gatewayUrl : Option String) (ttlMs : ℤ) (answer : Answer M) : State M :=
  { s with calls := s.calls ++ [⟨gatewayUrl, ttlMs, s.invalidations, answer⟩] }

/-- The cache, if it may be served: of the same gateway and within the caller's time to live. -/
def fresh (s : State M) (url : String) (ttlMs now : ℤ) : Option (Cached M) :=
  s.cache.filter fun entry => entry.gatewayUrl = url ∧ now - entry.storedAt < ttlMs

/-- `fetchCatalogue`, up to its first suspension. -/
def fetchCatalogue (s : State M) (gatewayUrl : Option String) (ttlMs now : ℤ) : State M :=
  match gatewayUrl with
  | none => s.record none ttlMs .noGateway
  | some url =>
    match s.fresh url ttlMs now with
    | some entry => s.record (some url) ttlMs (.cached entry now)
    | none =>
      match s.inflight.filter fun f => f.gatewayUrl = url with
      | some f => s.record (some url) ttlMs (.waiting f.promise)
      | none =>
        let started : State M :=
          { s with
            fetches := s.fetches ++ [⟨url, s.invalidations, .running⟩]
            inflight := some ⟨url, s.fetches.length⟩ }
        started.record (some url) ttlMs (.waiting s.fetches.length)

/-- The end of `fetchFresh`, which writes the cache if there are models. -/
def settle (s : State M) (promise : ℕ) (result : Option (List M)) (now : ℤ) : State M :=
  match s.fetches[promise]? with
  | some ⟨url, invalidations, .running⟩ =>
    { s with
      fetches := s.fetches.set promise ⟨url, invalidations, .settled result now⟩
      cache := match result with
        | some models => some ⟨models, now, url, promise⟩
        | none => s.cache }
  | _ => s

end State

/-- What a caller that waits for a promise gets from its end. -/
def Answer.resume (promise : ℕ) (result : Option (List M)) : Answer M → Answer M
  | .waiting p =>
    if p = promise then
      match result with
      | some models => .resolved promise models
      | none => .rejected promise
    else .waiting p
  | answer => answer

/-- What the cancellation of a caller does to its wait, through `withCancel`. -/
def Answer.cancel : Answer M → Answer M
  | .waiting promise => .aborted promise
  | answer => answer

namespace State

/-- The `finally` behind a `fetchFresh` that has ended, and the end of the shared promise. -/
def finish (s : State M) (promise : ℕ) : State M :=
  match s.fetches[promise]? with
  | some ⟨url, invalidations, .settled result time⟩ =>
    { s with
      fetches := s.fetches.set promise ⟨url, invalidations, .finished result time⟩
      inflight := s.inflight.filter fun f => f.promise ≠ promise
      calls := s.calls.map fun c => { c with answer := c.answer.resume promise result } }
  | _ => s

/-- A caller's cancellation token fires. -/
def cancel (s : State M) (call : ℕ) : State M :=
  { s with calls := s.calls.modify call fun c => { c with answer := c.answer.cancel } }

/-- `invalidateCatalogue`. -/
def invalidateCatalogue (s : State M) : State M :=
  { s with cache := none, inflight := none, invalidations := s.invalidations + 1 }

/-- One event. -/
def step (s : State M) : Event M → State M
  | .fetchCatalogue gatewayUrl ttlMs now => s.fetchCatalogue gatewayUrl ttlMs now
  | .settle promise result now => s.settle promise result now
  | .finish promise => s.finish promise
  | .cancel call => s.cancel call
  | .invalidateCatalogue => s.invalidateCatalogue

/-- The module after some events. -/
def run (events : List (Event M)) : State M := events.foldl step initial

end State

/-! ## What a caller should get -/

/-- The fetch is one for the caller's gateway, started after the last invalidation before the
call. -/
def Call.Current (c : Call M) (f : Fetch M) : Prop :=
  c.gatewayUrl = some f.gatewayUrl ∧ c.invalidations ≤ f.invalidations

/-- What a caller has comes from a current fetch, and a cached answer is young enough. -/
def Call.Good (fetches : List (Fetch M)) (c : Call M) : Prop :=
  match c.answer with
  | .noGateway => c.gatewayUrl = none
  | .cached entry now => now - entry.storedAt < c.ttlMs ∧ ∃ f, fetches[entry.source]? = some f ∧
      c.Current f ∧ f.phase.outcome = some (some entry.models, entry.storedAt)
  | .waiting promise => ∃ f, fetches[promise]? = some f ∧ c.Current f
  | .resolved promise models => ∃ f, fetches[promise]? = some f ∧ c.Current f ∧
      ∃ time, f.phase.outcome = some (some models, time)
  | .rejected promise => ∃ f, fetches[promise]? = some f ∧ c.Current f ∧
      ∃ time, f.phase.outcome = some (none, time)
  | .aborted promise => ∃ f, fetches[promise]? = some f ∧ c.Current f

/-- A fetch that returns models was started after the last invalidation. -/
def State.Prompt (s : State M) : Event M → Prop
  | .settle promise (some _) _ => ∀ f ∈ s.fetches[promise]?, f.phase.outcome = none →
      f.invalidations = s.invalidations
  | _ => True

instance (s : State M) (event : Event M) : Decidable (s.Prompt event) :=
  match event with
  | .settle promise (some _) _ => inferInstanceAs (Decidable (∀ f ∈ s.fetches[promise]?, _ → _))
  | .settle _ none _ => .isTrue trivial
  | .fetchCatalogue _ _ _ => .isTrue trivial
  | .finish _ => .isTrue trivial
  | .cancel _ => .isTrue trivial
  | .invalidateCatalogue => .isTrue trivial

/-! ## Fetches only go on -/

/-- Every fetch is still there, for the same gateway and as old, with the outcome it had. -/
def Extends (fetches fetches' : List (Fetch M)) : Prop :=
  ∀ (id : ℕ) (f : Fetch M), fetches[id]? = some f → ∃ f' : Fetch M, fetches'[id]? = some f' ∧
    f'.gatewayUrl = f.gatewayUrl ∧ f'.invalidations = f.invalidations ∧
      ∀ o, f.phase.outcome = some o → f'.phase.outcome = some o

theorem Extends.append (fetches more : List (Fetch M)) : Extends fetches (fetches ++ more) := by
  intro id f hf
  refine ⟨f, ?_, rfl, rfl, fun _ h => h⟩
  rw [List.getElem?_append_left (List.getElem?_eq_some_iff.mp hf).1, hf]

theorem Extends.set {fetches : List (Fetch M)} {promise : ℕ} {f f' : Fetch M}
    (hf : fetches[promise]? = some f) (hurl : f'.gatewayUrl = f.gatewayUrl)
    (hinv : f'.invalidations = f.invalidations)
    (hout : ∀ o, f.phase.outcome = some o → f'.phase.outcome = some o) :
    Extends fetches (fetches.set promise f') := by
  intro id g hg
  by_cases hid : promise = id
  · subst hid
    obtain rfl : f = g := Option.some.inj (hf.symm.trans hg)
    exact ⟨f', List.getElem?_set_self (List.getElem?_eq_some_iff.mp hf).1, hurl, hinv, hout⟩
  · exact ⟨g, by rw [List.getElem?_set_ne hid, hg], rfl, rfl, fun _ h => h⟩

theorem Call.Good.mono {fetches fetches' : List (Fetch M)} {c : Call M}
    (hext : Extends fetches fetches') (h : c.Good fetches) : c.Good fetches' := by
  -- the fetch that the answer names is still there
  have hnamed {id : ℕ} {f : Fetch M} (hf : fetches[id]? = some f) (hcur : c.Current f) :
      ∃ f', fetches'[id]? = some f' ∧ c.Current f' ∧
        ∀ o, f.phase.outcome = some o → f'.phase.outcome = some o := by
    obtain ⟨f', hf', hurl, hinv, hout⟩ := hext id f hf
    exact ⟨f', hf', ⟨by rw [hurl]; exact hcur.1, by rw [hinv]; exact hcur.2⟩, hout⟩
  unfold Call.Good at h ⊢
  split at h
  · exact h
  · obtain ⟨hage, f, hf, hcur, hout⟩ := h
    obtain ⟨f', hf', hcur', hkeep⟩ := hnamed hf hcur
    exact ⟨hage, f', hf', hcur', hkeep _ hout⟩
  · obtain ⟨f, hf, hcur⟩ := h
    obtain ⟨f', hf', hcur', -⟩ := hnamed hf hcur
    exact ⟨f', hf', hcur'⟩
  · obtain ⟨f, hf, hcur, time, hout⟩ := h
    obtain ⟨f', hf', hcur', hkeep⟩ := hnamed hf hcur
    exact ⟨f', hf', hcur', time, hkeep _ hout⟩
  · obtain ⟨f, hf, hcur, time, hout⟩ := h
    obtain ⟨f', hf', hcur', hkeep⟩ := hnamed hf hcur
    exact ⟨f', hf', hcur', time, hkeep _ hout⟩
  · obtain ⟨f, hf, hcur⟩ := h
    obtain ⟨f', hf', hcur', -⟩ := hnamed hf hcur
    exact ⟨f', hf', hcur'⟩

/-! ## The invariant -/

/-- The cache and the shared promise belong to fetches that no invalidation has overtaken; every
call has what it should, and none waits for a promise that has settled. -/
structure Invariant (s : State M) : Prop where
  cache : ∀ entry, s.cache = some entry → ∃ f, s.fetches[entry.source]? = some f ∧
    f.gatewayUrl = entry.gatewayUrl ∧ f.invalidations = s.invalidations ∧
    f.phase.outcome = some (some entry.models, entry.storedAt)
  inflight : ∀ shared, s.inflight = some shared → ∃ f, s.fetches[shared.promise]? = some f ∧
    f.gatewayUrl = shared.gatewayUrl ∧ f.invalidations = s.invalidations ∧
    f.phase.isFinished = false
  calls : ∀ c ∈ s.calls, c.Good s.fetches
  waits : ∀ c ∈ s.calls, ∀ promise, c.answer = .waiting promise →
    ∀ f, s.fetches[promise]? = some f → f.phase.isFinished = false

theorem invariant_initial : Invariant (State.initial : State M) := by
  refine ⟨?_, ?_, ?_, ?_⟩ <;> simp [State.initial]

/-- A call that is recorded with what it should get. -/
theorem Invariant.record {s : State M} (h : Invariant s) {gatewayUrl : Option String} {ttlMs : ℤ}
    {answer : Answer M} (hgood : Call.Good s.fetches ⟨gatewayUrl, ttlMs, s.invalidations, answer⟩)
    (hwait : ∀ promise, answer = .waiting promise → ∀ f, s.fetches[promise]? = some f →
      f.phase.isFinished = false) : Invariant (s.record gatewayUrl ttlMs answer) := by
  refine ⟨h.cache, h.inflight, ?_, ?_⟩
  · intro c hc
    rcases List.mem_append.mp hc with hc | hc
    · exact h.calls c hc
    · obtain rfl := List.mem_singleton.mp hc
      exact hgood
  · intro c hc
    rcases List.mem_append.mp hc with hc | hc
    · exact h.waits c hc
    · obtain rfl := List.mem_singleton.mp hc
      exact hwait

/-- A new fetch becomes the shared one. -/
theorem Invariant.start {s : State M} (h : Invariant s) (url : String) :
    Invariant { s with
      fetches := s.fetches ++ [⟨url, s.invalidations, .running⟩]
      inflight := some ⟨url, s.fetches.length⟩ } := by
  have hext := Extends.append s.fetches [⟨url, s.invalidations, .running⟩]
  have hnew : (s.fetches ++ [⟨url, s.invalidations, .running⟩])[s.fetches.length]? =
      some ⟨url, s.invalidations, .running⟩ := List.getElem?_concat_length
  refine ⟨?_, ?_, ?_, ?_⟩
  · intro entry hentry
    obtain ⟨f, hf, hurl, hinv, hout⟩ := h.cache entry hentry
    obtain ⟨f', hf', hurl', hinv', hkeep⟩ := hext _ f hf
    exact ⟨f', hf', hurl'.trans hurl, hinv'.trans hinv, hkeep _ hout⟩
  · intro shared hshared
    obtain rfl := Option.some.inj hshared
    exact ⟨_, hnew, rfl, rfl, rfl⟩
  · exact fun c hc => (h.calls c hc).mono hext
  · intro c hc promise hwait f hf
    rw [List.getElem?_append] at hf
    split at hf
    · exact h.waits c hc promise hwait f hf
    · obtain rfl := List.mem_singleton.mp (List.mem_of_getElem? hf)
      rfl

theorem Invariant.fetchCatalogue {s : State M} (h : Invariant s) (gatewayUrl : Option String)
    (ttlMs now : ℤ) : Invariant (s.fetchCatalogue gatewayUrl ttlMs now) := by
  unfold State.fetchCatalogue
  split
  · exact h.record rfl fun _ heq => by cases heq
  · next url =>
    split
    · next entry hfresh =>
      obtain ⟨hcache, hcond⟩ := Option.filter_eq_some_iff.mp hfresh
      obtain ⟨rfl, hage⟩ := of_decide_eq_true hcond
      obtain ⟨f, hf, hurl, hinv, hout⟩ := h.cache entry hcache
      refine h.record ⟨hage, f, hf, ⟨?_, hinv.ge⟩, hout⟩ fun _ heq => by cases heq
      exact congrArg some hurl.symm
    · split
      · next shared hshared =>
        obtain ⟨hinflight, hcond⟩ := Option.filter_eq_some_iff.mp hshared
        obtain rfl := of_decide_eq_true hcond
        obtain ⟨f, hf, hurl, hinv, hfinished⟩ := h.inflight shared hinflight
        refine h.record ⟨f, hf, congrArg some hurl.symm, hinv.ge⟩ ?_
        intro promise heq g hg
        obtain rfl := Answer.waiting.inj heq
        obtain rfl := Option.some.inj (hf.symm.trans hg)
        exact hfinished
      · have hstart := h.start url
        obtain ⟨f, hf, hurl, hinv, hfinished⟩ := hstart.inflight _ rfl
        refine hstart.record ⟨f, hf, congrArg some hurl.symm, hinv.ge⟩ ?_
        intro promise heq g hg
        obtain rfl := Answer.waiting.inj heq
        obtain rfl := Option.some.inj (hf.symm.trans hg)
        exact hfinished

theorem Invariant.settle {s : State M} (h : Invariant s) (promise : ℕ) (result : Option (List M))
    (now : ℤ) (hprompt : s.Prompt (.settle promise result now)) :
    Invariant (s.settle promise result now) := by
  unfold State.settle
  split
  case h_2 => exact h
  case h_1 url invalidations hf =>
    have hext : Extends s.fetches (s.fetches.set promise ⟨url, invalidations, .settled result now⟩) :=
      .set hf rfl rfl fun o ho => by cases ho
    have hset : (s.fetches.set promise ⟨url, invalidations, .settled result now⟩)[promise]? =
        some ⟨url, invalidations, .settled result now⟩ :=
      List.getElem?_set_self (List.getElem?_eq_some_iff.mp hf).1
    have hcache : ∀ entry, s.cache = some entry →
        ∃ f, (s.fetches.set promise ⟨url, invalidations, .settled result now⟩)[entry.source]? =
          some f ∧ f.gatewayUrl = entry.gatewayUrl ∧ f.invalidations = s.invalidations ∧
          f.phase.outcome = some (some entry.models, entry.storedAt) := by
      intro entry hentry
      obtain ⟨f, hf, hurl, hinv, hout⟩ := h.cache entry hentry
      obtain ⟨f', hf', hurl', hinv', hkeep⟩ := hext _ f hf
      exact ⟨f', hf', hurl'.trans hurl, hinv'.trans hinv, hkeep _ hout⟩
    -- the promise itself has not settled
    have hunfinished : ∀ id f, (s.fetches.set promise ⟨url, invalidations, .settled result now⟩)[id]?
        = some f → id = promise ∧ f.phase.isFinished = false ∨ s.fetches[id]? = some f := by
      intro id f hid
      by_cases heq : promise = id
      · subst heq
        obtain rfl := Option.some.inj (hset.symm.trans hid)
        exact .inl ⟨rfl, rfl⟩
      · rw [List.getElem?_set_ne heq] at hid
        exact .inr hid
    refine ⟨?_, ?_, ?_, ?_⟩
    · cases result with
      | none => exact hcache
      | some models =>
        intro entry hentry
        obtain rfl := Option.some.inj hentry
        exact ⟨_, hset, rfl, hprompt ⟨url, invalidations, .running⟩ hf rfl, rfl⟩
    · intro shared hshared
      obtain ⟨f, hf', hurl, hinv, hfinished⟩ := h.inflight shared hshared
      obtain ⟨f', hf'', hurl', hinv', -⟩ := hext _ f hf'
      refine ⟨f', hf'', hurl'.trans hurl, hinv'.trans hinv, ?_⟩
      rcases hunfinished _ f' hf'' with ⟨-, hrunning⟩ | hold
      · exact hrunning
      · obtain rfl := Option.some.inj (hf'.symm.trans hold)
        exact hfinished
    · exact fun c hc => (h.calls c hc).mono hext
    · intro c hc p hwait f hf'
      rcases hunfinished p f hf' with ⟨-, hrunning⟩ | hold
      · exact hrunning
      · exact h.waits c hc p hwait f hold

/-- A caller that waits for a promise gets its end. -/
theorem Call.Good.resume {fetches : List (Fetch M)} {c : Call M} {promise : ℕ} {f : Fetch M}
    {result : Option (List M)} {time : ℤ} (h : c.Good fetches) (hf : fetches[promise]? = some f)
    (hout : f.phase.outcome = some (result, time)) :
    Call.Good fetches { c with answer := c.answer.resume promise result } := by
  obtain ⟨gatewayUrl, ttlMs, invalidations, answer⟩ := c
  cases answer with
  | waiting p =>
    by_cases hp : p = promise
    · subst hp
      obtain ⟨g, hg, hcur⟩ := h
      obtain rfl := Option.some.inj (hf.symm.trans hg)
      cases result with
      | some models =>
        simp only [Answer.resume, if_true]
        exact ⟨f, hf, hcur, time, hout⟩
      | none =>
        simp only [Answer.resume, if_true]
        exact ⟨f, hf, hcur, time, hout⟩
    · simp only [Answer.resume, if_neg hp]
      exact h
  | _ => exact h

theorem Call.Good.cancel {fetches : List (Fetch M)} {c : Call M} (h : c.Good fetches) :
    Call.Good fetches { c with answer := c.answer.cancel } := by
  obtain ⟨gatewayUrl, ttlMs, invalidations, answer⟩ := c
  cases answer <;> exact h

/-- What is left waiting after a promise has settled waits for another one. -/
theorem Answer.resume_eq_waiting {answer : Answer M} {promise p : ℕ} {result : Option (List M)}
    (h : answer.resume promise result = .waiting p) : answer = .waiting p ∧ p ≠ promise := by
  cases answer with
  | waiting p' =>
    by_cases hp : p' = promise
    · simp only [Answer.resume, if_pos hp] at h
      cases result <;> cases h
    · simp only [Answer.resume, if_neg hp] at h
      obtain rfl := Answer.waiting.inj h
      exact ⟨rfl, hp⟩
  | _ => cases h

theorem Answer.cancel_ne_waiting (answer : Answer M) (p : ℕ) : answer.cancel ≠ .waiting p := by
  intro h
  cases answer <;> cases h

theorem Invariant.finish {s : State M} (h : Invariant s) (promise : ℕ) :
    Invariant (s.finish promise) := by
  unfold State.finish
  split
  case h_2 => exact h
  case h_1 url invalidations result time hf =>
    have hext : Extends s.fetches
        (s.fetches.set promise ⟨url, invalidations, .finished result time⟩) :=
      .set hf rfl rfl fun o ho => ho
    have hset : (s.fetches.set promise ⟨url, invalidations, .finished result time⟩)[promise]? =
        some ⟨url, invalidations, .finished result time⟩ :=
      List.getElem?_set_self (List.getElem?_eq_some_iff.mp hf).1
    refine ⟨?_, ?_, ?_, ?_⟩
    · intro entry hentry
      obtain ⟨f, hf, hurl, hinv, hout⟩ := h.cache entry hentry
      obtain ⟨f', hf', hurl', hinv', hkeep⟩ := hext _ f hf
      exact ⟨f', hf', hurl'.trans hurl, hinv'.trans hinv, hkeep _ hout⟩
    · intro shared hshared
      obtain ⟨hinflight, hne⟩ := Option.filter_eq_some_iff.mp hshared
      obtain ⟨f, hf', hurl, hinv, hfinished⟩ := h.inflight shared hinflight
      refine ⟨f, ?_, hurl, hinv, hfinished⟩
      rw [List.getElem?_set_ne (Ne.symm (of_decide_eq_true hne)), hf']
    · intro c hc
      obtain ⟨c, hold, rfl⟩ := List.mem_map.mp hc
      exact ((h.calls c hold).mono hext).resume hset rfl
    · intro c hc p hwait f hf'
      obtain ⟨c, hold, rfl⟩ := List.mem_map.mp hc
      obtain ⟨hwait', hne⟩ := Answer.resume_eq_waiting hwait
      rw [List.getElem?_set_ne (Ne.symm hne)] at hf'
      exact h.waits c hold p hwait' f hf'

/-- The calls after one of them is cancelled. -/
theorem mem_modify_cancel {calls : List (Call M)} {k : ℕ} {c : Call M}
    (hc : c ∈ calls.modify k fun c => { c with answer := c.answer.cancel }) :
    c ∈ calls ∨ ∃ c' ∈ calls, c = { c' with answer := c'.answer.cancel } := by
  obtain ⟨i, hi⟩ := List.mem_iff_getElem?.mp hc
  rw [List.getElem?_modify] at hi
  obtain ⟨c', hc', rfl⟩ := Option.map_eq_some_iff.mp hi
  have hmem := List.mem_of_getElem? hc'
  split
  · exact .inr ⟨c', hmem, rfl⟩
  · exact .inl hmem

theorem Invariant.cancel {s : State M} (h : Invariant s) (call : ℕ) : Invariant (s.cancel call) := by
  refine ⟨h.cache, h.inflight, ?_, ?_⟩
  · intro c hc
    rcases mem_modify_cancel hc with hc | ⟨c', hc', rfl⟩
    · exact h.calls c hc
    · exact (h.calls c' hc').cancel
  · intro c hc p hwait
    rcases mem_modify_cancel hc with hc | ⟨c', hc', rfl⟩
    · exact h.waits c hc p hwait
    · exact absurd hwait (Answer.cancel_ne_waiting _ _)

theorem Invariant.invalidateCatalogue {s : State M} (h : Invariant s) :
    Invariant s.invalidateCatalogue := by
  refine ⟨?_, ?_, h.calls, h.waits⟩
  · intro entry heq
    cases heq
  · intro shared heq
    cases heq

theorem Invariant.step {s : State M} (h : Invariant s) (event : Event M) (hprompt : s.Prompt event) :
    Invariant (s.step event) := by
  cases event with
  | fetchCatalogue gatewayUrl ttlMs now => exact h.fetchCatalogue gatewayUrl ttlMs now
  | settle promise result now => exact h.settle promise result now hprompt
  | finish promise => exact h.finish promise
  | cancel call => exact h.cancel call
  | invalidateCatalogue => exact h.invalidateCatalogue

/-! ## Where outcomes and aborts come from -/

/-- The outcome of a fetch is new only when it settles. -/
theorem outcome_step {s : State M} {event : Event M} {promise : ℕ} {f : Fetch M}
    {result : Option (List M)} {time : ℤ} (hf : (s.step event).fetches[promise]? = some f)
    (hout : f.phase.outcome = some (result, time)) :
    event = .settle promise result time ∨
      ∃ g, s.fetches[promise]? = some g ∧ g.phase.outcome = some (result, time) := by
  cases event with
  | fetchCatalogue gatewayUrl ttlMs now =>
    right
    simp only [State.step, State.fetchCatalogue] at hf
    split at hf
    · exact ⟨f, hf, hout⟩
    · split at hf
      · exact ⟨f, hf, hout⟩
      · split at hf
        · exact ⟨f, hf, hout⟩
        · simp only [State.record, List.getElem?_append] at hf
          split at hf
          · exact ⟨f, hf, hout⟩
          · obtain rfl := List.mem_singleton.mp (List.mem_of_getElem? hf)
            cases hout
  | settle p r now =>
    simp only [State.step, State.settle] at hf
    split at hf
    · next url invalidations hrunning =>
      by_cases hp : p = promise
      · subst hp
        rw [List.getElem?_set_self (List.getElem?_eq_some_iff.mp hrunning).1] at hf
        obtain rfl := Option.some.inj hf
        obtain ⟨rfl, rfl⟩ := Prod.mk.inj (Option.some.inj hout)
        exact .inl rfl
      · rw [List.getElem?_set_ne hp] at hf
        exact .inr ⟨f, hf, hout⟩
    · exact .inr ⟨f, hf, hout⟩
  | finish p =>
    right
    simp only [State.step, State.finish] at hf
    split at hf
    · next url invalidations r t hsettled =>
      by_cases hp : p = promise
      · subst hp
        rw [List.getElem?_set_self (List.getElem?_eq_some_iff.mp hsettled).1] at hf
        obtain rfl := Option.some.inj hf
        exact ⟨_, hsettled, hout⟩
      · rw [List.getElem?_set_ne hp] at hf
        exact ⟨f, hf, hout⟩
    · exact ⟨f, hf, hout⟩
  | cancel call => exact .inr ⟨f, hf, hout⟩
  | invalidateCatalogue => exact .inr ⟨f, hf, hout⟩

/-- A call that is recorded is not an aborted one. -/
theorem record_aborted {s : State M} {gatewayUrl : Option String} {ttlMs : ℤ} {answer : Answer M}
    (hne : ∀ p, answer ≠ .aborted p) {k : ℕ} {c : Call M} {p : ℕ}
    (hc : (s.record gatewayUrl ttlMs answer).calls[k]? = some c) (hanswer : c.answer = .aborted p) :
    s.calls[k]? = some c := by
  simp only [State.record, List.getElem?_append] at hc
  split at hc
  · exact hc
  · obtain rfl := List.mem_singleton.mp (List.mem_of_getElem? hc)
    exact absurd hanswer (hne p)

/-- A call is aborted by its own cancellation only. -/
theorem aborted_step {s : State M} {event : Event M} {k : ℕ} {c : Call M} {p : ℕ}
    (hc : (s.step event).calls[k]? = some c) (hanswer : c.answer = .aborted p) :
    event = .cancel k ∨ ∃ c', s.calls[k]? = some c' ∧ c'.answer = .aborted p := by
  cases event with
  | fetchCatalogue gatewayUrl ttlMs now =>
    right
    simp only [State.step, State.fetchCatalogue] at hc
    split at hc
    · exact ⟨c, record_aborted (by simp) hc hanswer, hanswer⟩
    · split at hc
      · exact ⟨c, record_aborted (by simp) hc hanswer, hanswer⟩
      · split at hc
        · exact ⟨c, record_aborted (by simp) hc hanswer, hanswer⟩
        · exact ⟨c, record_aborted (by simp) hc hanswer, hanswer⟩
  | settle promise result now =>
    right
    simp only [State.step, State.settle] at hc
    split at hc <;> exact ⟨c, hc, hanswer⟩
  | finish promise =>
    right
    simp only [State.step, State.finish] at hc
    split at hc
    · next result time hsettled =>
      rw [List.getElem?_map] at hc
      obtain ⟨c', hc', rfl⟩ := Option.map_eq_some_iff.mp hc
      refine ⟨c', hc', ?_⟩
      generalize c'.answer = answer at hanswer
      cases answer with
      | waiting q =>
        by_cases hq : q = promise
        · simp only [Answer.resume, if_pos hq] at hanswer
          cases result <;> cases hanswer
        · simp only [Answer.resume, if_neg hq] at hanswer
          cases hanswer
      | _ => exact hanswer
    · exact ⟨c, hc, hanswer⟩
  | cancel call =>
    by_cases hk : call = k
    · exact .inl (by rw [hk])
    · right
      simp only [State.step, State.cancel, List.getElem?_modify, if_neg hk] at hc
      exact ⟨c, by simpa using hc, hanswer⟩
  | invalidateCatalogue => exact .inr ⟨c, hc, hanswer⟩

theorem settle_mem_of_outcome {events : List (Event M)} {promise : ℕ} {f : Fetch M}
    {result : Option (List M)} {time : ℤ} (hf : (State.run events).fetches[promise]? = some f)
    (hout : f.phase.outcome = some (result, time)) : .settle promise result time ∈ events := by
  induction events using List.reverseRecOn generalizing f with
  | nil => simp [State.run, State.initial] at hf
  | append_singleton events event ih =>
    rw [State.run, List.foldl_append] at hf
    rcases outcome_step hf hout with rfl | ⟨g, hg, hout'⟩
    · simp
    · exact List.mem_append_left _ (ih hg hout')

theorem cancel_mem_of_aborted {events : List (Event M)} {k : ℕ} {c : Call M} {p : ℕ}
    (hc : (State.run events).calls[k]? = some c) (hanswer : c.answer = .aborted p) :
    .cancel k ∈ events := by
  induction events using List.reverseRecOn generalizing c with
  | nil => simp [State.run, State.initial] at hc
  | append_singleton events event ih =>
    rw [State.run, List.foldl_append] at hc
    rcases aborted_step hc hanswer with rfl | ⟨c', hc', hanswer'⟩
    · simp
    · exact List.mem_append_left _ (ih hc' hanswer')

/-- In every run in which a fetch that returns models was started after the last invalidation:
every caller has the models of a fetch for its own gateway that was started after the last
invalidation before the call, a cached answer within its time to live; no caller waits for a
promise that has settled; and a caller fails because its own fetch did, or by its own
cancellation. -/
theorem calls_get_current_models (events : List (Event M))
    (hprompt : Runs.Always State.step State.Prompt State.initial events) :
    let s := State.run events
    (∀ c ∈ s.calls, c.Good s.fetches) ∧
    (∀ c ∈ s.calls, ∀ promise, c.answer = .waiting promise →
      ∀ f, s.fetches[promise]? = some f → f.phase.isFinished = false) ∧
    (∀ promise f result time, s.fetches[promise]? = some f →
      f.phase.outcome = some (result, time) → .settle promise result time ∈ events) ∧
    ∀ k c promise, s.calls[k]? = some c → c.answer = .aborted promise → .cancel k ∈ events := by
  have hinv : Invariant (State.run events) :=
    hprompt.invariant invariant_initial fun s event h hstep => h.step event hstep
  refine ⟨hinv.calls, hinv.waits, ?_, ?_⟩
  · exact fun promise f result time hf hout => settle_mem_of_outcome hf hout
  · exact fun k c promise hc hanswer => cancel_mem_of_aborted hc hanswer

/-- Two callers share a fetch and one of them gives up; after the invalidation a third gets the
models of a new fetch, and a fourth the cached ones. -/
theorem calls_get_current_models_shared :
    let events : List (Event String) :=
      [.fetchCatalogue (some "gw") 300 0, .fetchCatalogue (some "gw") 300 1, .cancel 0,
        .settle 0 (some ["old"]) 5, .finish 0, .invalidateCatalogue,
        .fetchCatalogue (some "gw") 300 6, .settle 1 (some ["new"]) 8, .finish 1,
        .fetchCatalogue (some "gw") 300 9]
    (State.run events).calls.map Call.answer = [.aborted 0, .resolved 0 ["old"],
      .resolved 1 ["new"], .cached ⟨["new"], 8, "gw", 1⟩ 9] ∧
    ∀ c ∈ (State.run events).calls, c.Good (State.run events).fetches := by
  refine ⟨by decide, (calls_get_current_models _ ?_).1⟩
  decide

/-- A fetch that was started before the invalidation ends after it: the next caller gets the
models it brought, from the cache. -/
theorem withdrawn_model_is_served :
    let events : List (Event String) :=
      [.fetchCatalogue (some "gw") 300 0, .invalidateCatalogue, .settle 0 (some ["withdrawn"]) 5,
        .finish 0, .fetchCatalogue (some "gw") 300 6]
    (State.run events).calls.map Call.answer = [.resolved 0 ["withdrawn"],
      .cached ⟨["withdrawn"], 5, "gw", 0⟩ 6] ∧
    (State.run events).calls.map Call.invalidations = [0, 1] ∧
    (State.run events).fetches.map Fetch.invalidations = [0] ∧
    ¬ ∀ c ∈ (State.run events).calls, c.Good (State.run events).fetches := by
  refine ⟨by decide, by decide, by decide, ?_⟩
  intro hgood
  have hlast : (⟨some "gw", 300, 1, .cached ⟨["withdrawn"], 5, "gw", 0⟩ 6⟩ : Call String) ∈
      (State.run [.fetchCatalogue (some "gw") 300 0, .invalidateCatalogue,
        .settle 0 (some ["withdrawn"]) 5, .finish 0, .fetchCatalogue (some "gw") 300 6]).calls := by
    decide
  obtain ⟨-, f, hf, hcurrent, -⟩ := hgood _ hlast
  have hfetch : f = ⟨"gw", 0, .finished (some ["withdrawn"]) 5⟩ := by
    refine Option.some.inj (hf.symm.trans ?_)
    decide
  rw [hfetch] at hcurrent
  exact absurd hcurrent.2 (by decide)

end Catalogue

end Governance
