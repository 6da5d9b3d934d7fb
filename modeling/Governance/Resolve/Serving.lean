import Governance.Resolve.Registry
import Governance.Resolve.Revocation

/-!
# The resolver over the registry

The resolver, its cache and its requests over the tables that `issue`, `revoke` and the generated
routes write. Seen through the join this is the system of `Resolve.step`: a row that is inserted
is an integration that is issued, and the other writes are no step of it (`seen_run`). And what a
request is let through as is what the database has answered for its credential
(`allowed_answered`).

An environment may be renamed while it is in use, which `Resolve.step` does not know. A request is
let through or denied whatever the name of its environment is, so the two agree up to the names.
-/

namespace Governance

namespace Resolve

/-! ## What an identity says is only passed on -/

section Identities

variable {cfg : Config} {s : State} {f : ResolvedIdentity → ResolvedIdentity}

def IntegrationRow.mapIdentity (f : ResolvedIdentity → ResolvedIdentity) (row : IntegrationRow) :
    IntegrationRow :=
  { row with identity := f row.identity }

def Phase.mapIdentity (f : ResolvedIdentity → ResolvedIdentity) : Phase → Phase
  | .inserting credential lookedUp identity => .inserting credential lookedUp (f identity)
  | .allowed credential lookedUp identity => .allowed credential lookedUp (f identity)
  | phase => phase

def State.mapIdentity (f : ResolvedIdentity → ResolvedIdentity) (s : State) : State where
  now := s.now
  integrations hash := (s.integrations hash).map (IntegrationRow.mapIdentity f)
  cache key := (s.cache key).map fun entry => (f entry.1, entry.2)
  requests r := (s.requests r).map (Phase.mapIdentity f)

def Step.mapIdentity (f : ResolvedIdentity → ResolvedIdentity) : Step → Step
  | .issue hash identity => .issue hash (f identity)
  | a => a

theorem State.ext_fields {s s' : State} (hnow : s.now = s'.now)
    (hintegrations : s.integrations = s'.integrations) (hcache : s.cache = s'.cache)
    (hrequests : s.requests = s'.requests) : s = s' := by
  cases s
  cases s'
  cases hnow
  cases hintegrations
  cases hcache
  cases hrequests
  rfl

theorem mapIdentity_set (r : ℕ) (phase : Phase) :
    (s.set r phase).mapIdentity f = (s.mapIdentity f).set r (phase.mapIdentity f) := by
  refine State.ext_fields rfl rfl rfl ?_
  funext r'
  simp only [State.mapIdentity, State.set, Function.update_apply]
  split
  · rfl
  · rfl

theorem get_mapIdentity (key : String) :
    (s.mapIdentity f).get cfg key = (s.get cfg key).map f := by
  simp only [State.get, State.mapIdentity]
  cases s.cache key with
  | none => rfl
  | some entry =>
    simp only [Option.map_some]
    rw [apply_ite (Option.map f)]
    rfl

theorem resolve_mapIdentity (answers : Bool) (presented : String) :
    (s.mapIdentity f).resolve cfg answers presented = (s.resolve cfg answers presented).map f := by
  simp only [State.resolve, State.mapIdentity]
  split
  · cases s.integrations (cfg.hashSecret presented) with
    | none => rfl
    | some row =>
      simp only [Option.map_some, IntegrationRow.mapIdentity]
      split
      · rfl
      · rfl
  · rfl

theorem mapIdentity_enter (req : Inbound) : req.enter.mapIdentity f = req.enter := by
  unfold Inbound.enter
  split
  · rfl
  · split
    · split
      · rfl
      · rfl
    · rfl

theorem mapIdentity_revoke (hf : ∀ identity, (f identity).integrationId = identity.integrationId)
    (integrationId : String) (now : ℕ) (row : IntegrationRow) :
    (row.revoke integrationId now).mapIdentity f =
      (row.mapIdentity f).revoke integrationId now := by
  simp only [IntegrationRow.revoke, IntegrationRow.mapIdentity, hf]
  split
  · rfl
  · rfl

/-- No step looks at an identity, but for the id by which an integration is revoked. -/
theorem step_mapIdentity (hf : ∀ identity, (f identity).integrationId = identity.integrationId)
    (a : Step) :
    (step cfg s a).mapIdentity f = step cfg (s.mapIdentity f) (a.mapIdentity f) := by
  have hrequests (r : ℕ) :
      (s.mapIdentity f).requests r = (s.requests r).map (Phase.mapIdentity f) := rfl
  have hnow : (s.mapIdentity f).now = s.now := rfl
  cases a with
  | arrive r req =>
    cases hreq : s.requests r with
    | none =>
      simp only [Step.mapIdentity, step, hrequests, hreq, Option.map_none, if_true,
        mapIdentity_set, mapIdentity_enter]
    | some phase =>
      simp only [Step.mapIdentity, step, hrequests, hreq, Option.map_some, reduceCtorEq, if_false]
  | lookup r =>
    cases hreq : s.requests r with
    | none => simp only [Step.mapIdentity, step, hrequests, hreq, Option.map_none]
    | some phase =>
      cases phase with
      | waiting credential =>
        simp only [Step.mapIdentity, step, hrequests, hreq, Option.map_some, Phase.mapIdentity,
          get_mapIdentity]
        cases s.get cfg (cfg.cacheKey credential) with
        | none => exact mapIdentity_set r _
        | some identity => exact mapIdentity_set r _
      | _ => simp only [Step.mapIdentity, step, hrequests, hreq, Option.map_some,
          Phase.mapIdentity]
  | read r answers =>
    cases hreq : s.requests r with
    | none => simp only [Step.mapIdentity, step, hrequests, hreq, Option.map_none]
    | some phase =>
      cases phase with
      | querying credential lookedUp =>
        simp only [Step.mapIdentity, step, hrequests, hreq, Option.map_some, Phase.mapIdentity,
          resolve_mapIdentity, hnow]
        split
        · cases s.resolve cfg answers credential with
          | none => exact mapIdentity_set r _
          | some identity => exact mapIdentity_set r _
        · rfl
      | _ => simp only [Step.mapIdentity, step, hrequests, hreq, Option.map_some,
          Phase.mapIdentity]
  | expire r =>
    cases hreq : s.requests r with
    | none => simp only [Step.mapIdentity, step, hrequests, hreq, Option.map_none]
    | some phase =>
      cases phase with
      | querying credential lookedUp =>
        simp only [Step.mapIdentity, step, hrequests, hreq, Option.map_some, Phase.mapIdentity,
          hnow]
        split
        · exact mapIdentity_set r _
        · rfl
      | _ => simp only [Step.mapIdentity, step, hrequests, hreq, Option.map_some,
          Phase.mapIdentity]
  | insert r =>
    cases hreq : s.requests r with
    | none => simp only [Step.mapIdentity, step, hrequests, hreq, Option.map_none]
    | some phase =>
      cases phase with
      | inserting credential lookedUp identity =>
        simp only [Step.mapIdentity, step, hrequests, hreq, Option.map_some, Phase.mapIdentity]
        refine State.ext_fields rfl rfl ?_ ?_
        · funext key
          simp only [State.mapIdentity, Function.update_apply]
          split
          · rfl
          · rfl
        · have hset : ((s.set r (.allowed credential lookedUp identity)).mapIdentity f).requests =
              ((s.mapIdentity f).set r (.allowed credential lookedUp (f identity))).requests := by
            rw [mapIdentity_set, Phase.mapIdentity]
          exact hset
      | _ => simp only [Step.mapIdentity, step, hrequests, hreq, Option.map_some,
          Phase.mapIdentity]
  | issue hash identity =>
    cases hrow : s.integrations hash with
    | none =>
      simp only [Step.mapIdentity, step, State.mapIdentity, hrow, Option.map_none, if_true]
      refine State.ext_fields rfl ?_ rfl rfl
      funext hash'
      simp only [Function.update_apply]
      split
      · rfl
      · rfl
    | some row =>
      simp only [Step.mapIdentity, step, State.mapIdentity, hrow, Option.map_some, reduceCtorEq,
        if_false]
  | revoke integrationId =>
    refine State.ext_fields rfl ?_ rfl rfl
    funext hash
    simp only [Step.mapIdentity, step, State.mapIdentity, Option.map_map]
    congr 1
    funext row
    exact mapIdentity_revoke hf integrationId s.now row
  | evict key =>
    refine State.ext_fields rfl rfl ?_ rfl
    funext key'
    simp only [Step.mapIdentity, step, State.mapIdentity, Function.update_apply]
    split
    · rfl
    · rfl
  | tick elapsed => rfl

theorem run_mapIdentity (hf : ∀ identity, (f identity).integrationId = identity.integrationId)
    (steps : List Step) : (run cfg s steps).mapIdentity f =
      run cfg (s.mapIdentity f) (steps.map (Step.mapIdentity f)) := by
  induction steps generalizing s with
  | nil => rfl
  | cons a steps ih => rw [run_cons, ih, List.map_cons, run_cons, step_mapIdentity hf]

/-- An identity, but for the name of its environment. -/
def withoutName (identity : ResolvedIdentity) : ResolvedIdentity :=
  { identity with environment := "" }

theorem withoutName_integrationId (identity : ResolvedIdentity) :
    (withoutName identity).integrationId = identity.integrationId := rfl

end Identities

namespace Registry

/-! ## A write, as a step of the resolver's system -/

section Writes

variable {cfg : Config} {reg : Registry} {a : Step}

/-- What the resolver sees of a write. -/
def Step.inResolve (cfg : Config) (reg : Registry) : Step → List Resolve.Step
  | .insert call id bytes answers =>
    match reg.calls call with
    | some (.inserting args tenantId) =>
      if answers ∧ id ∉ reg.integrations.map Integration.id then
        ((reg.environments args.environmentId).map fun environment =>
          Resolve.Step.issue (cfg.hashSecret (generateSecret bytes))
            ⟨tenantId, args.applicationId, environment.name, id⟩).toList
      else []
    | _ => []
  | .revoke id => [.revoke id]
  | .tick elapsed => [.tick elapsed]
  | _ => []

/-- Every environment that a row or a call refers to is there. -/
structure Sound (reg : Registry) : Prop where
  rows : ∀ row ∈ reg.integrations, ∃ environment,
    reg.environments row.environmentId = some environment
  calls : ∀ call args tenantId, reg.calls call = some (.inserting args tenantId) →
    ∃ environment, reg.environments args.environmentId = some environment

theorem sound_empty : Sound empty where
  rows := by
    intro row hrow
    cases hrow
  calls := by
    intro call args tenantId hcall
    cases hcall

theorem environments_step (cfg : Config) (a : Step) {id : String} {environment : EnvironmentRow}
    (h : reg.environments id = some environment) :
    ∃ environment', (step cfg reg a).environments id = some environment' := by
  cases a with
  | putEnvironment id' row =>
    simp only [step, Function.update_apply]
    split
    · exact ⟨row, rfl⟩
    · exact ⟨environment, h⟩
  | _ =>
    refine ⟨environment, ?_⟩
    simp only [step]
    repeat' split
    all_goals exact h

theorem Sound.step (h : Sound reg) : Sound (step cfg reg a) where
  rows := by
    intro row hrow
    obtain ⟨environment, henvironment⟩ : ∃ environment,
        reg.environments row.environmentId = some environment := by
      rcases integrations_step cfg reg a with
        ⟨-, heq⟩ | ⟨call, id, bytes, args, tenantId, -, hcall, -, heq⟩ | ⟨id, -, heq⟩
      · exact h.rows row (heq ▸ hrow)
      · rw [heq] at hrow
        rcases List.mem_append.mp hrow with hold | hnew
        · exact h.rows row hold
        · obtain rfl := List.mem_singleton.mp hnew
          exact h.calls call args tenantId hcall
      · rw [heq] at hrow
        obtain ⟨old, hold, rfl⟩ := List.mem_map.mp hrow
        rw [revoked_environmentId]
        exact h.rows old hold
    exact environments_step cfg a henvironment
  calls := by
    intro call args tenantId hcall
    rcases calls_step hcall with hbefore | hmoves
    · obtain ⟨environment, henvironment⟩ := h.calls call args tenantId hbefore
      exact environments_step cfg a henvironment
    · cases hmoves with
      | inserting _ _ environment _ henvironment _ => exact environments_step cfg a henvironment

theorem filter_of_fresh {hash : String}
    (hfresh : hash ∉ reg.integrations.map Integration.credentialHash) :
    (reg.integrations.filter fun row => row.credentialHash = hash) = [] := by
  rw [List.filter_eq_nil_iff]
  intro row hmem hhash
  exact hfresh (of_decide_eq_true hhash ▸ List.mem_map_of_mem hmem)

/-- The join after an insert of a row with a new hash. -/
theorem table_insert (reg' : Registry) (row : Integration)
    (hintegrations : reg'.integrations = reg.integrations ++ [row])
    (henvironments : reg'.environments = reg.environments)
    (hfresh : row.credentialHash ∉ reg.integrations.map Integration.credentialHash) :
    reg'.table = Function.update reg.table row.credentialHash (reg.joined row) := by
  have hjoined : reg'.joined = reg.joined := by
    funext row'
    rw [joined, joined, henvironments]
  funext hash
  rw [table, hintegrations, hjoined, List.filter_append, List.findSome?_append,
    Function.update_apply]
  split
  · next heq =>
    rw [heq, filter_of_fresh hfresh]
    simp
  · next hne =>
    have hother : ¬ row.credentialHash = hash := fun heq => hne heq.symm
    simp [table, hother]

theorem joined_revoked (now : ℕ) (id : String) (row : Integration) :
    reg.joined (revoked now id row) = (reg.joined row).map (IntegrationRow.revoke id now) := by
  unfold revoked
  split
  · next hboth =>
    simp only [joined, Option.map_map]
    congr 1
    funext environment
    simp [IntegrationRow.revoke, hboth]
  · next hnot =>
    simp only [joined, Option.map_map]
    congr 1
    funext environment
    simp [IntegrationRow.revoke, hnot]

theorem table_revoke (id : String) : (step cfg reg (.revoke id)).table = fun hash =>
    (reg.table hash).map (IntegrationRow.revoke id reg.now) := by
  funext hash
  have hfilter : ((reg.integrations.map (revoked reg.now id)).filter fun row =>
      row.credentialHash = hash) =
        (reg.integrations.filter fun row => row.credentialHash = hash).map
          (revoked reg.now id) := by
    rw [List.filter_map]
    simp only [Function.comp_def, revoked_credentialHash]
  have hjoined : reg.joined ∘ revoked reg.now id =
      Option.map (IntegrationRow.revoke id reg.now) ∘ reg.joined := by
    funext row
    exact joined_revoked reg.now id row
  calc (step cfg reg (.revoke id)).table hash
      = ((reg.integrations.map (revoked reg.now id)).filter fun row =>
          row.credentialHash = hash).findSome? reg.joined := rfl
    _ = (reg.integrations.filter fun row => row.credentialHash = hash).findSome?
          (Option.map (IntegrationRow.revoke id reg.now) ∘ reg.joined) := by
        rw [hfilter, List.findSome?_map, hjoined]
    _ = (reg.table hash).map (IntegrationRow.revoke id reg.now) := List.map_findSome?.symm

/-- An environment that is put in its place changes no more than its name in the join. -/
theorem table_putEnvironment (cfg : Config) (h : Sound reg) (id : String)
    (environment : EnvironmentRow) (hash : String) :
    ((step cfg reg (.putEnvironment id environment)).table hash).map
        (IntegrationRow.mapIdentity withoutName) =
      (reg.table hash).map (IntegrationRow.mapIdentity withoutName) := by
  have hjoined : ∀ row ∈ reg.integrations,
      ((step cfg reg (.putEnvironment id environment)).joined row).map
          (IntegrationRow.mapIdentity withoutName) =
        (reg.joined row).map (IntegrationRow.mapIdentity withoutName) := by
    intro row hrow
    -- It was there before, so the row is in the join on both sides.
    obtain ⟨old, hold⟩ := h.rows row hrow
    obtain ⟨new, hnew⟩ := environments_step cfg (.putEnvironment id environment) hold
    rw [joined, joined, hold, hnew]
    rfl
  unfold table
  rw [List.map_findSome?, List.map_findSome?, ← List.head?_filterMap, ← List.head?_filterMap]
  refine congrArg List.head? (List.filterMap_congr ?_)
  intro row hrow
  exact hjoined row (List.mem_of_mem_filter hrow)

/-- A write that is no write of an environment, as the resolver sees it. -/
theorem seen_write (h : Sound reg)
    (hfresh : (reg.integrations.map Integration.credentialHash ++ hashes cfg [a]).Nodup)
    (ha : ∀ id environment, a ≠ .putEnvironment id environment)
    (cache : String → Option (ResolvedIdentity × ℕ)) (requests : ℕ → Option Phase) :
    State.mk (step cfg reg a).now (step cfg reg a).table cache requests =
      Resolve.run cfg (State.mk reg.now reg.table cache requests) (a.inResolve cfg reg) := by
  cases a with
  | putEnvironment id environment => exact absurd rfl (ha id environment)
  | insert call id bytes answers =>
    cases hcall : reg.calls call with
    | none => simp only [step, Step.inResolve, hcall, run_nil]
    | some stage =>
      cases stage with
      | inserting args tenantId =>
        by_cases hinsert : answers ∧ id ∉ reg.integrations.map Integration.id
        · -- The environment was there when the call read it, and nothing deletes one.
          obtain ⟨environment, henvironment⟩ := h.calls call args tenantId hcall
          have hnew : cfg.hashSecret (generateSecret bytes) ∉
              reg.integrations.map Integration.credentialHash := fun hmem =>
            (List.nodup_append.mp hfresh).2.2 _ hmem _ List.mem_cons_self rfl
          have henvironments : (step cfg reg (.insert call id bytes answers)).environments =
              reg.environments := by
            simp only [step, hcall, if_pos hinsert]
            rfl
          have hintegrations : (step cfg reg (.insert call id bytes answers)).integrations =
              reg.integrations ++ [args.row cfg tenantId id (generateSecret bytes)] := by
            simp only [step, hcall, if_pos hinsert]
          have htable := table_insert _ (args.row cfg tenantId id (generateSecret bytes))
            hintegrations henvironments hnew
          have hseen : Step.inResolve cfg reg (.insert call id bytes answers) =
              [.issue (cfg.hashSecret (generateSecret bytes))
                ⟨tenantId, args.applicationId, environment.name, id⟩] := by
            simp only [Step.inResolve, hcall, if_pos hinsert, henvironment, Option.map_some,
              Option.toList_some]
          have hnone : reg.table (cfg.hashSecret (generateSecret bytes)) = none := by
            rw [table, filter_of_fresh hnew, List.findSome?_nil]
          rw [hseen, run_cons, run_nil, Resolve.step, if_pos hnone]
          refine State.ext_fields ?_ ?_ rfl rfl
          · simp only [step, hcall, if_pos hinsert]
            rfl
          · have hjoined : reg.joined (args.row cfg tenantId id (generateSecret bytes)) = some
                ⟨⟨tenantId, args.applicationId, environment.name, id⟩, .active, none⟩ :=
              congrArg (Option.map _) henvironment
            rw [htable, hjoined]
            rfl
        · simp only [step, Step.inResolve, hcall, if_neg hinsert, run_nil]
          rfl
      | _ => simp only [step, Step.inResolve, hcall, run_nil]
  | revoke id => exact State.ext_fields rfl (table_revoke id) rfl rfl
  | tick elapsed => rfl
  | _ =>
    simp only [step, Step.inResolve, run_nil]
    repeat' split
    all_goals rfl

end Writes

end Registry

/-! ## The resolver over the registry -/

/-- The steps of the resolver's system that the requests and the cache take. -/
def Step.ofResolver : Step → Bool
  | .issue _ _ => false
  | .revoke _ => false
  | .tick _ => false
  | _ => true

/-- The registry, the cache and the requests. -/
structure Serving where
  registry : Registry
  cache : String → Option (ResolvedIdentity × ℕ)
  requests : ℕ → Option Phase

namespace Serving

def empty : Serving := ⟨.empty, fun _ => none, fun _ => none⟩

/-- What the resolver sees of it. -/
def seen (sv : Serving) : State := ⟨sv.registry.now, sv.registry.table, sv.cache, sv.requests⟩

inductive Event where
  | write (a : Registry.Step)
  | resolver (a : { a : Step // a.ofResolver = true })

/-- One event. The resolver reads the tables, and writes none. -/
def serve (cfg : Config) (sv : Serving) : Event → Serving
  | .write a => { sv with registry := Registry.step cfg sv.registry a }
  | .resolver a =>
    { sv with cache := (step cfg sv.seen a).cache, requests := (step cfg sv.seen a).requests }

/-- A run. -/
def run (cfg : Config) (events : List Event) : Serving := events.foldl (serve cfg) empty

/-- The writes among some events. -/
def writes (events : List Event) : List Registry.Step :=
  events.filterMap fun event => match event with
    | .write a => some a
    | .resolver _ => none

def Event.inResolve (cfg : Config) (sv : Serving) : Event → List Step
  | .write a => a.inResolve cfg sv.registry
  | .resolver a => [a]

/-- The events as the steps of the resolver's system. -/
def inResolve (cfg : Config) : Serving → List Event → List Step
  | _, [] => []
  | sv, event :: events => event.inResolve cfg sv ++ inResolve cfg (serve cfg sv event) events

section Serve

variable {cfg : Config} {sv : Serving}

theorem now_of_ofResolver {s : State} {a : Step} (h : a.ofResolver = true) :
    (step cfg s a).now = s.now := by
  cases a with
  | tick elapsed => cases h
  | _ =>
    simp only [step]
    repeat' split
    all_goals rfl

theorem integrations_of_ofResolver {s : State} {a : Step} (h : a.ofResolver = true) :
    (step cfg s a).integrations = s.integrations := by
  cases a with
  | issue hash identity => cases h
  | revoke integrationId => cases h
  | _ =>
    simp only [step]
    repeat' split
    all_goals rfl

/-- An event is the steps of the resolver's system that it stands for, up to the names. -/
theorem seen_serve (event : Event) (hsound : sv.registry.Sound)
    (hfresh : (sv.registry.integrations.map Integration.credentialHash ++
      Registry.hashes cfg (writes [event])).Nodup) :
    (serve cfg sv event).seen.mapIdentity withoutName =
      Resolve.run cfg (sv.seen.mapIdentity withoutName)
        ((event.inResolve cfg sv).map (Step.mapIdentity withoutName)) := by
  cases event with
  | resolver a =>
    rw [← run_mapIdentity withoutName_integrationId]
    have hnow : (step cfg sv.seen a).now = sv.seen.now := now_of_ofResolver a.property
    have hintegrations : (step cfg sv.seen a).integrations = sv.seen.integrations :=
      integrations_of_ofResolver a.property
    exact congrArg (State.mapIdentity withoutName)
      (State.ext_fields hnow.symm hintegrations.symm rfl rfl)
  | write a =>
    by_cases ha : ∃ id environment, a = .putEnvironment id environment
    · -- The one write that the resolver sees and its system has no step for.
      obtain ⟨id, environment, rfl⟩ := ha
      refine State.ext_fields rfl ?_ rfl rfl
      funext hash
      exact Registry.table_putEnvironment cfg hsound id environment hash
    · rw [← run_mapIdentity withoutName_integrationId]
      exact congrArg (State.mapIdentity withoutName) (Registry.seen_write hsound hfresh
        (fun id environment heq => ha ⟨id, environment, heq⟩) sv.cache sv.requests)

theorem writes_cons (event : Event) (events : List Event) :
    writes (event :: events) = writes [event] ++ writes events :=
  List.filterMap_append (l := [event])

theorem sound_serve (event : Event) (h : sv.registry.Sound) :
    (serve cfg sv event).registry.Sound := by
  cases event with
  | write a => exact h.step
  | resolver a => exact h

theorem sublist_serve (cfg : Config) (sv : Serving) (event : Event) :
    ((serve cfg sv event).registry.integrations.map Integration.credentialHash).Sublist
      (sv.registry.integrations.map Integration.credentialHash ++
        Registry.hashes cfg (writes [event])) := by
  cases event with
  | write a => exact Registry.sublist_step cfg sv.registry a
  | resolver a => exact List.sublist_append_left _ _

theorem seen_foldl {events : List Event} (hsound : sv.registry.Sound)
    (hfresh : (sv.registry.integrations.map Integration.credentialHash ++
      Registry.hashes cfg (writes events)).Nodup) :
    (events.foldl (serve cfg) sv).seen.mapIdentity withoutName =
      Resolve.run cfg (sv.seen.mapIdentity withoutName)
        ((inResolve cfg sv events).map (Step.mapIdentity withoutName)) := by
  induction events generalizing sv with
  | nil => rfl
  | cons event events ih =>
    rw [writes_cons, Registry.hashes_append, ← List.append_assoc] at hfresh
    have hhere := hfresh.sublist (List.sublist_append_left _ _)
    have hthere := hfresh.sublist ((sublist_serve cfg sv event).append (List.Sublist.refl _))
    rw [List.foldl_cons, ih (sound_serve event hsound) hthere, inResolve, List.map_append,
      run_append, seen_serve event hsound hhere]

/-- In every run of the registry under the resolver, with no secret's hash drawn twice, the
resolver sees a run of `Resolve.step`, up to the names of environments: every insert of `issue` is
an integration that is issued, every revocation is one, and the other writes are nothing. -/
theorem seen_run {events : List Event} (hfresh : (Registry.hashes cfg (writes events)).Nodup) :
    (run cfg events).seen.mapIdentity withoutName =
      Resolve.run cfg State.empty ((inResolve cfg empty events).map
        (Step.mapIdentity withoutName)) :=
  seen_foldl Registry.sound_empty hfresh

end Serve

/-! ## Whom a request is let through as -/

section Answers

variable {cfg : Config} {events : List Event} {hash : String} {identity : ResolvedIdentity}

theorem run_concat (cfg : Config) (events : List Event) (event : Event) :
    run cfg (events ++ [event]) = serve cfg (run cfg events) event := by
  simp only [run, List.foldl_append, List.foldl_cons, List.foldl_nil]

/-- At a point of the run the database answered with the identity, for a secret with the hash. -/
def Answered (cfg : Config) (events : List Event) (hash : String) (identity : ResolvedIdentity) :
    Prop :=
  ∃ before presented, before <+: events ∧ cfg.hashSecret presented = hash ∧
    (run cfg before).registry.state.resolve cfg true presented = some identity

theorem Answered.concat (h : Answered cfg events hash identity) (event : Event) :
    Answered cfg (events ++ [event]) hash identity := by
  obtain ⟨before, presented, hprefix, hhash, hresolve⟩ := h
  exact ⟨before, presented, hprefix.trans (List.prefix_append events [event]), hhash, hresolve⟩

/-- What a request carries is an answer for its own credential. -/
def PhaseAnswered (cfg : Config) (events : List Event) : Phase → Prop
  | .inserting credential _ identity =>
    Answered cfg events (cfg.hashSecret credential) identity
  | .allowed credential _ identity =>
    Answered cfg events (cfg.hashSecret credential) identity
  | _ => True

theorem PhaseAnswered.concat {phase : Phase} (h : PhaseAnswered cfg events phase)
    (event : Event) : PhaseAnswered cfg (events ++ [event]) phase := by
  cases phase with
  | inserting credential lookedUp identity => exact Answered.concat h event
  | allowed credential lookedUp identity => exact Answered.concat h event
  | _ => trivial

/-- What the cache and the requests hold after a run. -/
structure Faithful (cfg : Config) (events : List Event) : Prop where
  cached : ∀ key identity insertedAt,
    (run cfg events).cache key = some (identity, insertedAt) → Answered cfg events key identity
  phases : ∀ r phase, (run cfg events).requests r = some phase → PhaseAnswered cfg events phase

theorem phaseAnswered_enter (req : Inbound) : PhaseAnswered cfg events req.enter := by
  unfold Inbound.enter
  split
  · trivial
  · split
    · split
      · trivial
      · trivial
    · trivial

theorem answers_of_resolve {s : State} {answers : Bool} {presented : String}
    (h : s.resolve cfg answers presented = some identity) : answers = true := by
  unfold State.resolve at h
  split at h
  · next hanswers => exact hanswers
  · cases h

/-- An entry of the cache is old, or what a request has read. -/
theorem cache_step_cases {s : State} {a : Step} {key : String} {insertedAt : ℕ}
    (h : (step cfg s a).cache key = some (identity, insertedAt)) :
    s.cache key = some (identity, insertedAt) ∨ ∃ r credential lookedUp,
      s.requests r = some (.inserting credential lookedUp identity) ∧
        key = cfg.cacheKey credential := by
  cases a with
  | insert r =>
    simp only [step] at h
    split at h
    · next credential lookedUp identity' hinserting =>
      simp only [Function.update_apply] at h
      split at h
      · next hkey =>
        obtain ⟨rfl, -⟩ := Prod.mk.inj (Option.some.inj h)
        exact .inr ⟨r, credential, lookedUp, hinserting, hkey⟩
      · exact .inl h
    · exact .inl h
  | evict key' =>
    simp only [step, Function.update_apply] at h
    split at h
    · cases h
    · exact .inl h
  | _ =>
    left
    simp only [step] at h
    repeat' split at h
    all_goals exact h

theorem Faithful.resolver (h : Faithful cfg events) (a : { a : Step // a.ofResolver = true }) :
    Faithful cfg (events ++ [Event.resolver a]) where
  cached := by
    intro key identity insertedAt hcache
    rw [run_concat] at hcache
    rcases cache_step_cases hcache with hold | ⟨r, credential, lookedUp, hinserting, rfl⟩
    · exact (h.cached key identity insertedAt hold).concat _
    · exact Answered.concat (h.phases r _ hinserting) _
  phases := by
    intro r phase hphase
    rw [run_concat] at hphase
    refine PhaseAnswered.concat ?_ _
    rcases requests_step_cases hphase with hold | ⟨req, rfl⟩ |
      ⟨credential, identity, hget, rfl⟩ | ⟨credential, rfl⟩ |
      ⟨credential, lookedUp, identity, answers, -, hresolve, rfl⟩ | ⟨reason, rfl⟩ |
      ⟨credential, lookedUp, identity, hinserting, rfl⟩
    · exact h.phases r phase hold
    · exact phaseAnswered_enter req
    · -- The entry is under the hash of the credential, so it answers for that.
      unfold State.get at hget
      split at hget
      · next identity' insertedAt hcache =>
        split at hget
        · obtain rfl := Option.some.inj hget
          exact h.cached _ _ _ hcache
        · cases hget
      · cases hget
    · trivial
    · obtain rfl := answers_of_resolve hresolve
      exact ⟨events, credential, List.prefix_rfl, rfl, hresolve⟩
    · trivial
    · have hread : PhaseAnswered cfg events (.inserting credential lookedUp identity) :=
        h.phases r _ hinserting
      exact hread

theorem faithful_run (cfg : Config) (events : List Event) : Faithful cfg events := by
  induction events using List.reverseRecOn with
  | nil =>
    constructor
    · intro key identity insertedAt hcache
      cases hcache
    · intro r phase hphase
      cases hphase
  | append_singleton events event ih =>
    cases event with
    | resolver a => exact ih.resolver a
    | write a =>
      constructor
      · intro key identity insertedAt hcache
        rw [run_concat] at hcache
        exact (ih.cached key identity insertedAt hcache).concat _
      · intro r phase hphase
        rw [run_concat] at hphase
        exact (ih.phases r phase hphase).concat _

/-- A request is let through only as what the database answered, for a secret with the hash of
its credential, at some point of the run: whatever is cached, evicted, inserted late by another
request, renamed or revoked in between, no request gets the identity of another credential. -/
theorem allowed_answered {r : ℕ} {credential : String} {lookedUp : ℕ}
    (h : (run cfg events).requests r = some (.allowed credential lookedUp identity)) :
    ∃ before presented, before <+: events ∧
      cfg.hashSecret presented = cfg.hashSecret credential ∧
      (run cfg before).registry.state.resolve cfg true presented = some identity :=
  (faithful_run cfg events).phases r _ h

end Answers

/-- The shop's credential is issued, its environment renamed, and the credential presented. -/
def shopServed : List Event :=
  (Registry.shopIssued.map Event.write) ++
    [Event.write (.putEnvironment "shop-prod" ⟨"acme", "shop", "live"⟩),
      Event.resolver ⟨.arrive 0 ⟨some "Bearer t", true,
        some (generateSecret (Vector.replicate 32 0))⟩, rfl⟩,
      Event.resolver ⟨.lookup 0, rfl⟩, Event.resolver ⟨.read 0 true, rfl⟩,
      Event.resolver ⟨.insert 0, rfl⟩]

theorem seen_run_shop : (run ⟨60, 5, id⟩ shopServed).seen.mapIdentity withoutName =
    Resolve.run ⟨60, 5, id⟩ State.empty ((inResolve ⟨60, 5, id⟩ empty shopServed).map
      (Step.mapIdentity withoutName)) :=
  seen_run (List.nodup_singleton _)

theorem allowed_answered_shop : ∃ before presented, before <+: shopServed ∧
    presented = generateSecret (Vector.replicate 32 0) ∧
    (run ⟨60, 5, id⟩ before).registry.state.resolve ⟨60, 5, id⟩ true presented =
      some ⟨"acme", "shop", "live", "c1"⟩ := by
  have hallowed : (run ⟨60, 5, id⟩ shopServed).requests 0 = some
      (.allowed (generateSecret (Vector.replicate 32 0)) 0 ⟨"acme", "shop", "live", "c1"⟩) := by
    rfl
  exact allowed_answered hallowed

end Serving

end Resolve

end Governance
