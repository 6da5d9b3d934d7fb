import Governance.Spool.Concurrency
import Governance.Otel.Drain
import Governance.Lib.Runs

/-!
# The pump

`otel_daemon/drain/mod.rs`: the loop around the drain. A pass settles at most
`DRAIN_BUDGET_PER_PASS` records; a pass that uses the whole budget is followed by the next one, an
idle one by a wait for a wake-up or the timer, and a stopped one by a wait for the timer alone.

The clients' handlers append a record and then call `notify_one`, and other calls of the spool come
between the two. `Notify` keeps one permit, so a wake-up that comes before the wait is not lost.
What the pump asks of the spool are calls of a `World`.
-/

namespace Governance

open Utf8Text ByteLines

/-- `DRAIN_BUDGET_PER_PASS`. -/
def drainBudgetPerPass : ℕ := 32

/-- `DurableSpool::is_caught_up`. -/
def DurableSpool.isCaughtUp (env : SpoolEnv) (s : DurableSpool) : Except SpoolError Bool :=
  match s.peekAt env s.checkpoint.offset with
  | .error err => .error err
  | .ok (.empty, _) => .ok true
  | .ok _ => .ok false

/-- Where the pump stands: at the check of `drain_retained`, in `advance_one` and what it calls, or
in one of the two waits. -/
inductive PumpStage where
  | checking
  | asking
  | posting
  | settling
  | refusing
  | minting
  | walking (tried : ℕ)
  | probing (tried : ℕ)
  | discarding
  | waiting
  | backoff
  deriving DecidableEq

/-- The spool and its users, the pump, the records left in its pass, the permit of `drain_wake`, and
the handlers that have appended a record and not yet called `notify_one`. -/
structure Pump where
  world : World
  stage : PumpStage
  left : ℕ
  permit : Bool
  landed : ℕ

/-- What happens next. A step of the pump is given the clock and the answer it gets, if it asks for
one; a mint that fails is an answer that says nothing. -/
inductive PumpEvent where
  | retain (r : Record)
  | notify
  | compact
  | step (now : ℕ) (outcome : ProbeOutcome)
  | wake
  | tick

namespace Pump

variable (env : SpoolEnv)

/-- A daemon that has just opened its spool. -/
def start (w : World) : Pump := ⟨w, .checking, drainBudgetPerPass, false, 0⟩

/-- The call of the spool that an event makes. -/
def call (p : Pump) : PumpEvent → Option Act
  | .retain r => some (.retain r)
  | .compact => some .compact
  | .step now _ =>
    match p.stage with
    | .asking => some (.next now)
    | .settling => some (.advance now)
    | .refusing => some (.recordRefusal now)
    | .walking tried => if tried = maxLookahead then none else some .peekNext
    | .discarding => some (.discardConfirmed now)
    | _ => none
  | _ => none

/-- The record behind those the walk has tried. -/
def probeFor (w : World) : Option Pending :=
  match w.held.getLast? with
  | none => none
  | some (p, _) =>
    match w.spool.peekNext env p with
    | .ok probe => probe
    | .error _ => none

/-- Whether the refusal that is about to be recorded makes the record eligible. -/
def becomesEligible (w : World) (now : ℕ) : Bool :=
  match w.held with
  | [] => false
  | (p, _) :: _ => (w.spool.recordRefusal p now).1

/-- The stage behind a step of the pump. -/
def nextStage (p : Pump) (now : ℕ) (outcome : ProbeOutcome) : PumpStage :=
  match p.stage with
  | .checking =>
    -- `Pass::BudgetExhausted` goes on at once
    if p.left = 0 then .checking
    else match p.world.spool.isCaughtUp env with
      | .ok true => .waiting
      | .ok false => .asking
      | .error _ => .backoff
  | .asking =>
    match (p.world.spool.next env now).1 with
    | .ok (some _) => .posting
    | .ok none => .waiting
    | .error _ => .backoff
  | .posting =>
    match outcome with
    | .accepted => .settling
    | .refused => .refusing
    | .unknown => .backoff
  | .settling => .checking
  | .refusing => if becomesEligible p.world now then .minting else .backoff
  | .minting => if outcome = .unknown then .backoff else .walking 0
  | .walking tried =>
    if tried = maxLookahead then .backoff
    else match probeFor env p.world with
      | some _ => .probing tried
      | none => .backoff
  | .probing tried =>
    match outcome with
    | .accepted => .discarding
    | .refused => .walking (tried + 1)
    | .unknown => .backoff
  | .discarding => .checking
  | .waiting => .waiting
  | .backoff => .backoff

/-- The records left in the pass behind a step of the pump. -/
def nextLeft (p : Pump) : ℕ :=
  match p.stage with
  | .checking => if p.left = 0 then drainBudgetPerPass else p.left
  | .settling | .discarding => p.left - 1
  | _ => p.left

/-- One event. A tick or a wake-up ends a wait, and a new pass begins. -/
def event (p : Pump) (e : PumpEvent) : Pump :=
  let world := (p.call e).elim p.world (p.world.step env)
  match e with
  | .retain r =>
    match (p.world.spool.retain env r).1 with
    | .ok () => { p with world := world, landed := p.landed + 1 }
    | .error _ => { p with world := world }
  | .notify => if p.landed = 0 then p else { p with landed := p.landed - 1, permit := true }
  | .compact => { p with world := world }
  | .step now outcome =>
    { p with world := world, stage := p.nextStage env now outcome, left := p.nextLeft }
  | .wake =>
    if p.stage = .waiting ∧ p.permit = true then
      { p with stage := .checking, left := drainBudgetPerPass, permit := false }
    else p
  | .tick =>
    if p.stage = .waiting ∨ p.stage = .backoff then
      { p with stage := .checking, left := drainBudgetPerPass }
    else p

/-- A run. -/
def run (p : Pump) (events : List PumpEvent) : Pump := events.foldl (event env) p

/-- Every call of the event is a safe one. -/
def SafeEvent (p : Pump) (e : PumpEvent) : Prop := ∀ a, p.call e = some a → p.world.Safe env a

/-! ## Nothing waits behind an idle pump -/

/-- Every record retained was delivered or given up. -/
def Settled (w : World) : Prop := ∀ i < w.retained.length, i ∈ w.delivered ∨ i ∈ w.discarded

variable {env} {p : Pump} {w : World} {k j : ℕ}

/-- Only a record that lands can make more to settle. -/
theorem Settled.step (h : Settled w) {a : Act} (ha : ∀ r, a ≠ .retain r) :
    Settled (w.step env a) := by
  cases a with
  | retain r => exact absurd rfl (ha r)
  | compact => exact h
  | next now =>
    simp only [World.step]
    split
    · exact h
    · exact h
  | advance now =>
    simp only [World.step]
    split
    · exact h
    · intro i hi
      exact (h i hi).imp_left (List.mem_append_left _)
  | recordRefusal now =>
    simp only [World.step]
    split
    · exact h
    · exact h
  | peekNext =>
    simp only [World.step]
    split
    · exact h
    · split
      · exact h
      · exact h
  | discardConfirmed now =>
    simp only [World.step]
    split
    · intro i hi
      exact (h i hi).imp (List.mem_append_left _) (List.mem_append_left _)
    · exact h

/-- A consumer that stands at the end of the file has settled everything. -/
theorem settled_of_drop_nil (h : World.InvAt env w k j)
    (hnil : (w.retained.drop k).drop j = []) : Settled w := by
  intro i hi
  refine h.resolved i ?_
  have hle := List.drop_eq_nil_iff.mp hnil
  rw [List.length_drop] at hle
  omega

/-- `is_caught_up` answers `true` only when the next read would start behind the last record, and
it answers unless the record there is too large for the reader. -/
theorem isCaughtUp_spec (hcodec : env.codec.Lawful) (h : World.InvAt env w k j)
    (hdist : Distinct env.digest w.spool.trail) :
    (w.spool.isCaughtUp env = .ok true ∧ (w.retained.drop k).drop j = []) ∨
      w.spool.isCaughtUp env = .ok false ∨
      ∃ r rest err, (w.retained.drop k).drop j = r :: rest ∧ r.fits = false ∧
        w.spool.isCaughtUp env = .error err := by
  unfold DurableSpool.isCaughtUp
  have hresume := h.sound.resume
  cases hresume with
  | measured hj hoffset hnames =>
    rw [hoffset]
    obtain ⟨hnil, hpeek⟩ | ⟨r, rest, hcons, ⟨hfits, hpeek⟩ | ⟨-, q, -, -, hpeek⟩⟩ :=
      peekAt_spec hcodec h.sound.file hnames hj
    · exact .inl ⟨by rw [hpeek], hnil⟩
    · exact .inr (.inr ⟨r, rest, _, hcons, hfits, by rw [hpeek]⟩)
    · exact .inr (.inl (by rw [hpeek]))
  | former hformer =>
    -- a replaced file is read again from its start
    obtain ⟨f, I, hf, hI, hsame⟩ := hformer.not_same h.sound.mem hdist
    obtain ⟨r, rest, hcons, hfits, hpeek⟩ | ⟨-, hpeek⟩ :=
      peekAt_restarts h.sound.file hf hI hsame w.spool.checkpoint.offset
    · exact .inr (.inr ⟨r, rest, _, hcons, hfits, by rw [hpeek]⟩)
    · exact .inr (.inl (by rw [hpeek]))

theorem settled_of_isCaughtUp (hcodec : env.codec.Lawful) (h : World.InvAt env w k j)
    (hdist : Distinct env.digest w.spool.trail) (hup : w.spool.isCaughtUp env = .ok true) :
    Settled w := by
  obtain ⟨-, hnil⟩ | hup' | ⟨r, rest, err, -, -, hup'⟩ := isCaughtUp_spec hcodec h hdist
  · exact settled_of_drop_nil h hnil
  · rw [hup'] at hup
    cases hup
  · rw [hup'] at hup
    cases hup

/-- `next` finds nothing only at the end of the file. -/
theorem settled_of_next_none (hcodec : env.codec.Lawful) (h : World.InvAt env w k j)
    (hdist : Distinct env.digest w.spool.trail) {now : ℕ}
    (hnext : (w.spool.next env now).1 = .ok none) : Settled w := by
  obtain ⟨r, rest, err, -, -, heq⟩ | ⟨c, -, -, -, -, ⟨hnil, -⟩ | ⟨r, rest, q, -, -, -, -, heq⟩⟩ :=
    DurableSpool.next_spec hcodec h.sound.file h.sound.resume h.sound.mem hdist now
  · rw [heq] at hnext
    cases hnext
  · exact settled_of_drop_nil h hnil
  · rw [heq] at hnext
    cases hnext

/-- While the pump waits for a wake-up that nobody owes it, everything is settled. -/
def Quiet (p : Pump) : Prop :=
  p.stage = .waiting → p.permit = false → p.landed = 0 → Settled p.world

/-- The invariant of a run. -/
structure Inv (env : SpoolEnv) (p : Pump) : Prop where
  world : World.Inv env p.world
  quiet : Quiet p

theorem world_event (p : Pump) (e : PumpEvent) :
    (p.event env e).world = (p.call e).elim p.world (p.world.step env) := by
  cases e with
  | retain r =>
    simp only [event]
    split <;> dsimp only
  | notify =>
    simp only [event]
    split <;> rfl
  | compact => rfl
  | step now outcome => rfl
  | wake =>
    simp only [event]
    split <;> rfl
  | tick =>
    simp only [event]
    split <;> rfl

theorem world_inv_event (hcodec : env.codec.Lawful) (h : World.Inv env p.world) {e : PumpEvent}
    (hdist : Distinct env.digest p.world.spool.trail) (hsafe : SafeEvent env p e) :
    World.Inv env (p.event env e).world := by
  rw [world_event]
  cases hcall : p.call e with
  | none => exact h
  | some a => exact World.inv_step hcodec h hdist (hsafe a hcall)

theorem settled_retain_error (h : Settled w) {r : Record} {err : SpoolError}
    (herr : (w.spool.retain env r).1 = .error err) : Settled (w.step env (.retain r)) := by
  simp only [World.step]
  rcases hretain : w.spool.retain env r with ⟨_ | _, s⟩
  · exact h
  · rw [hretain] at herr
    cases herr

theorem Inv.quiet_step (hcodec : env.codec.Lawful) (h : Inv env p)
    (hdist : Distinct env.digest p.world.spool.trail) (now : ℕ) (outcome : ProbeOutcome) :
    Quiet (p.event env (.step now outcome)) := by
  intro hstage hpermit hlanded
  have hstage : p.nextStage env now outcome = .waiting := hstage
  obtain ⟨k, j, hworld⟩ := h.world
  rw [world_event]
  -- two stages lead to the wait: the check that finds nothing, and the read that finds nothing
  cases hat : p.stage with
  | checking =>
    simp only [nextStage, hat] at hstage
    simp only [call, hat]
    split at hstage
    · cases hstage
    · split at hstage
      · next hup => exact settled_of_isCaughtUp hcodec hworld hdist hup
      · cases hstage
      · cases hstage
  | asking =>
    simp only [nextStage, hat] at hstage
    simp only [call, hat]
    split at hstage
    · cases hstage
    · next hnext =>
      have hsettled := settled_of_next_none hcodec hworld hdist hnext
      exact hsettled.step (a := .next now) fun r hr => by cases hr
    · cases hstage
  | waiting =>
    simp only [call, hat]
    exact h.quiet hat hpermit hlanded
  | walking tried =>
    simp only [nextStage, hat] at hstage
    split at hstage
    · cases hstage
    · split at hstage <;> cases hstage
  | posting => simp only [nextStage, hat] at hstage; split at hstage <;> cases hstage
  | refusing => simp only [nextStage, hat] at hstage; split at hstage <;> cases hstage
  | minting => simp only [nextStage, hat] at hstage; split at hstage <;> cases hstage
  | probing tried => simp only [nextStage, hat] at hstage; split at hstage <;> cases hstage
  | settling => simp only [nextStage, hat] at hstage; cases hstage
  | discarding => simp only [nextStage, hat] at hstage; cases hstage
  | backoff => simp only [nextStage, hat] at hstage; cases hstage

theorem Inv.event (hcodec : env.codec.Lawful) (h : Inv env p) {e : PumpEvent}
    (hdist : Distinct env.digest p.world.spool.trail) (hsafe : SafeEvent env p e) :
    Inv env (p.event env e) := by
  refine ⟨world_inv_event hcodec h.world hdist hsafe, ?_⟩
  cases e with
  | retain r =>
    intro hstage hpermit hlanded
    cases hretain : (p.world.spool.retain env r).1 with
    | ok _ =>
      simp only [Pump.event, hretain] at hlanded
      cases hlanded
    | error err =>
      simp only [Pump.event, hretain] at hstage hpermit hlanded
      have hsettled := settled_retain_error (h.quiet hstage hpermit hlanded) hretain
      simp only [world_event, call, Option.elim_some]
      exact hsettled
  | notify =>
    intro hstage hpermit hlanded
    rw [world_event]
    simp only [Pump.event] at hstage hpermit hlanded
    split at hpermit
    · next hzero =>
      rw [if_pos hzero] at hstage
      exact h.quiet hstage hpermit hzero
    · cases hpermit
  | compact =>
    intro hstage hpermit hlanded
    rw [world_event]
    exact (h.quiet hstage hpermit hlanded).step (a := .compact) fun r hr => by cases hr
  | step now outcome => exact h.quiet_step hcodec hdist now outcome
  | wake =>
    simp only [Pump.event]
    split
    · intro hstage
      cases hstage
    · exact h.quiet
  | tick =>
    simp only [Pump.event]
    split
    · intro hstage
      cases hstage
    · exact h.quiet

theorem trail_event (p : Pump) (e : PumpEvent) :
    p.world.spool.trail <+: (p.event env e).world.spool.trail := by
  rw [world_event]
  cases p.call e with
  | none => exact List.prefix_refl _
  | some a => exact World.trail_step env p.world a

theorem trail_run (p : Pump) (events : List PumpEvent) :
    p.world.spool.trail <+: (p.run env events).world.spool.trail := by
  induction events generalizing p with
  | nil => exact List.prefix_refl _
  | cons e rest ih => exact (trail_event p e).trans (ih _)

theorem inv_run (hcodec : env.codec.Lawful) {events : List PumpEvent} (h : Inv env p)
    (hdist : Distinct env.digest (p.run env events).world.spool.trail)
    (hsafe : Runs.Always (Pump.event env) (SafeEvent env) p events) : Inv env (p.run env events) := by
  induction events generalizing p with
  | nil => exact h
  | cons e rest ih =>
    have hhere : Distinct env.digest p.world.spool.trail :=
      Distinct.of_isPrefix hdist (trail_run p (e :: rest))
    exact ih (h.event hcodec hhere hsafe.1) hdist hsafe.2

theorem inv_start (h : World.Inv env w) : Inv env (start w) := by
  refine ⟨h, ?_⟩
  intro hstage
  cases hstage

/-- No wake-up is lost. In every run of the handlers, the timers and the pump, whatever the collector
answers: while the pump waits, and no permit is there and no handler is between its append and its
`notify_one`, every record that was ever retained is delivered or given up. -/
theorem run_waits_settled (env : SpoolEnv) (hcodec : env.codec.Lawful) (w : World)
    (hw : World.Inv env w) (events : List PumpEvent)
    (hdist : Distinct env.digest ((start w).run env events).world.spool.trail)
    (hsafe : Runs.Always (Pump.event env) (SafeEvent env) (start w) events)
    (hwaiting : ((start w).run env events).stage = .waiting)
    (hpermit : ((start w).run env events).permit = false)
    (hlanded : ((start w).run env events).landed = 0) :
    ∀ i < ((start w).run env events).world.retained.length,
      i ∈ ((start w).run env events).world.delivered ∨
        i ∈ ((start w).run env events).world.discarded :=
  (inv_run hcodec (inv_start hw) hdist hsafe).quiet hwaiting hpermit hlanded

/-- A spool that stays below what is ever cut or emptied. -/
def Small (p : Pump) : Prop := p.world.spool.checkpoint.offset ≤ reclaimAbove ∧
  p.world.held.all (fun x => x.1.boundary ≤ reclaimAbove) = true

instance (p : Pump) : Decidable p.Small := inferInstanceAs (Decidable (_ ∧ _))

theorem safeEvent_of_small (h : p.Small) (e : PumpEvent) : SafeEvent env p e := by
  have hheld : ∀ x ∈ p.world.held, x.1.boundary ≤ reclaimAbove := by
    intro x hx
    exact of_decide_eq_true (List.all_eq_true.mp h.2 x hx)
  intro a _
  cases a with
  | advance now =>
    rintro q i rest hq ⟨habove, -⟩
    have hle : q.boundary ≤ reclaimAbove := hheld (q, i) (by rw [hq]; exact List.mem_cons_self)
    omega
  | discardConfirmed now =>
    rintro q i hq ⟨habove, -⟩
    have hle : q.boundary ≤ reclaimAbove := hheld (q, i) (List.mem_of_getLast? hq)
    omega
  | compact =>
    rintro ⟨habove, -⟩
    have := h.1
    omega
  | retain r => exact trivial
  | next now => exact trivial
  | recordRefusal now => exact trivial
  | peekNext => exact trivial

/-- A record that is settled before its handler wakes the pump, which then looks once more. -/
def lateWake : List PumpEvent :=
  [.retain ⟨.metrics, [10, 0], .protobuf⟩, .step 7 .accepted, .step 7 .accepted, .step 7 .accepted,
    .step 8 .accepted, .notify, .step 8 .accepted, .wake, .step 8 .accepted]

theorem run_waits_settled_lateWake :
    ((start .init).run numberedEnv lateWake).world.retained.length = 1 ∧
      ∀ i < ((start .init).run numberedEnv lateWake).world.retained.length,
        i ∈ ((start .init).run numberedEnv lateWake).world.delivered ∨
          i ∈ ((start .init).run numberedEnv lateWake).world.discarded := by
  -- one evaluation of the run
  obtain ⟨hgen, hsmall, hlength, hwaiting, hpermit, hlanded⟩ :
      ((start .init).run numberedEnv lateWake).world.spool.trail.all
        (fun d => d.spool.all fun f => f.generation = 0) = true ∧
      Runs.Always (event numberedEnv) (fun p _ => p.Small) (start .init) lateWake ∧
      ((start .init).run numberedEnv lateWake).world.retained.length = 1 ∧
      ((start .init).run numberedEnv lateWake).stage = .waiting ∧
      ((start .init).run numberedEnv lateWake).permit = false ∧
      ((start .init).run numberedEnv lateWake).landed = 0 := by
    decide +kernel
  refine ⟨hlength, ?_⟩
  exact run_waits_settled numberedEnv (EnvelopeCodec.lawful_printed _ _) .init
    (World.inv_init numberedEnv) lateWake (distinct_of_generation hgen)
    (hsmall.of_invariant (I := fun _ => True) trivial (fun _ _ _ _ => trivial)
      fun _ e _ h => safeEvent_of_small h e)
    hwaiting hpermit hlanded

/-! ## A healthy collector -/

/-- A spool with one record. -/
def oneRecord : World := World.init.step numberedEnv (.retain ⟨.metrics, [10, 0], .protobuf⟩)

end Pump

end Governance
