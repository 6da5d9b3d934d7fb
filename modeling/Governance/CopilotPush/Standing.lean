import Governance.CopilotPush.Rotation

/-!
# What a durable moment says

The log of a run is read from left to right: what the collector accepts is fresh until the next
store makes it firm, and a kill before that store undoes it (`standing`). A moment is `Exact` when
its checkpoint has passed everything firm, its total is that of its ledger, and its ledger has each
line at most once and only below the shared offset. It is `Rested` when its checkpoint has passed
what is fresh too, so that a sweep may start from it.
-/

namespace Governance

open Utf8Text ByteLines

namespace Push

/-! ## What stands -/

/-- A line that the collector has accepted for a signal, in a file of some generation. -/
abbrev Acceptance := ℕ × Signal × Line

/-- What was accepted and is not undone: since the last store, and before it. -/
structure Standing where
  fresh : List Acceptance
  firm : List Acceptance

namespace Standing

def step (st : Standing) : PushEvent → Standing
  | .posted generation signal lines .accepted =>
    { st with fresh := st.fresh ++ lines.map fun line => (generation, signal, line) }
  | .posted _ _ _ _ => st
  | .stored _ _ => ⟨[], st.firm ++ st.fresh⟩
  | .killed => ⟨[], st.firm⟩

def held (st : Standing) : List Acceptance := st.firm ++ st.fresh

end Standing

/-- What stands at the end of a log. -/
def standing (log : List PushEvent) : Standing := log.foldl Standing.step ⟨[], []⟩

theorem standing_concat (log : List PushEvent) (event : PushEvent) :
    standing (log ++ [event]) = (standing log).step event := List.foldl_concat ..

theorem held_stored (log : List PushEvent) (generation : ℕ) (c : Checkpoint) :
    (standing (log ++ [PushEvent.stored generation c])).held = (standing log).held := by
  rw [standing_concat]
  exact List.append_nil _

theorem firm_stored (log : List PushEvent) (generation : ℕ) (c : Checkpoint) :
    (standing (log ++ [PushEvent.stored generation c])).firm = (standing log).held := by
  rw [standing_concat]
  rfl

theorem held_killed (log : List PushEvent) :
    (standing (log ++ [PushEvent.killed])).held = (standing log).firm := by
  rw [standing_concat]
  exact List.append_nil _

theorem firm_killed (log : List PushEvent) :
    (standing (log ++ [PushEvent.killed])).firm = (standing log).firm := by
  rw [standing_concat]
  rfl

theorem firm_posted (log : List PushEvent) (generation : ℕ) (signal : Signal) (lines : List Line)
    (answer : Answer) :
    (standing (log ++ [PushEvent.posted generation signal lines answer])).firm =
      (standing log).firm := by
  rw [standing_concat]
  cases answer <;> rfl

theorem mem_held_posted {log : List PushEvent} {generation : ℕ} {signal : Signal}
    {lines : List Line} {answer : Answer} {x : Acceptance}
    (h : x ∈ (standing (log ++ [PushEvent.posted generation signal lines answer])).held) :
    x ∈ (standing log).held ∨
      answer = .accepted ∧ ∃ line ∈ lines, x = (generation, signal, line) := by
  rw [standing_concat] at h
  cases answer with
  | accepted =>
    rw [Standing.step, Standing.held, ← List.append_assoc, List.mem_append] at h
    obtain h | h := h
    · exact .inl h
    · obtain ⟨line, hline, rfl⟩ := List.mem_map.mp h
      exact .inr ⟨rfl, line, hline, rfl⟩
  | refused => exact .inl h
  | error => exact .inl h

/-- Nothing that stands is offered again. -/
def OfferedOnce (log : List PushEvent) : Prop :=
  ∀ before generation signal lines answer after,
    log = before ++ PushEvent.posted generation signal lines answer :: after →
    ∀ line ∈ lines, (generation, signal, line) ∉ (standing before).held

theorem offeredOnce_nil : OfferedOnce [] := by
  intro before generation signal lines answer after hlog
  exact absurd hlog.symm (by simp)

theorem OfferedOnce.concat {log : List PushEvent} (h : OfferedOnce log) {event : PushEvent}
    (hnew : ∀ generation signal lines answer, event = .posted generation signal lines answer →
      ∀ line ∈ lines, (generation, signal, line) ∉ (standing log).held) :
    OfferedOnce (log ++ [event]) := by
  intro before generation signal lines answer after hlog
  obtain rfl | ⟨after', last, rfl⟩ := List.eq_nil_or_concat after
  · obtain ⟨rfl, hevent⟩ := List.append_inj' hlog rfl
    exact hnew generation signal lines answer (List.singleton_inj.mp hevent)
  · rw [List.concat_eq_append, ← List.cons_append, ← List.append_assoc] at hlog
    exact h before generation signal lines answer after' (List.append_inj' hlog rfl).1

/-- The events have a kill, and no store before it. -/
def CutShort (events : List PushEvent) : Prop :=
  ∃ before after, events = before ++ PushEvent.killed :: after ∧
    ∀ generation c, PushEvent.stored generation c ∉ before

theorem CutShort.cons {events : List PushEvent} (h : CutShort events) {event : PushEvent}
    (hevent : ∀ generation c, event ≠ .stored generation c) : CutShort (event :: events) := by
  obtain ⟨before, after, rfl, hbefore⟩ := h
  refine ⟨event :: before, after, rfl, ?_⟩
  intro generation c hmem
  obtain heq | hmem := List.mem_cons.mp hmem
  · exact hevent generation c heq.symm
  · exact hbefore generation c hmem

/-- What is firm stays firm. -/
theorem Standing.firm_subset (events : List PushEvent) (st : Standing) :
    st.firm ⊆ (events.foldl Standing.step st).firm := by
  induction events generalizing st with
  | nil => exact List.Subset.refl _
  | cons event events ih =>
    refine List.Subset.trans ?_ (ih (st.step event))
    cases event with
    | posted generation signal lines answer => cases answer <;> exact List.Subset.refl _
    | stored => exact List.subset_append_left _ _
    | killed => exact List.Subset.refl _

/-- What is fresh stands until a kill, unless there is a store before it. -/
theorem Standing.held_of_fresh {x : Acceptance} (events : List PushEvent) {st : Standing}
    (hx : x ∈ st.fresh) : CutShort events ∨ x ∈ (events.foldl Standing.step st).held := by
  induction events generalizing st with
  | nil => exact .inr (List.mem_append_right _ hx)
  | cons event events ih =>
    cases event with
    | posted generation signal lines answer =>
      have hfresh : x ∈ (st.step (.posted generation signal lines answer)).fresh := by
        cases answer with
        | accepted => exact List.mem_append_left _ hx
        | refused => exact hx
        | error => exact hx
      have hevent : ∀ generation' c,
          PushEvent.posted generation signal lines answer ≠ .stored generation' c := by
        intro generation' c heq
        cases heq
      exact (ih hfresh).imp_left fun hcut => hcut.cons hevent
    | stored generation c =>
      have hfirm : x ∈ (st.step (.stored generation c)).firm := List.mem_append_right _ hx
      exact .inr (List.mem_append_left _ (firm_subset events _ hfirm))
    | killed => exact .inl ⟨[], events, rfl, fun _ _ => List.not_mem_nil⟩

/-- A line that was accepted is offered again only if a kill came between the acceptance and the
next store. -/
theorem OfferedOnce.cutShort {log : List PushEvent} (h : OfferedOnce log)
    {before between after : List PushEvent} {generation : ℕ} {signal : Signal}
    {lines lines' : List Line} {answer : Answer}
    (hlog : log = before ++ PushEvent.posted generation signal lines .accepted :: between ++
      PushEvent.posted generation signal lines' answer :: after)
    {line : Line} (hline : line ∈ lines) (hline' : line ∈ lines') : CutShort between := by
  have hnot := h _ generation signal lines' answer after hlog line hline'
  rw [standing, List.foldl_append, List.foldl_cons] at hnot
  have hfresh : (generation, signal, line) ∈ ((before.foldl Standing.step ⟨[], []⟩).step
      (.posted generation signal lines .accepted)).fresh :=
    List.mem_append_right _ (List.mem_map_of_mem hline)
  exact (Standing.held_of_fresh between hfresh).resolve_right hnot

/-! ## Moments -/

/-- What an entry of the ledger adds to `discarded_total`. -/
def Counted.weight (lost : Text → ℕ) : Counted → ℕ
  | .gaveUp _ _ _ => 1
  | .untranslated _ line => lost line.text

/-- What a ledger adds up to. -/
def countedTotal (lost : Text → ℕ) (ledger : List Counted) : ℕ :=
  (ledger.map (Counted.weight lost)).sum

theorem countedTotal_append (lost : Text → ℕ) (ledger ledger' : List Counted) :
    countedTotal lost (ledger ++ ledger') =
      countedTotal lost ledger + countedTotal lost ledger' := by
  rw [countedTotal, List.map_append, List.sum_append]
  rfl

theorem countedTotal_untranslated (lost : Text → ℕ) (generation : ℕ) (lines : List Line) :
    countedTotal lost (lines.map fun line => .untranslated generation line) =
      Machine.lossOf lost lines := by
  rw [countedTotal, List.map_map]
  rfl

namespace Moment

/-- `checkpoint::load`. -/
def checkpoint (moment : Moment) : Checkpoint := moment.disk.checkpoint.getD .default

/-- The checkpoint has passed the line, or is one of a later file. -/
def Passed (moment : Moment) (x : Acceptance) : Prop :=
  x.1 < moment.disk.measured ∨
    x.1 = moment.disk.measured ∧ x.2.2.offset < moment.checkpoint.signalOffset x.2.1

/-- A later file, or no offset that is smaller. -/
def Advanced (a b : Moment) : Prop :=
  a.disk.measured < b.disk.measured ∨ a.disk.measured = b.disk.measured ∧
    a.checkpoint.offset ≤ b.checkpoint.offset ∧
    ∀ signal, a.checkpoint.signalOffset signal ≤ b.checkpoint.signalOffset signal

theorem Advanced.refl (a : Moment) : Advanced a a := .inr ⟨rfl, le_rfl, fun _ => le_rfl⟩

theorem Advanced.trans {a b c : Moment} (h : Advanced a b) (h' : Advanced b c) : Advanced a c := by
  obtain hlt | ⟨heq, hoffset, hsignal⟩ := h
  · obtain hlt' | ⟨heq', -, -⟩ := h'
    · exact .inl (hlt.trans hlt')
    · exact .inl (heq' ▸ hlt)
  · obtain hlt' | ⟨heq', hoffset', hsignal'⟩ := h'
    · exact .inl (heq.trans_lt hlt')
    · exact .inr ⟨heq.trans heq', hoffset.trans hoffset',
        fun signal => (hsignal signal).trans (hsignal' signal)⟩

theorem Passed.mono {a b : Moment} {x : Acceptance} (h : a.Passed x) (hab : Advanced a b) :
    b.Passed x := by
  obtain hlt | ⟨heq, hoffset⟩ := h
  · obtain hlt' | ⟨heq', -, -⟩ := hab
    · exact .inl (hlt.trans hlt')
    · exact .inl (heq' ▸ hlt)
  · obtain hlt' | ⟨heq', -, hsignal⟩ := hab
    · exact .inl (heq.trans_lt hlt')
    · exact .inr ⟨heq.trans heq', hoffset.trans_le (hsignal _)⟩

end Moment

/-- A moment that counts right. -/
structure Exact (lost : Text → ℕ) (moment : Moment) : Prop where
  total : moment.checkpoint.discardedTotal = countedTotal lost moment.disk.ledger
  once : ∀ generation line, moment.disk.ledger.count (.untranslated generation line) ≤ 1
  counted : ∀ generation line, .untranslated generation line ∈ moment.disk.ledger →
    generation < moment.disk.measured ∨
      generation = moment.disk.measured ∧ line.offset < moment.checkpoint.offset
  firm : ∀ x ∈ (standing moment.log).firm, moment.Passed x
  offered : OfferedOnce moment.log

/-- A moment from which a sweep may start. -/
structure Rested (lost : Text → ℕ) (moment : Moment) : Prop extends Exact lost moment where
  held : ∀ x ∈ (standing moment.log).held, moment.Passed x

/-- A request changes nothing on disk. -/
theorem Exact.posted {lost : Text → ℕ} {moment : Moment} (h : Exact lost moment) {generation : ℕ}
    {signal : Signal} {lines : List Line} (answer : Answer)
    (hnew : ∀ line ∈ lines, (generation, signal, line) ∉ (standing moment.log).held) :
    Exact lost ⟨moment.disk, moment.log ++ [PushEvent.posted generation signal lines answer]⟩ := by
  refine ⟨h.total, h.once, h.counted, ?_, h.offered.concat ?_⟩
  · rw [firm_posted]
    exact h.firm
  · intro generation' signal' lines' answer' hevent
    cases hevent
    exact hnew

/-- A kill undoes what is fresh. -/
theorem Exact.killed {lost : Text → ℕ} {moment : Moment} (h : Exact lost moment) :
    Rested lost ⟨moment.disk, moment.log ++ [PushEvent.killed]⟩ := by
  refine ⟨⟨h.total, h.once, h.counted, ?_, h.offered.concat nofun⟩, ?_⟩
  · rw [firm_killed]
    exact h.firm
  · rw [held_killed]
    exact h.firm

end Push

end Governance
