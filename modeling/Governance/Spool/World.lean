import Governance.Spool.Steps

/-!
# The spool and its users

The daemon's clients retain records, a timer compacts, and one consumer reads a record with
`next`, keeps it while it talks to the collector, and then settles it: `advance` when the
collector took it, or, when the collector refused it for good, `discard_confirmed` with a
later record that it found with `peek_next` and the collector took. Every call holds the
lock, so a run is a list of calls in any order (`Act`).

A `World` adds to the spool what the users know: the records retained so far, the numbers of
those delivered and given up, and the records the consumer holds. The spool file holds the
last records retained, so a place in it has a number (`numberAt`).
-/

namespace Governance

open Utf8Text ByteLines

/-- The spool, what was retained in it, and what its consumer has done and holds. `held` is
the record of the last `next` and, behind it, those `peek_next` found since. -/
structure World where
  spool : DurableSpool
  retained : List Record
  delivered : List ℕ
  discarded : List ℕ
  held : List (Pending × Option ℕ)

/-- One call. -/
inductive Act where
  | retain (r : Record)
  | compact
  | next (now : ℕ)
  | advance (now : ℕ)
  | recordRefusal (now : ℕ)
  | peekNext
  | discardConfirmed (now : ℕ)

/-- The bytes of the spool file. -/
def DurableSpool.fileBytes (s : DurableSpool) : Bytes := (s.disk.spool.map SpoolFile.bytes).getD []

namespace World

/-- A spool that has never been used. -/
def init : World := ⟨.openAt ⟨none, none⟩, [], [], [], []⟩

/-- How many of the records retained are no longer in the file. -/
def dropped (w : World) : ℕ := w.retained.length - w.spool.fileBytes.count lineFeed

/-- The number of the record whose line starts at an offset. -/
def numberAt (w : World) (offset : ℕ) : Option ℕ :=
  if offset = 0 ∨ w.spool.fileBytes[offset - 1]? = some lineFeed then
    some (w.dropped + (w.spool.fileBytes.take offset).count lineFeed)
  else none

variable (env : SpoolEnv)

/-- What a call does. Without a record in hand, the consumer's calls do nothing. -/
def step (w : World) : Act → World
  | .retain r =>
    match w.spool.retain env r with
    | (.ok (), s) => { w with spool := s, retained := w.retained ++ [r] }
    | (.error _, s) => { w with spool := s }
  | .compact => { w with spool := (w.spool.compactIfStuck env).2 }
  | .next now =>
    match w.spool.next env now with
    | (.ok (some p), s) =>
      let w' := { w with spool := s }
      { w' with held := [(p, w'.numberAt s.checkpoint.offset)] }
    | (_, s) => { w with spool := s, held := [] }
  | .advance now =>
    match w.held with
    | [] => w
    | (p, i) :: _ =>
      { w with spool := w.spool.advance p now, delivered := w.delivered ++ i.toList, held := [] }
  | .recordRefusal now =>
    match w.held with
    | [] => w
    | (p, _) :: _ => { w with spool := (w.spool.recordRefusal p now).2 }
  | .peekNext =>
    match w.held.getLast? with
    | none => w
    | some (p, _) =>
      match w.spool.peekNext env p with
      | .ok (some q) => { w with held := w.held ++ [(q, w.numberAt p.boundary)] }
      | _ => w
  | .discardConfirmed now =>
    match w.held, w.held.getLast? with
    | (stuck, _) :: _ :: _, some (probe, i) =>
      -- every record held is given up, except the last: that is the one accepted
      { w with
        spool := w.spool.discardConfirmed stuck (w.held.length - 1) probe now
        delivered := w.delivered ++ i.toList
        discarded := w.discarded ++ w.held.dropLast.filterMap Prod.snd
        held := [] }
    | _, _ => w

/-- A run of calls. -/
def run : World → List Act → World
  | w, [] => w
  | w, act :: rest => run (w.step env act) rest

/-- Without a second record in hand, `discard_confirmed` is not called. -/
theorem step_discardConfirmed (w : World) (now : ℕ) : w.step env (.discardConfirmed now) = w ∨
    ∃ q probe i, w.held[w.held.length - 1]? = some (probe, i) ∧ 2 ≤ w.held.length ∧
      w.step env (.discardConfirmed now) =
        ⟨{ w.spool with checkpoint := { w.spool.checkpoint with quarantine := q } }.commitPast
          probe.boundary (w.held.length - 1) now, w.retained, w.delivered ++ i.toList,
          w.discarded ++ w.held.dropLast.filterMap Prod.snd, []⟩ := by
  simp only [step]
  split
  · next stuck i₀ second rest probe i hheld hlast =>
    refine .inr ⟨_, probe, i, by rw [← List.getLast?_eq_getElem?]; exact hlast, ?_, rfl⟩
    rw [hheld, List.length_cons, List.length_cons]
    omega
  · exact .inl rfl

theorem run_append (w : World) (as bs : List Act) :
    run env w (as ++ bs) = run env (run env w as) bs := by
  induction as generalizing w with
  | nil => rfl
  | cons a as ih => exact ih _

end World

/-! ## The trail only grows -/

namespace DurableSpool

variable (env : SpoolEnv) (s : DurableSpool)

theorem trail_persist (d : Disk) : s.trail <+: (s.persist d).trail := List.prefix_append _ _

theorem trail_tryReclaim : s.trail <+: s.tryReclaim.trail := by
  simp only [tryReclaim]
  split
  · exact List.prefix_refl _
  · split
    · exact List.prefix_refl _
    · split
      · exact List.prefix_refl _
      · exact (s.trail_persist _).trans (trail_persist _ _)

theorem trail_commitPast (boundary lost now : ℕ) :
    s.trail <+: (s.commitPast boundary lost now).trail :=
  (trail_persist { s with checkpoint := s.committed boundary lost now } _).trans
    (trail_tryReclaim _)

theorem trail_retain (r : Record) : s.trail <+: (s.retain env r).2.trail := by
  simp only [retain]
  split
  · exact List.prefix_refl _
  · exact s.trail_persist _

theorem trail_compactIfStuck : s.trail <+: (s.compactIfStuck env).2.trail := by
  obtain hsame | ⟨f, -, -, -, hnew⟩ := compact_spec env s
  · rw [hsame]
  · rw [hnew]
    exact (s.trail_persist _).trans (trail_persist _ _)

theorem trail_nextLoop (now fuel : ℕ) : s.trail <+: (s.nextLoop env now fuel).2.trail := by
  induction fuel generalizing s with
  | zero => exact List.prefix_refl _
  | succ fuel ih =>
    rw [nextLoop]
    split
    · exact List.prefix_refl _
    · simp only
      split
      · exact List.prefix_refl _
      · refine List.IsPrefix.trans ?_ (ih _)
        exact List.prefix_refl _
      · -- an undecodable line is committed past
        refine List.IsPrefix.trans (List.IsPrefix.trans ?_ (trail_commitPast _ _ _ _)) (ih _)
        exact List.prefix_refl _
      · exact List.prefix_refl _

end DurableSpool

/-- No call takes a disk off the trail. -/
theorem World.trail_step (env : SpoolEnv) (w : World) (act : Act) :
    w.spool.trail <+: (w.step env act).spool.trail := by
  cases act with
  | retain r =>
    have h := w.spool.trail_retain env r
    simp only [World.step]
    split <;> next heq => rwa [heq] at h
  | compact => exact w.spool.trail_compactIfStuck env
  | next now =>
    have h := DurableSpool.trail_nextLoop env (w.spool.pruned now) now (w.spool.fileSize + 3)
    have hnext : w.spool.trail <+: (w.spool.next env now).2.trail := h
    simp only [World.step]
    split <;> next heq => rwa [heq] at hnext
  | advance now =>
    simp only [World.step]
    split
    · exact List.prefix_refl _
    · exact DurableSpool.trail_commitPast _ _ _ _
  | recordRefusal now =>
    simp only [World.step]
    split
    · exact List.prefix_refl _
    · exact DurableSpool.trail_persist { w.spool with checkpoint := _ } _
  | peekNext =>
    simp only [World.step]
    split
    · exact List.prefix_refl _
    · split <;> exact List.prefix_refl _
  | discardConfirmed now =>
    obtain hsame | ⟨q, probe, i, -, -, hstep⟩ := step_discardConfirmed env w now
    · rw [hsame]
    · rw [hstep]
      refine List.IsPrefix.trans ?_ (DurableSpool.trail_commitPast _ _ _ _)
      exact List.prefix_refl _

theorem World.trail_run (env : SpoolEnv) (w : World) (acts : List Act) :
    w.spool.trail <+: (w.run env acts).spool.trail := by
  induction acts generalizing w with
  | nil => exact List.prefix_refl _
  | cons act rest ih => exact (w.trail_step env act).trans (ih _)

/-- Where the next call of `next` goes on reading. -/
def DurableSpool.resumePosition (env : SpoolEnv) (s : DurableSpool) : ℕ :=
  match s.disk.spool with
  | none => 0
  | some f =>
    if (Identity.restart env.digest s.checkpoint.spool f s.checkpoint.offset).isSome then 0
    else s.checkpoint.offset

namespace World

variable {env : SpoolEnv} {w : World} {k j : ℕ}

/-- The file holds the records from number `k` on exactly if `k` were dropped. -/
theorem dropped_eq (hle : k ≤ w.retained.length)
    (hfile : FileHolds w.spool.disk.spool (w.retained.drop k)) : w.dropped = k := by
  have hcount : w.spool.fileBytes.count lineFeed = w.retained.length - k := by
    rw [DurableSpool.fileBytes, ← hfile, count_lineFeed, List.length_drop]
  rw [dropped, hcount]
  omega

/-- The end of a record is the start of the next line. -/
theorem numberAt_endOf (hle : k ≤ w.retained.length)
    (hfile : FileHolds w.spool.disk.spool (w.retained.drop k)) (j : ℕ)
    (hj : j ≤ (w.retained.drop k).length) :
    w.numberAt (endOf ((w.retained.drop k).take j)) = some (k + j) := by
  have hbytes : w.spool.fileBytes = recordBytes (w.retained.drop k) := hfile.symm
  have hcount : ((recordBytes (w.retained.drop k)).take
      (endOf ((w.retained.drop k).take j))).count lineFeed = j := by
    rw [take_recordBytes, count_lineFeed, List.length_take, min_eq_left hj]
  rw [numberAt, dropped_eq hle hfile, hbytes, hcount, if_pos (getElem?_endOf _ j)]

end World

end Governance
