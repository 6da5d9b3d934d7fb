import Governance.Lib.Runs

/-!
# Rotating the log

`logging/rotate.rs` of `governance-auth`: a log file that others hold open is not renamed. Its
generations are shifted, it is copied to the newest of them, and then it is truncated in place,
so every open handle stays attached to it.

A rotation is one step of the file system after the other, and the writers append between any two
of them, the launchd job among them. A step can fail, and the process can be killed behind each.
`logs.lock` is taken as exclusive and free again after a kill. Nothing depends on what is written,
so a write is a list of any type.
-/

namespace Governance

namespace Logging

/-- `rotate::MAX_BYTES`. -/
def maxBytes : ℕ := 1024 * 1024

/-- `rotate::KEEP`. -/
def keepGenerations : ℕ := 3

/-- The files of the log directory: the live one, and those named by `generation`. A live file
that is missing is an empty one, since neither is oversized. -/
structure LogFiles (α : Type*) where
  live : List α
  generation : ℕ → Option (List α)

/-- Where the process that holds the lock stands in `rotate`. -/
inductive Stage where
  | shifting (index : ℕ)
  | copying (count : ℕ)
  | copied (count : ℕ)
  deriving DecidableEq

/-- The directory, the rotation under way, and everything that was ever written. -/
structure LogWorld (α : Type*) where
  files : LogFiles α
  rotation : Option Stage
  written : List α

/-- A write, or a step of `maybe_rotate`. `gaveUp` is an error of `fs::copy` or a kill. -/
inductive LogEvent (α : Type*) where
  | append (bytes : List α)
  | start
  | rename (succeeds : Bool)
  | create
  | copy (count : ℕ)
  | endOfFile
  | truncate (succeeds : Bool)
  | gaveUp

variable {α : Type*}

namespace LogFiles

/-- `fs::rename` of a generation to the next one. It fails when there is nothing to rename. -/
def rename (f : LogFiles α) (index : ℕ) : LogFiles α :=
  match f.generation index with
  | none => f
  | some xs =>
    let moved := Function.update f.generation index none
    { f with generation := Function.update moved (index + 1) (some xs) }

/-- What was copied so far becomes the newest generation. -/
def store (f : LogFiles α) (xs : List α) : LogFiles α :=
  { f with generation := Function.update f.generation 1 (some xs) }

end LogFiles

namespace LogWorld

/-- An empty directory. -/
def init : LogWorld α := ⟨⟨[], fun _ => none⟩, none, []⟩

variable (limit keep : ℕ)

/-- One event, with a limit in place of `maxBytes` and a number of generations. A step that is not
the next one of the rotation does nothing. -/
def step (w : LogWorld α) : LogEvent α → LogWorld α
  | .append bytes =>
    { w with files := { w.files with live := w.files.live ++ bytes }
             written := w.written ++ bytes }
  | .start =>
    -- a peer that is already rotating does the work
    if w.rotation = none ∧ limit < w.files.live.length then
      { w with rotation := some (.shifting (keep - 1)) }
    else w
  | .rename succeeds =>
    match w.rotation with
    | some (.shifting (index + 1)) =>
      { w with files := if succeeds then w.files.rename (index + 1) else w.files
               rotation := some (.shifting index) }
    | _ => w
  | .create =>
    match w.rotation with
    | some (.shifting 0) =>
      if keep = 0 then w else { w with files := w.files.store [], rotation := some (.copying 0) }
    | _ => w
  | .copy count =>
    match w.rotation with
    | some (.copying n) =>
      let n := min (n + count) w.files.live.length
      { w with files := w.files.store (w.files.live.take n), rotation := some (.copying n) }
    | _ => w
  | .endOfFile =>
    match w.rotation with
    | some (.copying n) =>
      if n = w.files.live.length then { w with rotation := some (.copied n) } else w
    | _ => w
  | .truncate succeeds =>
    match w.rotation with
    | some (.copied _) =>
      { w with files := if succeeds then { w.files with live := [] } else w.files
               rotation := none }
    | some (.shifting 0) =>
      if keep = 0 then
        { w with files := if succeeds then { w.files with live := [] } else w.files
                 rotation := none }
      else w
    | _ => w
  | .gaveUp => { w with rotation := none }

/-- A run. -/
def run (w : LogWorld α) (events : List (LogEvent α)) : LogWorld α :=
  events.foldl (step limit keep) w

/-! ## Nothing is reordered -/

/-- Each file is a piece of what was written, from a place on that no newer file begins before.
The live file is the last piece. -/
structure Pieces (w : LogWorld α) (begins : ℕ → ℕ) : Prop where
  antitone : Antitone begins
  live : w.files.live = w.written.drop (begins 0)
  le : begins 0 ≤ w.written.length
  generation : ∀ i xs, w.files.generation i = some xs → xs <+: w.written.drop (begins i)
  bound : ∀ i, i = 0 ∨ keep < i → w.files.generation i = none

/-- What the stage says of the generations: the shift stays within them, and the newest one is the
part of the live file that was copied. -/
structure AtStage (w : LogWorld α) (begins : ℕ → ℕ) : Prop where
  shifting : ∀ index, w.rotation = some (.shifting index) → index ≤ keep - 1
  copied : ∀ n, w.rotation = some (.copying n) ∨ w.rotation = some (.copied n) → 0 < keep ∧
    n ≤ w.files.live.length ∧ w.files.generation 1 = some (w.files.live.take n) ∧
      begins 1 = begins 0

/-- The files are in order. -/
def Ordered (w : LogWorld α) : Prop := ∃ begins, Pieces keep w begins ∧ AtStage keep w begins

variable {limit keep} {w : LogWorld α} {begins : ℕ → ℕ}

theorem ordered_init (keep : ℕ) : Ordered keep (init : LogWorld α) := by
  refine ⟨fun _ => 0, ⟨antitone_const, rfl, le_rfl, ?_, fun _ _ => rfl⟩, ?_, ?_⟩
  · intro i xs h
    cases h
  · intro index h
    cases h
  · rintro n (h | h) <;> cases h

theorem Pieces.append (h : Pieces keep w begins) (bytes : List α) :
    Pieces keep (w.step limit keep (.append bytes)) begins := by
  refine ⟨h.antitone, ?_, ?_, ?_, h.bound⟩
  · show w.files.live ++ bytes = (w.written ++ bytes).drop (begins 0)
    rw [List.drop_append_of_le_length h.le, h.live]
  · show begins 0 ≤ (w.written ++ bytes).length
    rw [List.length_append]
    exact h.le.trans (Nat.le_add_right _ _)
  · intro i xs hxs
    -- an older file begins at or before the live one, so the new bytes are behind it
    have hle : begins i ≤ w.written.length := (h.antitone (Nat.zero_le i)).trans h.le
    show xs <+: (w.written ++ bytes).drop (begins i)
    rw [List.drop_append_of_le_length hle]
    exact (h.generation i xs hxs).trans (List.prefix_append _ _)

theorem AtStage.append (h : AtStage keep w begins) (bytes : List α) :
    AtStage keep (w.step limit keep (.append bytes)) begins := by
  refine ⟨h.shifting, ?_⟩
  intro n hn
  obtain ⟨hkeep, hle, hnewest, hbegins⟩ := h.copied n hn
  refine ⟨hkeep, ?_, ?_, hbegins⟩
  · show n ≤ (w.files.live ++ bytes).length
    rw [List.length_append]
    exact hle.trans (Nat.le_add_right _ _)
  · show w.files.generation 1 = some ((w.files.live ++ bytes).take n)
    rw [List.take_append_of_le_length hle, hnewest]

/-- A generation that is renamed keeps its place in what was written. -/
theorem Pieces.rename (h : Pieces keep w begins) {index : ℕ} (hindex : index + 1 ≤ keep - 1)
    (rotation : Option Stage) :
    ∃ begins', Pieces keep ⟨w.files.rename (index + 1), rotation, w.written⟩ begins' := by
  cases hgen : w.files.generation (index + 1) with
  | none =>
    refine ⟨begins, ?_⟩
    simp only [LogFiles.rename, hgen]
    exact ⟨h.antitone, h.live, h.le, h.generation, h.bound⟩
  | some xs =>
    simp only [LogFiles.rename, hgen]
    refine ⟨Function.update begins (index + 2) (begins (index + 1)), ?_, ?_, ?_, ?_, ?_⟩
    · intro i j hij
      -- the generation that is overwritten began no later than the one that replaces it
      simp only [Function.update_apply]
      split
      · split
        · exact le_rfl
        · exact h.antitone (by omega)
      · split
        · exact h.antitone (by omega)
        · exact h.antitone hij
    · rw [Function.update_of_ne (by omega)]
      exact h.live
    · rw [Function.update_of_ne (by omega)]
      exact h.le
    · intro i ys hys
      simp only [Function.update_apply] at hys ⊢
      split at hys
      · next hi =>
        subst hi
        obtain rfl := Option.some.inj hys
        rw [if_pos rfl]
        exact h.generation _ _ hgen
      · next hi =>
        rw [if_neg hi]
        split at hys
        · cases hys
        · exact h.generation i ys hys
    · intro i hi
      simp only [Function.update_apply]
      rw [if_neg (by omega)]
      split
      · rfl
      · exact h.bound i hi

/-- The newest generation is a part of the live file. -/
theorem Pieces.store (h : Pieces keep w begins) (hkeep : 0 < keep) {xs : List α}
    (hxs : xs <+: w.files.live) (rotation : Option Stage) :
    Pieces keep ⟨w.files.store xs, rotation, w.written⟩ (Function.update begins 1 (begins 0)) := by
  refine ⟨?_, ?_, ?_, ?_, ?_⟩
  · intro i j hij
    simp only [Function.update_apply]
    split
    · split
      · exact le_rfl
      · exact h.antitone (by omega)
    · split
      · exact h.antitone (by omega)
      · exact h.antitone hij
  · rw [Function.update_of_ne (by omega)]
    exact h.live
  · rw [Function.update_of_ne (by omega)]
    exact h.le
  · intro i ys hys
    simp only [LogFiles.store, Function.update_apply] at hys ⊢
    split at hys
    · next hi =>
      obtain rfl := Option.some.inj hys
      rw [if_pos hi, ← h.live]
      exact hxs
    · next hi =>
      rw [if_neg hi]
      exact h.generation i ys hys
  · intro i hi
    simp only [LogFiles.store, Function.update_apply]
    rw [if_neg (by omega)]
    exact h.bound i hi

/-- A truncation leaves the live file at the end of what was written. -/
theorem Pieces.truncate (h : Pieces keep w begins) (rotation : Option Stage) :
    Pieces keep ⟨⟨[], w.files.generation⟩, rotation, w.written⟩
      (Function.update begins 0 w.written.length) := by
  refine ⟨?_, ?_, ?_, ?_, h.bound⟩
  · intro i j hij
    have hle : begins j ≤ w.written.length := (h.antitone (Nat.zero_le j)).trans h.le
    simp only [Function.update_apply]
    split
    · split
      · exact le_rfl
      · omega
    · split
      · exact hle
      · exact h.antitone hij
  · rw [Function.update_self, List.drop_length]
  · rw [Function.update_self]
  · intro i xs hxs
    have hi : i ≠ 0 := by
      rintro rfl
      rw [h.bound 0 (.inl rfl)] at hxs
      cases hxs
    rw [Function.update_of_ne hi]
    exact h.generation i xs hxs

theorem Pieces.of_rotation (h : Pieces keep w begins) (rotation : Option Stage) :
    Pieces keep { w with rotation := rotation } begins :=
  ⟨h.antitone, h.live, h.le, h.generation, h.bound⟩

theorem AtStage.idle (w : LogWorld α) (begins : ℕ → ℕ) :
    AtStage keep { w with rotation := none } begins := by
  refine ⟨?_, ?_⟩
  · intro index h
    cases h
  · rintro n (h | h) <;> cases h

theorem AtStage.shift {index : ℕ} (hindex : index ≤ keep - 1) (f : LogFiles α) (written : List α)
    (begins : ℕ → ℕ) : AtStage keep ⟨f, some (.shifting index), written⟩ begins := by
  refine ⟨?_, ?_⟩
  · intro index' h
    cases h
    exact hindex
  · rintro n (h | h) <;> cases h

/-- Copying, from the count that was copied before on. -/
theorem Ordered.copyTo (h : Pieces keep w begins) (hkeep : 0 < keep) {n : ℕ}
    (hn : n ≤ w.files.live.length) :
    Ordered keep ⟨w.files.store (w.files.live.take n), some (.copying n), w.written⟩ := by
  refine ⟨_, h.store hkeep (List.take_prefix _ _) _, ?_, ?_⟩
  · intro index hindex
    cases hindex
  · rintro m (hm | hm)
    · cases hm
      refine ⟨hkeep, hn, ?_, ?_⟩
      · show Function.update w.files.generation 1 (some (w.files.live.take n)) 1 = _
        exact Function.update_self ..
      · rw [Function.update_self, Function.update_of_ne (by omega)]
    · cases hm

theorem Ordered.step (h : Ordered keep w) (e : LogEvent α) :
    Ordered keep (w.step limit keep e) := by
  obtain ⟨begins, hpieces, hstage⟩ := h
  cases e with
  | append bytes => exact ⟨begins, hpieces.append bytes, hstage.append bytes⟩
  | start =>
    simp only [LogWorld.step]
    split
    · exact ⟨begins, hpieces.of_rotation _, .shift le_rfl _ _ _⟩
    · exact ⟨begins, hpieces, hstage⟩
  | rename succeeds =>
    simp only [LogWorld.step]
    split
    · next index hrotation =>
      have hindex := hstage.shifting _ hrotation
      cases succeeds with
      | true =>
        obtain ⟨begins', hpieces'⟩ := hpieces.rename hindex (some (.shifting index))
        exact ⟨begins', hpieces', .shift (by omega) _ _ _⟩
      | false => exact ⟨begins, hpieces.of_rotation _, .shift (by omega) _ _ _⟩
    · exact ⟨begins, hpieces, hstage⟩
  | create =>
    simp only [LogWorld.step]
    split
    · split
      · exact ⟨begins, hpieces, hstage⟩
      · next hkeep => exact Ordered.copyTo hpieces (by omega) (Nat.zero_le _)
    · exact ⟨begins, hpieces, hstage⟩
  | copy count =>
    simp only [LogWorld.step]
    split
    · next n hrotation =>
      obtain ⟨hkeep, -⟩ := hstage.copied n (.inl hrotation)
      exact Ordered.copyTo hpieces hkeep (min_le_right _ _)
    · exact ⟨begins, hpieces, hstage⟩
  | endOfFile =>
    simp only [LogWorld.step]
    split
    · next n hrotation =>
      split
      · refine ⟨begins, hpieces.of_rotation _, ?_, ?_⟩
        · intro index hindex
          cases hindex
        · rintro m (hm | hm)
          · cases hm
          · cases hm
            exact hstage.copied n (.inl hrotation)
      · exact ⟨begins, hpieces, hstage⟩
    · exact ⟨begins, hpieces, hstage⟩
  | truncate succeeds =>
    have htruncate : Ordered keep
        { w with files := if succeeds then { w.files with live := [] } else w.files
                 rotation := none } := by
      cases succeeds with
      | true => exact ⟨_, hpieces.truncate none, AtStage.idle ⟨_, none, _⟩ _⟩
      | false => exact ⟨begins, hpieces.of_rotation none, AtStage.idle _ _⟩
    simp only [LogWorld.step]
    split
    · exact htruncate
    · split
      · exact htruncate
      · exact ⟨begins, hpieces, hstage⟩
    · exact ⟨begins, hpieces, hstage⟩
  | gaveUp => exact ⟨begins, hpieces.of_rotation none, AtStage.idle _ _⟩

theorem ordered_run (events : List (LogEvent α)) : Ordered keep (init.run limit keep events) := by
  suffices h : ∀ w : LogWorld α, Ordered keep w → Ordered keep (w.run limit keep events) from
    h _ (ordered_init keep)
  intro w h
  induction events generalizing w with
  | nil => exact h
  | cons e rest ih => exact ih _ (h.step e)

/-! ## How much is kept -/

/-- The bytes of the directory. -/
def size (keep : ℕ) (w : LogWorld α) : ℕ :=
  w.files.live.length +
    ((List.range keep).map fun i => ((w.files.generation (i + 1)).getD []).length).sum

/-- No file is longer than `b`. -/
def Within (b : ℕ) (w : LogWorld α) : Prop :=
  w.files.live.length ≤ b ∧ ∀ i xs, w.files.generation i = some xs → xs.length ≤ b

theorem Within.store {b : ℕ} (h : Within b w) {xs : List α} (hxs : xs.length ≤ b)
    (rotation : Option Stage) : Within b ⟨w.files.store xs, rotation, w.written⟩ := by
  refine ⟨h.1, ?_⟩
  intro i ys hys
  simp only [LogFiles.store, Function.update_apply] at hys
  split at hys
  · cases hys
    exact hxs
  · exact h.2 i ys hys

theorem Within.rename {b : ℕ} (h : Within b w) (index : ℕ) (rotation : Option Stage) :
    Within b ⟨w.files.rename index, rotation, w.written⟩ := by
  simp only [LogFiles.rename]
  split
  · exact ⟨h.1, h.2⟩
  · next xs hxs =>
    refine ⟨h.1, ?_⟩
    intro i ys hys
    simp only [Function.update_apply] at hys
    split at hys
    · cases hys
      exact h.2 _ _ hxs
    · split at hys
      · cases hys
      · exact h.2 i ys hys

/-- A generation is a copy of a live file, so it is no longer than one. -/
theorem Within.step {b : ℕ} (h : Within b w) {e : LogEvent α}
    (hlive : (w.step limit keep e).files.live.length ≤ b) : Within b (w.step limit keep e) := by
  cases e with
  | append bytes => exact ⟨hlive, h.2⟩
  | start =>
    simp only [LogWorld.step]
    split
    · exact h
    · exact h
  | rename succeeds =>
    simp only [LogWorld.step]
    split
    · cases succeeds with
      | true => exact h.rename _ _
      | false => exact h
    · exact h
  | create =>
    simp only [LogWorld.step]
    split
    · split
      · exact h
      · exact h.store (Nat.zero_le _) _
    · exact h
  | copy count =>
    simp only [LogWorld.step]
    split
    · refine h.store ?_ _
      rw [List.length_take]
      exact (min_le_right _ _).trans h.1
    · exact h
  | endOfFile =>
    simp only [LogWorld.step]
    split
    · split
      · exact h
      · exact h
    · exact h
  | truncate succeeds =>
    have htruncate : Within b
        { w with files := if succeeds then { w.files with live := [] } else w.files
                 rotation := none } := by
      cases succeeds with
      | true => exact ⟨Nat.zero_le _, h.2⟩
      | false => exact h
    simp only [LogWorld.step]
    split
    · exact htruncate
    · split
      · exact htruncate
      · exact h
    · exact h
  | gaveUp => exact h

theorem Within.size_le {b : ℕ} (h : Within b w) : w.size keep ≤ (keep + 1) * b := by
  have hsum : ((List.range keep).map fun i => ((w.files.generation (i + 1)).getD []).length).sum ≤
      keep * b := by
    refine (List.sum_le_card_nsmul _ b ?_).trans_eq (by simp)
    intro n hn
    obtain ⟨i, -, rfl⟩ := List.mem_map.mp hn
    cases hgen : w.files.generation (i + 1) with
    | none => exact Nat.zero_le _
    | some xs => exact h.2 _ _ hgen
  rw [size, Nat.add_mul, Nat.one_mul]
  have hlive := h.1
  omega

/-- In every run, whatever fails and wherever the process is killed: the files are pieces of what
was written, oldest generation first, and the live file is the last piece. Before a truncation,
the newest generation holds the live file up to the end that the copy saw. As long as the live file
is no longer than `b`, the directory is no larger than one `b` for each file. -/
theorem run_pieces (limit keep : ℕ) (events : List (LogEvent α)) :
    let w : LogWorld α := init.run limit keep events
    (∃ begins : ℕ → ℕ, Antitone begins ∧ w.files.live = w.written.drop (begins 0) ∧
      (∀ i xs, w.files.generation i = some xs → xs <+: w.written.drop (begins i))) ∧
    (∀ i, i = 0 ∨ keep < i → w.files.generation i = none) ∧
    (∀ n, w.rotation = some (.copied n) →
      w.files.generation 1 = some (w.files.live.take n) ∧ n ≤ w.files.live.length) ∧
    ∀ b, Runs.Always (step limit keep)
        (fun v e => (v.step limit keep e).files.live.length ≤ b) (init : LogWorld α) events →
      w.size keep ≤ (keep + 1) * b := by
  have hordered : Ordered keep (init.run limit keep events) := ordered_run events
  obtain ⟨begins, hpieces, hstage⟩ := hordered
  refine ⟨⟨begins, hpieces.antitone, hpieces.live, hpieces.generation⟩, hpieces.bound, ?_, ?_⟩
  · intro n hn
    obtain ⟨-, hle, hnewest, -⟩ := hstage.copied n (.inr hn)
    exact ⟨hnewest, hle⟩
  · intro b hb
    have hinit : Within b (init : LogWorld α) := ⟨Nat.zero_le _, fun _ _ h => by cases h⟩
    exact (hb.invariant hinit fun _ _ h hlive => h.step hlive).size_le

end LogWorld

/-! ## Undisturbed rotations keep the newest bytes -/

/-- The log as it is meant: the bytes that were rotated out, the generations, the newest first,
and the live file. -/
structure Newest (α : Type*) where
  forgotten : List α
  generations : List (List α)
  live : List α

namespace Newest

/-- The bytes that the files hold, in order. -/
def kept (t : Newest α) : List α := t.generations.reverse.flatten ++ t.live

/-- A write. -/
def append (t : Newest α) (bytes : List α) : Newest α := { t with live := t.live ++ bytes }

/-- The live file becomes the newest generation, and what is more than `keep` is forgotten. -/
def rotate (keep : ℕ) (t : Newest α) : Newest α where
  forgotten := t.forgotten ++ ((t.live :: t.generations).drop keep).reverse.flatten
  generations := (t.live :: t.generations).take keep
  live := []

/-- There are at most `keep` generations, each longer than the limit, and `keep` of them once
something was forgotten. -/
structure Full (limit keep : ℕ) (t : Newest α) : Prop where
  le : t.generations.length ≤ keep
  long : ∀ g ∈ t.generations, limit < g.length
  full : t.forgotten ≠ [] → t.generations.length = keep

variable {limit keep : ℕ} {t : Newest α}

theorem forgotten_append_kept_rotate (keep : ℕ) (t : Newest α) :
    (t.rotate keep).forgotten ++ (t.rotate keep).kept = t.forgotten ++ t.kept := by
  have hcut : (t.live :: t.generations).reverse.flatten =
      ((t.live :: t.generations).drop keep).reverse.flatten ++
        ((t.live :: t.generations).take keep).reverse.flatten := by
    rw [← List.flatten_append, ← List.reverse_append, List.take_append_drop]
  have hall : (t.live :: t.generations).reverse.flatten = t.kept := by
    rw [List.reverse_cons, List.flatten_append, List.flatten_singleton, kept]
  rw [← hall, hcut, rotate, kept, List.append_nil, List.append_assoc]

theorem Full.append (h : t.Full limit keep) (bytes : List α) : (t.append bytes).Full limit keep :=
  ⟨h.le, h.long, h.full⟩

theorem Full.rotate (h : t.Full limit keep) (hlive : limit < t.live.length) :
    (t.rotate keep).Full limit keep := by
  refine ⟨List.length_take_le _ _, ?_, ?_⟩
  · intro g hg
    rcases List.mem_cons.mp (List.mem_of_mem_take hg) with rfl | hg
    · exact hlive
    · exact h.long g hg
  · intro hforgotten
    show ((t.live :: t.generations).take keep).length = keep
    rw [List.length_take, List.length_cons]
    refine min_eq_left ?_
    by_contra hlt
    -- with room for one more generation, nothing is dropped and nothing was before
    have hdrop : (t.live :: t.generations).drop keep = [] := by
      rw [List.drop_eq_nil_iff, List.length_cons]
      omega
    have hnone : t.forgotten = [] := by
      by_contra hsome
      have := h.full hsome
      omega
    apply hforgotten
    show t.forgotten ++ _ = _
    rw [hdrop, hnone]
    rfl

/-- The files that hold some generations, the newest first. -/
def slots (generations : List (List α)) : ℕ → Option (List α)
  | 0 => none
  | i + 1 => generations[i]?

/-- The files when the renames down from the oldest have come to `index`. -/
def shifted (keep : ℕ) (generations : List (List α)) (index : ℕ) : ℕ → Option (List α) := fun i =>
  if i ≤ index then slots generations i
  else if i = index + 1 then if i = keep then slots generations i else none
  else if i ≤ keep then slots generations (i - 1) else none

theorem shifted_last {gs : List (List α)} (h : gs.length ≤ keep) :
    shifted keep gs (keep - 1) = slots gs := by
  funext i
  simp only [shifted]
  split
  · rfl
  · next hi =>
    have hnone : keep < i → slots gs i = none := by
      intro hlt
      obtain ⟨j, rfl⟩ : ∃ j, i = j + 1 := ⟨i - 1, by omega⟩
      exact List.getElem?_eq_none (by omega)
    split
    · split
      · rfl
      · exact (hnone (by omega)).symm
    · rw [if_neg (by omega)]
      exact (hnone (by omega)).symm

/-- A rename that finds nothing is as good as one that does. -/
theorem rename_shifted {f : LogFiles α} {gs : List (List α)} {index : ℕ}
    (hindex : index + 1 ≤ keep - 1)
    (hf : f.generation = shifted keep gs (index + 1)) :
    (f.rename (index + 1)).generation = shifted keep gs index := by
  have hhere : f.generation (index + 1) = gs[index]? := by
    rw [hf, shifted, if_pos le_rfl]
    rfl
  simp only [LogFiles.rename, hhere]
  cases hxs : gs[index]? with
  | none =>
    have hlen : gs.length ≤ index := List.getElem?_eq_none_iff.mp hxs
    have hnone : ∀ i, index < i → slots gs i = none := by
      intro i hi
      obtain ⟨j, rfl⟩ : ∃ j, i = j + 1 := ⟨i - 1, by omega⟩
      exact List.getElem?_eq_none (by omega)
    funext i
    show f.generation i = _
    rw [hf]
    simp only [shifted]
    rcases Nat.lt_trichotomy i (index + 1) with hi | rfl | hi
    · rw [if_pos (by omega), if_pos (by omega)]
    · rw [if_pos le_rfl, if_neg (by omega), if_pos rfl, if_neg (by omega), hnone _ (by omega)]
    · rw [if_neg (by omega : ¬ i ≤ index + 1), if_neg (by omega : ¬ i ≤ index),
        if_neg (by omega : i ≠ index + 1), hnone i (by omega), hnone (i - 1) (by omega)]
      simp only [ite_self]
  | some xs =>
    funext i
    show Function.update (Function.update f.generation (index + 1) none) (index + 2) (some xs) i = _
    simp only [Function.update_apply, shifted]
    rcases Nat.lt_trichotomy i (index + 1) with hi | rfl | hi
    · rw [if_neg (by omega), if_neg (by omega), if_pos (by omega), hf, shifted, if_pos (by omega)]
    · rw [if_neg (by omega), if_pos rfl, if_neg (by omega), if_pos rfl, if_neg (by omega)]
    · rw [if_neg (by omega : ¬ i ≤ index)]
      by_cases heq : i = index + 1 + 1
      · rw [if_pos heq, if_neg (by omega : i ≠ index + 1), if_pos (by omega : i ≤ keep), heq]
        exact hxs.symm
      · rw [if_neg heq, if_neg (by omega : i ≠ index + 1), if_neg (by omega : i ≠ index + 1), hf,
          shifted, if_neg (by omega : ¬ i ≤ index + 1), if_neg heq]

/-- The copy takes the slot that the last rename has emptied. -/
theorem store_shifted {f : LogFiles α} {gs : List (List α)} (hkeep : 0 < keep) (xs : List α)
    (hf : f.generation = shifted keep gs 0) :
    (f.store xs).generation = slots (xs :: gs.take (keep - 1)) := by
  funext i
  show Function.update f.generation 1 (some xs) i = _
  rw [Function.update_apply, hf]
  rcases i with _ | _ | i
  · rfl
  · rfl
  · rw [if_neg (by omega), shifted, if_neg (by omega), if_neg (by omega)]
    show _ = (xs :: gs.take (keep - 1))[i + 1]?
    rw [List.getElem?_cons_succ, List.getElem?_take]
    split
    · rw [if_pos (by omega)]
      rfl
    · rw [if_neg (by omega)]

theorem store_slots {f : LogFiles α} {gs : List (List α)} {xs : List α} (ys : List α)
    (hf : f.generation = slots (xs :: gs)) : (f.store ys).generation = slots (ys :: gs) := by
  funext i
  show Function.update f.generation 1 (some ys) i = _
  rw [Function.update_apply, hf]
  rcases i with _ | _ | i <;> rfl

end Newest

namespace LogWorld

open Newest

variable (limit keep : ℕ)

/-- No step fails, and nobody writes between the end of the copy and the truncation. -/
def Undisturbed (w : LogWorld α) : LogEvent α → Prop
  | .append _ => ∀ n, w.rotation ≠ some (.copied n)
  | .rename succeeds => succeeds = true
  | .truncate succeeds => succeeds = true
  | .gaveUp => False
  | _ => True

/-- The generations on disk, by the stage of the rotation. -/
def Generations (w : LogWorld α) (t : Newest α) : Prop :=
  match w.rotation with
  | none => w.files.generation = slots t.generations
  | some (.shifting index) => limit < t.live.length ∧ index ≤ keep - 1 ∧
      w.files.generation = shifted keep t.generations index
  | some (.copying n) => limit < t.live.length ∧ 0 < keep ∧ n ≤ t.live.length ∧
      w.files.generation = slots (t.live.take n :: t.generations.take (keep - 1))
  | some (.copied n) => limit < t.live.length ∧ 0 < keep ∧ n = t.live.length ∧
      w.files.generation = slots (t.live.take n :: t.generations.take (keep - 1))

/-- The files show the log as it is meant. -/
structure Shows (w : LogWorld α) (t : Newest α) : Prop where
  written : w.written = t.forgotten ++ t.kept
  live : w.files.live = t.live
  full : t.Full limit keep
  generations : Generations limit keep w t

/-- The bytes of the directory, the oldest generation first. -/
def kept (w : LogWorld α) : List α :=
  ((List.range keep).reverse.flatMap fun i => (w.files.generation (i + 1)).getD []) ++ w.files.live

variable {limit keep} {t : Newest α}

theorem Shows.append (h : Shows limit keep w t) (bytes : List α)
    (hcopied : ∀ n, w.rotation ≠ some (.copied n)) :
    Shows limit keep (w.step limit keep (.append bytes)) (t.append bytes) := by
  have hlong : limit < t.live.length → limit < (t.live ++ bytes).length := by
    intro hlive
    rw [List.length_append]
    omega
  refine ⟨?_, ?_, h.full.append bytes, ?_⟩
  · show w.written ++ bytes = t.forgotten ++ (t.generations.reverse.flatten ++ (t.live ++ bytes))
    rw [h.written, Newest.kept, List.append_assoc, List.append_assoc]
  · show w.files.live ++ bytes = t.live ++ bytes
    rw [h.live]
  · have hgen := h.generations
    show Generations limit keep ⟨_, w.rotation, _⟩ _
    unfold Generations at hgen ⊢
    rcases hrotation : w.rotation with _ | index | n | n
    · simp only [hrotation] at hgen
      exact hgen
    · simp only [hrotation] at hgen
      exact ⟨hlong hgen.1, hgen.2⟩
    · simp only [hrotation] at hgen
      obtain ⟨hlive, hkeep, hn, hgen⟩ := hgen
      -- what was copied is in front of the new bytes
      refine ⟨hlong hlive, hkeep, ?_, ?_⟩
      · show n ≤ (t.live ++ bytes).length
        rw [List.length_append]
        omega
      · show w.files.generation = slots ((t.live ++ bytes).take n :: t.generations.take (keep - 1))
        rw [List.take_append_of_le_length hn, hgen]
    · exact absurd hrotation (hcopied n)

/-- A truncation that succeeds is the rotation as it is meant. -/
theorem Shows.truncate (h : Shows limit keep w t) (hlive : limit < t.live.length)
    (hgen : w.files.generation = slots ((t.live :: t.generations).take keep)) :
    Shows limit keep ⟨{ w.files with live := [] }, none, w.written⟩ (t.rotate keep) :=
  ⟨h.written.trans (forgotten_append_kept_rotate keep t).symm, rfl, h.full.rotate hlive, hgen⟩

/-- An undisturbed step is a write, a rotation, or nothing that the log as it is meant shows. -/
theorem Shows.step (h : Shows limit keep w t) {e : LogEvent α} (he : Undisturbed w e) :
    ∃ t', Shows limit keep (w.step limit keep e) t' := by
  have hgen := h.generations
  unfold Generations at hgen
  cases e with
  | append bytes => exact ⟨t.append bytes, h.append bytes he⟩
  | start =>
    refine ⟨t, ?_⟩
    simp only [LogWorld.step]
    split
    · next hstart =>
      simp only [hstart.1] at hgen
      rw [h.live] at hstart
      refine ⟨h.written, h.live, h.full, hstart.2, le_rfl, ?_⟩
      rw [shifted_last h.full.le]
      exact hgen
    · exact h
  | rename succeeds =>
    obtain rfl : succeeds = true := he
    refine ⟨t, ?_⟩
    simp only [LogWorld.step, if_true]
    split
    · next index hrotation =>
      simp only [hrotation] at hgen
      obtain ⟨hlive, hindex, hgen⟩ := hgen
      refine ⟨h.written, ?_, h.full, hlive, by omega, rename_shifted hindex hgen⟩
      rw [← h.live, LogFiles.rename]
      split <;> rfl
    · exact h
  | create =>
    refine ⟨t, ?_⟩
    simp only [LogWorld.step]
    split
    · next hrotation =>
      simp only [hrotation] at hgen
      split
      · exact h
      · next hkeep =>
        obtain ⟨hlive, -, hgen⟩ := hgen
        exact ⟨h.written, h.live, h.full, hlive, by omega, Nat.zero_le _,
          store_shifted (by omega) [] hgen⟩
    · exact h
  | copy count =>
    refine ⟨t, ?_⟩
    simp only [LogWorld.step]
    split
    · next n hrotation =>
      simp only [hrotation] at hgen
      obtain ⟨hlive, hkeep, -, hgen⟩ := hgen
      rw [h.live]
      exact ⟨h.written, h.live, h.full, hlive, hkeep, min_le_right _ _, store_slots _ hgen⟩
    · exact h
  | endOfFile =>
    refine ⟨t, ?_⟩
    simp only [LogWorld.step]
    split
    · next n hrotation =>
      simp only [hrotation] at hgen
      obtain ⟨hlive, hkeep, -, hgen⟩ := hgen
      split
      · next hn => exact ⟨h.written, h.live, h.full, hlive, hkeep, by rw [hn, h.live], hgen⟩
      · exact h
    · exact h
  | truncate succeeds =>
    obtain rfl : succeeds = true := he
    simp only [LogWorld.step, if_true]
    split
    · next n hrotation =>
      simp only [hrotation] at hgen
      obtain ⟨hlive, hkeep, rfl, hgen⟩ := hgen
      refine ⟨_, h.truncate hlive ?_⟩
      rw [hgen, List.take_length, List.take_cons hkeep]
    · next hrotation =>
      simp only [hrotation] at hgen
      split
      · next hkeep =>
        subst hkeep
        -- with no generation to keep, there is none to shift either
        have hnone : t.generations = [] := List.length_eq_zero_iff.mp (Nat.le_zero.mp h.full.le)
        obtain ⟨hlive, -, hgen⟩ := hgen
        refine ⟨_, h.truncate hlive ?_⟩
        rw [hgen, hnone]
        exact shifted_last (Nat.zero_le _)
      · exact ⟨t, h⟩
    · exact ⟨t, h⟩
  | gaveUp => exact he.elim

end LogWorld

end Logging

end Governance
