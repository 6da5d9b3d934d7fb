import Governance.Lib.CrashFiles
import Governance.Lib.Runs

/-!
# State files

A state file of `governance-auth` is never written in place: the new content goes to a file next to
it, which is renamed over the old one. `Discipline` says what a writer does besides: the
checkpoints of the drains (`durable_state::store`) sync the new file before the rename and the
directory behind it, the session (`cache::store`) and the configuration of the clients
(`otel::file::write_atomically`) sync the new file only, and the rc files sync nothing.

A writer can fail at every step, its process can be killed between any two, and the machine can go
down. There is one writer at a time: the daemon's own mutex and the session's lock see to that. The
directory is there before the first store.
-/

namespace Governance

namespace State

open CrashFiles

/-- What a writer does besides the rename. -/
structure Discipline where
  syncsFile : Bool
  syncsDir : Bool
  cleansUp : Bool
  deriving DecidableEq

/-- `durable_state::store`. -/
def durableState : Discipline := ⟨true, true, false⟩

/-- `cache::store`: a temporary file is removed when the store fails. -/
def sessionCache : Discipline := ⟨true, false, true⟩

/-- `otel::file::write_atomically`. -/
def writeAtomically : Discipline := ⟨true, false, false⟩

/-- The end of `rc::upsert`. -/
def rcFile : Discipline := ⟨false, false, false⟩

/-- The writers that sync the new file before the rename. -/
def syncingWriters : List Discipline := [durableState, sessionCache, writeAtomically]

/-- The state file, and the name that is renamed over it. -/
inductive FileName where
  | path
  | tmp
  deriving DecidableEq

/-- How a value is written and read, as `serde_json` does it. -/
structure Codec (T β : Type*) where
  serialise : T → List β
  parse : List β → Option T

/-- What was written is read. -/
def Codec.Lawful {T β : Type*} (codec : Codec T β) : Prop :=
  ∀ v, codec.parse (codec.serialise v) = some v

/-- Where a store stands: it still has to write some bytes to an open file, the file is closed, or
the file is renamed. -/
inductive Stage (β : Type*) where
  | idle
  | writing (file : ℕ) (rest : List β)
  | closed
  | renamed

/-- The directory, the store under way, what the state file was to hold since it was missing, and
the place there of the last store that gave `Ok`. A crash takes the place back, except from a
writer that syncs the directory. -/
structure Writer (T β : Type*) where
  files : Files FileName β
  stage : Stage β
  history : List (Option T)
  promised : ℕ

/-- What happens next. A `begin` that can not open the file does not happen. -/
inductive StoreEvent (T β : Type*) where
  | begin (value : T)
  | write (count : ℕ)
  | syncFile
  | rename
  | syncDir
  | clear
  | fail (cleaned : Bool)
  | kill
  | crash (kept : ℕ) (torn : ℕ → List β)

variable {T β : Type*}

namespace Writer

/-- No state file yet. -/
def init : Writer T β := ⟨.empty, .idle, [none], 0⟩

variable (p : Discipline) (codec : Codec T β)

/-- The place of the newest value. -/
def newest (w : Writer T β) : ℕ := w.history.length - 1

/-- One event. A step that is not the next one of the store does nothing. -/
def step (w : Writer T β) : StoreEvent T β → Writer T β
  | .begin value =>
    match w.stage with
    | .idle =>
      let opened := w.files.openTruncated .tmp
      { w with files := opened.2
               stage := .writing opened.1 (codec.serialise value)
               history := w.history ++ [some value] }
    | _ => w
  | .write count =>
    match w.stage with
    | .writing file rest =>
      { w with files := w.files.write file (rest.take count)
               stage := .writing file (rest.drop count) }
    | _ => w
  | .syncFile =>
    match w.stage with
    | .writing file [] =>
      { w with files := if p.syncsFile then w.files.syncFile file else w.files, stage := .closed }
    | _ => w
  | .rename =>
    match w.stage with
    | .closed =>
      let files := w.files.change (.rename .tmp .path)
      if p.syncsDir then { w with files := files, stage := .renamed }
      else { w with files := files, stage := .idle, promised := w.newest }
    | _ => w
  | .syncDir =>
    match w.stage with
    | .renamed => { w with files := w.files.syncDir, stage := .idle, promised := w.newest }
    | _ => w
  | .clear =>
    -- only the session is ever removed, and its directory is not synced
    match w.stage with
    | .idle =>
      if p.syncsDir then w
      else { w with files := w.files.change (.unlink .path)
                    history := w.history ++ [none]
                    promised := w.history.length }
    | _ => w
  | .fail cleaned =>
    match w.stage with
    | .idle => w
    | .renamed => { w with stage := .idle }
    | _ =>
      { w with files := if p.cleansUp && cleaned then w.files.change (.unlink .tmp) else w.files
               stage := .idle }
  | .kill => { w with stage := .idle }
  | .crash kept torn =>
    { w with files := w.files.crash kept torn
             stage := .idle
             promised := if p.syncsDir then w.promised else 0 }

/-- A run. -/
def run (w : Writer T β) (events : List (StoreEvent T β)) : Writer T β :=
  events.foldl (step p codec) w

/-- `durable_state::load` and `cache::read_session`: what the state file says, `none` when it is
missing; a content that does not parse is an error. -/
def load (w : Writer T β) : Except (List β) (Option T) :=
  match w.files.read .path with
  | none => .ok none
  | some bytes =>
    match codec.parse bytes with
    | none => .error bytes
    | some value => .ok (some value)

/-! ## The invariant -/

/-- The content of a value of the history, from the place `least` on. -/
def Written (history : List (Option T)) (least : ℕ) (content : Option (List β)) : Prop :=
  ∃ place value, least ≤ place ∧ history[place]? = some value ∧
    content = value.map codec.serialise

variable {p codec} {w : Writer T β}

theorem Written.append {history : List (Option T)} {least : ℕ} {content : Option (List β)}
    (h : Written codec history least content) (value : Option T) :
    Written codec (history ++ [value]) least content := by
  obtain ⟨place, v, hle, hv, hcontent⟩ := h
  refine ⟨place, v, hle, ?_, hcontent⟩
  rw [List.getElem?_append_left (List.getElem?_eq_some_iff.mp hv).1]
  exact hv

theorem Written.mono {history : List (Option T)} {least least' : ℕ} {content : Option (List β)}
    (h : Written codec history least content) (hle : least' ≤ least) :
    Written codec history least' content := by
  obtain ⟨place, v, hplace, hrest⟩ := h
  exact ⟨place, v, hle.trans hplace, hrest⟩

/-- The first place that a crash can bring back. -/
def floor (p : Discipline) (w : Writer T β) : ℕ := if p.syncsDir then w.promised else 0

/-- The open file holds what is written so far of the newest value; it is on disk once closed, and
it is the state file once renamed. -/
def AtStage (codec : Codec T β) (w : Writer T β) : Prop :=
  match w.stage with
  | .idle => True
  | .writing file rest => w.files.names .tmp = some file ∧
      ∃ v, w.history[w.newest]? = some (some v) ∧ w.files.content file ++ rest = codec.serialise v
  | .closed => ∃ file, w.files.names .tmp = some file ∧ w.files.synced file = true ∧
      ∃ v, w.history[w.newest]? = some (some v) ∧ w.files.content file = codec.serialise v
  | .renamed => ∃ file, w.files.names .path = some file ∧ w.files.synced file = true ∧
      ∃ v, w.history[w.newest]? = some (some v) ∧ w.files.content file = codec.serialise v

/-- Whatever a crash keeps, the state file is missing or holds a value of the history, whole and on
disk; and no store writes to it. -/
structure Inv (p : Discipline) (codec : Codec T β) (w : Writer T β) : Prop where
  known : w.files.Known
  apart : w.files.Apart .path .tmp
  kept : w.files.Kept (Written codec w.history (w.floor p)) (Written codec w.history w.promised) .path
  stage : AtStage codec w

theorem floor_le (p : Discipline) (w : Writer T β) : w.floor p ≤ w.promised := by
  unfold floor
  split
  · exact le_rfl
  · exact Nat.zero_le _

theorem path_ne_tmp : FileName.path ≠ FileName.tmp := by decide

theorem inv_init (p : Discipline) (codec : Codec T β) : Inv p codec init := by
  have hview : ∀ k, (init : Writer T β).files.view k = fun _ => none := by
    intro k
    cases k <;> rfl
  have hkept : ∀ k, (init : Writer T β).files.Holds (Written codec [none] 0) .path
      ((init : Writer T β).files.view k) := by
    intro k
    rw [hview]
    refine ⟨?_, 0, none, le_rfl, rfl, rfl⟩
    intro i hi
    cases hi
  refine ⟨?_, ?_, ⟨?_, hkept 0⟩, trivial⟩
  · intro k n i hi
    rw [hview] at hi
    cases hi
  · intro k k' i _ hi
    rw [hview] at hi
    cases hi
  · intro k
    have hfloor : (init : Writer T β).floor p = 0 := by
      unfold floor
      split <;> rfl
    rw [hfloor]
    exact hkept k

/-- A process that stops leaves the files as they are. -/
theorem Inv.stop (h : Inv p codec w) : Inv p codec { w with stage := .idle } :=
  ⟨h.known, h.apart, h.kept, trivial⟩

theorem getElem?_newest_append (history : List (Option T)) (value : Option T) :
    (history ++ [value])[(history ++ [value]).length - 1]? = some value := by
  rw [List.length_append, List.length_singleton, Nat.add_sub_cancel, List.getElem?_concat_length]

theorem Inv.begin (h : Inv p codec w) (value : T) : Inv p codec (w.step p codec (.begin value)) := by
  simp only [step]
  split
  · obtain ⟨hname, hcontent⟩ := w.files.openTruncated_spec .tmp
    have hkept := h.kept.openTruncated h.apart h.known path_ne_tmp
    refine ⟨h.known.openTruncated _, h.apart.openTruncated h.known path_ne_tmp, ?_, hname, value,
      getElem?_newest_append _ _, ?_⟩
    · exact hkept.mono (fun _ hc => hc.append _) (fun _ hc => hc.append _)
    · rw [hcontent, List.nil_append]
  · exact h

theorem Inv.write (h : Inv p codec w) (count : ℕ) : Inv p codec (w.step p codec (.write count)) := by
  simp only [step]
  split
  · next file rest hstage =>
    have hat := h.stage
    simp only [AtStage, hstage] at hat
    obtain ⟨hname, v, hv, hcontent⟩ := hat
    -- the open file is the temporary one, so it is not what a crash brings back
    refine ⟨h.known, h.apart, h.kept.setContent (fun k hk => h.apart.names hk hname) _, hname, v, hv,
      ?_⟩
    show Function.update w.files.content file (w.files.content file ++ rest.take count) file ++
      rest.drop count = codec.serialise v
    rw [Function.update_self, List.append_assoc, List.take_append_drop, hcontent]
  · exact h

theorem Inv.syncFile (h : Inv p codec w) (hp : p.syncsFile = true) :
    Inv p codec (w.step p codec .syncFile) := by
  simp only [step, hp, if_true]
  split
  · next file hstage =>
    have hat := h.stage
    simp only [AtStage, hstage] at hat
    obtain ⟨hname, v, hv, hcontent⟩ := hat
    refine ⟨h.known, h.apart, h.kept.syncFile file, file, hname, Function.update_self .., v, hv, ?_⟩
    rw [← hcontent, List.append_nil]
    rfl
  · exact h

/-- A synced file can be renamed over the state file. -/
theorem Inv.rename (h : Inv p codec w) : Inv p codec (w.step p codec .rename) := by
  simp only [step]
  split
  · next hstage =>
    have hat := h.stage
    simp only [AtStage, hstage] at hat
    obtain ⟨file, hname, hsynced, v, hv, hcontent⟩ := hat
    have hpath : Change.apply w.files.names (.rename .tmp .path) .path = some file := by
      simp only [Change.apply]
      rw [Function.update_of_ne path_ne_tmp, Function.update_self, hname]
    have hnew : ∀ least, least ≤ w.newest → w.files.Holds (Written codec w.history least) .path
        (Change.apply w.files.names (.rename .tmp .path)) := by
      intro least hle
      refine ⟨?_, w.newest, some v, hle, hv, ?_⟩
      · intro i hi
        obtain rfl : file = i := Option.some.inj (hpath.symm.trans hi)
        exact hsynced
      · rw [hpath, Option.map_some, hcontent]
        rfl
    -- what is promised is in the history
    have hle : w.promised ≤ w.newest := by
      obtain ⟨-, place, value, hle, hvalue, -⟩ := h.kept.now
      have hlt := (List.getElem?_eq_some_iff.mp hvalue).1
      unfold newest
      omega
    have hfloor := hnew _ ((floor_le p w).trans hle)
    split
    · refine ⟨h.known.rename _ _, h.apart.rename, h.kept.change hfloor (hnew _ hle), file, ?_,
        hsynced, v, hv, hcontent⟩
      rw [Files.names_change]
      exact hpath
    · next hdir =>
      have hzero : ∀ w' : Writer T β, w'.floor p = 0 := by
        intro w'
        exact if_neg hdir
      refine ⟨h.known.rename _ _, h.apart.rename, ?_, trivial⟩
      have := h.kept.change hfloor (hnew _ le_rfl)
      rw [hzero] at this ⊢
      exact this
  · exact h

theorem Inv.syncDir (h : Inv p codec w) : Inv p codec (w.step p codec .syncDir) := by
  simp only [step]
  split
  · next hstage =>
    have hat := h.stage
    simp only [AtStage, hstage] at hat
    obtain ⟨file, hpath, hsynced, v, hv, hcontent⟩ := hat
    have hnow : w.files.Holds (Written codec w.history w.newest) .path w.files.names := by
      refine ⟨?_, w.newest, some v, le_rfl, hv, ?_⟩
      · intro i hi
        obtain rfl : file = i := Option.some.inj (hpath.symm.trans hi)
        exact hsynced
      · rw [hpath, Option.map_some, hcontent]
        rfl
    have hkept : w.files.Kept (Written codec w.history (w.floor p))
        (Written codec w.history w.newest) .path := ⟨h.kept.everywhere, hnow⟩
    refine ⟨?_, h.apart.syncDir, hkept.syncDir.mono ?_ fun _ hc => hc, trivial⟩
    · exact Files.Everywhere.syncDir h.known.names
    · intro content hc
      exact hc.mono (floor_le p _)
  · exact h

theorem Inv.clear (h : Inv p codec w) : Inv p codec (w.step p codec .clear) := by
  simp only [step]
  split
  · next hstage =>
    split
    · exact h
    · next hdir =>
      have hzero : ∀ w' : Writer T β, w'.floor p = 0 := by
        intro w'
        exact if_neg hdir
      have hgone : Change.apply w.files.names (.unlink .path) .path = none := by
        simp only [Change.apply, Function.update_self]
      have hnew : ∀ least, least ≤ w.history.length → w.files.Holds
          (Written codec (w.history ++ [none]) least) .path
          (Change.apply w.files.names (.unlink .path)) := by
        intro least hle
        refine ⟨?_, w.history.length, none, hle, List.getElem?_concat_length, ?_⟩
        · intro i hi
          rw [hgone] at hi
          cases hi
        · rw [hgone]
          rfl
      refine ⟨h.known.unlink _, h.apart.unlink_first path_ne_tmp, ?_, by simp only [AtStage, hstage]⟩
      have hkept := h.kept.mono (fun _ hc => hc.append none) (fun _ hc => hc.append none)
      have := hkept.change (hnew _ ?_) (hnew _ le_rfl)
      · rw [hzero] at this ⊢
        exact this
      · rw [hzero]
        exact Nat.zero_le _
  · exact h

theorem Inv.fail (h : Inv p codec w) (cleaned : Bool) :
    Inv p codec (w.step p codec (.fail cleaned)) := by
  simp only [step]
  split
  · exact h
  · exact h.stop
  · split
    · exact ⟨h.known.unlink _, h.apart.unlink_second,
        h.kept.change_other (Function.update_of_ne path_ne_tmp _ _), trivial⟩
    · exact h.stop

theorem Inv.crash (h : Inv p codec w) (kept : ℕ) (torn : ℕ → List β) :
    Inv p codec (w.step p codec (.crash kept torn)) := by
  refine ⟨?_, h.apart.crash kept torn, (h.kept.crash kept torn).mono ?_ ?_, trivial⟩
  · exact Files.Everywhere.crash h.known kept torn
  · intro content hc
    refine hc.mono ?_
    show (if p.syncsDir then (if p.syncsDir then w.promised else 0) else 0) ≤ w.floor p
    unfold floor
    split <;> exact le_rfl
  · intro content hc
    exact hc

theorem Inv.step (h : Inv p codec w) (hp : p.syncsFile = true) (e : StoreEvent T β) :
    Inv p codec (w.step p codec e) := by
  cases e with
  | begin value => exact h.begin value
  | write count => exact h.write count
  | syncFile => exact h.syncFile hp
  | rename => exact h.rename
  | syncDir => exact h.syncDir
  | clear => exact h.clear
  | fail cleaned => exact h.fail cleaned
  | kill => exact h.stop
  | crash kept torn => exact h.crash kept torn

theorem Inv.run (h : Inv p codec w) (hp : p.syncsFile = true) (events : List (StoreEvent T β)) :
    Inv p codec (w.run p codec events) := by
  induction events generalizing w with
  | nil => exact h
  | cons e rest ih => exact ih (h.step hp e)

theorem Inv.load (h : Inv p codec w) (hcodec : codec.Lawful) :
    ∃ place value, w.promised ≤ place ∧ w.history[place]? = some value ∧
      w.load codec = .ok value := by
  obtain ⟨-, place, value, hle, hvalue, hread⟩ := h.kept.now
  refine ⟨place, value, hle, hvalue, ?_⟩
  have hread : w.files.read .path = value.map codec.serialise := hread
  rw [Writer.load, hread]
  cases value with
  | none => rfl
  | some v => simp only [Option.map_some, hcodec v]

/-- What is promised is never taken back, except by a crash of a directory that is not synced. -/
theorem Inv.promised_le_step (h : Inv p codec w) {e : StoreEvent T β}
    (he : p.syncsDir = true ∨ ∀ kept torn, e ≠ .crash kept torn) :
    w.promised ≤ (w.step p codec e).promised := by
  have hlt : w.promised < w.history.length := by
    obtain ⟨-, place, value, hle, hvalue, -⟩ := h.kept.now
    exact hle.trans_lt (List.getElem?_eq_some_iff.mp hvalue).1
  have hnewest : w.promised ≤ w.newest := by
    unfold newest
    omega
  cases e with
  | crash kept torn =>
    rcases he with hdir | hcrash
    · show w.promised ≤ if p.syncsDir then w.promised else 0
      rw [if_pos hdir]
    · exact absurd rfl (hcrash kept torn)
  | rename =>
    simp only [Writer.step]
    split
    · split
      · exact le_rfl
      · exact hnewest
    · exact le_rfl
  | syncDir =>
    simp only [Writer.step]
    split
    · exact hnewest
    · exact le_rfl
  | clear =>
    simp only [Writer.step]
    split
    · split
      · exact le_rfl
      · exact hlt.le
    · exact le_rfl
  | begin value => simp only [Writer.step]; split <;> exact le_rfl
  | write count => simp only [Writer.step]; split <;> exact le_rfl
  | syncFile => simp only [Writer.step]; split <;> exact le_rfl
  | fail cleaned => simp only [Writer.step]; split <;> exact le_rfl
  | kill => exact le_rfl

theorem Inv.promised_le_run (h : Inv p codec w) (hp : p.syncsFile = true)
    {events : List (StoreEvent T β)}
    (he : p.syncsDir = true ∨ ∀ e ∈ events, ∀ kept torn, e ≠ .crash kept torn) :
    w.promised ≤ (w.run p codec events).promised := by
  induction events generalizing w with
  | nil => exact le_rfl
  | cons e rest ih =>
    have hfirst := h.promised_le_step (e := e) (he.imp_right fun hall => hall e List.mem_cons_self)
    exact hfirst.trans (ih (h.step hp e)
      (he.imp_right fun hall e' he' => hall e' (List.mem_cons_of_mem _ he')))

/-! ## What is read -/

/-- In every run of a writer that syncs the new file, with any step failing, the process killed and
the machine down anywhere: the state file is missing or parses, and says a value of the history. It
is no older than the last one whose store gave `Ok` at any earlier point, if the writer syncs the
directory too, or if the machine was not down since. -/
theorem run_load {p : Discipline} (hp : p ∈ syncingWriters) (codec : Codec T β)
    (hcodec : codec.Lawful) (before after : List (StoreEvent T β))
    (hafter : p.syncsDir = true ∨ ∀ e ∈ after, ∀ kept torn, e ≠ .crash kept torn) :
    ∃ place value, (init.run p codec before).promised ≤ place ∧
      (init.run p codec (before ++ after)).history[place]? = some value ∧
      (init.run p codec (before ++ after)).load codec = .ok value := by
  have hsync : ∀ p ∈ syncingWriters, p.syncsFile = true := by decide
  have hbefore := (inv_init p codec).run (hsync p hp) before
  have hsplit : init.run p codec (before ++ after) = (init.run p codec before).run p codec after :=
    List.foldl_append ..
  rw [hsplit]
  obtain ⟨place, value, hle, hvalue, hload⟩ := (hbefore.run (hsync p hp) after).load hcodec
  exact ⟨place, value, (hbefore.promised_le_run (hsync p hp) hafter).trans hle, hvalue, hload⟩

/-- Numbers of one byte each. -/
def digits : Codec ℕ ℕ := ⟨fun n => [n], List.head?⟩

theorem run_load_durableState : ∃ place value,
    (init.run durableState digits
      [.begin 5, .write 1, .syncFile, .rename, .syncDir]).promised ≤ place ∧
    (init.run durableState digits
      (([.begin 5, .write 1, .syncFile, .rename, .syncDir] : List (StoreEvent ℕ ℕ)) ++
        ([.begin 7, .crash 1 fun _ => [9]] : List (StoreEvent ℕ ℕ)))).history[place]? =
          some value ∧
    (init.run durableState digits
      (([.begin 5, .write 1, .syncFile, .rename, .syncDir] : List (StoreEvent ℕ ℕ)) ++
        ([.begin 7, .crash 1 fun _ => [9]] : List (StoreEvent ℕ ℕ)))).load digits = .ok value :=
  run_load (by decide) digits (fun _ => rfl) _ _ (.inl rfl)

/-- Without the sync of the new file, a crash behind the rename can leave anything. -/
theorem rcFile_tears (codec : Codec T β) (value : T) (torn : List β) :
    (init.run rcFile codec [.begin value, .write (codec.serialise value).length, .syncFile, .rename,
      .crash 2 fun _ => torn]).files.read .path = some torn := by
  have hrest : (codec.serialise value).drop (codec.serialise value).length = [] := List.drop_length
  simp only [run, List.foldl_cons, List.foldl_nil, Writer.step, init, Files.openTruncated,
    Files.names, Files.empty, hrest]
  rfl

end Writer

end State

end Governance
