import Mathlib

/-!
# A directory across a crash

The names of one directory stand for files. Programs see every change at once; the disk has the
changes of the names up to the last `fsync` of the directory, and the content of a file up to the
last `fsync` of it.

A crash keeps the changes of the names behind that point up to one of them, in their order, as a
journal of metadata does, so that a rename is in effect or is not. A file whose content was changed
behind its last `fsync` can hold anything afterwards. A file that no name stands for is not used
again.
-/

namespace Governance

namespace CrashFiles

variable {ν β : Type*} [DecidableEq ν]

/-- A change of the names. -/
inductive Change (ν : Type*) where
  | link (name : ν) (file : ℕ)
  | rename (source target : ν)
  | unlink (name : ν)

/-- The names behind a change. -/
def Change.apply (names : ν → Option ℕ) : Change ν → ν → Option ℕ
  | .link name file => Function.update names name (some file)
  | .rename source target =>
    Function.update (Function.update names target (names source)) source none
  | .unlink name => Function.update names name none

/-- The directory: its names as they are on disk, the changes since, what the files hold for
programs, and whether that is on disk. Files from `used` on are new. -/
structure Files (ν β : Type*) where
  stored : ν → Option ℕ
  pending : List (Change ν)
  content : ℕ → List β
  synced : ℕ → Bool
  used : ℕ

namespace Files

/-- An empty directory. -/
def empty : Files ν β := ⟨fun _ => none, [], fun _ => [], fun _ => true, 0⟩

/-- The names behind the first `k` changes: what a crash can leave. -/
def view (f : Files ν β) (k : ℕ) : ν → Option ℕ := (f.pending.take k).foldl Change.apply f.stored

/-- The names that programs see. -/
def names (f : Files ν β) : ν → Option ℕ := f.pending.foldl Change.apply f.stored

/-- What a program reads under a name. -/
def read (f : Files ν β) (name : ν) : Option (List β) := (f.names name).map f.content

/-- A change of the names. -/
def change (f : Files ν β) (c : Change ν) : Files ν β := { f with pending := f.pending ++ [c] }

/-- New content of a file. -/
def setContent (f : Files ν β) (file : ℕ) (bytes : List β) : Files ν β :=
  { f with content := Function.update f.content file bytes
           synced := Function.update f.synced file false }

/-- `open` with `O_CREAT` and `O_TRUNC`: the file that is opened, and the directory behind it. -/
def openTruncated (f : Files ν β) (name : ν) : ℕ × Files ν β :=
  match f.names name with
  | some file => (file, f.setContent file [])
  | none => (f.used, { (f.setContent f.used []).change (.link name f.used) with used := f.used + 1 })

/-- `write` at the end of an open file. -/
def write (f : Files ν β) (file : ℕ) (bytes : List β) : Files ν β :=
  f.setContent file (f.content file ++ bytes)

/-- `fsync` of a file. -/
def syncFile (f : Files ν β) (file : ℕ) : Files ν β :=
  { f with synced := Function.update f.synced file true }

/-- `fsync` of the directory. -/
def syncDir (f : Files ν β) : Files ν β := { f with stored := f.names, pending := [] }

/-- A crash, with how many changes of the names are kept and what the files hold that were not
synced. -/
def crash (f : Files ν β) (kept : ℕ) (torn : ℕ → List β) : Files ν β :=
  ⟨f.view kept, [], fun i => if f.synced i then f.content i else torn i, fun _ => true, f.used⟩

variable {f : Files ν β} {a b : ν} {file k : ℕ}

/-! ## The views -/

theorem view_of_le (h : f.pending.length ≤ k) : f.view k = f.names := by
  rw [view, names, List.take_of_length_le h]

theorem view_of_pending_nil (h : f.pending = []) (k : ℕ) : f.view k = f.names :=
  view_of_le (by rw [h]; exact Nat.zero_le _)

@[simp] theorem names_change (c : Change ν) : (f.change c).names = c.apply f.names := by
  rw [names, change, List.foldl_append, List.foldl_cons, List.foldl_nil, names]

/-- A view of a changed directory is an old one, or the new names. -/
theorem view_change (c : Change ν) (k : ℕ) :
    (f.change c).view k = f.view k ∧ k ≤ f.pending.length ∨
      (f.change c).view k = c.apply f.names ∧ f.pending.length < k := by
  rcases Nat.lt_or_ge f.pending.length k with h | h
  · refine .inr ⟨?_, h⟩
    rw [view_of_le (by rw [change, List.length_append, List.length_singleton]; exact h),
      names_change]
  · refine .inl ⟨?_, h⟩
    show ((f.pending ++ [c]).take k).foldl Change.apply f.stored = _
    rw [List.take_append_of_le_length h, view]

@[simp] theorem view_setContent (bytes : List β) : (f.setContent file bytes).view = f.view := rfl

@[simp] theorem view_syncFile : (f.syncFile file).view = f.view := rfl

@[simp] theorem names_setContent (bytes : List β) : (f.setContent file bytes).names = f.names := rfl

@[simp] theorem names_syncFile : (f.syncFile file).names = f.names := rfl

@[simp] theorem view_syncDir (k : ℕ) : f.syncDir.view k = f.names := view_of_pending_nil rfl k

@[simp] theorem names_syncDir : f.syncDir.names = f.names := rfl

@[simp] theorem view_crash (kept : ℕ) (torn : ℕ → List β) (k : ℕ) :
    (f.crash kept torn).view k = f.view kept := view_of_pending_nil rfl k

@[simp] theorem names_crash (kept : ℕ) (torn : ℕ → List β) :
    (f.crash kept torn).names = f.view kept := rfl

/-! ## What holds of every view -/

/-- `P` holds of the names after a crash, however much of them it keeps, and of those now. -/
def Everywhere (P : (ν → Option ℕ) → Prop) (f : Files ν β) : Prop := ∀ k, P (f.view k)

namespace Everywhere

variable {P Q : (ν → Option ℕ) → Prop}

theorem names (h : Everywhere P f) : P f.names := by
  rw [← view_of_le le_rfl]
  exact h _

theorem mono (h : Everywhere P f) (hPQ : ∀ names, P names → Q names) : Everywhere Q f :=
  fun k => hPQ _ (h k)

theorem change (h : Everywhere P f) {c : Change ν} (hc : P (c.apply f.names)) :
    Everywhere P (f.change c) := by
  intro k
  rcases view_change (f := f) c k with ⟨heq, -⟩ | ⟨heq, -⟩
  · rw [heq]
    exact h k
  · rw [heq]
    exact hc

theorem syncDir (h : P f.names) : Everywhere P f.syncDir := by
  intro k
  rw [view_syncDir]
  exact h

theorem crash (h : Everywhere P f) (kept : ℕ) (torn : ℕ → List β) :
    Everywhere P (f.crash kept torn) := by
  intro k
  rw [view_crash]
  exact h kept

end Everywhere

/-- No name stands for a new file. -/
def Known (f : Files ν β) : Prop := Everywhere (fun names => ∀ n i, names n = some i → i < f.used) f

/-- A file that the name `a` stood for is not one that `b` stands for then or later. So a program
that opens `b` does not write to what a crash can leave under `a`. -/
def Apart (a b : ν) (f : Files ν β) : Prop :=
  ∀ k k' i, k ≤ k' → f.view k a = some i → f.view k' b ≠ some i

theorem Apart.names (h : Apart a b f) {i : ℕ} (hi : f.view k a = some i) : f.names b ≠ some i := by
  rw [← view_of_le (le_max_left f.pending.length k)]
  exact h k _ i (le_max_right _ _) hi

/-- A change keeps two names apart when it does so for the names it leaves, and when the second
name does not get a file that the first one had. -/
theorem Apart.change (h : Apart a b f) {c : Change ν}
    (hnew : ∀ i, c.apply f.names a = some i → c.apply f.names b ≠ some i)
    (hold : ∀ k i, f.view k a = some i → c.apply f.names b ≠ some i) : Apart a b (f.change c) := by
  intro k k' i hle hi
  rcases view_change (f := f) c k with ⟨hk, -⟩ | ⟨hk, hlt⟩
  · rw [hk] at hi
    rcases view_change (f := f) c k' with ⟨hk', -⟩ | ⟨hk', -⟩
    · rw [hk']
      exact h k k' i hle hi
    · rw [hk']
      exact hold k i hi
  · rw [hk] at hi
    rcases view_change (f := f) c k' with ⟨-, hle'⟩ | ⟨hk', -⟩
    · exact absurd (hlt.trans_le hle) (by omega)
    · rw [hk']
      exact hnew i hi

theorem Apart.syncDir (h : Apart a b f) : Apart a b f.syncDir := by
  intro k k' i _ hi
  rw [view_syncDir] at hi ⊢
  rw [← view_of_le le_rfl] at hi
  exact h.names hi

theorem Apart.crash (h : Apart a b f) (kept : ℕ) (torn : ℕ → List β) :
    Apart a b (f.crash kept torn) := by
  intro k k' i _ hi
  rw [view_crash] at hi ⊢
  exact h kept kept i le_rfl hi

/-- `a` stands for nothing, or for a file that is on disk as a content that `P` allows. -/
def Holds (P : Option (List β) → Prop) (a : ν) (f : Files ν β) (names : ν → Option ℕ) : Prop :=
  (∀ i, names a = some i → f.synced i = true) ∧ P ((names a).map f.content)

omit [DecidableEq ν] in
/-- A change of a file that `a` does not stand for changes nothing there. -/
theorem Holds.of_agree {P : Option (List β) → Prop} {names : ν → Option ℕ} (h : Holds P a f names)
    {f' : Files ν β} (hagree : ∀ i, names a = some i →
      f'.synced i = f.synced i ∧ f'.content i = f.content i) : Holds P a f' names := by
  refine ⟨?_, ?_⟩
  · intro i hi
    rw [(hagree i hi).1]
    exact h.1 i hi
  · cases hi : names a with
    | none =>
      have := h.2
      rw [hi] at this
      exact this
    | some i =>
      have := h.2
      rw [hi] at this
      rw [Option.map_some, (hagree i hi).2]
      exact this

omit [DecidableEq ν] in
theorem Holds.setContent {P : Option (List β) → Prop} {names : ν → Option ℕ}
    (h : Holds P a f names) (hne : names a ≠ some file) (bytes : List β) :
    Holds P a (f.setContent file bytes) names := by
  refine h.of_agree ?_
  intro i hi
  have hi' : i ≠ file := by
    rintro rfl
    exact hne hi
  exact ⟨Function.update_of_ne hi' _ _, Function.update_of_ne hi' _ _⟩

omit [DecidableEq ν] in
theorem Holds.syncFile {P : Option (List β) → Prop} {names : ν → Option ℕ}
    (h : Holds P a f names) (file : ℕ) : Holds P a (f.syncFile file) names := by
  refine h.of_agree ?_
  intro i hi
  refine ⟨?_, rfl⟩
  show Function.update f.synced file true i = f.synced i
  rw [Function.update_apply]
  split
  · exact (h.1 i hi).symm
  · rfl

/-- A crash does not tear a file that is on disk. -/
theorem Holds.crash {P : Option (List β) → Prop} {names : ν → Option ℕ} (h : Holds P a f names)
    (kept : ℕ) (torn : ℕ → List β) : Holds P a (f.crash kept torn) names := by
  refine h.of_agree ?_
  intro i hi
  have hsynced := h.1 i hi
  refine ⟨hsynced.symm, ?_⟩
  show (if f.synced i then f.content i else torn i) = f.content i
  rw [if_pos hsynced]

omit [DecidableEq ν] in
theorem Holds.mono {P Q : Option (List β) → Prop} {names : ν → Option ℕ} (h : Holds P a f names)
    (hPQ : ∀ content, P content → Q content) : Holds Q a f names := ⟨h.1, hPQ _ h.2⟩

/-! ## A name that is replaced -/

/-- `a` has a content on disk that `P` allows whatever a crash keeps, and programs see one there
that `Q` allows. -/
structure Kept (P Q : Option (List β) → Prop) (a : ν) (f : Files ν β) : Prop where
  everywhere : Everywhere (Holds P a f) f
  now : Holds Q a f f.names

namespace Kept

variable {P Q P' Q' : Option (List β) → Prop}

theorem mono (h : Kept P Q a f) (hP : ∀ content, P content → P' content)
    (hQ : ∀ content, Q content → Q' content) : Kept P' Q' a f :=
  ⟨h.everywhere.mono fun _ hnames => hnames.mono hP, h.now.mono hQ⟩

/-- Writing to a file that no crash brings back under `a`. -/
theorem setContent (h : Kept P Q a f) (hne : ∀ k, f.view k a ≠ some file) (bytes : List β) :
    Kept P Q a (f.setContent file bytes) := by
  refine ⟨fun k => (h.everywhere k).setContent (hne k) bytes, h.now.setContent ?_ bytes⟩
  rw [← view_of_le le_rfl]
  exact hne _

theorem syncFile (h : Kept P Q a f) (file : ℕ) : Kept P Q a (f.syncFile file) :=
  ⟨fun k => (h.everywhere k).syncFile file, h.now.syncFile file⟩

/-- A change of the names that leaves a content for `a` that both allow. -/
theorem change (h : Kept P Q a f) {c : Change ν} (hP : Holds P a f (c.apply f.names))
    (hQ : Holds Q' a f (c.apply f.names)) : Kept P Q' a (f.change c) := by
  refine ⟨Everywhere.change (P := Holds P a (f.change c)) h.everywhere hP, ?_⟩
  rw [names_change]
  exact hQ

/-- A change of other names. -/
theorem change_other (h : Kept P Q a f) {c : Change ν} (hc : c.apply f.names a = f.names a) :
    Kept P Q a (f.change c) := by
  have hsame : ∀ {R : Option (List β) → Prop}, Holds R a f f.names →
      Holds R a f (c.apply f.names) := by
    intro R hR
    unfold Holds
    rw [hc]
    exact hR
  exact h.change (hsame h.everywhere.names) (hsame h.now)

/-- Behind an `fsync` of the directory, a crash gives what programs see. -/
theorem syncDir (h : Kept P Q a f) : Kept Q Q a f.syncDir :=
  ⟨Everywhere.syncDir (P := Holds Q a f.syncDir) h.now, h.now⟩

/-- Behind a crash, programs see what the crash could leave. -/
theorem crash (h : Kept P Q a f) (kept : ℕ) (torn : ℕ → List β) :
    Kept P P a (f.crash kept torn) := by
  have hall := Everywhere.crash (P := Holds P a (f.crash kept torn))
    (fun k => (h.everywhere k).crash kept torn) kept torn
  exact ⟨hall, hall.names⟩

end Kept

/-! ## Opening the file that replaces it -/

theorem Known.lt (h : Known f) {n : ν} {i : ℕ} (hi : f.view k n = some i) : i < f.used := h k n i hi

theorem Known.lt_names (h : Known f) {n : ν} {i : ℕ} (hi : f.names n = some i) : i < f.used :=
  Everywhere.names h n i hi

/-- A change that gives no name a new file. -/
theorem Known.change (h : Known f) {c : Change ν}
    (hc : ∀ n i, c.apply f.names n = some i → ∃ m, f.names m = some i) : Known (f.change c) := by
  refine Everywhere.change h ?_
  intro n i hi
  obtain ⟨m, hm⟩ := hc n i hi
  exact h.lt_names hm

theorem Known.rename (h : Known f) (source target : ν) :
    Known (f.change (.rename source target)) := by
  refine h.change ?_
  intro n i hi
  simp only [Change.apply, Function.update_apply] at hi
  split at hi
  · cases hi
  · split at hi
    · exact ⟨_, hi⟩
    · exact ⟨_, hi⟩

theorem Known.unlink (h : Known f) (name : ν) : Known (f.change (.unlink name)) := by
  refine h.change ?_
  intro n i hi
  simp only [Change.apply, Function.update_apply] at hi
  split at hi
  · cases hi
  · exact ⟨_, hi⟩

theorem Known.openTruncated (h : Known f) (name : ν) : Known (f.openTruncated name).2 := by
  unfold Files.openTruncated
  split
  · exact h
  · intro k n i hi
    show i < f.used + 1
    rcases view_change (f := f.setContent f.used []) (.link name f.used) k with ⟨hk, -⟩ | ⟨hk, -⟩
    · have hi : f.view k n = some i := by
        rw [← hi]
        exact congrFun hk.symm n
      exact (h.lt hi).trans (Nat.lt_succ_self _)
    · have hi : Change.apply f.names (.link name f.used) n = some i := by
        rw [← hi]
        exact congrFun hk.symm n
      simp only [Change.apply, Function.update_apply] at hi
      split at hi
      · obtain rfl := Option.some.inj hi
        exact Nat.lt_succ_self _
      · exact (h.lt_names hi).trans (Nat.lt_succ_self _)

/-- The file that is opened is empty, and the name stands for it. -/
theorem openTruncated_spec (f : Files ν β) (name : ν) :
    (f.openTruncated name).2.names name = some (f.openTruncated name).1 ∧
      (f.openTruncated name).2.content (f.openTruncated name).1 = [] := by
  unfold Files.openTruncated
  split
  · next file hfile => exact ⟨hfile, Function.update_self ..⟩
  · refine ⟨?_, Function.update_self ..⟩
    show ((f.setContent f.used []).change (.link name f.used)).names name = some f.used
    rw [names_change]
    exact Function.update_self ..

theorem Apart.openTruncated (h : Apart a b f) (hknown : Known f) (hab : a ≠ b) :
    Apart a b (f.openTruncated b).2 := by
  unfold Files.openTruncated
  split
  · exact h
  · refine Apart.change (f := f.setContent f.used []) h ?_ ?_
    · intro i hi
      simp only [Change.apply, Function.update_of_ne hab] at hi
      simp only [Change.apply, Function.update_self]
      intro heq
      obtain rfl := Option.some.inj heq
      exact absurd (hknown.lt_names hi) (lt_irrefl _)
    · intro k i hi
      simp only [Change.apply, Function.update_self]
      intro heq
      obtain rfl := Option.some.inj heq
      exact absurd (hknown.lt hi) (lt_irrefl _)

theorem Kept.openTruncated {P Q : Option (List β) → Prop} (h : Kept P Q a f)
    (hapart : Apart a b f) (hknown : Known f) (hab : a ≠ b) :
    Kept P Q a (f.openTruncated b).2 := by
  unfold Files.openTruncated
  split
  · next file hfile => exact h.setContent (fun k hk => hapart.names hk hfile) []
  · have hnew : ∀ k, f.view k a ≠ some f.used := fun k hk => lt_irrefl _ (hknown.lt hk)
    have hother := (h.setContent hnew []).change_other (c := .link b f.used)
      (Function.update_of_ne hab _ _)
    exact ⟨hother.everywhere, hother.now⟩

/-- The renamed file is gone from the second name. -/
theorem Apart.rename (h : Apart a b f) : Apart a b (f.change (.rename b a)) := by
  have hgone : Change.apply f.names (.rename b a) b = none := Function.update_self ..
  refine h.change ?_ ?_
  · intro i _
    rw [hgone]
    exact fun h => by cases h
  · intro k i _
    rw [hgone]
    exact fun h => by cases h

theorem Apart.unlink_first (h : Apart a b f) (hab : a ≠ b) :
    Apart a b (f.change (.unlink a)) := by
  refine h.change ?_ ?_
  · intro i hi
    simp only [Change.apply, Function.update_self] at hi
    cases hi
  · intro k i hi
    simp only [Change.apply, Function.update_of_ne hab.symm]
    exact h.names hi

theorem Apart.unlink_second (h : Apart a b f) : Apart a b (f.change (.unlink b)) := by
  have hgone : Change.apply f.names (.unlink b) b = none := Function.update_self ..
  refine h.change ?_ ?_
  · intro i _
    rw [hgone]
    exact fun h => by cases h
  · intro k i _
    rw [hgone]
    exact fun h => by cases h

/-! ## What is read -/

/-- Writing to a file is not seen under a name that stands for another. -/
theorem read_setContent (hne : f.names a ≠ some file) (bytes : List β) :
    (f.setContent file bytes).read a = f.read a := by
  unfold read
  rw [names_setContent]
  cases hi : f.names a with
  | none => rfl
  | some i =>
    have hother : i ≠ file := fun heq => hne (hi.trans (congrArg some heq))
    show some (Function.update f.content file bytes i) = some (f.content i)
    rw [Function.update_of_ne hother]

/-- A change of other names is not seen. -/
theorem read_change {c : Change ν} (hc : c.apply f.names a = f.names a) :
    (f.change c).read a = f.read a := by
  unfold read
  rw [names_change, hc]
  rfl

/-- Opening a file is not seen under a name that is kept apart from it. -/
theorem read_openTruncated (hapart : Apart a b f) (hknown : Known f) (hab : a ≠ b) :
    (f.openTruncated b).2.read a = f.read a := by
  have hother : ∀ file, f.names b = some file ∨ file = f.used → f.names a ≠ some file := by
    rintro file (hfile | rfl) hi
    · rw [← view_of_le le_rfl] at hi
      exact hapart.names hi hfile
    · exact lt_irrefl _ (hknown.lt_names hi)
  unfold Files.openTruncated
  split
  · next file hfile => exact read_setContent (hother file (.inl hfile)) []
  · have hlink : ((f.setContent f.used []).change (.link b f.used)).read a =
        (f.setContent f.used []).read a := by
      refine read_change ?_
      show Function.update f.names b (some f.used) a = f.names a
      rw [Function.update_of_ne hab]
    exact hlink.trans (read_setContent (hother f.used (.inr rfl)) [])

end Files

end CrashFiles

end Governance
