import Governance.Lib.CrashFiles
import Governance.Update.Newer
import Mathlib.Logic.Relation

/-!
# Self-update

`update/mod.rs`: `run` asks for the latest release, and where that is newer than the running binary
and the path is not a package manager's, it downloads the binary for the platform, checks it against
its checksum, writes it next to the executable and renames it over that. Every step of that can
fail, the process can be killed between any two, and the machine can go down. There is one update at
a time.

What is at the path of the executable is always a whole binary, the one it was or one that such a
chain of updates led to. While the machine is up its version only goes up, and the release that is
installed is not installed again.
-/

namespace Governance

open Utf8Text CrashFiles Relation

namespace Update

abbrev Bytes := List UInt8

structure Asset where
  name : Text
  browserDownloadUrl : Text

structure Release where
  tagName : Text
  assets : List Asset

/-- What the releases API answers. -/
inductive Reply where
  | failed
  | notFound
  | release (release : Release)

/-- What an update goes by that does not change: the path of the executable, resolved, the asset for
the platform, the `VERSION` that is built into a binary, and the SHA-256 of bytes in hexadecimal. -/
structure Platform where
  shown : Text
  assetName : Text
  versionOf : Bytes → Text
  sha256Hex : Bytes → Text

/-- What one run finds: the reply, what URLs give, its flag, and whether it can write next to the
executable. -/
structure Offer where
  reply : Reply
  download : Text → Option Bytes
  checkOnly : Bool
  writable : Bool

/-- Why a run installs nothing. -/
inductive Stop where
  | queryFailed
  | nothingPublished
  | upToDate
  | checkOnly
  | packageManaged (command : String)
  | distroPackaged
  | notWritable
  | noAssetForPlatform
  | assetMissing
  | checksumMissing
  | downloadFailed
  | checksumEmpty
  | checksumMismatch
  deriving DecidableEq

/-- The `managed` prefixes, with what updates them. -/
def managed : List (String × String) :=
  [("/Cellar/", "brew upgrade governance-auth"), ("/homebrew/", "brew upgrade governance-auth"),
    ("/linuxbrew/", "brew upgrade governance-auth"),
    ("/nix/store/", "nix profile upgrade governance-auth"),
    ("/.asdf/", "asdf install governance-auth latest"), ("/mise/", "mise up governance-auth")]

def startsWith (t : Text) (s : String) : Bool := s.toList.isPrefixOf t

/-- `ensure_replaceable`. -/
def ensureReplaceable (shown : Text) (writable : Bool) : Except Stop Unit :=
  match managed.find? fun m => decide (m.1.toList <:+: shown) with
  | some m => .error (.packageManaged m.2)
  | none =>
    if (startsWith shown "/usr/" && !startsWith shown "/usr/local/") || startsWith shown "/bin/" ||
        startsWith shown "/sbin/" then
      .error .distroPackaged
    else if writable then .ok ()
    else .error .notWritable

/-- `split_whitespace().next()`, empty where there is none. -/
def firstWord (t : Text) : Text := (t.dropWhile isWhiteSpace).takeWhile fun c => !isWhiteSpace c

namespace Platform

variable (pf : Platform)

/-- `verify_checksum`. -/
def verifyChecksum (bytes checksumFile : Bytes) : Except Stop Unit :=
  let expected := firstWord (fromUtf8Lossy checksumFile)
  if expected = [] then .error .checksumEmpty
  else if pf.sha256Hex bytes = expected.map Char.toLower then .ok ()
  else .error .checksumMismatch

/-- The download of `run`. -/
def fetch (o : Offer) (r : Release) : Except Stop Bytes :=
  if pf.assetName = [] then .error .noAssetForPlatform
  else
    match r.assets.find? fun a => a.name = pf.assetName with
    | none => .error .assetMissing
    | some binary =>
      match r.assets.find? fun a => a.name = pf.assetName ++ ".sha256".toList with
      | none => .error .checksumMissing
      | some checksum =>
        match o.download binary.browserDownloadUrl, o.download checksum.browserDownloadUrl with
        | some bytes, some expected => (pf.verifyChecksum bytes expected).map fun _ => bytes
        | _, _ => .error .downloadFailed

/-- `run` of the binary `current`, up to `install`. -/
def prepare (current : Bytes) (o : Offer) : Except Stop Bytes :=
  match o.reply with
  | .failed => .error .queryFailed
  | .notFound => .error .nothingPublished
  | .release r =>
    if !isNewer (normaliseVersion r.tagName) (normaliseVersion (pf.versionOf current)) then
      .error .upToDate
    else if o.checkOnly then .error .checkOnly
    else
      match ensureReplaceable pf.shown o.writable with
      | .error stop => .error stop
      | .ok () => pf.fetch o r

/-- What a run has seen to before it installs a binary over another. -/
structure Taken (o : Offer) (current new : Bytes) (r : Release) : Prop where
  reply : o.reply = .release r
  newer : Newer r.tagName (pf.versionOf current)
  asked : o.checkOnly = false
  replaceable : ensureReplaceable pf.shown o.writable = .ok ()
  /-- Both come from assets of the release, under the names for the platform. -/
  binary : ∃ a ∈ r.assets, a.name = pf.assetName ∧ o.download a.browserDownloadUrl = some new
  checksum : ∃ a ∈ r.assets, a.name = pf.assetName ++ ".sha256".toList ∧
    ∃ file, o.download a.browserDownloadUrl = some file ∧ pf.verifyChecksum new file = .ok ()

variable {pf}

theorem fetch_ok {o : Offer} {r : Release} {new : Bytes} (h : pf.fetch o r = .ok new) :
    (∃ a ∈ r.assets, a.name = pf.assetName ∧ o.download a.browserDownloadUrl = some new) ∧
      ∃ a ∈ r.assets, a.name = pf.assetName ++ ".sha256".toList ∧
        ∃ file, o.download a.browserDownloadUrl = some file ∧
          pf.verifyChecksum new file = .ok () := by
  unfold fetch at h
  split at h
  · cases h
  split at h
  · cases h
  · next binary hbinary =>
    split at h
    · cases h
    · next checksum hchecksum =>
      split at h
      · next bytes expected hbytes hexpected =>
        cases hverified : pf.verifyChecksum bytes expected with
        | error stop =>
          rw [hverified] at h
          cases h
        | ok u =>
          rw [hverified] at h
          obtain rfl : bytes = new := Except.ok.inj h
          refine ⟨⟨binary, List.mem_of_find?_eq_some hbinary, ?_, hbytes⟩, checksum,
            List.mem_of_find?_eq_some hchecksum, ?_, expected, hexpected, hverified⟩
          · have hname := List.find?_some hbinary
            exact of_decide_eq_true hname
          · have hname := List.find?_some hchecksum
            exact of_decide_eq_true hname
      · cases h

theorem prepare_ok {current new : Bytes} {o : Offer} (h : pf.prepare current o = .ok new) :
    ∃ r, pf.Taken o current new r := by
  unfold prepare at h
  split at h
  · cases h
  · cases h
  · next r hreply =>
    split at h
    · cases h
    · next hnewer =>
      split at h
      · cases h
      · next hasked =>
        split at h
        · cases h
        · next hreplaceable =>
          obtain ⟨hbinary, hchecksum⟩ := fetch_ok h
          exact ⟨r, hreply, by simpa [Newer] using hnewer, by simpa using hasked, hreplaceable,
            hbinary, hchecksum⟩

/-- The release that is installed is not installed again. -/
theorem prepare_installed {current : Bytes} {o : Offer} {r : Release}
    (hreply : o.reply = .release r) (htag : r.tagName = pf.versionOf current) :
    pf.prepare current o = .error .upToDate := by
  have hsame : isNewer (normaliseVersion r.tagName) (normaliseVersion (pf.versionOf current)) =
      false := by
    rw [htag, Bool.eq_false_iff, Ne, isNewer_iff]
    exact SemVer.PaddedLt.irrefl _
  unfold prepare
  simp only [hreply, hsame, Bool.not_false, if_true]

end Platform

/-! ## Installing -/

/-- The executable, and the file that is renamed over it. -/
inductive FileName where
  | target
  | staged
  deriving DecidableEq

/-- Where `install` stands: it still has to write some bytes to the open file, or the file is
closed. -/
inductive Stage where
  | idle
  | writing (file : ℕ) (rest : Bytes)
  | closed

/-- The directory of the executable, and the update under way. -/
structure Laptop where
  files : Files FileName UInt8
  stage : Stage

/-- What happens next. -/
inductive Event where
  | selfUpdate (o : Offer)
  | write (count : ℕ)
  | syncFile
  | rename
  | fail
  | kill
  | crash (kept : ℕ) (torn : ℕ → Bytes)

namespace Laptop

/-- A laptop with a binary that was installed by hand. -/
def init (binary : Bytes) : Laptop :=
  ⟨⟨fun n => if n = .target then some 0 else none, [], fun _ => binary, fun _ => true, 1⟩, .idle⟩

/-- The executable, as it is at its path. -/
def executable (w : Laptop) : Option Bytes := w.files.read .target

/-- One event. A step that is not the next one of the update does nothing, and a run while another
one installs is left out. -/
def step (pf : Platform) (w : Laptop) : Event → Laptop
  | .selfUpdate o =>
    match w.stage, w.executable with
    | .idle, some current =>
      match pf.prepare current o with
      | .error _ => w
      | .ok bytes =>
        let opened := w.files.openTruncated .staged
        ⟨opened.2, .writing opened.1 bytes⟩
    | _, _ => w
  | .write count =>
    match w.stage with
    | .writing file rest => ⟨w.files.write file (rest.take count), .writing file (rest.drop count)⟩
    | _ => w
  | .syncFile =>
    match w.stage with
    | .writing file [] => ⟨w.files.syncFile file, .closed⟩
    | _ => w
  | .rename =>
    match w.stage with
    | .closed => ⟨w.files.change (.rename .staged .target), .idle⟩
    | _ => w
  -- what is staged stays where it is
  | .fail | .kill => { w with stage := .idle }
  | .crash kept torn => ⟨w.files.crash kept torn, .idle⟩

/-- A run. -/
def run (pf : Platform) (w : Laptop) (events : List Event) : Laptop := events.foldl (step pf) w

/-! ## The invariant -/

/-- An update of these events led from one binary to another. -/
def Led (pf : Platform) (events : List Event) (current new : Bytes) : Prop :=
  ∃ o r, .selfUpdate o ∈ events ∧ pf.Taken o current new r

/-- A chain of updates led to the content. -/
def Vetted (step : Bytes → Bytes → Prop) (binary : Bytes) (content : Option Bytes) : Prop :=
  ∃ b, content = some b ∧ ReflTransGen step binary b

/-- The open file is to hold what an update leads to from the executable, and does once closed. -/
def AtStage (step : Bytes → Bytes → Prop) (w : Laptop) : Prop :=
  match w.stage with
  | .idle => True
  | .writing file rest => w.files.names .staged = some file ∧
      ∃ current, w.executable = some current ∧ step current (w.files.content file ++ rest)
  | .closed => ∃ file, w.files.names .staged = some file ∧ w.files.synced file = true ∧
      ∃ current, w.executable = some current ∧ step current (w.files.content file)

/-- Whatever a crash keeps, the executable is a vetted binary, whole and on disk; and no update
writes to it. -/
structure Inv (step : Bytes → Bytes → Prop) (binary : Bytes) (w : Laptop) : Prop where
  known : w.files.Known
  apart : w.files.Apart .target .staged
  kept : w.files.Kept (Vetted step binary) (Vetted step binary) .target
  stage : AtStage step w

variable {pf : Platform} {led : Bytes → Bytes → Prop} {binary : Bytes} {w : Laptop}

theorem target_ne_staged : FileName.target ≠ FileName.staged := by decide

theorem inv_init (led : Bytes → Bytes → Prop) (binary : Bytes) : Inv led binary (init binary) := by
  have hview : ∀ k, (init binary).files.view k =
      fun n => if n = .target then some 0 else none := by
    intro k
    cases k <;> rfl
  have hholds : ∀ k, (init binary).files.Holds (Vetted led binary) .target
      ((init binary).files.view k) := by
    intro k
    rw [hview]
    exact ⟨fun _ _ => rfl, binary, rfl, .refl⟩
  refine ⟨?_, ?_, ⟨hholds, hholds 0⟩, trivial⟩
  · intro k n i hi
    rw [hview] at hi
    by_cases hn : n = .target
    · obtain rfl : 0 = i := Option.some.inj ((if_pos hn).symm.trans hi)
      exact Nat.zero_lt_one
    · cases (if_neg hn).symm.trans hi
  · intro k k' i _ _ hi
    rw [hview] at hi
    cases hi

/-- A process that stops leaves the files as they are. -/
theorem Inv.stop (h : Inv led binary w) : Inv led binary { w with stage := .idle } :=
  ⟨h.known, h.apart, h.kept, trivial⟩

/-- While an update stages a binary, the executable stays. -/
theorem Inv.selfUpdate (h : Inv led binary w) (o : Offer)
    (hled : ∀ current new, pf.prepare current o = .ok new → led current new) :
    Inv led binary (w.step pf (.selfUpdate o)) ∧
      (w.step pf (.selfUpdate o)).executable = w.executable := by
  simp only [step]
  split
  · next current hstage hcurrent =>
    cases hprepared : pf.prepare current o with
    | error stop => exact ⟨h, rfl⟩
    | ok bytes =>
      obtain ⟨hname, hcontent⟩ := w.files.openTruncated_spec .staged
      have hread : (w.files.openTruncated .staged).2.read .target = w.files.read .target :=
        Files.read_openTruncated h.apart h.known target_ne_staged
      refine ⟨⟨h.known.openTruncated _, h.apart.openTruncated h.known target_ne_staged,
        h.kept.openTruncated h.apart h.known target_ne_staged, hname, current, ?_, ?_⟩, hread⟩
      · exact hread.trans hcurrent
      · rw [hcontent, List.nil_append]
        exact hled current bytes hprepared
  · exact ⟨h, rfl⟩

theorem Inv.write (h : Inv led binary w) (pf : Platform) (count : ℕ) :
    Inv led binary (w.step pf (.write count)) ∧
      (w.step pf (.write count)).executable = w.executable := by
  simp only [step]
  split
  · next file rest hstage =>
    have hat := h.stage
    simp only [AtStage, hstage] at hat
    obtain ⟨hname, current, hcurrent, hstep⟩ := hat
    -- the open file is the staged one, so it is not what a crash brings back
    have hother : ∀ k, w.files.view k .target ≠ some file := fun k hk => h.apart.names hk hname
    have hread : (w.files.write file (rest.take count)).read .target = w.files.read .target := by
      refine Files.read_setContent (fun hi => hother w.files.pending.length ?_) _
      rw [Files.view_of_le le_rfl]
      exact hi
    refine ⟨⟨h.known, h.apart, h.kept.setContent hother _, hname, current,
      hread.trans hcurrent, ?_⟩, hread⟩
    show led current (Function.update w.files.content file
      (w.files.content file ++ rest.take count) file ++ rest.drop count)
    rw [Function.update_self, List.append_assoc, List.take_append_drop]
    exact hstep
  · exact ⟨h, rfl⟩

theorem Inv.syncFile (h : Inv led binary w) (pf : Platform) :
    Inv led binary (w.step pf .syncFile) ∧
      (w.step pf .syncFile).executable = w.executable := by
  simp only [step]
  split
  · next file hstage =>
    have hat := h.stage
    simp only [AtStage, hstage, List.append_nil] at hat
    obtain ⟨hname, current, hcurrent, hstep⟩ := hat
    exact ⟨⟨h.known, h.apart, h.kept.syncFile file, file, hname, Function.update_self .., current,
      hcurrent, hstep⟩, rfl⟩
  · exact ⟨h, rfl⟩

/-- A staged binary can be renamed over the executable. -/
theorem Inv.rename (h : Inv led binary w) (pf : Platform) :
    Inv led binary (w.step pf .rename) ∧
      ((w.step pf .rename).executable = w.executable ∨
        ∃ current new, w.executable = some current ∧ led current new ∧
          (w.step pf .rename).executable = some new) := by
  simp only [step]
  split
  · next hstage =>
    have hat := h.stage
    simp only [AtStage, hstage] at hat
    obtain ⟨file, hname, hsynced, current, hcurrent, hstep⟩ := hat
    have hpath : Change.apply w.files.names (.rename .staged .target) .target = some file := by
      simp only [Change.apply]
      rw [Function.update_of_ne target_ne_staged, Function.update_self, hname]
    -- the executable that is replaced was vetted, so what replaces it is
    obtain ⟨-, old, hold, hchain⟩ := h.kept.now
    obtain rfl : old = current := Option.some.inj (hold.symm.trans hcurrent)
    have hnew : w.files.Holds (Vetted led binary) .target
        (Change.apply w.files.names (.rename .staged .target)) := by
      refine ⟨?_, w.files.content file, ?_, hchain.tail hstep⟩
      · intro i hi
        obtain rfl : file = i := Option.some.inj (hpath.symm.trans hi)
        exact hsynced
      · rw [hpath]
        rfl
    refine ⟨⟨h.known.rename _ _, h.apart.rename, h.kept.change hnew hnew, trivial⟩, .inr ?_⟩
    refine ⟨old, w.files.content file, hcurrent, hstep, ?_⟩
    show ((w.files.change (.rename .staged .target)).names .target).map w.files.content = _
    rw [Files.names_change, hpath]
    rfl
  · exact ⟨h, .inl rfl⟩

theorem Inv.crash (h : Inv led binary w) (kept : ℕ) (torn : ℕ → Bytes) :
    Inv led binary (w.step pf (.crash kept torn)) :=
  ⟨Files.Everywhere.crash h.known kept torn, h.apart.crash kept torn, h.kept.crash kept torn,
    trivial⟩

/-- One event keeps the invariant; unless the machine goes down, the executable stays or is the
binary that an update leads to from it. -/
theorem Inv.step (h : Inv led binary w) (pf : Platform) {e : Event}
    (hled : ∀ o, e = .selfUpdate o → ∀ current new, pf.prepare current o = .ok new →
      led current new) :
    Inv led binary (w.step pf e) ∧
      ((∀ kept torn, e ≠ .crash kept torn) →
        (w.step pf e).executable = w.executable ∨
          ∃ current new, w.executable = some current ∧ led current new ∧
            (w.step pf e).executable = some new) := by
  cases e with
  | selfUpdate o =>
    obtain ⟨hinv, hsame⟩ := h.selfUpdate o (hled o rfl)
    exact ⟨hinv, fun _ => .inl hsame⟩
  | write count =>
    obtain ⟨hinv, hsame⟩ := h.write pf count
    exact ⟨hinv, fun _ => .inl hsame⟩
  | syncFile =>
    obtain ⟨hinv, hsame⟩ := h.syncFile pf
    exact ⟨hinv, fun _ => .inl hsame⟩
  | rename =>
    obtain ⟨hinv, hnext⟩ := h.rename pf
    exact ⟨hinv, fun _ => hnext⟩
  | fail => exact ⟨h.stop, fun _ => .inl rfl⟩
  | kill => exact ⟨h.stop, fun _ => .inl rfl⟩
  | crash kept torn => exact ⟨h.crash kept torn, fun hne => absurd rfl (hne kept torn)⟩

theorem Inv.run (h : Inv led binary w) {events : List Event}
    (hled : ∀ o, .selfUpdate o ∈ events → ∀ current new, pf.prepare current o = .ok new →
      led current new) : Inv led binary (w.run pf events) := by
  induction events generalizing w with
  | nil => exact h
  | cons e rest ih =>
    have hstep := h.step pf fun o he => hled o (he ▸ List.mem_cons_self)
    exact ih hstep.1 fun o ho => hled o (List.mem_cons_of_mem _ ho)

theorem Inv.executable (h : Inv led binary w) :
    ∃ b, w.executable = some b ∧ ReflTransGen led binary b := h.kept.now.2

/-! ## What is at the path -/

theorem led_of_prepare {events : List Event} {o : Offer} (ho : .selfUpdate o ∈ events)
    {current new : Bytes} (h : pf.prepare current o = .ok new) : Led pf events current new := by
  obtain ⟨r, htaken⟩ := Platform.prepare_ok h
  exact ⟨o, r, ho, htaken⟩

/-- In every run, with any step failing, the process killed and the machine down anywhere, what is
at the path of the executable is a whole binary: the one it was, or one that a chain of updates led
to from that, each to a newer release that was asked for, whose asset matched its checksum, at a
path that may be replaced. -/
theorem run_executable (pf : Platform) (binary : Bytes) (events : List Event) :
    ∃ b, ((init binary).run pf events).executable = some b ∧
      ReflTransGen (Led pf events) binary b :=
  ((inv_init (Led pf events) binary).run fun _ ho _ _ h => led_of_prepare ho h).executable

/-- The binaries of a release say that they are that release, as the release workflow builds
them. -/
def Stamped (pf : Platform) (events : List Event) : Prop :=
  ∀ current new o r, .selfUpdate o ∈ events → pf.Taken o current new r →
    pf.versionOf new = r.tagName

/-- What is at the path is the same as before, or newer. -/
def NotOlder (pf : Platform) (before after : Bytes) : Prop :=
  after = before ∨ Newer (pf.versionOf after) (pf.versionOf before)

theorem NotOlder.trans {a b c : Bytes} (hab : NotOlder pf a b) (hbc : NotOlder pf b c) :
    NotOlder pf a c := by
  rcases hbc with rfl | hbc
  · exact hab
  rcases hab with rfl | hab
  · exact .inr hbc
  · exact .inr (hbc.trans hab)

theorem Inv.notOlder (h : Inv led binary w) {events : List Event}
    (hled : ∀ o, .selfUpdate o ∈ events → ∀ current new, pf.prepare current o = .ok new →
      led current new)
    (hnewer : ∀ current new, led current new →
      Newer (pf.versionOf new) (pf.versionOf current))
    (hup : ∀ e ∈ events, ∀ kept torn, e ≠ .crash kept torn) :
    ∃ b b', w.executable = some b ∧ (w.run pf events).executable = some b' ∧ NotOlder pf b b' := by
  induction events generalizing w with
  | nil =>
    obtain ⟨b, hb, -⟩ := h.executable
    exact ⟨b, b, hb, hb, .inl rfl⟩
  | cons e rest ih =>
    obtain ⟨hinv, hnext⟩ := h.step pf fun o he => hled o (he ▸ List.mem_cons_self)
    obtain ⟨b₁, b', hb₁, hb', hle⟩ := ih hinv (fun o ho => hled o (List.mem_cons_of_mem _ ho))
      fun e' he' => hup e' (List.mem_cons_of_mem _ he')
    rcases hnext (hup e List.mem_cons_self) with hsame | ⟨current, new, hcurrent, hstep, hnew⟩
    · exact ⟨b₁, b', hsame ▸ hb₁, hb', hle⟩
    · obtain rfl : new = b₁ := Option.some.inj (hnew.symm.trans hb₁)
      exact ⟨current, b', hcurrent, hb', NotOlder.trans (.inr (hnewer _ _ hstep)) hle⟩

/-- While the machine is up, the version at the path only goes up, whatever the API offers; and the
release that is there is not installed over itself. So no release is installed twice. -/
theorem run_notOlder (pf : Platform) (binary : Bytes) (before after : List Event)
    (hstamped : Stamped pf (before ++ after))
    (hup : ∀ e ∈ after, ∀ kept torn, e ≠ .crash kept torn) :
    ∃ b b', ((init binary).run pf before).executable = some b ∧
      ((init binary).run pf (before ++ after)).executable = some b' ∧ NotOlder pf b b' ∧
      ∀ o r, o.reply = .release r → r.tagName = pf.versionOf b' →
        pf.prepare b' o = .error .upToDate := by
  have hled : ∀ o, .selfUpdate o ∈ before ++ after → ∀ current new,
      pf.prepare current o = .ok new → Led pf (before ++ after) current new :=
    fun o ho _ _ h => led_of_prepare ho h
  have hnewer : ∀ current new, Led pf (before ++ after) current new →
      Newer (pf.versionOf new) (pf.versionOf current) := by
    rintro current new ⟨o, r, ho, htaken⟩
    rw [hstamped current new o r ho htaken]
    exact htaken.newer
  have hbefore := (inv_init (Led pf (before ++ after)) binary).run
    fun o ho => hled o (List.mem_append_left after ho)
  obtain ⟨b, b', hb, hb', hle⟩ := hbefore.notOlder
    (fun o ho => hled o (List.mem_append_right before ho)) hnewer hup
  refine ⟨b, b', hb, ?_, hle, fun o r hreply htag => Platform.prepare_installed hreply htag⟩
  rw [run, List.foldl_append]
  exact hb'

/-- A platform whose binaries are the text of their version. -/
def textPlatform : Platform where
  shown := "/home/dev/bin/governance-auth".toList
  assetName := ['a']
  versionOf := fun b => b.map fun u => Char.ofNat u.toNat
  sha256Hex := fun _ => ['f', '0']

/-- Release 2, with its checksum. -/
def releaseTwo : Offer where
  reply := .release ⟨['2'], [⟨['a'], ['b']⟩, ⟨"a.sha256".toList, ['s']⟩]⟩
  download := fun url => if url = ['b'] then some [0x32] else some [0x46, 0x30, 0x20, 0x61]
  checkOnly := false
  writable := true

/-- An update from release 1 to it. -/
def updateToTwo : List Event := [.selfUpdate releaseTwo, .write 1, .syncFile, .rename]

theorem stamped_updateToTwo : Stamped textPlatform updateToTwo := by
  intro current new o r ho htaken
  have ho : o = releaseTwo := by
    simpa [updateToTwo] using ho
  subst ho
  obtain rfl := Reply.release.inj htaken.reply
  obtain ⟨a, ha, hname, hnew⟩ := htaken.binary
  rcases List.mem_cons.mp ha with rfl | ha
  · obtain rfl : [0x32] = new := Option.some.inj hnew
    decide
  · obtain rfl := List.mem_singleton.mp ha
    exact absurd hname (by decide)

theorem run_notOlder_updateToTwo :
    ∃ b b', ((init [0x31]).run textPlatform []).executable = some b ∧
      ((init [0x31]).run textPlatform ([] ++ updateToTwo)).executable = some b' ∧
      NotOlder textPlatform b b' ∧
      ∀ o r, o.reply = .release r → r.tagName = textPlatform.versionOf b' →
        textPlatform.prepare b' o = .error .upToDate := by
  refine run_notOlder textPlatform [0x31] [] updateToTwo stamped_updateToTwo ?_
  intro e he kept torn hcrash
  subst hcrash
  simp [updateToTwo] at he

example : ((init [0x31]).run textPlatform updateToTwo).executable = some [0x32] := by
  decide +kernel

end Laptop

end Update

end Governance
