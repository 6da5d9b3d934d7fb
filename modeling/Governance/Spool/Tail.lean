import Governance.Lib.ByteLines
import Governance.Lib.Utf8Decode

/-!
# Tailing a spool file

`copilot/spool`: `identity.rs` names the file an offset was measured against, and `drain`
reads the whole lines behind an offset, at most `MAX_READ` bytes of them.

A file is its bytes and the two ids the operating system gives it. `generation` is a ghost:
it changes whenever the file is created, truncated or replaced, and never by an append. The
SHA-256 of a head is a parameter, the function `digest` of this module.
-/

namespace Governance

open Utf8Text ByteLines

/-- A spool file on disk. -/
structure SpoolFile where
  inode : Option ℕ
  device : Option ℕ
  bytes : Bytes
  generation : ℕ
  deriving DecidableEq

/-- The file after an append. -/
def SpoolFile.append (f : SpoolFile) (more : Bytes) : SpoolFile := { f with bytes := f.bytes ++ more }

/-- `identity::Identity`. -/
structure Identity where
  inode : Option ℕ
  device : Option ℕ
  head : String
  headLen : ℕ
  deriving DecidableEq

/-- `identity::HEAD_BYTES`. -/
def headBytes : ℕ := 4096

/-- `identity::Restart`. -/
inductive Restart where
  | truncated
  | replaced
  deriving DecidableEq

namespace Identity

variable (digest : Bytes → String)

/-- `identity::read`. -/
def read (f : SpoolFile) (headLen : ℕ) : Identity :=
  let head := f.bytes.take headLen
  ⟨f.inode, f.device, digest head, head.length⟩

/-- `identity::of`. -/
def of (f : SpoolFile) : Identity := read digest f (min headBytes f.bytes.length)

/-- `identity::agree`: an unknown id is not a mismatch. -/
def agree : Option ℕ → Option ℕ → Bool
  | some before, some now => before = now
  | _, _ => true

/-- `identity::same`. -/
def same (recorded : Identity) (f : SpoolFile) : Bool :=
  if f.bytes.length < recorded.headLen then false
  else
    let current := read digest f recorded.headLen
    agree recorded.inode current.inode && agree recorded.device current.device &&
      current.headLen = recorded.headLen && current.head = recorded.head

/-- `identity::restart`. -/
def restart (known : Option Identity) (f : SpoolFile) (offset : ℕ) : Option Restart :=
  if f.bytes.length < offset then some .truncated
  else match known with
    | some recorded => if same digest recorded f then none else some .replaced
    | none => none

theorem agree_self (id : Option ℕ) : agree id id = true := by
  cases id <;> simp [agree]

/-- A recorded identity names a file: the ids agree and the file still starts with the head
that was digested. -/
theorem same_iff {I : Identity} {f : SpoolFile} :
    same digest I f = true ↔ I.headLen ≤ f.bytes.length ∧ agree I.inode f.inode = true ∧
      agree I.device f.device = true ∧ digest (f.bytes.take I.headLen) = I.head := by
  unfold same
  split
  · next hlt =>
    constructor
    · intro h
      cases h
    · rintro ⟨hle, -⟩
      omega
  · next hle =>
    have hmin : min I.headLen f.bytes.length = I.headLen := by omega
    simp only [read, List.length_take, hmin, Bool.and_eq_true, decide_eq_true_eq, and_true]
    constructor
    · rintro ⟨⟨hi, hd⟩, hhead⟩
      exact ⟨by omega, hi, hd, hhead⟩
    · rintro ⟨-, hi, hd, hhead⟩
      exact ⟨⟨hi, hd⟩, hhead⟩

theorem same_of (f : SpoolFile) : same digest (of digest f) f = true := by
  have hlen : (of digest f).headLen = min headBytes f.bytes.length := by
    simp [of, read]
  refine (same_iff digest).mpr ⟨?_, agree_self _, agree_self _, ?_⟩
  · rw [hlen]
    exact min_le_right _ _
  · rw [hlen]
    rfl

/-- An append does not change what a recorded identity covers. -/
theorem same_append {I : Identity} {f : SpoolFile} (h : same digest I f = true) (more : Bytes) :
    same digest I (f.append more) = true := by
  obtain ⟨hle, hi, hd, hhead⟩ := (same_iff digest).mp h
  refine (same_iff digest).mpr ⟨?_, hi, hd, ?_⟩
  · simp only [SpoolFile.append, List.length_append]
    omega
  · rw [← hhead, SpoolFile.append, List.take_append_of_le_length hle]

end Identity

/-- `spool::MAX_READ`. -/
def maxRead : ℕ := 8 * 1024 * 1024

/-- `spool::Line`. -/
structure Line where
  offset : ℕ
  text : Text
  deriving DecidableEq

/-- `spool::Drain`. -/
structure Drain where
  lines : List Line
  nextOffset : ℕ
  restarted : Option Restart
  missing : Bool
  size : ℕ
  identity : Option Identity

/-- The failures of the daemon's spool, other than those of the file system. -/
inductive SpoolError where
  | recordTooLarge (offset : ℕ)
  | full (pending : ℕ)
  deriving DecidableEq

/-- The loop of `drain` over the segments of the complete part. -/
def collectLines : ℕ → List Bytes → List Line
  | _, [] => []
  | position, segment :: rest =>
    let text := Utf8Text.trim (fromUtf8Lossy segment)
    if text = [] then collectLines (position + segment.length + 1) rest
    else ⟨position, text⟩ :: collectLines (position + segment.length + 1) rest

/-- `spool::drain`. -/
def drain (digest : Bytes → String) (file : Option SpoolFile) (offset : ℕ)
    (known : Option Identity) : Except SpoolError Drain :=
  match file with
  | none => .ok ⟨[], offset, none, true, 0, none⟩
  | some f =>
    let size := f.bytes.length
    let identity := some (Identity.of digest f)
    let restarted := Identity.restart digest known f offset
    let offset := if restarted.isSome then 0 else offset
    let buffer := (f.bytes.drop offset).take maxRead
    match lastLineFeed buffer with
    | none =>
      if buffer.length ≥ maxRead then .error (.recordTooLarge offset)
      else .ok ⟨[], offset, restarted, false, size, identity⟩
    | some last =>
      .ok ⟨collectLines offset (segments (buffer.take (last + 1))), offset + last + 1, restarted,
        false, size, identity⟩

/-- Where the first line a drain returned ends. -/
def Drain.boundary (d : Drain) : ℕ := (d.lines[1]?.map Line.offset).getD d.nextOffset

theorem le_offset_of_mem {position : ℕ} {pieces : List Bytes} {l : Line}
    (h : l ∈ collectLines position pieces) : position ≤ l.offset := by
  induction pieces generalizing position with
  | nil => cases h
  | cons segment rest ih =>
    simp only [collectLines] at h
    split at h
    · have hle := ih h
      omega
    · rcases List.mem_cons.mp h with rfl | h
      · exact le_rfl
      · have hle := ih h
        omega

/-- Lines in the order they have in their file. -/
def Ordered (lines : List Line) : Prop := lines.Pairwise fun l l' => l.offset < l'.offset

theorem ordered_collectLines (position : ℕ) (pieces : List Bytes) :
    Ordered (collectLines position pieces) := by
  induction pieces generalizing position with
  | nil => exact .nil
  | cons segment rest ih =>
    simp only [collectLines]
    split
    · exact ih _
    · refine .cons ?_ (ih _)
      intro l hl
      have hle := le_offset_of_mem hl
      change position < l.offset
      omega

/-- Where a drain starts to read. -/
def Drain.first (d : Drain) (offset : ℕ) : ℕ := if d.restarted.isSome then 0 else offset

/-- What a drain of a file returns. -/
structure Drained (digest : Bytes → String) (f : SpoolFile) (offset : ℕ) (known : Option Identity)
    (d : Drain) : Prop where
  restarted : d.restarted = Identity.restart digest known f offset
  missing : d.missing = false
  size : d.size = f.bytes.length
  identity : d.identity = some (Identity.of digest f)
  lines : (d.lines = [] ∧ d.nextOffset = d.first offset) ∨
    ∃ last, lastLineFeed ((f.bytes.drop (d.first offset)).take maxRead) = some last ∧
      d.lines = collectLines (d.first offset)
        (segments (((f.bytes.drop (d.first offset)).take maxRead).take (last + 1))) ∧
      d.nextOffset = d.first offset + last + 1

theorem drain_some {digest : Bytes → String} {f : SpoolFile} {offset : ℕ}
    {known : Option Identity} {d : Drain} (h : drain digest (some f) offset known = .ok d) :
    Drained digest f offset known d := by
  simp only [drain] at h
  generalize hfirst : (if (Identity.restart digest known f offset).isSome then 0 else offset) =
    first at h
  cases hlast : lastLineFeed ((f.bytes.drop first).take maxRead) with
  | none =>
    simp only [hlast] at h
    split at h
    · cases h
    · obtain rfl := Except.ok.inj h
      exact ⟨rfl, rfl, rfl, rfl, .inl ⟨rfl, hfirst.symm⟩⟩
  | some last =>
    simp only [hlast] at h
    obtain rfl := Except.ok.inj h
    refine ⟨rfl, rfl, rfl, rfl, .inr ⟨last, ?_⟩⟩
    simp [Drain.first, hfirst, hlast]

/-- A drain returns its lines in order, from where it started on. -/
theorem drain_ordered {digest : Bytes → String} {file : Option SpoolFile} {offset : ℕ}
    {known : Option Identity} {d : Drain} (h : drain digest file offset known = .ok d) :
    Ordered d.lines ∧ ∀ l ∈ d.lines, d.first offset ≤ l.offset := by
  cases file with
  | none =>
    obtain rfl := Except.ok.inj h
    exact ⟨.nil, by simp⟩
  | some f =>
    obtain ⟨hlines, -⟩ | ⟨last, -, hlines, -⟩ := (drain_some h).lines
    · rw [hlines]
      exact ⟨.nil, by simp⟩
    · rw [hlines]
      exact ⟨ordered_collectLines _ _, fun l hl => le_offset_of_mem hl⟩

/-- What a drain goes on to behind its first line lies behind where it started. -/
theorem lt_boundary {digest : Bytes → String} {file : Option SpoolFile} {offset : ℕ}
    {known : Option Identity} {d : Drain} (h : drain digest file offset known = .ok d)
    (hrestarted : d.restarted = none) {first : Line} (hfirst : d.lines.head? = some first) :
    offset < d.boundary := by
  have hsecond : ∀ {position pieces l}, (collectLines position pieces)[1]? = some l →
      position < l.offset := by
    intro position pieces l hl
    cases pieces with
    | nil => cases hl
    | cons segment rest =>
      simp only [collectLines] at hl
      split at hl
      · have hle := le_offset_of_mem (List.mem_of_getElem? hl)
        omega
      · have hle := le_offset_of_mem (List.mem_of_getElem? (i := 0) hl)
        omega
  cases file with
  | none =>
    obtain rfl := Except.ok.inj h
    cases hfirst
  | some f =>
    cases hr : Identity.restart digest known f offset with
    | some why =>
      simp only [drain, hr, Option.isSome_some, if_true] at h
      split at h
      · split at h
        · cases h
        · obtain rfl := Except.ok.inj h
          cases hrestarted
      · obtain rfl := Except.ok.inj h
        cases hrestarted
    | none =>
      simp only [drain, hr, Option.isSome_none, Bool.false_eq_true, if_false] at h
      split at h
      · split at h
        · cases h
        · obtain rfl := Except.ok.inj h
          cases hfirst
      · next last _ =>
        obtain rfl := Except.ok.inj h
        simp only [Drain.boundary]
        cases hline : (collectLines offset (segments (((f.bytes.drop offset).take maxRead).take
            (last + 1))))[1]? with
        | none =>
          simp only [Option.map_none, Option.getD_none]
          omega
        | some l =>
          simp only [Option.map_some, Option.getD_some]
          exact hsecond hline

/-! ## Draining a file of lines -/

/-- A text that is a line of its own: one line, with nothing for `trim` to take. -/
structure IsLine (t : Text) : Prop where
  noFeed : '\n' ∉ t
  trimmed : Utf8Text.trim t = t
  nonempty : t ≠ []

theorem IsLine.notMem_encode {t : Text} (h : IsLine t) : lineFeed ∉ encode t := by
  intro hmem
  obtain ⟨c, hc, hb⟩ := List.mem_flatMap.mp hmem
  have hval := toNat_eq_of_mem_utf8EncodeChar hb (by decide)
  have hfeed : c = '\n' := by
    apply Char.ext
    apply UInt32.toNat_inj.mp
    exact hval
  exact h.noFeed (hfeed ▸ hc)

/-- The bytes of some lines of text. -/
def lineBytes (ts : List Text) : Bytes := unlines (ts.map encode)

@[simp] theorem lineBytes_nil : lineBytes [] = [] := rfl

@[simp] theorem lineBytes_cons (t : Text) (ts : List Text) :
    lineBytes (t :: ts) = encode t ++ lineFeed :: lineBytes ts := by
  simp [lineBytes]

@[simp] theorem lineBytes_append (ts ts' : List Text) :
    lineBytes (ts ++ ts') = lineBytes ts ++ lineBytes ts' := by
  simp [lineBytes]

theorem collectLines_cons {t : Text} (h : IsLine t) (position : ℕ) (rest : List Bytes) :
    collectLines position (encode t :: rest) =
      ⟨position, t⟩ :: collectLines (position + (encode t).length + 1) rest := by
  simp [collectLines, h.trimmed, h.nonempty]

section DrainLines

variable (digest : Bytes → String) {f : SpoolFile} {known : Option Identity}
  {before : List Text} {t : Text} {after : List Text}

/-- The whole lines of a window that starts at `t`. -/
theorem window_lines (hlines : ∀ t' ∈ t :: after, IsLine t') (hfits : (encode t).length < maxRead) :
    ∃ whole rest, whole <+: after ∧ lineFeed ∉ rest ∧
      (lineBytes (t :: after)).take maxRead = lineBytes (t :: whole) ++ rest := by
  have hfeed : ∀ l ∈ after.map encode, lineFeed ∉ l := by
    intro l hl
    obtain ⟨t', ht', rfl⟩ := List.mem_map.mp hl
    exact (hlines t' (List.mem_cons_of_mem t ht')).notMem_encode
  obtain ⟨whole, rest, ⟨more, hwhole⟩, hrest, htake⟩ :=
    take_unlines hfeed (maxRead - ((encode t).length + 1))
  obtain ⟨whole', more', rfl, rfl, -⟩ := List.map_eq_append_iff.mp hwhole.symm
  refine ⟨whole', rest, List.prefix_append _ _, hrest, ?_⟩
  rw [lineBytes, List.map_cons, take_unlines_of_lt hfits, htake, lineBytes_cons, List.append_assoc,
    List.cons_append, lineBytes]

theorem collectLines_lineBytes {ts : List Text} (hts : ∀ t' ∈ ts, IsLine t') (position : ℕ) :
    collectLines position (segments (lineBytes ts)) =
      collectLines position (ts.map encode ++ [[]]) := by
  rw [lineBytes, segments_unlines]
  intro l hl
  obtain ⟨t', ht', rfl⟩ := List.mem_map.mp hl
  exact (hts t' ht').notMem_encode

/-- What a drain reads behind some lines when the next one fits into its window. -/
theorem drain_lines (hbytes : f.bytes = lineBytes (before ++ t :: after))
    (hlines : ∀ t' ∈ t :: after, IsLine t')
    (hrestart : Identity.restart digest known f (lineBytes before).length = none)
    (hfits : (encode t).length < maxRead) :
    ∃ d, drain digest (some f) (lineBytes before).length known = .ok d ∧
      d.restarted = none ∧ d.identity = some (Identity.of digest f) ∧
      d.lines.head? = some ⟨(lineBytes before).length, t⟩ ∧
      d.boundary = (lineBytes (before ++ [t])).length := by
  obtain ⟨whole, rest, hwhole, hrest, htake⟩ := window_lines hlines hfits
  have hdrop : f.bytes.drop (lineBytes before).length = lineBytes (t :: after) := by
    rw [hbytes, lineBytes_append, List.drop_left]
  have hlast : lastLineFeed (lineBytes (t :: whole) ++ rest) =
      some ((lineBytes (t :: whole)).length - 1) := by
    rw [lineBytes, List.map_cons]
    exact lastLineFeed_unlines _ _ hrest
  have hpos : (lineBytes (t :: whole)).length - 1 + 1 = (lineBytes (t :: whole)).length := by
    rw [lineBytes_cons, List.length_append, List.length_cons]
    omega
  have hwholeLines : ∀ t' ∈ t :: whole, IsLine t' := by
    intro t' ht'
    rcases List.mem_cons.mp ht' with rfl | hmem
    · exact hlines t' (by simp)
    · exact hlines t' (List.mem_cons_of_mem _ (hwhole.subset hmem))
  have hcollect : collectLines (lineBytes before).length (segments (lineBytes (t :: whole))) =
      ⟨(lineBytes before).length, t⟩ ::
        collectLines ((lineBytes before).length + (encode t).length + 1)
          (whole.map encode ++ [[]]) := by
    rw [collectLines_lineBytes hwholeLines, List.map_cons, List.cons_append,
      collectLines_cons (hlines t (by simp))]
  have hdrain : drain digest (some f) (lineBytes before).length known =
      .ok ⟨⟨(lineBytes before).length, t⟩ ::
          collectLines ((lineBytes before).length + (encode t).length + 1)
            (whole.map encode ++ [[]]),
        (lineBytes before).length + (lineBytes (t :: whole)).length, none, false, f.bytes.length,
        some (Identity.of digest f)⟩ := by
    simp only [drain, hrestart, Option.isSome_none, Bool.false_eq_true, if_false, hdrop, htake,
      hlast]
    rw [Nat.add_assoc, hpos, List.take_left, hcollect]
  refine ⟨_, hdrain, rfl, rfl, rfl, ?_⟩
  have hend : (lineBytes (before ++ [t])).length =
      (lineBytes before).length + (encode t).length + 1 := by
    simp [Nat.add_assoc]
  rw [hend]
  -- the second line starts where the first ends; without one, so does the window's rest
  cases whole with
  | nil =>
    simp [Drain.boundary, collectLines, fromUtf8Lossy, lossyLoop, Utf8Text.trim, Nat.add_assoc]
  | cons t₂ whole =>
    have ht₂ : IsLine t₂ := hwholeLines t₂ (by simp)
    rw [Drain.boundary, List.map_cons, List.cons_append, collectLines_cons ht₂]
    simp

/-- Behind its last line a file has nothing to read yet. -/
theorem drain_end (hbytes : f.bytes = lineBytes before)
    (hrestart : Identity.restart digest known f (lineBytes before).length = none) :
    ∃ d, drain digest (some f) (lineBytes before).length known = .ok d ∧
      d.restarted = none ∧ d.identity = some (Identity.of digest f) ∧ d.lines = [] := by
  have hdrop : f.bytes.drop (lineBytes before).length = [] := by rw [hbytes, List.drop_length]
  refine ⟨⟨[], (lineBytes before).length, none, false, f.bytes.length,
    some (Identity.of digest f)⟩, ?_, rfl, rfl, rfl⟩
  simp [drain, hrestart, hdrop, lastLineFeed, maxRead]

/-- A line that does not fit into the window stops the drain. -/
theorem drain_too_large (hbytes : f.bytes = lineBytes (before ++ t :: after))
    (ht : IsLine t) (hrestart : Identity.restart digest known f (lineBytes before).length = none)
    (hlarge : maxRead ≤ (encode t).length) :
    drain digest (some f) (lineBytes before).length known =
      .error (.recordTooLarge (lineBytes before).length) := by
  have hdrop : f.bytes.drop (lineBytes before).length = lineBytes (t :: after) := by
    rw [hbytes, lineBytes_append, List.drop_left]
  have htake : (lineBytes (t :: after)).take maxRead = (encode t).take maxRead := by
    rw [lineBytes_cons, List.take_append_of_le_length hlarge]
  have hfeed : lastLineFeed ((encode t).take maxRead) = none :=
    lastLineFeed_of_notMem fun hmem => ht.notMem_encode (List.mem_of_mem_take hmem)
  have hlen : ((encode t).take maxRead).length ≥ maxRead := by
    rw [List.length_take]
    omega
  simp only [drain, hrestart, Option.isSome_none, Bool.false_eq_true, if_false, hdrop, htake, hfeed,
    if_pos hlen]

/-- A drain that restarts reads from the first byte and says so, unless the first line is too
large for it. -/
theorem drain_restarted {offset : ℕ} {why : Restart} {ts : List Text}
    (hbytes : f.bytes = lineBytes ts) (hts : ∀ t' ∈ ts, IsLine t')
    (hrestart : Identity.restart digest known f offset = some why) :
    (∃ t rest, ts = t :: rest ∧ maxRead ≤ (encode t).length ∧
      drain digest (some f) offset known = .error (.recordTooLarge 0)) ∨
    (∀ t rest, ts = t :: rest → (encode t).length < maxRead) ∧
      ∃ d, drain digest (some f) offset known = .ok d ∧ d.restarted = some why ∧
        d.identity = some (Identity.of digest f) := by
  simp only [drain, hrestart, Option.isSome_some, if_true, List.drop_zero]
  cases ts with
  | nil =>
    refine .inr ⟨by simp, ?_⟩
    rw [hbytes, lineBytes_nil, List.take_nil, lastLineFeed]
    exact ⟨_, rfl, rfl, rfl⟩
  | cons t rest =>
    by_cases hfits : (encode t).length < maxRead
    · obtain ⟨whole, tail, -, htail, htake⟩ := window_lines hts hfits
      have hlast : ∃ last, lastLineFeed (lineBytes (t :: whole) ++ tail) = some last := by
        rw [lineBytes, List.map_cons]
        exact ⟨_, lastLineFeed_unlines _ _ htail⟩
      obtain ⟨last, hlast⟩ := hlast
      refine .inr ⟨?_, ?_⟩
      · rintro t' rest' heq
        obtain ⟨rfl, -⟩ := List.cons.inj heq
        exact hfits
      · rw [hbytes, htake, hlast]
        exact ⟨_, rfl, rfl, rfl⟩
    · have htake : (lineBytes (t :: rest)).take maxRead = (encode t).take maxRead := by
        rw [lineBytes_cons, List.take_append_of_le_length (by omega)]
      have hfeed : lastLineFeed ((encode t).take maxRead) = none :=
        lastLineFeed_of_notMem fun hmem =>
          (hts t (by simp)).notMem_encode (List.mem_of_mem_take hmem)
      have hlen : ((encode t).take maxRead).length ≥ maxRead := by
        rw [List.length_take]
        omega
      refine .inl ⟨t, rest, rfl, by omega, ?_⟩
      rw [hbytes, htake, hfeed]
      simp only [if_pos hlen]

end DrainLines

end Governance
