import Governance.Lib.Literals
import Governance.Lib.Markers
import Governance.Lib.Utf8Text

/-!
# The block in a shell rc file

`otel/rc.rs`: `upsert_block` replaces what stands from the first begin marker to the first end
marker, or appends a block where there is no marker at all. That is its own block if each marker
occurs once. A second begin marker ahead of the end marker is cut out with the lines around it, and
a second block behind the first stays.
-/

namespace Governance

open Utf8Text

namespace Rc

/-- `BLOCK_BEGIN`. -/
def blockBegin : Marker Char :=
  ⟨'#', " >>> governance-auth otel (managed) >>>".toList, Literals.notMem_toList (by decide)⟩

/-- `BLOCK_END`. -/
def blockEnd : Marker Char :=
  ⟨'#', " <<< governance-auth otel (managed) <<<".toList, Literals.notMem_toList (by decide)⟩

theorem blockBegin_tail : blockBegin.tail = " >>> governance-auth otel (managed) >>>".toList := by
  rw [blockBegin]

theorem blockEnd_tail : blockEnd.tail = " <<< governance-auth otel (managed) <<<".toList := by
  rw [blockEnd]

def markers : MarkerPair Char where
  opening := blockBegin
  closing := blockEnd
  head_eq := rfl
  length_eq := by
    rw [Marker.word, Marker.word, List.length_cons, List.length_cons, blockBegin_tail, blockEnd_tail]
    exact congrArg (· + 1) (Literals.length_toList_eq rfl)
  word_ne := by
    intro hwords
    have htails := (List.cons.inj hwords).2
    rw [blockBegin_tail, blockEnd_tail] at htails
    exact Literals.toList_ne (by decide) htails

/-- An rc file: not there, or a text, or something that cannot be read as one. -/
inductive RcFile where
  | missing
  | text (content : Text)
  | unreadable

/-- `fs::read_to_string`, with an empty text for a file that is not there. -/
def RcFile.read : RcFile → Option Text
  | .missing => some []
  | .text content => some content
  | .unreadable => none

/-- Whether the temporary file can be written, and renamed to the rc file. -/
structure RcIo where
  writes : Bool
  renames : Bool

inductive RcError where
  | reading
  | damaged
  | writing
  | renaming
  deriving DecidableEq

/-- The block with its markers. -/
def block (body : Text) : Text := blockBegin.word ++ '\n' :: (body ++ '\n' :: blockEnd.word)

/-- The new text of `upsert_block`, where it does not bail. -/
def updated (body existing : Text) : Option Text :=
  match blockBegin.find existing, blockEnd.find existing with
  | some start, some stop =>
    if start < stop then
      some (existing.take start ++ block body ++ existing.drop (stop + blockEnd.word.length))
    else none
  | none, none =>
    let out := if existing ≠ [] ∧ existing.getLast? ≠ some '\n' then existing ++ ['\n'] else existing
    some (out ++ '\n' :: (block body ++ ['\n']))
  | _, _ => none

/-- `upsert_block`: its result and the file behind it. -/
def upsertBlock (io : RcIo) (body : Text) (file : RcFile) : Except RcError Unit × RcFile :=
  match file.read with
  | none => (.error .reading, file)
  | some existing =>
    match updated body existing with
    | none => (.error .damaged, file)
    | some new =>
      if !io.writes then (.error .writing, file)
      else if !io.renames then (.error .renaming, file)
      else (.ok (), .text new)

/-! ## Its own block -/

/-- Neither marker is in the text. -/
def Unmarked (t : Text) : Prop := blockBegin.count t = 0 ∧ blockEnd.count t = 0

/-- One begin marker and one end marker, with the body between them. -/
structure OneBlock (body new : Text) : Prop where
  encloses : ∃ front back, new = front ++ (block body ++ back)
  opened : blockBegin.count new = 1
  closed : blockEnd.count new = 1

/-- What stood in no block of a begin marker and its own end marker is there in its order, behind
an append with newlines added. -/
def Keeps (existing new : Text) : Prop :=
  markers.outside new = markers.outside existing ∨
    Unmarked existing ∧ ∃ n, markers.outside new = existing ++ List.replicate n '\n'

/-- What an edit of its own block is. -/
def EditsOwnBlock (io : RcIo) (body : Text) (file : RcFile) : Prop :=
  match (upsertBlock io body file).1 with
  | .ok () => ∃ existing new, file.read = some existing ∧ (upsertBlock io body file).2 = .text new ∧
      OneBlock body new ∧ Keeps existing new ∧ ∀ io', (upsertBlock io' body (.text new)).2 = .text new
  | .error _ => (upsertBlock io body file).2 = file

/-- There is nothing to replace or only one thing: a marker is missing, or the first end marker comes
ahead of the first begin marker, or there is one of each. -/
def Unambiguous (existing : Text) : Prop :=
  blockBegin.count existing = 0 ∨ blockEnd.count existing = 0 ∨
  (∃ start stop, blockBegin.find existing = some start ∧ blockEnd.find existing = some stop ∧
    stop ≤ start) ∨
  blockBegin.count existing = 1 ∧ blockEnd.count existing = 1

/-! ### Counting -/

variable {body existing front back : Text}

theorem apart_begin_newline (t : Text) : blockBegin.Apart ('\n' :: t) := by
  intro c hc
  obtain rfl := Option.some.inj hc
  rw [blockBegin_tail]
  exact Literals.notMem_toList (by decide)

theorem apart_end_newline (t : Text) : blockEnd.Apart ('\n' :: t) := by
  intro c hc
  obtain rfl := Option.some.inj hc
  rw [blockEnd_tail]
  exact Literals.notMem_toList (by decide)

theorem begin_count_end (t : Text) : blockBegin.count (blockEnd.word ++ t) = blockBegin.count t :=
  markers.opening_count_closing t

theorem end_count_begin (t : Text) : blockEnd.count (blockBegin.word ++ t) = blockEnd.count t :=
  markers.closing_count_opening t

theorem apart_end_begin (t : Text) : blockEnd.Apart (blockBegin.word ++ t) :=
  Marker.apart_word markers.head_eq.symm t

theorem apart_begin_end (t : Text) : blockBegin.Apart (blockEnd.word ++ t) :=
  Marker.apart_word markers.head_eq t

theorem begin_count_newline (t : Text) : blockBegin.count ('\n' :: t) = blockBegin.count t :=
  Marker.count_append_of_notMem (a := ['\n']) (by decide) t

theorem end_count_newline (t : Text) : blockEnd.count ('\n' :: t) = blockEnd.count t :=
  Marker.count_append_of_notMem (a := ['\n']) (by decide) t

/-- The markers of a text with a block in it. -/
theorem count_block (hbody : Unmarked body) (front back : Text) :
    blockBegin.count (front ++ (block body ++ back)) =
      blockBegin.count front + 1 + blockBegin.count back ∧
    blockEnd.count (front ++ (block body ++ back)) =
      blockEnd.count front + 1 + blockEnd.count back := by
  have hsplit : block body ++ back =
      blockBegin.word ++ ('\n' :: (body ++ '\n' :: (blockEnd.word ++ back))) := by
    simp [block]
  rw [hsplit]
  constructor
  · rw [Marker.count_append _ (Marker.apart_word rfl _), Marker.count_word_append,
      begin_count_newline, Marker.count_append _ (apart_begin_newline _), begin_count_newline,
      begin_count_end, hbody.1]
    omega
  · rw [Marker.count_append _ (apart_end_begin _), end_count_begin, end_count_newline,
      Marker.count_append _ (apart_end_newline _), end_count_newline, Marker.count_word_append,
      hbody.2]
    omega

/-- A text without its block. -/
theorem outside_block (hbody : Unmarked body) (hfront : blockBegin.count front = 0) (back : Text) :
    markers.outside (front ++ (block body ++ back)) = front ++ markers.outside back := by
  have hsplit : block body ++ back =
      blockBegin.word ++ (('\n' :: (body ++ ['\n'])) ++ (blockEnd.word ++ back)) := by
    simp [block]
  have hin : Unmarked ('\n' :: (body ++ ['\n'])) := by
    constructor
    · rw [begin_count_newline, Marker.count_append _ (apart_begin_newline _), hbody.1]
      decide
    · rw [end_count_newline, Marker.count_append _ (apart_end_newline _), hbody.2]
      decide
  have hapart : blockBegin.Apart (blockBegin.word ++
      (('\n' :: (body ++ ['\n'])) ++ (blockEnd.word ++ back))) := Marker.apart_word rfl _
  rw [hsplit]
  exact (MarkerPair.outside_append (p := markers) hfront hapart).trans
    (congrArg (front ++ ·) (MarkerPair.outside_block (p := markers) hin.1 hin.2 back))

/-! ### Replacing and appending -/

/-- A text with a begin marker ahead of an end marker, up to the first of each. -/
theorem updated_between {mid : Text} (hbegin : blockBegin.count front = 0)
    (hend : blockEnd.count front = 0) (hmid : blockEnd.count mid = 0) :
    updated body (front ++ (blockBegin.word ++ (mid ++ (blockEnd.word ++ back)))) =
      some (front ++ (block body ++ back)) := by
  have hstart := Marker.find_append hbegin (mid ++ (blockEnd.word ++ back))
  have hstop : blockEnd.find (front ++ (blockBegin.word ++ (mid ++ (blockEnd.word ++ back)))) =
      some (front ++ (blockBegin.word ++ mid)).length := by
    have hcount : blockEnd.count (front ++ (blockBegin.word ++ mid)) = 0 := by
      rw [Marker.count_append _ (apart_end_begin _), end_count_begin, hend, hmid]
    have hfind := Marker.find_append hcount back
    rwa [List.append_assoc, List.append_assoc] at hfind
  have hdrop : (front ++ (blockBegin.word ++ (mid ++ (blockEnd.word ++ back)))).drop
      ((front ++ (blockBegin.word ++ mid)).length + blockEnd.word.length) = back := by
    rw [← List.length_append]
    have hall : front ++ (blockBegin.word ++ (mid ++ (blockEnd.word ++ back))) =
        (front ++ (blockBegin.word ++ mid) ++ blockEnd.word) ++ back := by
      simp
    rw [hall, List.drop_left]
  have hlt : front.length < (front ++ (blockBegin.word ++ mid)).length := by
    rw [List.length_append, List.length_append]
    have hword : 0 < blockBegin.word.length := Nat.succ_pos _
    omega
  rw [updated, hstart, hstop]
  simp only [if_pos hlt, List.take_left, hdrop, List.append_assoc]

/-- Its own block is replaced by itself. -/
theorem updated_block (hbody : Unmarked body) (hfront : Unmarked front) :
    updated body (front ++ (block body ++ back)) = some (front ++ (block body ++ back)) := by
  have hsplit : block body ++ back =
      blockBegin.word ++ (('\n' :: (body ++ ['\n'])) ++ (blockEnd.word ++ back)) := by
    simp [block]
  have hin : blockEnd.count ('\n' :: (body ++ ['\n'])) = 0 := by
    rw [end_count_newline, Marker.count_append _ (apart_end_newline _), hbody.2]
    decide
  conv_lhs => rw [hsplit]
  exact updated_between hfront.1 hfront.2 hin

/-- A text that is its own new text stays, whatever fails. -/
theorem upsertBlock_self {new : Text} (h : updated body new = some new) (io : RcIo) :
    (upsertBlock io body (.text new)).2 = .text new := by
  simp only [upsertBlock, RcFile.read, h]
  split
  · rfl
  · split <;> rfl

/-- A newline behind a text that does not end in one. -/
def closeLine (existing : Text) : Text :=
  if existing ≠ [] ∧ existing.getLast? ≠ some '\n' then existing ++ ['\n'] else existing

theorem closeLine_eq (existing : Text) :
    ∃ n, closeLine existing = existing ++ List.replicate n '\n' := by
  rw [closeLine]
  split
  · exact ⟨1, rfl⟩
  · exact ⟨0, (List.append_nil _).symm⟩

/-- A text that `upsert_block` edits: one without markers, or one in which the first begin marker
comes ahead of the first end marker. -/
theorem updated_cases {new : Text} (h : updated body existing = some new) :
    (Unmarked existing ∧ new = closeLine existing ++ ['\n'] ++ (block body ++ ['\n'])) ∨
    ∃ front mid back, existing = front ++ (blockBegin.word ++ (mid ++ (blockEnd.word ++ back))) ∧
      Unmarked front ∧ blockEnd.count mid = 0 ∧ new = front ++ (block body ++ back) := by
  have hall := h
  rw [updated] at h
  split at h
  · next start stop hstart hstop =>
    split at h
    · next hlt =>
      right
      obtain ⟨front, mid, back, hexisting, -, -, hbegin, hend, hmid⟩ :=
        markers.exists_between hstart hstop hlt
      have hsplit : existing = front ++ (blockBegin.word ++ (mid ++ (blockEnd.word ++ back))) :=
        hexisting
      refine ⟨front, mid, back, hsplit, ⟨hbegin, hend⟩, hmid, ?_⟩
      rw [hsplit, updated_between hbegin hend hmid] at hall
      exact (Option.some.inj hall).symm
    · cases h
  · next hbegin hend =>
    left
    refine ⟨⟨Marker.find_eq_none.1 hbegin, Marker.find_eq_none.1 hend⟩, ?_⟩
    rw [← Option.some.inj h, closeLine, List.append_assoc]
    rfl
  · cases h

/-- Where `upsert_block` bails there is nothing ambiguous. -/
theorem unambiguous_of_updated_none (h : updated body existing = none) : Unambiguous existing := by
  rw [updated] at h
  split at h
  · next start stop hstart hstop =>
    split at h
    · cases h
    · next hle => exact .inr (.inr (.inl ⟨start, stop, hstart, hstop, not_lt.mp hle⟩))
  · cases h
  · next hsome hnone =>
    -- one of the searches found nothing
    cases hbegin : blockBegin.find existing with
    | none => exact .inl (Marker.find_eq_none.1 hbegin)
    | some start =>
      cases hend : blockEnd.find existing with
      | none => exact .inr (.inl (Marker.find_eq_none.1 hend))
      | some stop => exact absurd hend (hsome start stop hbegin)

/-- An appended block is the file's own block. -/
theorem appended_own (hbody : Unmarked body) (hexisting : Unmarked existing) :
    OneBlock body (closeLine existing ++ ['\n'] ++ (block body ++ ['\n'])) ∧
    Keeps existing (closeLine existing ++ ['\n'] ++ (block body ++ ['\n'])) ∧
    updated body (closeLine existing ++ ['\n'] ++ (block body ++ ['\n'])) =
      some (closeLine existing ++ ['\n'] ++ (block body ++ ['\n'])) := by
  obtain ⟨n, hclose⟩ := closeLine_eq existing
  have hfront : closeLine existing ++ ['\n'] = existing ++ List.replicate (n + 1) '\n' := by
    rw [hclose, List.append_assoc, List.replicate_succ']
  have hnewlines (m : Marker Char) (hm : m.head ≠ '\n') (k : ℕ) :
      m.count (List.replicate k '\n') = 0 := by
    have hcount := Marker.count_append_of_notMem (m := m) (a := List.replicate k '\n')
      (fun hmem => hm (List.eq_of_mem_replicate hmem)) []
    rwa [List.append_nil] at hcount
  have hunmarked : Unmarked (closeLine existing ++ ['\n']) := by
    rw [hfront, List.replicate_succ]
    constructor
    · rw [Marker.count_append _ (apart_begin_newline _), hexisting.1, ← List.replicate_succ,
        hnewlines _ (by decide)]
    · rw [Marker.count_append _ (apart_end_newline _), hexisting.2, ← List.replicate_succ,
        hnewlines _ (by decide)]
  have hcount := count_block hbody (closeLine existing ++ ['\n']) ['\n']
  have hlast : blockBegin.count ['\n'] = 0 ∧ blockEnd.count ['\n'] = 0 :=
    ⟨hnewlines blockBegin (by decide) 1, hnewlines blockEnd (by decide) 1⟩
  refine ⟨⟨⟨_, _, rfl⟩, ?_, ?_⟩, ?_, updated_block hbody hunmarked⟩
  · rw [hcount.1, hunmarked.1, hlast.1]
  · rw [hcount.2, hunmarked.2, hlast.2]
  · refine .inr ⟨hexisting, n + 1 + 1, ?_⟩
    rw [outside_block hbody hunmarked.1, MarkerPair.outside_eq_self (p := markers) hlast.1, hfront,
      List.append_assoc, ← List.replicate_succ']

/-- A replaced block is the file's own if nothing else is a marker, and only then. -/
theorem replaced_own_iff (hbody : Unmarked body) (hfront : Unmarked front) {mid : Text}
    (hmid : blockEnd.count mid = 0) :
    (OneBlock body (front ++ (block body ++ back)) ∧
      Keeps (front ++ (blockBegin.word ++ (mid ++ (blockEnd.word ++ back))))
        (front ++ (block body ++ back))) ↔
      blockBegin.count mid = 0 ∧ Unmarked back := by
  have hcount := count_block hbody front back
  rw [hfront.1, hfront.2] at hcount
  constructor
  · rintro ⟨⟨-, hone, hone'⟩, hkeeps⟩
    have hback : Unmarked back := ⟨by omega, by omega⟩
    refine ⟨?_, hback⟩
    by_contra hne
    have hclose : markers.closeOf (mid ++ (blockEnd.word ++ back)) = none :=
      MarkerPair.closeOf_eq_none (p := markers) hmid hne (Marker.apart_word rfl back)
    have houtside : markers.outside
        (front ++ (blockBegin.word ++ (mid ++ (blockEnd.word ++ back)))) =
        front ++ (blockBegin.word ++ markers.outside (mid ++ (blockEnd.word ++ back))) :=
      (MarkerPair.outside_append (p := markers) hfront.1 (Marker.apart_word rfl _)).trans
        (congrArg (front ++ ·) (MarkerPair.outside_opening (p := markers) hclose))
    rcases hkeeps with hsame | ⟨hnone, -⟩
    · -- the begin marker that was cut out is not in what follows the block
      rw [outside_block hbody hfront.1, MarkerPair.outside_eq_self (p := markers) hback.1,
        houtside, List.append_cancel_left_eq] at hsame
      have hmarked := hback.1
      rw [hsame, Marker.count_word_append] at hmarked
      omega
    · have hmarked := hnone.1
      rw [Marker.count_append _ (Marker.apart_word rfl _), Marker.count_word_append] at hmarked
      omega
  · rintro ⟨hbegin, hback⟩
    refine ⟨⟨⟨_, _, rfl⟩, ?_, ?_⟩, .inl ?_⟩
    · rw [hcount.1, hback.1]
    · rw [hcount.2, hback.2]
    · rw [outside_block hbody hfront.1]
      symm
      exact (MarkerPair.outside_append (p := markers) hfront.1 (Marker.apart_word rfl _)).trans
        (congrArg (front ++ ·) (MarkerPair.outside_block (p := markers) hbegin hmid back))

/-- A text with a begin marker ahead of an end marker is unambiguous if it has no other. -/
theorem unambiguous_between_iff (hfront : Unmarked front) {mid : Text}
    (hmid : blockEnd.count mid = 0) :
    Unambiguous (front ++ (blockBegin.word ++ (mid ++ (blockEnd.word ++ back)))) ↔
      blockBegin.count mid = 0 ∧ Unmarked back := by
  have hbegin : blockBegin.count (front ++ (blockBegin.word ++ (mid ++ (blockEnd.word ++ back)))) =
      1 + (blockBegin.count mid + blockBegin.count back) := by
    rw [Marker.count_append _ (Marker.apart_word rfl _), Marker.count_word_append,
      Marker.count_append _ (apart_begin_end _), begin_count_end, hfront.1, Nat.zero_add]
  have hend : blockEnd.count (front ++ (blockBegin.word ++ (mid ++ (blockEnd.word ++ back)))) =
      1 + blockEnd.count back := by
    rw [Marker.count_append _ (apart_end_begin _), end_count_begin,
      Marker.count_append _ (Marker.apart_word rfl _), Marker.count_word_append, hfront.2, hmid]
    omega
  rw [Unambiguous, hbegin, hend]
  constructor
  · rintro (hnone | hnone | ⟨start, stop, hstart, hstop, hle⟩ | ⟨hone, hone'⟩)
    · omega
    · omega
    · have hstart' := Marker.find_append hfront.1 (mid ++ (blockEnd.word ++ back))
      have hcount : blockEnd.count (front ++ (blockBegin.word ++ mid)) = 0 := by
        rw [Marker.count_append _ (apart_end_begin _), end_count_begin, hfront.2, hmid]
      have hstop' := Marker.find_append hcount back
      rw [List.append_assoc, List.append_assoc, hstop] at hstop'
      rw [hstart] at hstart'
      have hlen := Option.some.inj hstop'
      have hlen' := Option.some.inj hstart'
      have hword : 0 < blockBegin.word.length := Nat.succ_pos _
      rw [List.length_append, List.length_append] at hlen
      omega
    · exact ⟨by omega, by omega, by omega⟩
  · rintro ⟨hnone, hback⟩
    refine .inr (.inr (.inr ⟨?_, ?_⟩))
    · rw [hnone, hback.1]
    · rw [hback.2]

theorem own_iff_unambiguous (hbody : Unmarked body) {new : Text}
    (hnew : updated body existing = some new) :
    (OneBlock body new ∧ Keeps existing new ∧
      ∀ io, (upsertBlock io body (.text new)).2 = .text new) ↔ Unambiguous existing := by
  rcases updated_cases hnew with ⟨hnone, rfl⟩ | ⟨front, mid, back, rfl, hfront, hmid, rfl⟩
  · obtain ⟨hone, hkeeps, hself⟩ := appended_own hbody hnone
    exact iff_of_true ⟨hone, hkeeps, upsertBlock_self hself⟩ (.inl hnone.1)
  · have hself : updated body (front ++ (block body ++ back)) = _ := updated_block hbody hfront
    rw [unambiguous_between_iff hfront hmid, ← replaced_own_iff hbody hfront hmid]
    constructor
    · rintro ⟨hone, hkeeps, -⟩
      exact ⟨hone, hkeeps⟩
    · rintro ⟨hone, hkeeps⟩
      exact ⟨hone, hkeeps, upsertBlock_self hself⟩

/-- `upsert_block` edits only its own block where the file cannot be replaced or its text is
unambiguous, and nowhere else. -/
theorem upsertBlock_edits_own_block (io : RcIo) (file : RcFile) {body : Text}
    (hbody : Unmarked body) :
    EditsOwnBlock io body file ↔
      io.writes = false ∨ io.renames = false ∨
        ∀ existing, file.read = some existing → Unambiguous existing := by
  rw [EditsOwnBlock, upsertBlock]
  cases hread : file.read with
  | none => simp
  | some existing =>
    cases hnew : updated body existing with
    | none => simp [hnew, unambiguous_of_updated_none hnew]
    | some new =>
      cases hwrites : io.writes with
      | false => simp [hnew]
      | true =>
        cases hrenames : io.renames with
        | false => simp [hnew]
        | true =>
          have hown := own_iff_unambiguous hbody hnew
          constructor
          · simp only [hnew, Bool.not_true, Bool.false_eq_true, if_false]
            rintro ⟨existing', new', hexisting, hnew', hone, hkeeps, hself⟩
            obtain rfl := Option.some.inj hexisting
            obtain rfl := RcFile.text.inj hnew'
            right
            right
            intro existing' hexisting'
            obtain rfl := Option.some.inj hexisting'
            exact hown.1 ⟨hone, hkeeps, hself⟩
          · rintro (hfalse | hfalse | hall)
            · cases hfalse
            · cases hfalse
            · obtain ⟨hone, hkeeps, hself⟩ := hown.2 (hall existing rfl)
              simp only [hnew, Bool.not_true, Bool.false_eq_true, if_false]
              exact ⟨existing, new, rfl, rfl, hone, hkeeps, hself⟩

theorem upsertBlock_edits_own_block_empty :
    EditsOwnBlock ⟨true, true⟩ "export A=1".toList .missing := by
  rw [upsertBlock_edits_own_block ⟨true, true⟩ .missing ⟨by decide, by decide⟩]
  right
  right
  intro existing hexisting
  obtain rfl := Option.some.inj hexisting
  exact .inl rfl

/-- A text with two blocks. -/
def twoBlocks : Text := block ['a'] ++ ('\n' :: block ['b'])

/-- Of two blocks the second one stays, with markers of its own. -/
theorem twoBlocks_keeps_second : ¬ EditsOwnBlock ⟨true, true⟩ ['c'] (.text twoBlocks) := by
  intro h
  have hunmarked (c : Char) (hc : c ≠ '#') : Unmarked [c] := by
    have hmem : '#' ∉ [c] := by simpa using Ne.symm hc
    constructor
    · exact Marker.count_append_of_notMem (m := blockBegin) (a := [c]) hmem []
    · exact Marker.count_append_of_notMem (m := blockEnd) (a := [c]) hmem []
  have hnew : updated ['c'] twoBlocks = some ([] ++ (block ['c'] ++ ('\n' :: block ['b']))) :=
    @updated_between ['c'] [] ('\n' :: block ['b']) ['\n', 'a', '\n'] rfl rfl (by decide)
  simp only [EditsOwnBlock, upsertBlock, RcFile.read, hnew, Bool.not_true, Bool.false_eq_true,
    if_false] at h
  obtain ⟨existing, new, -, hfile, hone, -⟩ := h
  obtain rfl := RcFile.text.inj hfile
  have hopened := hone.opened
  have hsecond := (count_block (hunmarked 'b' (by decide)) [] []).1
  rw [List.nil_append, List.append_nil] at hsecond
  rw [(count_block (hunmarked 'c' (by decide)) _ _).1, begin_count_newline, hsecond] at hopened
  simp at hopened

end Rc

end Governance
