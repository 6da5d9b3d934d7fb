import Governance.Spool.Tail

/-!
# The records of a file

A record is a whole line of the file with something on it (`IsRecord`), wherever the reading
started. An offset behind a line feed (`Boundary`) divides the records: an append adds none before
it, and a drain that starts at such an offset returns exactly the records from there up to where it
stops, which is behind a line feed again.
-/

namespace Governance

open Utf8Text ByteLines

/-- A line starts behind these bytes. -/
def Starts (before : Bytes) : Prop := before = [] ∨ ∃ init, before = init ++ [lineFeed]

/-- A line ends before these bytes. -/
def Ends (behind : Bytes) : Prop := behind = [] ∨ ∃ rest, behind = lineFeed :: rest

/-- A whole line of the file that is not blank. -/
def IsRecord (bytes : Bytes) (line : Line) : Prop :=
  ∃ a w b, bytes = a ++ (w ++ lineFeed :: b) ∧ Starts a ∧ lineFeed ∉ w ∧
    line = ⟨a.length, Utf8Text.trim (fromUtf8Lossy w)⟩ ∧ line.text ≠ []

/-- A line starts at the offset. -/
def Boundary (bytes : Bytes) (offset : ℕ) : Prop :=
  offset ≤ bytes.length ∧ Starts (bytes.take offset)

namespace Starts

variable {a b : Bytes}

theorem append (hb : Starts b) (ha : Starts a) : Starts (a ++ b) := by
  obtain rfl | ⟨init, rfl⟩ := hb
  · rwa [List.append_nil]
  · exact .inr ⟨a ++ init, (List.append_assoc a init _).symm⟩

/-- Bytes that end with a line feed do so from any place on. -/
theorem of_append (h : Starts (a ++ b)) : Starts b := by
  obtain hnil | ⟨init, hinit⟩ := h
  · exact .inl (List.append_eq_nil_iff.mp hnil).2
  · obtain rfl | ⟨b', last, rfl⟩ := List.eq_nil_or_concat b
    · exact .inl rfl
    · rw [List.concat_eq_append, ← List.append_assoc] at hinit
      obtain ⟨-, hlast⟩ := List.append_inj' hinit rfl
      exact .inr ⟨b', by rw [List.concat_eq_append, hlast]⟩

/-- A line feed stands at the end of what is not empty. -/
theorem mem (h : Starts b) (hne : b ≠ []) : lineFeed ∈ b := by
  obtain rfl | ⟨init, rfl⟩ := h
  · exact absurd rfl hne
  · exact List.mem_append_right _ (List.mem_singleton_self _)

end Starts

theorem segments_of_notMem {x : Bytes} (h : lineFeed ∉ x) : segments x = [x] := by
  induction x with
  | nil => rfl
  | cons b x ih =>
    have hb : b ≠ lineFeed := by
      rintro rfl
      exact h List.mem_cons_self
    rw [segments, if_neg hb, ih fun hmem => h (List.mem_cons_of_mem b hmem)]

/-- The first line feed is in one place only. -/
theorem firstFeed_inj {x z r r' : Bytes} (hx : lineFeed ∉ x) (hz : lineFeed ∉ z)
    (h : x ++ lineFeed :: r = z ++ lineFeed :: r') : x = z ∧ r = r' := by
  have hpieces := congrArg segments h
  rw [segments_append hx, segments_append hz] at hpieces
  obtain rfl := (List.cons.inj hpieces).1
  exact ⟨rfl, by simpa using h⟩

/-- The lines of some bytes, each with its place. -/
theorem mem_collectLines {position : ℕ} {x : Bytes} {line : Line} :
    line ∈ collectLines position (segments x) ↔ ∃ a w b, x = a ++ (w ++ b) ∧ Starts a ∧ Ends b ∧
      lineFeed ∉ w ∧ line = ⟨position + a.length, Utf8Text.trim (fromUtf8Lossy w)⟩ ∧
        line.text ≠ [] := by
  -- The first piece is the line at the start; the others come from what is behind its feed.
  induction hlength : x.length using Nat.strong_induction_on generalizing x position with
  | _ n ih =>
    by_cases hfeed : lineFeed ∈ x
    · obtain ⟨first, rest, rfl, hfirst⟩ := List.eq_append_cons_of_mem hfeed
      have hlt : rest.length < n := by
        rw [← hlength, List.length_append, List.length_cons]
        omega
      have hrest : line ∈ collectLines (position + first.length + 1) (segments rest) ↔ _ :=
        ih rest.length hlt rfl
      have hsplit : line ∈ collectLines position (segments (first ++ lineFeed :: rest)) ↔
          (line = ⟨position, Utf8Text.trim (fromUtf8Lossy first)⟩ ∧ line.text ≠ []) ∨
            line ∈ collectLines (position + first.length + 1) (segments rest) := by
        rw [segments_append hfirst, collectLines]
        split
        · next htext =>
          constructor
          · exact .inr
          · rintro (⟨rfl, hne⟩ | hmem)
            · exact absurd htext hne
            · exact hmem
        · next htext =>
          rw [List.mem_cons]
          constructor
          · rintro (rfl | hmem)
            · exact .inl ⟨rfl, htext⟩
            · exact .inr hmem
          · rintro (⟨rfl, -⟩ | hmem)
            · exact .inl rfl
            · exact .inr hmem
      rw [hsplit, hrest]
      constructor
      · rintro (⟨hline, hne⟩ | ⟨a, w, b, rfl, ha, hb, hw, hline, hne⟩)
        · exact ⟨[], first, lineFeed :: rest, rfl, .inl rfl, .inr ⟨rest, rfl⟩, hfirst, hline, hne⟩
        · refine ⟨first ++ [lineFeed] ++ a, w, b, by simp, ha.append (.inr ⟨first, rfl⟩), hb, hw,
            ?_, hne⟩
          rw [hline, List.length_append, List.length_append, List.length_singleton]
          congr 1
          omega
      · rintro ⟨a, w, b, heq, ha, hb, hw, hline, hne⟩
        obtain rfl | ⟨init, rfl⟩ := ha
        · obtain rfl | ⟨b', rfl⟩ := hb
          · rw [List.nil_append, List.append_nil] at heq
            exact absurd (heq ▸ hfeed) hw
          · obtain ⟨rfl, -⟩ := firstFeed_inj hfirst hw heq
            exact .inl ⟨hline, hne⟩
        · -- The bytes before the line reach over the first feed.
          have hmem : lineFeed ∈ init ++ [lineFeed] :=
            List.mem_append_right _ (List.mem_singleton_self _)
          obtain ⟨first', a', ha', hfirst'⟩ := List.eq_append_cons_of_mem hmem
          have hstarts : Starts a' := by
            have hwhole : Starts ((first' ++ [lineFeed]) ++ a') := by
              rw [List.append_assoc, List.singleton_append, ← ha']
              exact .inr ⟨init, rfl⟩
            exact hwhole.of_append
          rw [ha', List.append_assoc, List.cons_append] at heq
          obtain ⟨rfl, rfl⟩ := firstFeed_inj hfirst hfirst' heq
          refine .inr ⟨a', w, b, rfl, hstarts, hb, hw, ?_, hne⟩
          rw [hline, ha', List.length_append, List.length_cons]
          congr 1
          omega
    · rw [segments_of_notMem hfeed, collectLines, collectLines]
      constructor
      · intro hmem
        split at hmem
        · cases hmem
        · next htext =>
          obtain rfl := List.mem_singleton.mp hmem
          exact ⟨[], x, [], (List.append_nil x).symm, .inl rfl, .inl rfl, hfeed, rfl, htext⟩
      · rintro ⟨a, w, b, rfl, ha, hb, hw, hline, hne⟩
        obtain rfl : a = [] := by
          by_contra hane
          exact hfeed (List.mem_append_left _ (ha.mem hane))
        obtain rfl : b = [] := by
          obtain rfl | ⟨b', rfl⟩ := hb
          · rfl
          · exact absurd (by simp) hfeed
        have htext : Utf8Text.trim (fromUtf8Lossy ([] ++ (w ++ []))) ≠ [] := by
          rw [hline] at hne
          simpa using hne
        rw [if_neg htext, List.mem_singleton, hline]
        simp

/-! ## Records and boundaries -/

theorem boundary_zero (bytes : Bytes) : Boundary bytes 0 := ⟨Nat.zero_le _, .inl rfl⟩

namespace Boundary

variable {bytes : Bytes} {offset : ℕ} {line : Line}

theorem append (h : Boundary bytes offset) (more : Bytes) : Boundary (bytes ++ more) offset := by
  refine ⟨h.1.trans (by simp), ?_⟩
  rw [List.take_append_of_le_length h.1]
  exact h.2

theorem of_isRecord (h : IsRecord bytes line) : Boundary bytes line.offset := by
  obtain ⟨a, w, b, rfl, ha, -, rfl, -⟩ := h
  exact ⟨by simp, by rwa [List.take_left]⟩

/-- A record that starts before a boundary ends there at the latest. -/
theorem le_of_lt (h : Boundary bytes offset) {a w b : Bytes}
    (hbytes : bytes = a ++ (w ++ lineFeed :: b)) (hw : lineFeed ∉ w) (hlt : a.length < offset) :
    a.length + w.length + 1 ≤ offset := by
  by_contra hgt
  -- Else the byte before the boundary, a line feed, is one of the line.
  have htake : bytes.take offset = a ++ w.take (offset - a.length) := by
    rw [hbytes, List.take_append, List.take_of_length_le hlt.le,
      List.take_append_of_le_length (by omega)]
  have hstarts := h.2
  rw [htake] at hstarts
  have hne : w.take (offset - a.length) ≠ [] := by
    intro hnil
    have hlength := congrArg List.length hnil
    rw [List.length_take, List.length_nil] at hlength
    omega
  exact hw (List.mem_of_mem_take (hstarts.of_append.mem hne))

end Boundary

theorem IsRecord.append {bytes : Bytes} {line : Line} (h : IsRecord bytes line) (more : Bytes) :
    IsRecord (bytes ++ more) line := by
  obtain ⟨a, w, b, rfl, ha, hw, hline, hne⟩ := h
  exact ⟨a, w, b ++ more, by simp, ha, hw, hline, hne⟩

/-- An append adds no record before a boundary. -/
theorem isRecord_of_append {bytes more : Bytes} {line : Line} {offset : ℕ}
    (hboundary : Boundary bytes offset) (h : IsRecord (bytes ++ more) line)
    (hlt : line.offset < offset) : IsRecord bytes line := by
  obtain ⟨a, w, b, hbytes, ha, hw, rfl, hne⟩ := h
  have hend := (hboundary.append more).le_of_lt hbytes hw hlt
  have hle := hboundary.1
  have hbytes' : bytes =
      a ++ (w ++ lineFeed :: b.take (bytes.length - (a.length + w.length + 1))) := by
    have htake := congrArg (List.take bytes.length) hbytes
    rw [List.take_left, List.take_append, List.take_of_length_le (by omega), List.take_append,
      List.take_of_length_le (by omega)] at htake
    rw [show bytes.length - a.length - w.length =
      bytes.length - (a.length + w.length + 1) + 1 by omega, List.take_succ_cons] at htake
    exact htake
  exact ⟨a, w, _, hbytes', ha, hw, rfl, hne⟩

/-! ## What a drain returns -/

theorem getElem?_lastLineFeed {bytes : Bytes} {last : ℕ} (h : lastLineFeed bytes = some last) :
    bytes[last]? = some lineFeed := by
  induction bytes generalizing last with
  | nil => cases h
  | cons b bytes ih =>
    rw [lastLineFeed] at h
    split at h
    · next i hi =>
      cases h
      exact ih hi
    · split at h
      · next hb =>
        cases h
        exact congrArg some hb
      · cases h

section Drained

variable {digest : Bytes → String} {f : SpoolFile} {offset : ℕ} {known : Option Identity} {d : Drain}

/-- A drain from a boundary stops at one, and what it returns are the records between. -/
theorem Drained.records (h : Drained digest f offset known d)
    (hfirst : Boundary f.bytes (d.first offset)) :
    Boundary f.bytes d.nextOffset ∧ d.first offset ≤ d.nextOffset ∧
      ∀ line, line ∈ d.lines ↔
        IsRecord f.bytes line ∧ d.first offset ≤ line.offset ∧ line.offset < d.nextOffset := by
  obtain ⟨hlines, hnext⟩ | ⟨last, hlast, hlines, hnext⟩ := h.lines
  · rw [hlines, hnext]
    refine ⟨hfirst, le_rfl, ?_⟩
    intro line
    constructor
    · intro hmem
      cases hmem
    · rintro ⟨-, hle, hlt⟩
      omega
  · -- The bytes that were read whole end with a line feed.
    have hfeed : (f.bytes.drop (d.first offset))[last]? = some lineFeed := by
      have hget := getElem?_lastLineFeed hlast
      rw [List.getElem?_take] at hget
      split at hget
      · exact hget
      · cases hget
    have hwindow : last + 1 ≤ maxRead := by
      have hlt := (List.getElem?_eq_some_iff.mp (getElem?_lastLineFeed hlast)).1
      rw [List.length_take] at hlt
      omega
    have hsize : d.first offset + (last + 1) ≤ f.bytes.length := by
      have hlt := (List.getElem?_eq_some_iff.mp hfeed).1
      rw [List.length_drop] at hlt
      omega
    obtain ⟨init, hinit⟩ : ∃ init, (f.bytes.drop (d.first offset)).take (last + 1) =
        init ++ [lineFeed] := ⟨_, by rw [List.take_add_one, hfeed]; rfl⟩
    rw [List.take_take, min_eq_left hwindow] at hlines
    have hboundary : Boundary f.bytes d.nextOffset := by
      rw [hnext, Nat.add_assoc]
      refine ⟨hsize, ?_⟩
      rw [List.take_add, hinit]
      exact .inr ⟨_, (List.append_assoc _ _ _).symm⟩
    refine ⟨hboundary, by omega, ?_⟩
    intro line
    rw [hlines, mem_collectLines]
    constructor
    · rintro ⟨a, w, b, heq, ha, hb, hw, hline, hne⟩
      have hlength := congrArg List.length heq
      rw [List.length_take, List.length_drop, List.length_append, List.length_append] at hlength
      have hwne : w ≠ [] := by
        rintro rfl
        rw [hline] at hne
        exact hne (show Utf8Text.trim (fromUtf8Lossy []) = [] by decide)
      obtain ⟨b', rfl⟩ : ∃ b', b = lineFeed :: b' := by
        refine hb.resolve_left ?_
        rintro rfl
        -- The last byte read is a feed, and would be one of the line.
        have hstarts : Starts (a ++ w) := by
          rw [← List.append_nil w, ← heq, hinit]
          exact .inr ⟨init, rfl⟩
        exact hw (hstarts.of_append.mem hwne)
      have hbytes : f.bytes = (f.bytes.take (d.first offset) ++ a) ++
          (w ++ lineFeed :: (b' ++ f.bytes.drop (d.first offset + (last + 1)))) := by
        conv_lhs => rw [← List.take_append_drop (d.first offset) f.bytes,
          ← List.take_append_drop (last + 1) (f.bytes.drop (d.first offset)), heq, List.drop_drop]
        simp
      have hlengthTake : (f.bytes.take (d.first offset)).length = d.first offset := by
        rw [List.length_take]
        omega
      rw [List.length_cons] at hlength
      refine ⟨⟨_, w, _, hbytes, ha.append hfirst.2, hw, ?_, hne⟩, ?_, ?_⟩
      · rw [hline, List.length_append, hlengthTake]
      · rw [hline]
        exact Nat.le_add_right _ _
      · rw [hline]
        show d.first offset + a.length < d.nextOffset
        omega
    · rintro ⟨⟨a, w, b, hbytes, ha, hw, rfl, hne⟩, hle, hlt⟩
      dsimp only at hle hlt
      have hend := hboundary.le_of_lt hbytes hw hlt
      rw [hnext] at hend
      refine ⟨a.drop (d.first offset), w,
        lineFeed :: b.take (d.first offset + last - (a.length + w.length)), ?_, ?_, .inr ⟨_, rfl⟩,
        hw, ?_, hne⟩
      · rw [hbytes, List.drop_append_of_le_length hle, List.take_append,
          List.take_of_length_le (by rw [List.length_drop]; omega), List.length_drop,
          List.take_append, List.take_of_length_le (by omega),
          show last + 1 - (a.length - d.first offset) - w.length =
            d.first offset + last - (a.length + w.length) + 1 by omega, List.take_succ_cons]
      · rw [← List.take_append_drop (d.first offset) a] at ha
        exact ha.of_append
      · rw [List.length_drop]
        congr 1
        exact (Nat.add_sub_cancel' hle).symm

end Drained

end Governance
