import Governance.Lib.Cutting
import Governance.Lib.Utf8Text

/-!
# Event streams

The text format of server-sent events. A line has one of three ends, and every event is closed by a
blank line. A line feed ends a line whatever stands before it, so a stream can be read line feed by
line feed, and carriage return by carriage return within (`lineFeedValues_written`).
-/

namespace EventStream

open Cutting Utf8Text

inductive LineEnd where
  | lf
  | cr
  | crlf

def LineEnd.text : LineEnd → Text
  | .lf => ['\n']
  | .cr => ['\r']
  | .crlf => ['\r', '\n']

/-- The value of a line, if it is the field `data`: what follows the first colon, without a space at
its start. A line without a colon is a field without a value. -/
def dataValue (line : Text) : Option Text :=
  if line.takeWhile (· ≠ ':') = "data".toList then
    match (line.dropWhile (· ≠ ':')).drop 1 with
    | ' ' :: value => some value
    | value => some value
  else none

/-- A comment or a field. -/
structure Line where
  text : Text
  ending : LineEnd
  nonempty : text ≠ []
  no_lf : '\n' ∉ text
  no_cr : '\r' ∉ text

def Line.written (l : Line) : Text := l.text ++ l.ending.text

/-- An event with one `data` line, and the end of the blank line behind it. -/
structure Event where
  lines : List Line
  close : LineEnd
  one_data : (lines.filterMap fun l => dataValue l.text).length = 1
  /-- A line feed behind a carriage return is no blank line. -/
  apart : close = .lf → ∀ l ∈ lines.getLast?, l.ending ≠ .cr

def Event.text (e : Event) : Text := e.lines.flatMap Line.written ++ e.close.text

theorem Event.text_ne_nil (e : Event) : e.text ≠ [] := by
  rw [Event.text]
  refine List.append_ne_nil_of_right_ne_nil _ ?_
  cases e.close <;> exact List.cons_ne_nil _ _

/-- The byte order mark. -/
def bomChar : Char := Char.ofNat 0xFEFF

structure Stream where
  bom : Bool
  events : List Event
  unmarked : bom = false → ∀ c ∈ (events.flatMap Event.text).head?, c ≠ bomChar

/-- A stream behind its byte order mark. -/
def Stream.body (s : Stream) : Text := s.events.flatMap Event.text

def Stream.text (s : Stream) : Text := (if s.bom then [bomChar] else []) ++ s.body

/-- The data values of the events. -/
def Stream.values (s : Stream) : List Text :=
  s.events.flatMap fun e => e.lines.filterMap fun l => dataValue l.text

/-! ## Line feed by line feed -/

/-- The values of the lines that end between two line feeds. -/
def lineFeedValues (y : Text) : List Text := (y.splitOn '\r').filterMap dataValue

theorem filterMap_singleton {α β : Type*} (f : α → Option β) (a : α) :
    [a].filterMap f = (f a).toList := by
  cases h : f a <;> simp [h]

/-- A text without a line end, and the line end behind it. -/
def written (p : Text × LineEnd) : Text := p.1 ++ p.2.text

theorem lineFeedValues_written {pieces : List (Text × LineEnd)}
    (h : ∀ p ∈ pieces, '\n' ∉ p.1 ∧ '\r' ∉ p.1) :
    ((pieces.flatMap written).splitOn '\n').flatMap lineFeedValues =
      pieces.filterMap fun p => dataValue p.1 := by
  induction pieces with
  | nil => decide
  | cons p pieces ih =>
    obtain ⟨⟨hlf, hcr⟩, hrest⟩ := List.forall_mem_cons.1 h
    obtain ⟨t, ending⟩ := p
    rw [List.flatMap_cons, List.filterMap_cons]
    have hvalues : ((t ++ ending.text ++ pieces.flatMap written).splitOn '\n').flatMap
        lineFeedValues = (dataValue t).toList ++
          ((pieces.flatMap written).splitOn '\n').flatMap lineFeedValues := by
      cases ending with
      | lf =>
        have hcut : (t ++ ['\n'] ++ pieces.flatMap written).splitOn '\n' =
            t :: (pieces.flatMap written).splitOn '\n' := by
          rw [List.append_assoc, List.singleton_append, List.splitOn_append_cons_self,
            List.splitOn_eq_singleton hlf, List.singleton_append]
        have hone : lineFeedValues t = (dataValue t).toList := by
          rw [lineFeedValues, List.splitOn_eq_singleton hcr, filterMap_singleton]
        rw [LineEnd.text, hcut, List.flatMap_cons, hone]
      | crlf =>
        have hlf' : '\n' ∉ t ++ ['\r'] := by simpa using hlf
        have hcut : (t ++ ['\r', '\n'] ++ pieces.flatMap written).splitOn '\n' =
            (t ++ ['\r']) :: (pieces.flatMap written).splitOn '\n' := by
          have hassoc : t ++ ['\r', '\n'] ++ pieces.flatMap written =
              (t ++ ['\r']) ++ '\n' :: pieces.flatMap written := by simp
          rw [hassoc, List.splitOn_append_cons_self, List.splitOn_eq_singleton hlf',
            List.singleton_append]
        have hone : lineFeedValues (t ++ ['\r']) = (dataValue t).toList := by
          have hblank : dataValue [] = none := rfl
          rw [lineFeedValues, List.splitOn_append_cons_self, List.splitOn_eq_singleton hcr,
            List.splitOn_nil, List.filterMap_append, filterMap_singleton,
            filterMap_singleton, hblank, Option.toList_none, List.append_nil]
        rw [LineEnd.text, hcut, List.flatMap_cons, hone]
      | cr =>
        -- the line goes on to the next line feed
        obtain ⟨y, ys, hys⟩ := List.exists_cons_of_ne_nil
          (List.splitOn_ne_nil '\n' (pieces.flatMap written))
        have hlf' : '\n' ∉ t ++ ['\r'] := by simpa using hlf
        have hone : lineFeedValues (t ++ ['\r'] ++ y) = (dataValue t).toList ++ lineFeedValues y := by
          rw [lineFeedValues, List.append_assoc, List.singleton_append,
            List.splitOn_append_cons_self, List.splitOn_eq_singleton hcr, List.filterMap_append,
            filterMap_singleton, lineFeedValues]
        rw [LineEnd.text, splitOn_append_of_notMem hlf' hys, hys, List.flatMap_cons,
          List.flatMap_cons, hone, List.append_assoc]
    rw [written, hvalues, ih hrest]
    cases dataValue t <;> rfl

/-- The lines of an event and the blank line behind it. -/
def Event.pieces (e : Event) : List (Text × LineEnd) :=
  (e.lines.map fun l => (l.text, l.ending)) ++ [([], e.close)]

theorem Event.written_pieces (e : Event) : e.pieces.flatMap EventStream.written = e.text := by
  rw [Event.pieces, List.flatMap_append, List.flatMap_map, List.flatMap_singleton, Event.text]
  rfl

/-- The values of a stream are those of its text. -/
theorem Stream.lineFeedValues_body (s : Stream) :
    (s.body.splitOn '\n').flatMap lineFeedValues = s.values := by
  have hbody : s.body = (s.events.flatMap Event.pieces).flatMap EventStream.written := by
    rw [Stream.body, List.flatMap_assoc]
    simp only [Event.written_pieces]
  rw [hbody, lineFeedValues_written]
  · rw [Stream.values, List.filterMap_flatMap]
    refine congrArg s.events.flatMap ?_
    funext e
    have hblank : dataValue [] = none := by decide
    rw [Event.pieces, List.filterMap_append, List.filterMap_map, filterMap_singleton, hblank,
      Option.toList_none, List.append_nil]
    rfl
  · intro p hp
    obtain ⟨e, -, hpe⟩ := List.mem_flatMap.1 hp
    rcases List.mem_append.1 hpe with hline | hblank
    · obtain ⟨l, -, rfl⟩ := List.mem_map.1 hline
      exact ⟨l.no_lf, l.no_cr⟩
    · rw [List.mem_singleton.1 hblank]
      exact ⟨List.not_mem_nil, List.not_mem_nil⟩

end EventStream
