import Governance.Ide.Sse
import Governance.Lib.EventStream

/-!
# Which event streams the editor reads

`SseParser` cuts at two line feeds and reads an event line feed by line feed, as if no line ended
with a carriage return. So an event whose blank line ends with one stays in the buffer, and a `data`
line goes on behind one. `push_accepts_iff` says which streams it reads as they are meant.
-/

namespace Governance

namespace Sse

open Utf8Text Cutting EventStream

/-! ## UTF-16 and white space -/

theorem utf16_ascii {c : Char} (h : c.toNat < 0x80) : utf16 c = [c.toNat.toUInt16] := by
  rw [utf16, if_pos (by omega)]

/-- A unit below the surrogates is a character of its own. -/
theorem utf16_head {c d : Char} (h : c.toNat < 0x80) {rest rest' : JsString}
    (heq : c.toNat.toUInt16 :: rest = utf16 d ++ rest') : d = c := by
  have hmax : d.toNat ≤ 0x10FFFF := (toNat_le d).1
  have hc : c.toNat.toUInt16.toNat = c.toNat := by
    rw [Nat.toUInt16, UInt16.toNat_ofNat_of_lt' (by change _ < 65536; omega)]
  rw [utf16] at heq
  split at heq
  · next hsmall =>
    have hval := congrArg UInt16.toNat (List.cons.inj heq).1
    rw [hc, Nat.toUInt16, UInt16.toNat_ofNat_of_lt' (by simpa using hsmall)] at hval
    exact Char.toNat_inj.1 hval.symm
  · have hval := congrArg UInt16.toNat (List.cons.inj heq).1
    rw [hc, Nat.toUInt16, UInt16.toNat_ofNat_of_lt' (by change _ < 65536; omega)] at hval
    omega

theorem ofText_cons (c : Char) (t : Text) : ofText (c :: t) = utf16 c ++ ofText t := rfl

theorem ofText_prefix_iff {p t : Text} (hp : ∀ c ∈ p, c.toNat < 0x80) :
    ofText p <+: ofText t ↔ p <+: t := by
  constructor
  · intro h
    induction p generalizing t with
    | nil => exact List.nil_prefix
    | cons c p ih =>
      obtain ⟨hc, hrest⟩ := List.forall_mem_cons.1 hp
      obtain ⟨more, hmore⟩ := h
      rw [ofText_cons, utf16_ascii hc, List.cons_append, List.nil_append, List.cons_append] at hmore
      cases t with
      | nil => cases hmore
      | cons d t =>
        obtain rfl : d = c := utf16_head hc hmore
        rw [ofText_cons, utf16_ascii hc, List.cons_append, List.nil_append, List.cons.injEq] at hmore
        exact List.cons_prefix_cons.2 ⟨rfl, ih hrest ⟨more, hmore.2⟩⟩
  · rintro ⟨more, rfl⟩
    rw [ofText_append]
    exact List.prefix_append _ _

theorem ofText_splitOn (t : Text) : (ofText t).splitOn newline = (t.splitOn '\n').map ofText := by
  induction t with
  | nil => decide
  | cons c t ih =>
    obtain ⟨y, ys, hys⟩ := List.exists_cons_of_ne_nil (List.splitOn_ne_nil '\n' t)
    rw [ofText_cons]
    by_cases hc : c = '\n'
    · subst hc
      have hunit : utf16 '\n' = [newline] := by decide
      have hcut : ('\n' :: t).splitOn '\n' = [] :: t.splitOn '\n' :=
        splitOn_cons_self '\n' t
      have hcut' : (newline :: ofText t).splitOn newline = [] :: (ofText t).splitOn newline :=
        splitOn_cons_self newline (ofText t)
      rw [hunit, List.singleton_append, hcut, hcut', ih]
      rfl
    · have hno : newline ∉ utf16 c := fun h => hc (utf16_newline h)
      have hone : '\n' ∉ [c] := by simpa using Ne.symm hc
      have hcons : (c :: t).splitOn '\n' = ([c] ++ y) :: ys := splitOn_append_of_notMem hone hys
      rw [hys] at ih
      rw [splitOn_append_of_notMem hno ih, hcons]
      rfl

theorem countP_dropWhile {α : Type*} (p : α → Bool) (l : List α) :
    (l.dropWhile p).countP (fun a => !p a) = l.countP fun a => !p a := by
  have hzero : (l.takeWhile p).countP (fun a => !p a) = 0 := by
    rw [List.countP_eq_zero]
    intro a ha
    simp [List.mem_takeWhile_imp ha]
  have hsum := congrArg (List.countP fun a => !p a) (List.takeWhile_append_dropWhile (p := p) (l := l))
  rw [List.countP_append] at hsum
  omega

theorem rdropWhile_append_of_all {α : Type*} {p : α → Bool} {l t : List α}
    (h : ∀ a ∈ t, p a = true) : (l ++ t).rdropWhile p = l.rdropWhile p := by
  have hnil : t.reverse.dropWhile p = [] :=
    List.dropWhile_eq_nil_iff.2 fun a ha => h a (List.mem_reverse.1 ha)
  rw [List.rdropWhile, List.reverse_append, List.dropWhile_append, hnil]
  rfl

/-- Trimming takes off white space only, and all of it at the end. -/
theorem jsTrim_append_eq_iff {s t : JsString} :
    jsTrim (s ++ t) = jsTrim s ↔ ∀ u ∈ t, isJsWhiteSpace u = true := by
  constructor
  · intro heq
    have hcount : ∀ s, (jsTrim s).countP (fun u => !isJsWhiteSpace u) =
        s.countP fun u => !isJsWhiteSpace u := by
      intro s
      rw [jsTrim, List.rdropWhile, List.countP_reverse, countP_dropWhile, List.countP_reverse,
        countP_dropWhile]
    have hsum := hcount (s ++ t)
    rw [heq, hcount, List.countP_append] at hsum
    have hzero : t.countP (fun u => !isJsWhiteSpace u) = 0 := by omega
    intro u hu
    simpa using List.countP_eq_zero.1 hzero u hu
  · intro hwhite
    have hnil : t.dropWhile isJsWhiteSpace = [] := List.dropWhile_eq_nil_iff.2 hwhite
    rw [jsTrim, jsTrim, List.dropWhile_append]
    split
    · next hempty => rw [hnil, List.isEmpty_iff.1 hempty]
    · exact rdropWhile_append_of_all hwhite

/-! ## A line feed at a time -/

theorem splitEvent_spec {s event rest : JsString} (h : splitEvent s = some (event, rest)) :
    s = event ++ newline :: newline :: rest := by
  induction s generalizing event with
  | nil => cases h
  | cons a s ih =>
    cases s with
    | nil => cases h
    | cons b s =>
      rw [splitEvent_cons_cons] at h
      split at h
      · next hblank =>
        obtain ⟨rfl, rfl⟩ := Prod.mk.inj (Option.some.inj h)
        rw [hblank.1, hblank.2]
        rfl
      · obtain ⟨⟨event', rest'⟩, hsplit, heq⟩ := Option.map_eq_some_iff.1 h
        obtain ⟨rfl, rfl⟩ := Prod.mk.inj heq
        rw [ih hsplit]
        rfl

/-- The payloads of a text are those of its lines: a blank line has none. -/
theorem drain_linePayloads (s : JsString) :
    (drain s).1 ++ payloads (drain s).2 = payloads s := by
  induction hn : s.length using Nat.strong_induction_on generalizing s with
  | _ n ih =>
    cases hsplit : splitEvent s with
    | none => rw [drain_none hsplit, List.nil_append]
    | some p =>
      obtain ⟨event, rest⟩ := p
      have hrest := ih rest.length (hn ▸ splitEvent_length hsplit) rest rfl
      have hs := splitEvent_spec hsplit
      have hblank : linePayloads [[]] = [] := by decide
      have hcut : (newline :: rest).splitOn newline = [[]] ++ rest.splitOn newline :=
        splitOn_cons_self newline rest
      rw [drain_some hsplit, List.append_assoc, hrest, hs, payloads, payloads, payloads,
        List.splitOn_append_cons_self, hcut, linePayloads_append, linePayloads_append, hblank,
        List.nil_append]

theorem payloads_ofText (t : Text) :
    payloads (ofText t) = (t.splitOn '\n').flatMap fun y => linePayloads [ofText y] := by
  rw [payloads, ofText_splitOn]
  induction t.splitOn '\n' with
  | nil => rfl
  | cons y ys ih => rw [List.map_cons, ← List.singleton_append, linePayloads_append, ih,
      List.flatMap_cons]

theorem linePayloads_data (r : Text) :
    linePayloads [ofText ("data:".toList ++ r)] = [jsTrim (ofText r)] := by
  have hdata : ofText ("data:".toList ++ r) = dataField ++ ofText r := by
    rw [ofText_append, dataField]
  have hlen : dataField.length = 5 := by decide
  have hdrop : (dataField ++ ofText r).drop 5 = ofText r := by
    rw [← hlen, List.drop_left]
  rw [hdata, linePayloads, List.filter_singleton,
    List.isPrefixOf_iff_prefix.2 (List.prefix_append _ _), cond_true, List.map_singleton, hdrop]

theorem linePayloads_other {y : Text} (h : ¬ "data:".toList <+: y) :
    linePayloads [ofText y] = [] := by
  have hno : dataField.isPrefixOf (ofText y) = false := by
    rw [← Bool.not_eq_true, List.isPrefixOf_iff_prefix, dataField, ofText_prefix_iff (by simp)]
    exact h
  rw [linePayloads, List.filter_singleton, hno]
  rfl

/-! ## What the format says of a line -/

/-- The value of a line as it is handed out. -/
def trimmed (value : Text) : JsString := jsTrim (ofText value)

theorem dataValue_data (r : Text) :
    ∃ value, dataValue ("data:".toList ++ r) = some value ∧ trimmed value = jsTrim (ofText r) := by
  have hname : ("data:".toList ++ r).takeWhile (· ≠ ':') = "data".toList := by
    rfl
  have hrest : (("data:".toList ++ r).dropWhile (· ≠ ':')).drop 1 = r := by
    rfl
  rw [dataValue, if_pos hname, hrest]
  split
  · next value =>
    refine ⟨value, rfl, ?_⟩
    rfl
  · exact ⟨r, rfl, rfl⟩

theorem prefix_of_prefix_append {y tail : Text} (h : "data:".toList <+: y ++ tail)
    (htail : ∀ c ∈ tail.head?, c = '\r') : "data:".toList <+: y := by
  rcases List.prefix_or_prefix_of_prefix h (List.prefix_append y tail) with hpre | ⟨more, hmore⟩
  · exact hpre
  · cases more with
    | nil => rw [← hmore, List.append_nil]
    | cons c more =>
      -- what is missing would stand in the tail
      exfalso
      rw [← hmore, List.prefix_append_right_inj] at h
      obtain ⟨rest, hrest⟩ := h
      have hc := htail c (by rw [← hrest]; rfl)
      have hmem : '\r' ∈ "data:".toList := by
        rw [← hmore, ← hc]
        exact List.mem_append_right y List.mem_cons_self
      revert hmem
      decide

/-- A line feed's worth of text that is read as it is meant: no `data` line stands behind a carriage
return, and one that stands in front has its colon and nothing but white space behind it. -/
def ReadAsMeant (y : Text) : Prop :=
  ∀ first rest, y.splitOn '\r' = first :: rest →
    (∀ line ∈ rest, dataValue line = none) ∧
      (dataValue first ≠ none → "data:".toList <+: first ∧
        ∀ line ∈ rest, ∀ u ∈ ofText line, isJsWhiteSpace u = true)

theorem white_tail_iff {rest : List Text} :
    (∀ u ∈ ofText (rest.flatMap ('\r' :: ·)), isJsWhiteSpace u = true) ↔
      ∀ line ∈ rest, ∀ u ∈ ofText line, isJsWhiteSpace u = true := by
  induction rest with
  | nil => simp [ofText]
  | cons line rest ih =>
    have hunit : utf16 '\r' = [0x0D] := by decide
    have hcr : ∀ u ∈ utf16 '\r', isJsWhiteSpace u = true := by
      rw [hunit, List.forall_mem_singleton]
      decide
    rw [List.flatMap_cons, ofText_append, ofText_cons, List.forall_mem_append,
      List.forall_mem_append, ih, List.forall_mem_cons]
    exact and_congr_left fun _ => and_iff_right hcr

/-- What is handed out of a line feed's worth of text that begins with a `data` line. -/
theorem linePayloads_of_prefix {y first : Text} {rest : List Text}
    (hcut : y.splitOn '\r' = first :: rest) (h : "data:".toList <+: y) :
    ∃ r value, first = "data:".toList ++ r ∧ dataValue first = some value ∧
      trimmed value = jsTrim (ofText r) ∧
      linePayloads [ofText y] = [jsTrim (ofText r ++ ofText (rest.flatMap ('\r' :: ·)))] := by
  have hy := eq_append_flatMap_of_splitOn hcut
  have hfirst : "data:".toList <+: first := by
    refine prefix_of_prefix_append (hy ▸ h) ?_
    cases rest with
    | nil => simp
    | cons line rest => simp
  obtain ⟨r, rfl⟩ := hfirst
  obtain ⟨value, hvalue, htrim⟩ := dataValue_data r
  refine ⟨r, value, rfl, hvalue, htrim, ?_⟩
  rw [hy, List.append_assoc, linePayloads_data, ofText_append]

theorem lineFeedValues_cons {y first : Text} {rest : List Text}
    (hcut : y.splitOn '\r' = first :: rest) :
    lineFeedValues y = (dataValue first).toList ++ rest.filterMap dataValue := by
  rw [lineFeedValues, hcut, List.filterMap_cons]
  cases dataValue first <;> rfl

theorem linePayloads_length_le (y : Text) :
    (linePayloads [ofText y]).length ≤ ((lineFeedValues y).map trimmed).length := by
  by_cases h : "data:".toList <+: y
  · obtain ⟨first, rest, hcut⟩ := List.exists_cons_of_ne_nil (List.splitOn_ne_nil '\r' y)
    obtain ⟨r, value, -, hvalue, -, hout⟩ := linePayloads_of_prefix hcut h
    rw [hout, lineFeedValues_cons hcut, hvalue]
    simp
  · rw [linePayloads_other h]
    exact Nat.zero_le _

theorem linePayloads_eq_iff (y : Text) :
    linePayloads [ofText y] = (lineFeedValues y).map trimmed ↔ ReadAsMeant y := by
  obtain ⟨first, rest, hcut⟩ := List.exists_cons_of_ne_nil (List.splitOn_ne_nil '\r' y)
  have hmeant : ReadAsMeant y ↔ (∀ line ∈ rest, dataValue line = none) ∧
      (dataValue first ≠ none → "data:".toList <+: first ∧
        ∀ line ∈ rest, ∀ u ∈ ofText line, isJsWhiteSpace u = true) := by
    rw [ReadAsMeant, hcut]
    simp
  have hrest : rest.filterMap dataValue = [] ↔ ∀ line ∈ rest, dataValue line = none :=
    List.filterMap_eq_nil_iff
  rw [hmeant, lineFeedValues_cons hcut]
  by_cases h : "data:".toList <+: y
  · obtain ⟨r, value, rfl, hvalue, htrim, hout⟩ := linePayloads_of_prefix hcut h
    have hhead : "data:".toList <+: "data:".toList ++ r := List.prefix_append _ _
    have hsome : some value ≠ none := Option.some_ne_none value
    rw [hout, hvalue, Option.toList_some, List.singleton_append, List.map_cons, List.cons.injEq,
      htrim, jsTrim_append_eq_iff, white_tail_iff, eq_comm, List.map_eq_nil_iff, hrest]
    tauto
  · have hfirst : ¬ "data:".toList <+: first := by
      intro hpre
      rw [eq_append_flatMap_of_splitOn hcut] at h
      exact h (hpre.trans (List.prefix_append _ _))
    rw [linePayloads_other h, eq_comm, List.map_eq_nil_iff, List.append_eq_nil_iff, hrest,
      Option.toList_eq_nil_iff]
    tauto

/-! ## What stays in the buffer -/

theorem splitEvent_none_left {s t : JsString} (h : splitEvent (s ++ t) = none) :
    splitEvent s = none := by
  rw [Option.eq_none_iff_forall_not_mem]
  rintro ⟨event, rest⟩ hsome
  rw [splitEvent_append hsome t] at h
  cases h

/-- A line feed behind a line that is not blank completes no event. -/
theorem splitEvent_line {s t : JsString} (hs : splitEvent s = none) (ht : newline ∉ t)
    (hne : t ≠ []) : splitEvent (s ++ t ++ [newline]) = none := by
  rw [Option.eq_none_iff_forall_not_mem]
  rintro ⟨event, rest⟩ hsome
  have hblank := splitEvent_append hsome [newline]
  rw [List.append_assoc, List.singleton_append, splitEvent_blank hs ht hne, Option.some.injEq,
    Prod.mk.injEq] at hblank
  exact List.append_ne_nil_of_right_ne_nil rest (List.cons_ne_nil newline []) hblank.2.symm

theorem ofText_ne_nil {t : Text} (h : t ≠ []) : ofText t ≠ [] := by
  obtain ⟨c, t, rfl⟩ := List.exists_cons_of_ne_nil h
  rw [ofText_cons, utf16]
  split <;> exact List.cons_ne_nil _ _

theorem ofText_newline : ofText ['\n'] = [newline] := by decide

theorem splitEvent_text {s : JsString} {t : Text} (hs : splitEvent s = none) (ht : '\n' ∉ t)
    (hne : t ≠ []) : splitEvent (s ++ ofText (t ++ ['\n'])) = none := by
  rw [ofText_append, ofText_newline, ← List.append_assoc]
  exact splitEvent_line hs (newline_notMem_ofText ht) (ofText_ne_nil hne)

/-- A line completes no event. -/
theorem splitEvent_written {s : JsString} (hs : splitEvent s = none) (l : Line) :
    splitEvent (s ++ ofText l.written) = none := by
  have hcr : '\n' ∉ l.text ++ ['\r'] := by simpa using l.no_lf
  have hne : l.text ++ ['\r'] ≠ [] := List.append_ne_nil_of_left_ne_nil l.nonempty _
  rw [Line.written]
  cases l.ending with
  | lf => exact splitEvent_text hs l.no_lf l.nonempty
  | crlf =>
    have hboth : l.text ++ LineEnd.crlf.text = l.text ++ ['\r'] ++ ['\n'] := by simp [LineEnd.text]
    rw [hboth]
    exact splitEvent_text hs hcr hne
  | cr =>
    have hmore := splitEvent_text hs hcr hne
    rw [ofText_append, ← List.append_assoc] at hmore
    exact splitEvent_none_left hmore

theorem splitEvent_lines {s : JsString} (hs : splitEvent s = none) (lines : List Line) :
    splitEvent (s ++ ofText (lines.flatMap Line.written)) = none := by
  induction lines generalizing s with
  | nil => simpa [ofText] using hs
  | cons l lines ih =>
    rw [List.flatMap_cons, ofText_append, ← List.append_assoc]
    exact ih (splitEvent_written hs l)

/-- An event is taken out of the buffer when its blank line ends with a line feed alone. -/
theorem drain_event {s : JsString} (hs : splitEvent s = none) (e : Event) :
    (drain (s ++ ofText e.text)).2 =
      match e.close with
      | .lf => []
      | _ => s ++ ofText e.text := by
  have hlines := splitEvent_lines hs e.lines
  have hcr : splitEvent (s ++ ofText (e.lines.flatMap Line.written) ++ ofText (['\r'] ++ ['\n'])) =
      none := splitEvent_text hlines (by decide) (by decide)
  cases hclose : e.close with
  | lf =>
    -- the line above the blank line ends with a line feed
    obtain ⟨init, l, hinit⟩ : ∃ init l, e.lines = init ++ [l] := by
      have hne : e.lines ≠ [] := by
        intro hnil
        have hone := e.one_data
        rw [hnil] at hone
        cases hone
      exact ⟨_, _, (List.dropLast_append_getLast hne).symm⟩
    obtain ⟨t, hlf, hne, hwritten⟩ : ∃ t, '\n' ∉ t ∧ t ≠ [] ∧ l.written = t ++ ['\n'] := by
      have hapart := e.apart hclose l (by rw [hinit]; simp)
      rw [Line.written]
      cases hend : l.ending with
      | lf => exact ⟨l.text, l.no_lf, l.nonempty, rfl⟩
      | crlf =>
        refine ⟨l.text ++ ['\r'], by simpa using l.no_lf,
          List.append_ne_nil_of_left_ne_nil l.nonempty _, ?_⟩
        simp [LineEnd.text]
      | cr => exact absurd hend hapart
    have hblank := splitEvent_blank (splitEvent_lines hs init) (newline_notMem_ofText hlf)
      (ofText_ne_nil hne)
    have htext : s ++ ofText e.text =
        s ++ ofText (init.flatMap Line.written) ++ ofText t ++ [newline, newline] := by
      rw [Event.text, hclose, hinit, List.flatMap_append, List.flatMap_singleton, hwritten,
        ofText_append, ofText_append, ofText_append, LineEnd.text, ofText_newline]
      simp
    rw [htext, drain_some hblank]
    rfl
  | cr =>
    have hopen : splitEvent (s ++ ofText e.text) = none := by
      rw [ofText_append, ← List.append_assoc] at hcr
      rw [Event.text, hclose, LineEnd.text, ofText_append, ← List.append_assoc]
      exact splitEvent_none_left hcr
    rw [drain_none hopen]
  | crlf =>
    have hopen : splitEvent (s ++ ofText e.text) = none := by
      rw [Event.text, hclose, LineEnd.text, ofText_append, ← List.append_assoc]
      exact hcr
    rw [drain_none hopen]

/-- The last event is closed by a line feed, when there is one. -/
def ClosedByLineFeed (s : EventStream.Stream) : Prop :=
  ∀ e ∈ s.events.getLast?, e.close = .lf

/-- Of a stream closed by a line feed nothing stays, of another one the last event does. -/
theorem drain_body (s : EventStream.Stream) :
    (ClosedByLineFeed s → (drain (ofText s.body)).2 = []) ∧
      (¬ ClosedByLineFeed s → ∃ e ∈ s.events, ofText e.text <:+: (drain (ofText s.body)).2) := by
  obtain hnil | ⟨init, e, hinit⟩ := s.events.eq_nil_or_concat
  · have hempty : drain (ofText s.body) = ([], []) := by
      rw [Stream.body, hnil]
      rfl
    refine ⟨fun _ => by rw [hempty], fun hnot => absurd ?_ hnot⟩
    rw [ClosedByLineFeed, hnil]
    simp
  · rw [List.concat_eq_append] at hinit
    have hbuffer : (drain (ofText s.body)).2 =
        (drain ((drain (ofText (init.flatMap Event.text))).2 ++ ofText e.text)).2 := by
      rw [Stream.body, hinit, List.flatMap_append, List.flatMap_singleton, ofText_append,
        drain_append]
    have hclosed : ClosedByLineFeed s ↔ e.close = .lf := by
      rw [ClosedByLineFeed, hinit]
      simp
    rw [hbuffer, drain_event (splitEvent_drain _), hclosed]
    constructor
    · intro hlf
      rw [hlf]
    · intro hnot
      refine ⟨e, by rw [hinit]; simp, ?_⟩
      split
      · next hlf => exact absurd hlf hnot
      · exact (List.suffix_append _ _).isInfix

/-! ## The whole parser -/

/-- A parser that has been fed chunks has been fed their bytes. -/
theorem pushAll_snd (bytes : List UInt8) (chunks : List (List UInt8)) :
    ((SseParser.after bytes).pushAll chunks).2 = SseParser.after (bytes ++ chunks.flatten) := by
  induction chunks generalizing bytes with
  | nil => simp [SseParser.pushAll]
  | cons chunk chunks ih =>
    rw [SseParser.pushAll, (push_after bytes chunk).2, ih, List.flatten_cons, List.append_assoc]

theorem textOf_stream (s : EventStream.Stream) : textOf (encode s.text) = ofText s.body := by
  rw [textOf, decodeStream_encode, Stream.text]
  cases hbom : s.bom with
  | true => rfl
  | false =>
    have hunmarked := s.unmarked hbom
    rw [← Stream.body] at hunmarked
    cases hbody : s.body with
    | nil => rfl
    | cons c body =>
      have hc : c ≠ bomChar := hunmarked c (by rw [hbody]; rfl)
      have hnat : c.toNat ≠ 0xFEFF := fun h => hc (Char.toNat_inj.1 h)
      rw [if_neg Bool.false_ne_true, List.nil_append, dropBom, if_neg]
      simpa using hnat

/-- A stream is handed out as it is meant, its values in their order and nothing kept, in whatever
chunks, if and only if the last blank line ends with a line feed alone, and between two line feeds
no `data` line stands behind a carriage return, and one in front has its colon and nothing but white
space behind it. -/
theorem push_reads_stream_iff (s : EventStream.Stream) (chunks : List (List UInt8))
    (h : chunks.flatten = encode s.text) :
    ((SseParser.new.pushAll chunks).1 = s.values.map trimmed ∧
        ∀ e ∈ s.events, ¬ ofText e.text <:+: (SseParser.new.pushAll chunks).2.buffer) ↔
      ClosedByLineFeed s ∧ ∀ y ∈ s.body.splitOn '\n', ReadAsMeant y := by
  have hout : (SseParser.new.pushAll chunks).1 = (drain (ofText s.body)).1 := by
    have hpush := pushAll_after [] chunks
    rw [List.nil_append, h, payloadsOf, textOf_stream, after_nil] at hpush
    exact hpush.symm
  have hbuffer : (SseParser.new.pushAll chunks).2.buffer = (drain (ofText s.body)).2 := by
    rw [← after_nil, pushAll_snd, List.nil_append, h, SseParser.after, textOf_stream]
  obtain ⟨hclosed, hopen⟩ := drain_body s
  rw [hout, hbuffer]
  by_cases hlf : ClosedByLineFeed s
  · have hlines := drain_linePayloads (ofText s.body)
    have hnone : payloads [] = [] := by decide
    rw [hclosed hlf, hnone, List.append_nil, payloads_ofText] at hlines
    have hvalues : s.values.map trimmed =
        (s.body.splitOn '\n').flatMap fun y => (lineFeedValues y).map trimmed := by
      rw [← s.lineFeedValues_body, List.map_flatMap]
    have hempty : ∀ e ∈ s.events, ¬ ofText e.text <:+: ([] : JsString) := by
      intro e _ hinfix
      exact ofText_ne_nil e.text_ne_nil (List.infix_nil.1 hinfix)
    rw [hclosed hlf, hlines, hvalues, flatMap_eq_flatMap_iff linePayloads_length_le]
    simp only [linePayloads_eq_iff, hlf, true_and, and_iff_left hempty]
  · obtain ⟨e, he, hstays⟩ := hopen hlf
    constructor
    · rintro ⟨-, hgone⟩
      exact absurd hstays (hgone e he)
    · rintro ⟨hlf', -⟩
      exact absurd hlf' hlf

/-- The event `data: a`, with these line ends. -/
def dataA (ending close : LineEnd) (apart : close = .lf → ending ≠ .cr) : Event where
  lines := [⟨"data: a".toList, ending, by simp, by simp, by simp⟩]
  close := close
  one_data := by rfl
  apart := by simpa using apart

def streamA (ending close : LineEnd) (apart : close = .lf → ending ≠ .cr) :
    EventStream.Stream where
  bom := false
  events := [dataA ending close apart]
  unmarked := by
    rintro - c hc
    obtain rfl : 'd' = c := Option.some.inj hc
    decide

/-- With line feeds, cut behind the first byte. -/
theorem push_reads_stream_iff_lf :
    let s := streamA .lf .lf (by simp)
    let chunks := [(encode s.text).take 1, (encode s.text).drop 1]
    ((SseParser.new.pushAll chunks).1 = s.values.map trimmed ∧
        ∀ e ∈ s.events, ¬ ofText e.text <:+: (SseParser.new.pushAll chunks).2.buffer) ↔
      ClosedByLineFeed s ∧ ∀ y ∈ s.body.splitOn '\n', ReadAsMeant y :=
  push_reads_stream_iff (streamA .lf .lf (by simp)) _ (by
    rw [List.flatten_cons, List.flatten_cons, List.flatten_nil, List.append_nil,
      List.take_append_drop])

/-- With a carriage return and a line feed everywhere, nothing is handed out of one chunk, and the
event stays. -/
theorem crlf_event_stays :
    let s := streamA .crlf .crlf (by simp)
    let pushed := SseParser.new.pushAll [encode s.text]
    s.values.map trimmed = [ofText "a".toList] ∧ pushed.1 = [] ∧
      pushed.2.buffer = ofText "data: a\r\n\r\n".toList ∧
      ofText (dataA .crlf .crlf (by simp)).text = pushed.2.buffer := by
  decide +kernel

end Sse

end Governance
