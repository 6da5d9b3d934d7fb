import Governance.Lib.Cutting
import Governance.Lib.Utf8Stream

/-!
# Server-sent events in the editor

`ide/vscode/src/sse.ts`: `SseParser` decodes chunks of bytes, cuts the text at blank lines and hands
out the `data:` payloads of every event that is complete. A text is a JavaScript string, a list of
UTF-16 units. What has been handed out depends on the bytes alone, not on the chunks, and more bytes
only add to it.
-/

namespace Governance

namespace Sse

open Utf8Text Cutting

/-- A JavaScript string. -/
abbrev JsString := List UInt16

/-- The UTF-16 units of a character. -/
def utf16 (c : Char) : JsString :=
  if c.toNat < 0x10000 then [c.toNat.toUInt16]
  else [(0xD800 + (c.toNat - 0x10000) / 0x400).toUInt16,
    (0xDC00 + (c.toNat - 0x10000) % 0x400).toUInt16]

/-- The JavaScript string of a text. -/
def ofText (t : Text) : JsString := t.flatMap utf16

def newline : UInt16 := 0x0A

/-- The units that `String.prototype.trim` removes. -/
def isJsWhiteSpace (u : UInt16) : Bool :=
  let v := u.toNat
  (0x9 ≤ v && v ≤ 0xD) || v = 0x20 || v = 0xA0 || v = 0x1680 || (0x2000 ≤ v && v ≤ 0x200A) ||
    v = 0x2028 || v = 0x2029 || v = 0x202F || v = 0x205F || v = 0x3000 || v = 0xFEFF

/-- `trim`. -/
def jsTrim (s : JsString) : JsString := (s.dropWhile isJsWhiteSpace).rdropWhile isJsWhiteSpace

/-! ## `TextDecoder` -/

/-- A `TextDecoder`: the bytes it keeps, and whether it has seen the first character. -/
structure TextDecoder where
  kept : List UInt8
  bomSeen : Bool

def TextDecoder.new : TextDecoder := ⟨[], false⟩

/-- Drops a byte order mark, when it is the first character. -/
def dropBom (bomSeen : Bool) : Text → Text
  | [] => []
  | c :: t => if !bomSeen && c.toNat = 0xFEFF then t else c :: t

/-- `decode` with `stream: true`. -/
def TextDecoder.decode (d : TextDecoder) (bytes : List UInt8) : JsString × TextDecoder :=
  let decoded := decodeStream (d.kept ++ bytes)
  (ofText (dropBom d.bomSeen decoded.1), ⟨decoded.2, d.bomSeen || !decoded.1.isEmpty⟩)

/-! ## `SseParser` -/

/-- What stands before the first blank line, and what follows it. -/
def splitEvent : JsString → Option (JsString × JsString)
  | a :: b :: rest =>
    if a = newline ∧ b = newline then some ([], rest)
    else (splitEvent (b :: rest)).map fun p => (a :: p.1, p.2)
  | _ => none

/-- `data:`. -/
def dataField : JsString := ofText "data:".toList

/-- The payloads of lines. -/
def linePayloads (lines : List JsString) : List JsString :=
  (lines.filter fun line => dataField.isPrefixOf line).map fun line => jsTrim (line.drop 5)

/-- The payloads of an event. -/
def payloads (event : JsString) : List JsString := linePayloads (event.splitOn newline)

/-- The loop of `drain`. -/
def drainLoop : ℕ → JsString → List JsString × JsString
  | 0, buffer => ([], buffer)
  | fuel + 1, buffer =>
    match splitEvent buffer with
    | none => ([], buffer)
    | some (event, buffer) =>
      (payloads event ++ (drainLoop fuel buffer).1, (drainLoop fuel buffer).2)

/-- `drain`: the payloads, and the buffer that is left. -/
def drain (buffer : JsString) : List JsString × JsString := drainLoop buffer.length buffer

structure SseParser where
  buffer : JsString
  decoder : TextDecoder

namespace SseParser

def new : SseParser := ⟨[], .new⟩

/-- `push`. -/
def push (p : SseParser) (bytes : List UInt8) : List JsString × SseParser :=
  let decoded := p.decoder.decode bytes
  let drained := drain (p.buffer ++ decoded.1)
  (drained.1, ⟨drained.2, decoded.2⟩)

/-- The payloads of a sequence of chunks. -/
def pushAll (p : SseParser) : List (List UInt8) → List JsString × SseParser
  | [] => ([], p)
  | chunk :: chunks =>
    ((p.push chunk).1 ++ ((p.push chunk).2.pushAll chunks).1, ((p.push chunk).2.pushAll chunks).2)

end SseParser

/-! ## Draining a text -/

theorem splitEvent_length {s event rest : JsString} (h : splitEvent s = some (event, rest)) :
    rest.length < s.length := by
  induction s generalizing event with
  | nil => cases h
  | cons a s ih =>
    cases s with
    | nil => cases h
    | cons b s =>
      rw [splitEvent] at h
      split at h
      · obtain ⟨-, rfl⟩ := Prod.mk.inj (Option.some.inj h)
        simp only [List.length_cons]
        omega
      · obtain ⟨⟨event', rest'⟩, hsplit, heq⟩ := Option.map_eq_some_iff.mp h
        obtain ⟨-, rfl⟩ := Prod.mk.inj heq
        have hlt := ih hsplit
        rw [List.length_cons]
        omega

theorem splitEvent_append {s event rest : JsString} (h : splitEvent s = some (event, rest))
    (t : JsString) : splitEvent (s ++ t) = some (event, rest ++ t) := by
  induction s generalizing event with
  | nil => cases h
  | cons a s ih =>
    cases s with
    | nil => cases h
    | cons b s =>
      rw [splitEvent] at h
      rw [List.cons_append, List.cons_append, splitEvent]
      split at h
      · next hblank =>
        obtain ⟨rfl, rfl⟩ := Prod.mk.inj (Option.some.inj h)
        rw [if_pos hblank]
      · next hblank =>
        obtain ⟨⟨event', rest'⟩, hsplit, heq⟩ := Option.map_eq_some_iff.mp h
        obtain ⟨rfl, rfl⟩ := Prod.mk.inj heq
        have happend := ih hsplit
        rw [List.cons_append] at happend
        rw [if_neg hblank, happend]
        rfl

theorem drainLoop_eq {fuel fuel' : ℕ} {s : JsString} (h : s.length ≤ fuel) (h' : s.length ≤ fuel') :
    drainLoop fuel s = drainLoop fuel' s := by
  induction fuel generalizing fuel' s with
  | zero =>
    obtain rfl : s = [] := List.eq_nil_of_length_eq_zero (by omega)
    cases fuel' <;> rfl
  | succ fuel ih =>
    cases fuel' with
    | zero =>
      obtain rfl : s = [] := List.eq_nil_of_length_eq_zero (by omega)
      rfl
    | succ fuel' =>
      rw [drainLoop, drainLoop]
      split
      · rfl
      · next event rest hsplit =>
        have hlt := splitEvent_length hsplit
        have hrest : drainLoop fuel rest = drainLoop fuel' rest := ih (by omega) (by omega)
        rw [hrest]

theorem drain_none {s : JsString} (h : splitEvent s = none) : drain s = ([], s) := by
  rw [drain]
  cases s.length with
  | zero => rfl
  | succ n => rw [drainLoop, h]

theorem drain_some {s event rest : JsString} (h : splitEvent s = some (event, rest)) :
    drain s = (payloads event ++ (drain rest).1, (drain rest).2) := by
  have hlt := splitEvent_length h
  obtain ⟨n, hn⟩ : ∃ n, s.length = n + 1 := ⟨s.length - 1, by omega⟩
  rw [drain, hn, drainLoop, h]
  simp only
  rw [drainLoop_eq (by omega) (le_refl rest.length)]
  rfl

/-- No event is complete in what is left. -/
theorem splitEvent_drain (s : JsString) : splitEvent (drain s).2 = none := by
  induction hn : s.length using Nat.strong_induction_on generalizing s with
  | _ n ih =>
    cases hsplit : splitEvent s with
    | none => rw [drain_none hsplit, hsplit]
    | some p =>
      obtain ⟨event, rest⟩ := p
      rw [drain_some hsplit]
      exact ih rest.length (hn ▸ splitEvent_length hsplit) rest rfl

/-- More text is drained from where the buffer was left. -/
theorem drain_append (s t : JsString) :
    drain (s ++ t) =
      ((drain s).1 ++ (drain ((drain s).2 ++ t)).1, (drain ((drain s).2 ++ t)).2) := by
  induction hn : s.length using Nat.strong_induction_on generalizing s with
  | _ n ih =>
    cases hsplit : splitEvent s with
    | none => rw [drain_none hsplit, List.nil_append]
    | some p =>
      obtain ⟨event, rest⟩ := p
      rw [drain_some (splitEvent_append hsplit t), drain_some hsplit,
        ih rest.length (hn ▸ splitEvent_length hsplit) rest rfl, List.append_assoc]

/-! ## The bytes alone -/

/-- The text of some bytes. -/
def textOf (bytes : List UInt8) : JsString := ofText (dropBom false (decodeStream bytes).1)

/-- The payloads that some bytes complete. -/
def payloadsOf (bytes : List UInt8) : List JsString := (drain (textOf bytes)).1

/-- A parser that has been fed these bytes. -/
def SseParser.after (bytes : List UInt8) : SseParser :=
  ⟨(drain (textOf bytes)).2, ⟨(decodeStream bytes).2, !(decodeStream bytes).1.isEmpty⟩⟩

theorem ofText_append (s t : Text) : ofText (s ++ t) = ofText s ++ ofText t := by
  simp [ofText]

/-- A byte order mark is dropped from the first character only. -/
theorem dropBom_append (s t : Text) :
    dropBom false (s ++ t) = dropBom false s ++ dropBom (!s.isEmpty) t := by
  cases s with
  | nil => rfl
  | cons c s =>
    have hseen : dropBom true t = t := by cases t <;> rfl
    rw [List.isEmpty_cons, Bool.not_false, hseen, List.cons_append, dropBom, dropBom]
    split <;> rfl

/-- One chunk takes a parser from some bytes to more. -/
theorem push_after (bytes chunk : List UInt8) :
    payloadsOf (bytes ++ chunk) = payloadsOf bytes ++ ((SseParser.after bytes).push chunk).1 ∧
      ((SseParser.after bytes).push chunk).2 = SseParser.after (bytes ++ chunk) := by
  have htext : textOf (bytes ++ chunk) = textOf bytes ++
      ofText (dropBom (!(decodeStream bytes).1.isEmpty)
        (decodeStream ((decodeStream bytes).2 ++ chunk)).1) := by
    rw [textOf, decodeStream_append, dropBom_append, ofText_append]
    rfl
  constructor
  · rw [payloadsOf, htext, drain_append]
    rfl
  · have hempty (s t : Text) : (!(s ++ t).isEmpty) = (!s.isEmpty || !t.isEmpty) := by
      cases s <;> rfl
    simp only [SseParser.after, SseParser.push, TextDecoder.decode, htext, drain_append (textOf bytes),
      decodeStream_append bytes chunk, hempty]

/-- The payloads of chunks are those of their bytes. -/
theorem pushAll_after (bytes : List UInt8) (chunks : List (List UInt8)) :
    payloadsOf (bytes ++ chunks.flatten) =
      payloadsOf bytes ++ ((SseParser.after bytes).pushAll chunks).1 := by
  induction chunks generalizing bytes with
  | nil => simp [SseParser.pushAll]
  | cons chunk chunks ih =>
    obtain ⟨hpayloads, hparser⟩ := push_after bytes chunk
    rw [List.flatten_cons, ← List.append_assoc, ih, hpayloads, SseParser.pushAll, hparser,
      List.append_assoc]

theorem after_nil : SseParser.after [] = .new := rfl

/-- What a prefix completes is a prefix of what the whole completes. -/
theorem payloadsOf_prefix {bytes whole : List UInt8} (h : bytes <+: whole) :
    payloadsOf bytes <+: payloadsOf whole := by
  obtain ⟨more, rfl⟩ := h
  rw [(push_after bytes more).1]
  exact List.prefix_append _ _

/-! ## An event behind a cut -/

/-- A `data:` event with this payload, as bytes. -/
def dataEvent (body : Text) : List UInt8 := encode ("data: ".toList ++ body ++ "\n\n".toList)

/-- The stream ends behind the blank line of an event. -/
def Whole (bytes : List UInt8) : Prop := (drain (textOf bytes)).2 = []

theorem linePayloads_append (a b : List JsString) :
    linePayloads (a ++ b) = linePayloads a ++ linePayloads b := by
  simp [linePayloads]

theorem splitEvent_cons_cons {a b : UInt16} {rest : JsString} :
    splitEvent (a :: b :: rest) = if a = newline ∧ b = newline then some ([], rest)
      else (splitEvent (b :: rest)).map fun p => (a :: p.1, p.2) := by
  rw [splitEvent]

/-- A text without a blank line that goes on with a unit that is no line feed has none there. -/
theorem splitEvent_blank {s t : JsString} (hs : splitEvent s = none) (ht : newline ∉ t)
    (hne : t ≠ []) :
    splitEvent (s ++ t ++ [newline, newline]) = some (s ++ t, []) := by
  induction s with
  | nil =>
    rw [List.nil_append]
    clear hs
    induction t with
    | nil => exact absurd rfl hne
    | cons a t ih =>
      rw [List.mem_cons, not_or] at ht
      cases t with
      | nil =>
        rw [List.cons_append, List.nil_append, splitEvent_cons_cons,
          if_neg fun h => ht.1 h.1.symm]
        rfl
      | cons b t =>
        rw [List.cons_append, List.cons_append, splitEvent_cons_cons,
          if_neg fun h => ht.1 h.1.symm, ← List.cons_append, ih ht.2 (List.cons_ne_nil b t)]
        rfl
  | cons a s ih =>
    cases s with
    | nil =>
      obtain ⟨b, t, rfl⟩ := List.exists_cons_of_ne_nil hne
      have hb : ¬ (a = newline ∧ b = newline) := fun h => ht (h.2 ▸ List.mem_cons_self)
      have hrest := ih rfl
      rw [List.nil_append, List.cons_append] at hrest
      rw [List.cons_append, List.nil_append, List.cons_append, List.cons_append,
        splitEvent_cons_cons, if_neg hb, hrest]
      rfl
    | cons b s =>
      rw [splitEvent] at hs
      split at hs
      · cases hs
      · next hblank =>
        have hrest := ih (Option.map_eq_none_iff.mp hs)
        rw [List.cons_append, List.cons_append] at hrest
        rw [List.cons_append, List.cons_append, List.cons_append, List.cons_append,
          splitEvent_cons_cons, if_neg hblank, hrest]
        rfl

/-- An event that begins with a text without a blank line goes on with it, or it is the text without
its line feed. -/
theorem event_of_append {s t event rest : JsString} (hs : splitEvent s = none)
    (h : splitEvent (s ++ t) = some (event, rest)) :
    s <+: event ∨ s = event ++ [newline] := by
  induction s generalizing event rest with
  | nil => exact .inl List.nil_prefix
  | cons a s ih =>
    cases s with
    | nil =>
      cases t with
      | nil => cases h
      | cons b t =>
        rw [List.cons_append, List.nil_append, splitEvent_cons_cons] at h
        split at h
        · next hblank =>
          obtain ⟨rfl, -⟩ := Prod.mk.inj (Option.some.inj h)
          exact .inr (by rw [hblank.1]; rfl)
        · obtain ⟨⟨event', rest'⟩, -, heq⟩ := Option.map_eq_some_iff.mp h
          obtain ⟨rfl, -⟩ := Prod.mk.inj heq
          exact .inl (List.cons_prefix_cons.mpr ⟨rfl, List.nil_prefix⟩)
    | cons b s =>
      rw [splitEvent] at hs
      split at hs
      · cases hs
      · next hblank =>
        rw [List.cons_append, List.cons_append, splitEvent_cons_cons, if_neg hblank] at h
        obtain ⟨⟨event', rest'⟩, hsplit, heq⟩ := Option.map_eq_some_iff.mp h
        obtain ⟨rfl, -⟩ := Prod.mk.inj heq
        rw [← List.cons_append] at hsplit
        rcases ih (Option.map_eq_none_iff.mp hs) hsplit with hpre | heq'
        · exact .inl (List.cons_prefix_cons.mpr ⟨rfl, hpre⟩)
        · exact .inr (by rw [heq']; rfl)

theorem utf16_newline {c : Char} (h : newline ∈ utf16 c) : c = '\n' := by
  have hmax : c.toNat ≤ 0x10FFFF := (toNat_le c).1
  unfold utf16 at h
  split at h
  · next hsmall =>
    have hval : (newline : UInt16).toNat = c.toNat.toUInt16.toNat :=
      congrArg UInt16.toNat (List.mem_singleton.mp h)
    rw [Nat.toUInt16, UInt16.toNat_ofNat_of_lt' (by simpa using hsmall)] at hval
    exact Char.toNat_inj.mp hval.symm
  · -- A surrogate is no line feed.
    simp only [List.mem_cons, List.not_mem_nil, or_false] at h
    rcases h with h | h
    · have hval := congrArg UInt16.toNat h
      rw [Nat.toUInt16, UInt16.toNat_ofNat_of_lt' (by change _ < 65536; omega)] at hval
      have hten : (newline : UInt16).toNat = 10 := rfl
      omega
    · have hval := congrArg UInt16.toNat h
      rw [Nat.toUInt16, UInt16.toNat_ofNat_of_lt' (by change _ < 65536; omega)] at hval
      have hten : (newline : UInt16).toNat = 10 := rfl
      omega

theorem newline_notMem_ofText {t : Text} (h : '\n' ∉ t) : newline ∉ ofText t := by
  intro hmem
  obtain ⟨c, hc, hunit⟩ := List.mem_flatMap.mp hmem
  exact h (utf16_newline hunit ▸ hc)

/-- The text of a `data:` event behind some bytes: the start of a character at their end is
replaced. -/
theorem textOf_dataEvent (bytes : List UInt8) (body : Text) :
    ∃ v : Text, '\n' ∉ v ∧ textOf (bytes ++ dataEvent body) =
      textOf bytes ++ (ofText (v ++ "data: ".toList ++ body) ++ [newline, newline]) := by
  have hstart : dataEvent body = 0x64 :: encode ("ata: ".toList ++ body ++ "\n\n".toList) := rfl
  have hdecoded : decodeStream (0x64 :: encode ("ata: ".toList ++ body ++ "\n\n".toList)) =
      ("data: ".toList ++ body ++ "\n\n".toList, []) := by
    rw [← hstart]
    exact decodeStream_encode _
  have hbom (seen : Bool) (t : Text) : dropBom seen ('d' :: t) = 'd' :: t ∧
      dropBom seen (replacement :: t) = replacement :: t := by
    constructor <;>
    · rw [dropBom, if_neg]
      cases seen <;> decide
  have htext : textOf (bytes ++ dataEvent body) = textOf bytes ++
      ofText (dropBom (!(decodeStream bytes).1.isEmpty)
        (decodeStream ((decodeStream bytes).2 ++ dataEvent body)).1) := by
    rw [textOf, decodeStream_append, dropBom_append, ofText_append]
    rfl
  rw [htext, hstart, decodeStream_ascii (decodeChar_kept bytes) (by decide), hdecoded]
  have hend : ofText "\n\n".toList = [newline, newline] := by decide
  split
  · refine ⟨[], List.not_mem_nil, ?_⟩
    have hdrop := (hbom (!(decodeStream bytes).1.isEmpty)
      ("ata: ".toList ++ body ++ "\n\n".toList)).1
    rw [List.nil_append, List.nil_append, ← hend, ← ofText_append]
    exact congrArg (fun t => textOf bytes ++ ofText t) hdrop
  · refine ⟨[replacement], by decide, ?_⟩
    have hdrop := (hbom (!(decodeStream bytes).1.isEmpty)
      ("data: ".toList ++ body ++ "\n\n".toList)).2
    rw [← hend, ← ofText_append]
    exact congrArg (fun t => textOf bytes ++ ofText t) hdrop

/-- The payloads of a `data:` event behind some bytes: the lines that the bytes have closed give the
payloads they give in every whole stream that goes on from the bytes, and the open line goes on with
the event. -/
theorem payloadsOf_dataEvent (bytes : List UInt8) {body : Text} (hbody : '\n' ∉ body) :
    ∃ (closed : List JsString) (openLine : JsString),
      payloadsOf (bytes ++ dataEvent body) = payloadsOf bytes ++ linePayloads closed ++
        linePayloads [openLine ++ ofText ("data: ".toList ++ body)] ∧
      ∀ whole, bytes <+: whole → Whole whole →
        payloadsOf bytes ++ linePayloads closed <+: payloadsOf whole := by
  obtain ⟨v, hv, htext⟩ := textOf_dataEvent bytes body
  obtain ⟨closed, last, hlast, hcut⟩ := splitOn_append newline (drain (textOf bytes)).2
  refine ⟨closed, last ++ ofText v, ?_, ?_⟩
  · have hline : newline ∉ ofText (v ++ "data: ".toList ++ body) := by
      refine newline_notMem_ofText ?_
      rw [List.mem_append, List.mem_append, not_or, not_or]
      exact ⟨⟨hv, by decide⟩, hbody⟩
    have hne : ofText (v ++ "data: ".toList ++ body) ≠ [] := by
      rw [ofText_append, ofText_append]
      refine List.append_ne_nil_of_left_ne_nil (List.append_ne_nil_of_right_ne_nil _ ?_) _
      decide
    have hevent := splitEvent_blank (splitEvent_drain (textOf bytes)) hline hne
    have hlines : ((drain (textOf bytes)).2 ++ ofText (v ++ "data: ".toList ++ body)).splitOn newline =
        closed ++ [last ++ ofText v ++ ofText ("data: ".toList ++ body)] := by
      rw [hcut, List.splitOn_eq_singleton (List.not_mem_append hlast hline), List.append_assoc v,
        ofText_append v, ← List.append_assoc last]
    have hnil : drain [] = ([], []) := rfl
    rw [payloadsOf, htext, drain_append, ← List.append_assoc (drain (textOf bytes)).2,
      drain_some hevent, hnil, payloads, hlines, linePayloads_append, List.append_nil,
      ← List.append_assoc]
    rfl
  · rintro whole ⟨more, rfl⟩ hwhole
    obtain ⟨t, ht⟩ : ∃ t, textOf (bytes ++ more) = textOf bytes ++ t := by
      rw [textOf, decodeStream_append, dropBom_append, ofText_append]
      exact ⟨_, rfl⟩
    rw [Whole, ht, drain_append] at hwhole
    rw [payloadsOf, payloadsOf, ht, drain_append]
    refine (List.prefix_append_right_inj _).mpr ?_
    cases hsplit : splitEvent ((drain (textOf bytes)).2 ++ t) with
    | none =>
      -- Nothing is left, so nothing was open.
      rw [drain_none hsplit] at hwhole
      have hbuffer := (List.append_eq_nil_iff.mp hwhole).1
      have hclosed := hcut []
      rw [hbuffer, List.append_nil, List.append_nil, List.splitOn_eq_singleton hlast] at hclosed
      have hlength := congrArg List.length hclosed
      simp only [List.length_append, List.length_cons, List.length_nil, List.splitOn_nil] at hlength
      obtain rfl : closed = [] := List.eq_nil_of_length_eq_zero (by omega)
      exact List.nil_prefix
    | some p =>
      obtain ⟨event, rest⟩ := p
      rw [drain_some hsplit]
      refine List.IsPrefix.trans ?_ (List.prefix_append _ _)
      rcases event_of_append (splitEvent_drain (textOf bytes)) hsplit with ⟨x, rfl⟩ | hbuffer
      · rw [payloads, hcut, linePayloads_append]
        exact List.prefix_append _ _
      · have hclosed := hcut []
        rw [List.append_nil, List.append_nil, List.splitOn_eq_singleton hlast, hbuffer,
          List.splitOn_append_cons_self, List.splitOn_nil] at hclosed
        obtain ⟨heq, -⟩ := List.append_inj' hclosed rfl
        rw [payloads, heq]

end Sse

end Governance
