import Governance.Lib.Base64
import Governance.Redact.Json
import Governance.Spool.Tail

/-!
# The records of the daemon's spool

`signal.rs`, `classify.rs` and `spool/envelope.rs`: a retained OTLP payload becomes one line
of JSON with its body in base64, and `decode` reads it back.

Printing is done here. Reading JSON and base64 back, and inferring a signal from protobuf
bytes, belong to other crates, so `EnvelopeCodec` carries these functions;
`EnvelopeCodec.Lawful` says that the first two read what was printed.
-/

namespace Governance

open Utf8Text ByteLines Base64

/-- `signal::Signal`. -/
inductive Signal where
  | logs
  | metrics
  | traces
  deriving DecidableEq, Repr

namespace Signal

/-- `Signal::path`. -/
def path : Signal → String
  | .logs => "/v1/logs"
  | .metrics => "/v1/metrics"
  | .traces => "/v1/traces"

/-- `Signal::json_key`. -/
def jsonKey : Signal → String
  | .logs => "resourceLogs"
  | .metrics => "resourceMetrics"
  | .traces => "resourceSpans"

/-- `Signal::from_path`. -/
def fromPath (path : String) : Option Signal :=
  [.logs, .metrics, .traces].find? fun s => s.path.toList.isSuffixOf path.toList

/-- The `Display` of a signal. -/
def display : Signal → String
  | .logs => "logs"
  | .metrics => "metrics"
  | .traces => "traces"

/-- The name `serde` gives a signal. -/
def name : Signal → String
  | .logs => "Logs"
  | .metrics => "Metrics"
  | .traces => "Traces"

end Signal

/-- `receive::WireFormat`. -/
inductive WireFormat where
  | json
  | protobuf
  deriving DecidableEq, Repr

/-- The name `serde` gives a format. -/
def WireFormat.name : WireFormat → String
  | .json => "json"
  | .protobuf => "protobuf"

/-- What a client asks to retain. -/
structure Record where
  signal : Signal
  payload : Bytes
  format : WireFormat
  deriving DecidableEq

/-- The functions of other crates `classify` and `decode` call: `serde_json` on an envelope
and on a JSON body, base64, and the signal the OTLP decoders agree on. -/
structure EnvelopeCodec where
  fromStr : Text → Option (Signal × Text × Option WireFormat)
  base64Decode : Text → Option Bytes
  fromSlice : Bytes → Option Json
  protobufSignal : Bytes → Option Signal

/-- `classify::signal`. -/
def classify (codec : EnvelopeCodec) (body : Bytes) (format : WireFormat) (path : String) :
    Option Signal :=
  let declared := Signal.fromPath path
  match format with
  | .json =>
    (codec.fromSlice body).bind fun value =>
      match [Signal.logs, .metrics, .traces].filter fun s => (value.get s.jsonKey).isSome with
      | [found] => if declared.any (· ≠ found) then none else some found
      | _ => none
  | .protobuf =>
    let inferred := codec.protobufSignal body
    match declared, inferred with
    | some a, some b => if a ≠ b then none else some a
    | some a, none => some a
    | none, inferred => inferred

/-- What the line of an envelope has before and after its body. -/
def envelopeOpen (s : Signal) : Text :=
  "\x7b\"signal\":\"".toList ++ s.name.toList ++ "\",\"body\":\"".toList

def envelopeClose (f : WireFormat) : Text :=
  "\",\"format\":\"".toList ++ f.name.toList ++ "\"\x7d".toList

/-- The line of an envelope. -/
def renderEnvelope (signal : Signal) (body : Text) (format : WireFormat) : Text :=
  envelopeOpen signal ++ body ++ envelopeClose format

/-- `envelope::encode`. -/
def Record.line (r : Record) : Text := renderEnvelope r.signal (base64 r.payload) r.format

/-- `envelope::decode`. -/
def decodeEnvelope (codec : EnvelopeCodec) (text : Text) : Option Record :=
  (codec.fromStr text).bind fun (signal, body, format) =>
    (codec.base64Decode body).map fun body =>
      let format := format.getD (if (codec.fromSlice body).isSome then .json else .protobuf)
      -- old spools classified a bare URL as logs: ask the body again
      let signal := if signal = .logs then (classify codec body format "/").getD signal else signal
      ⟨signal, body, format⟩

/-- What is printed is read back. -/
structure EnvelopeCodec.Lawful (codec : EnvelopeCodec) : Prop where
  fromStr_render : ∀ signal payload format,
    codec.fromStr (renderEnvelope signal (base64 payload) format) =
      some (signal, base64 payload, some format)
  base64Decode_base64 : ∀ payload, codec.base64Decode (base64 payload) = some payload

/-- A record whose body does not contradict its signal, so that `decode` leaves it alone. -/
def Record.Settled (codec : EnvelopeCodec) (r : Record) : Prop :=
  r.signal = .logs → ∀ s, classify codec r.payload r.format "/" = some s → s = .logs

theorem decodeEnvelope_line {codec : EnvelopeCodec} (hcodec : codec.Lawful) (r : Record) :
    ∃ signal, decodeEnvelope codec r.line = some ⟨signal, r.payload, r.format⟩ ∧
      (r.Settled codec → signal = r.signal) := by
  refine ⟨if r.signal = .logs then (classify codec r.payload r.format "/").getD r.signal
    else r.signal, ?_, ?_⟩
  · simp only [decodeEnvelope, Record.line, hcodec.fromStr_render, Option.bind_some,
      hcodec.base64Decode_base64, Option.map_some, Option.getD_some]
  · intro hsettled
    split
    · next hlogs =>
      cases hclass : classify codec r.payload r.format "/" with
      | none => rfl
      | some s => exact (hsettled hlogs s hclass).trans hlogs.symm
    · rfl

theorem fromPath_root : Signal.fromPath "/" = none := by decide

/-- A body admitted under a signal is settled under it. -/
theorem settled_of_classify {codec : EnvelopeCodec} {body : Bytes} {format : WireFormat}
    {path : String} {signal : Signal} (h : classify codec body format path = some signal) :
    Record.Settled codec ⟨signal, body, format⟩ := by
  rintro hlogs s hs
  simp only at hlogs hs
  subst hlogs
  cases format with
  | json =>
    simp only [classify, fromPath_root, Option.any_none, Bool.false_eq_true, if_false] at h hs
    cases hval : codec.fromSlice body with
    | none => simp [hval] at hs
    | some value =>
      simp only [hval, Option.bind_some] at h hs
      split at h
      · next found hfilter =>
        rw [hfilter] at hs
        split at h
        · cases h
        · cases h
          simpa using hs.symm
      · cases h
  | protobuf =>
    simp only [classify, fromPath_root] at h hs
    rw [hs] at h
    cases hdecl : Signal.fromPath path with
    | none => simpa [hdecl] using h
    | some a =>
      simp only [hdecl] at h
      split at h
      · cases h
      · next hne =>
        have hsame : a = s := by simpa using hne
        cases h
        exact hsame.symm

/-! ## Lines of records -/

/-- Printable ASCII other than the blank. -/
def isGraphic (c : Char) : Bool := 0x20 < c.toNat && c.toNat < 0x7F

theorem isWhiteSpace_of_isGraphic {c : Char} (h : isGraphic c = true) : isWhiteSpace c = false := by
  simp only [isGraphic, Bool.and_eq_true, decide_eq_true_eq] at h
  simp only [isWhiteSpace, Bool.or_eq_false_iff, Bool.and_eq_false_iff, decide_eq_false_iff_not]
  omega

theorem length_encode_of_isGraphic {t : Text} (h : ∀ c ∈ t, isGraphic c = true) :
    (encode t).length = t.length := by
  induction t with
  | nil => rfl
  | cons c t ih =>
    have hc := h c (by simp)
    simp only [isGraphic, Bool.and_eq_true, decide_eq_true_eq] at hc
    have hval : c.val.toNat ≤ 127 := by
      have hnat : c.val.toNat = c.toNat := rfl
      omega
    rw [encode_cons, List.length_append, ih fun d hd => h d (List.mem_cons_of_mem c hd),
      String.length_utf8EncodeChar, Char.utf8Size_eq_one_iff.mpr (by simpa [UInt32.le_iff_toNat_le]),
      List.length_cons, Nat.add_comm]

theorem isGraphic_of_mem_base64 {bs : Bytes} {c : Char} (h : c ∈ base64 bs) :
    isGraphic c = true := by
  have hall : ('=' :: alphabet).all isGraphic = true := by decide +kernel
  exact List.all_eq_true.mp hall c (mem_base64 h)

theorem isGraphic_of_mem_line {r : Record} {c : Char} (h : c ∈ r.line) : isGraphic c = true := by
  have hopen : (envelopeOpen r.signal).all isGraphic = true := by
    cases r.signal <;> decide
  have hclose : (envelopeClose r.format).all isGraphic = true := by
    cases r.format <;> decide
  rw [Record.line, renderEnvelope, List.mem_append, List.mem_append] at h
  rcases h with (h | h) | h
  · exact List.all_eq_true.mp hopen c h
  · exact isGraphic_of_mem_base64 h
  · exact List.all_eq_true.mp hclose c h

/-- A line starts and ends with the braces of its object. -/
theorem line_eq (r : Record) : ∃ mid, r.line = '\x7b' :: mid ++ ['\x7d'] := by
  have hopen : envelopeOpen r.signal = '\x7b' :: (envelopeOpen r.signal).tail := by
    cases r.signal <;> decide
  have hclose : envelopeClose r.format = (envelopeClose r.format).dropLast ++ ['\x7d'] := by
    cases r.format <;> decide
  refine ⟨(envelopeOpen r.signal).tail ++ base64 r.payload ++ (envelopeClose r.format).dropLast, ?_⟩
  rw [Record.line, renderEnvelope, hopen, hclose, List.tail_cons, List.dropLast_concat]
  simp only [List.cons_append, List.append_assoc]

theorem isLine_line (r : Record) : IsLine r.line := by
  obtain ⟨mid, hmid⟩ := line_eq r
  refine ⟨?_, ?_, ?_⟩
  · intro hmem
    have hfeed := isGraphic_of_mem_line hmem
    revert hfeed
    decide
  · rw [hmid]
    exact trim_eq_self (by decide) (by decide)
  · rw [hmid]
    simp

/-- How many bytes a line has besides its body. -/
def envelopeOverhead (s : Signal) (f : WireFormat) : ℕ :=
  (envelopeOpen s).length + (envelopeClose f).length

theorem length_encode_line (r : Record) :
    (encode r.line).length =
      4 * ((r.payload.length + 2) / 3) + envelopeOverhead r.signal r.format := by
  rw [length_encode_of_isGraphic fun c hc => isGraphic_of_mem_line hc, Record.line, renderEnvelope,
    envelopeOverhead, List.length_append, List.length_append, length_base64]
  omega

theorem envelopeOverhead_bounds (s : Signal) (f : WireFormat) :
    43 ≤ envelopeOverhead s f ∧ envelopeOverhead s f ≤ 50 := by
  cases s <;> cases f <;> decide

/-! ## A reader of envelopes -/

namespace EnvelopeCodec

/-- A reader of the lines the daemon prints, for some reading of the bodies. -/
def printed (fromSlice : Bytes → Option Json) (protobufSignal : Bytes → Option Signal) :
    EnvelopeCodec where
  fromStr text := [Signal.logs, .metrics, .traces].findSome? fun s =>
    ((envelopeOpen s).isPrefixOf? text).bind fun rest =>
      [WireFormat.json, .protobuf].findSome? fun f =>
        ((envelopeClose f).isSuffixOf? rest).map fun body => (s, body, some f)
  base64Decode := decodeBase64
  fromSlice := fromSlice
  protobufSignal := protobufSignal

/-- A line opens with one signal. -/
theorem isPrefixOf?_envelopeOpen (s s' : Signal) (rest : Text) :
    (envelopeOpen s).isPrefixOf? (envelopeOpen s' ++ rest) = if s = s' then some rest else none := by
  split
  · next h => exact List.isPrefixOf?_eq_some_iff_append_eq.mpr (by rw [h])
  · next hne =>
    rw [Option.eq_none_iff_forall_not_mem]
    intro rest' hrest
    -- the names differ in their first letter
    have happ := congrArg (List.take 12) (List.isPrefixOf?_eq_some_iff_append_eq.mp hrest)
    have hlen : ∀ s, 12 ≤ (envelopeOpen s).length := by
      intro s
      cases s <;> decide
    rw [List.take_append_of_le_length (hlen s), List.take_append_of_le_length (hlen s')] at happ
    have hinj : ∀ s s', (envelopeOpen s).take 12 = (envelopeOpen s').take 12 → s = s' := by
      intro s s'
      cases s <;> cases s' <;> decide
    exact hne (hinj s s' happ)

/-- A line closes with one format. -/
theorem isSuffixOf?_envelopeClose (f f' : WireFormat) (body : Text) :
    (envelopeClose f).isSuffixOf? (body ++ envelopeClose f') =
      if f = f' then some body else none := by
  split
  · next h => exact List.isSuffixOf?_eq_some_iff_append_eq.mpr (by rw [h])
  · next hne =>
    rw [Option.eq_none_iff_forall_not_mem]
    intro body' hbody
    have happ := congrArg (fun t => t.reverse.take 3)
      (List.isSuffixOf?_eq_some_iff_append_eq.mp hbody)
    have hlen : ∀ f, 3 ≤ (envelopeClose f).reverse.length := by
      intro f
      cases f <;> decide
    simp only [List.reverse_append] at happ
    rw [List.take_append_of_le_length (hlen f), List.take_append_of_le_length (hlen f')] at happ
    have hinj : ∀ f f', (envelopeClose f).reverse.take 3 = (envelopeClose f').reverse.take 3 →
        f = f' := by
      intro f f'
      cases f <;> cases f' <;> decide
    exact hne (hinj f f' happ)

theorem lawful_printed (fromSlice : Bytes → Option Json) (protobufSignal : Bytes → Option Signal) :
    (printed fromSlice protobufSignal).Lawful := by
  refine ⟨?_, decodeBase64_base64⟩
  intro signal payload format
  simp only [printed, renderEnvelope, List.append_assoc, isPrefixOf?_envelopeOpen]
  cases signal <;> cases format <;> simp [isSuffixOf?_envelopeClose]

end EnvelopeCodec

/-! ## The round trip of what is admitted -/

/-- A body that `classify` admits, at any path, comes back from its line with the signal it was
admitted under. The line has no line feed, and the tailer's lossy decoding and trimming leave it
as it is. -/
theorem decodeEnvelope_of_classify (codec : EnvelopeCodec) (hcodec : codec.Lawful) (body : Bytes)
    (format : WireFormat) (path : String) (s : Signal)
    (h : classify codec body format path = some s) :
    decodeEnvelope codec (Record.line ⟨s, body, format⟩) = some ⟨s, body, format⟩ ∧
      '\n' ∉ Record.line ⟨s, body, format⟩ ∧
      fromUtf8Lossy (encode (Record.line ⟨s, body, format⟩)) = Record.line ⟨s, body, format⟩ ∧
      Utf8Text.trim (Record.line ⟨s, body, format⟩) = Record.line ⟨s, body, format⟩ := by
  have hline := isLine_line ⟨s, body, format⟩
  obtain ⟨signal, hdecode, hsame⟩ := decodeEnvelope_line hcodec ⟨s, body, format⟩
  have hsignal : signal = s := hsame (settled_of_classify h)
  rw [hsignal] at hdecode
  exact ⟨hdecode, hline.1, fromUtf8Lossy_encode _, hline.2⟩

/-- The bytes of a JSON export of logs. -/
def logsBody : Bytes := encode "\x7b\"resourceLogs\":[]\x7d".toList

/-- A reader of JSON that knows that export. -/
def logsCodec : EnvelopeCodec :=
  EnvelopeCodec.printed
    (fun bytes => if bytes = logsBody then some (.obj [("resourceLogs", .arr [])]) else none)
    (fun _ => none)

/-- The export of logs, posted to the root: its envelope is the kind that `decode` classifies
again. -/
theorem decodeEnvelope_of_classify_logs :
    classify logsCodec logsBody .json "/" = some .logs ∧
      decodeEnvelope logsCodec (Record.line ⟨.logs, logsBody, .json⟩) =
        some ⟨.logs, logsBody, .json⟩ :=
  have h : classify logsCodec logsBody .json "/" = some .logs := by
    decide
  ⟨h, (decodeEnvelope_of_classify logsCodec (EnvelopeCodec.lawful_printed _ _) logsBody .json "/"
    .logs h).1⟩

end Governance
