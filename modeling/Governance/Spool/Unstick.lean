import Governance.Auth.Endpoints
import Governance.Otel.Request
import Governance.Spool.Steps

/-!
# Unsticking the spool by hand

`scripts/otel-daemon-unstick.py`: a developer stops the daemon, replays the records at the front of
the spool against the collector, and cuts out those that come before the first one it takes.

The script counts every answer outside 2xx as a refusal and sends every record as protobuf. What it
cuts out was refused for good only when each of these answers was 400, 413 or 422 and each of these
records is protobuf. Where the daemon reads on afterwards does not depend on that.
-/

namespace Governance

namespace Unstick

open Utf8Text ByteLines Endpoints

/-! ## The script -/

/-- One run of the script: its arguments, `json.loads` with `base64.b64decode` for a line, what
`urlopen` reports for each request in turn (nothing where it raises), and the ids of the file that
is renamed into place. -/
structure Call where
  loads : Bytes → Option (String × Bytes)
  otelEndpoint : String
  token : String
  apply : Bool
  maxScan : ℕ
  answers : ℕ → Option ℕ
  inode : ℕ
  device : ℕ

/-- What `post_record` sends. -/
structure Request where
  url : String
  contentType : String
  authorization : String
  body : Bytes
  deriving DecidableEq

/-- `SIGNAL_PATHS`. -/
def signalPaths : List (String × String) := [("Logs", "/v1/logs"), ("Metrics", "/v1/metrics")]

/-- An entry of `bad_records`. -/
structure BadRecord where
  start : ℕ
  signal : String
  length : ℕ
  status : ℕ
  deriving DecidableEq

/-- How the scan ends: with an exception, without an accepted record, or at one. -/
inductive Ending where
  | failed
  | stopped
  | accepted (start : ℕ)
  deriving DecidableEq

structure Scan where
  bad : List BadRecord
  sent : List Request
  ending : Ending
  deriving DecidableEq

/-- `read_line_at`. -/
def readLineAt (raw : Bytes) (start : ℕ) : Bytes × ℕ :=
  match (raw.drop start).findIdx? (· = lineFeed) with
  | none => (raw.drop start, raw.length)
  | some i => ((raw.drop start).take (i + 1), start + i + 1)

/-- The bytes that `bytes.strip` takes. -/
def isSpace (b : UInt8) : Bool := b ∈ [9, 10, 11, 12, 13, 32]

/-- The characters that `str.strip` takes. -/
def isStripped (c : Char) : Bool := isWhiteSpace c || (0x1C ≤ c.toNat && c.toNat ≤ 0x1F)

/-- `quarantine_key_at`. -/
def quarantineKeyAt (digest : Bytes → String) (raw : Bytes) (start : ℕ) : String :=
  let text := fromUtf8Lossy (readLineAt raw start).1
  Quarantine.key digest ((text.dropWhile isStripped).rdropWhile isStripped)

def isSuccess (status : ℕ) : Bool := 200 ≤ status && status < 300

/-- `copilot::is_permanent`. -/
def isPermanent (status : ℕ) : Bool := status ∈ [400, 413, 422]

namespace Call

/-- The request of `post_record`; a signal without a path is a `KeyError`. -/
def postRecord (call : Call) (signal : String) (body : Bytes) : Option Request :=
  (signalPaths.lookup signal).map fun path =>
    ⟨trimEndSlashes call.otelEndpoint ++ path, "application/x-protobuf", "Bearer " ++ call.token,
      body⟩

/-- The loop of `main`, which ends after `max_scan` refusals. -/
def scan (call : Call) (raw : Bytes) : ℕ → ℕ → ℕ → Scan
  | 0, _, _ => ⟨[], [], .stopped⟩
  | budget + 1, pos, n =>
    if raw.length ≤ pos then ⟨[], [], .stopped⟩
    else if (readLineAt raw pos).1.all isSpace then ⟨[], [], .stopped⟩
    else match call.loads (readLineAt raw pos).1 with
    | none => ⟨[], [], .failed⟩
    | some (signal, payload) =>
      match call.postRecord signal payload with
      | none => ⟨[], [], .failed⟩
      | some request =>
        match call.answers n with
        | none => ⟨[], [request], .failed⟩
        | some status =>
          if isSuccess status then ⟨[], [request], .accepted pos⟩
          else
            let rest := call.scan raw budget (readLineAt raw pos).2 (n + 1)
            ⟨⟨pos, signal, payload.length, status⟩ :: rest.bad, request :: rest.sent, rest.ending⟩

end Call

/-- The disk after a run, the requests it sent, and its exit code. -/
structure Outcome where
  disk : Disk
  sent : List Request
  code : ℕ

/-- `main`, once it has a token. -/
def main (digest : Bytes → String) (call : Call) (disk : Disk) : Outcome :=
  match disk.spool, disk.checkpoint with
  | some f, some checkpoint =>
    match checkpoint.spool with
    | none => ⟨disk, [], 1⟩
    | some recorded =>
      if digest (f.bytes.take recorded.headLen) ≠ recorded.head then ⟨disk, [], 1⟩
      else if checkpoint.offset < headBytes then ⟨disk, [], 1⟩
      else
        let scan := call.scan f.bytes call.maxScan checkpoint.offset 0
        match scan.ending with
        | .failed => ⟨disk, scan.sent, 1⟩
        | .stopped => ⟨disk, scan.sent, if scan.bad = [] then 0 else 1⟩
        | .accepted goodStart =>
          if scan.bad = [] ∨ call.apply = false then ⟨disk, scan.sent, 0⟩
          else
            let newRaw := f.bytes.take checkpoint.offset ++ f.bytes.drop goodStart
            if digest (newRaw.take recorded.headLen) ≠ recorded.head then ⟨disk, scan.sent, 1⟩
            else
              let keys := scan.bad.map fun bad => quarantineKeyAt digest f.bytes bad.start
              ⟨⟨some ⟨some call.inode, some call.device, newRaw, f.generation + 1⟩,
                some { checkpoint with
                  spool := some { recorded with
                    inode := some call.inode
                    device := some call.device }
                  quarantine := keys.foldl Quarantine.forget checkpoint.quarantine }⟩,
                scan.sent, 0⟩
  | _, _ => ⟨disk, [], 1⟩

/-! ## The promise -/

section Promise

variable (env : SpoolEnv) (call : Call) (f : SpoolFile) (c : Checkpoint) (lines : List Text)
  (fragment : Text)

/-- The first `n` records behind the offset are cut out: each was refused for good in its own wire
format, the one behind them was accepted, and the daemon goes on with that one. -/
structure Cuts (n : ℕ) : Prop where
  refused : ∀ i < n, ∃ t r request status, lines[i]? = some t ∧
    decodeEnvelope env.codec t = some r ∧
    (main env.digest call ⟨some f, some c⟩).sent[i]? = some request ∧
    request.body = r.payload ∧ request.contentType = r.format.contentType ∧
    call.answers i = some status ∧ isPermanent status = true
  accepted : ∃ t r request status, lines[n]? = some t ∧ decodeEnvelope env.codec t = some r ∧
    (main env.digest call ⟨some f, some c⟩).sent[n]? = some request ∧ request.body = r.payload ∧
    call.answers n = some status ∧ isSuccess status = true ∧
    ∀ now, ∃ p s, (DurableSpool.openAt (main env.digest call ⟨some f, some c⟩).disk).next env now =
      (.ok (some p), s) ∧ p.record = r ∧ s.checkpoint.offset = c.offset
  others : ∃ f', (main env.digest call ⟨some f, some c⟩).disk.spool = some f' ∧
    f'.bytes = f.bytes.take c.offset ++ (lineBytes (lines.drop n) ++ encode fragment)

/-- What is promised of a run: it changes nothing, or cuts out the refused records. -/
def CutsRefused : Prop :=
  (main env.digest call ⟨some f, some c⟩).disk = ⟨some f, some c⟩ ∨
    ∃ n, 0 < n ∧ Cuts env call f c lines fragment n

end Promise

/-! ## The condition -/

/-- The pieces behind the offset: lines, and the start of one whose line feed is missing. -/
def pieces (lines : List Text) (fragment : Text) : List Bytes :=
  lines.map (fun t => encode t ++ [lineFeed]) ++ if fragment = [] then [] else [encode fragment]

/-- The script replays the piece, and the answer is a success or not. -/
def Replays (call : Call) (n : ℕ) (success : Bool) (piece : Bytes) : Prop :=
  ∃ signal payload status, call.loads piece = some (signal, payload) ∧
    (signalPaths.lookup signal).isSome = true ∧ call.answers n = some status ∧
    isSuccess status = success

/-- The first answer that is a success is the one to piece `k`, within the limit. -/
structure Reaches (call : Call) (ps : List Bytes) (budget n k : ℕ) : Prop where
  lt : k < budget
  refused : ∀ i < k, ∃ piece, ps[i]? = some piece ∧ Replays call (n + i) false piece
  accepted : ∃ piece, ps[k]? = some piece ∧ Replays call (n + k) true piece

/-- The condition: where a run comes to its end, each answer outside 2xx was a refusal for good and
each of these records is protobuf, and the record accepted is a whole line that fits into the
daemon's window. -/
def Refusals (env : SpoolEnv) (call : Call) (f : SpoolFile) (c : Checkpoint) (lines : List Text)
    (fragment : Text) : Prop :=
  ∀ recorded n, call.apply = true → c.spool = some recorded →
    env.digest (f.bytes.take recorded.headLen) = recorded.head → headBytes ≤ c.offset → 0 < n →
    Reaches call (pieces lines fragment) call.maxScan 0 n →
    (∀ i < n, (call.answers i).any isPermanent = true ∧
      ∀ t r, lines[i]? = some t → decodeEnvelope env.codec t = some r → r.format = .protobuf) ∧
    ∃ t, lines[n]? = some t ∧ (encode t).length < maxRead

/-! ## What the script reads -/

section Reading

variable {raw l rest : Bytes} {pos : ℕ}

theorem findIdx?_lineFeed (hl : lineFeed ∉ l) : l.findIdx? (· = lineFeed) = none := by
  rw [List.findIdx?_eq_none_iff]
  intro b hb
  rw [decide_eq_false_iff_not]
  rintro rfl
  exact hl hb

theorem readLineAt_line (h : raw.drop pos = l ++ lineFeed :: rest) (hl : lineFeed ∉ l) :
    readLineAt raw pos = (l ++ [lineFeed], pos + l.length + 1) := by
  have hidx : (l ++ lineFeed :: rest).findIdx? (· = lineFeed) = some l.length := by
    rw [List.findIdx?_append, findIdx?_lineFeed hl, List.findIdx?_cons]
    simp
  have htake : (l ++ lineFeed :: rest).take (l.length + 1) = l ++ [lineFeed] := by
    rw [List.take_append, List.take_of_length_le (Nat.le_succ _), Nat.add_sub_cancel_left]
    rfl
  simp only [readLineAt, h, hidx, htake]

theorem readLineAt_open (h : raw.drop pos = l) (hl : lineFeed ∉ l) :
    readLineAt raw pos = (l, raw.length) := by
  simp only [readLineAt, h, findIdx?_lineFeed hl]

/-- Lines that are not blank, the last of them perhaps without its line feed. -/
inductive Pieces : List Bytes → Prop where
  | nil : Pieces []
  | last {l : Bytes} (hfeed : lineFeed ∉ l) (hshown : l.all isSpace = false) : Pieces [l]
  | line {l : Bytes} {ps : List Bytes} (hfeed : lineFeed ∉ l) (hshown : l.all isSpace = false)
      (h : Pieces ps) : Pieces ((l ++ [lineFeed]) :: ps)

/-- The script reads the pieces of a file one after the other. -/
theorem Pieces.read {piece : Bytes} {ps : List Bytes} (h : Pieces (piece :: ps))
    (hdrop : raw.drop pos = (piece :: ps).flatten) :
    readLineAt raw pos = (piece, pos + piece.length) ∧ pos < raw.length ∧
      piece.all isSpace = false ∧ Pieces ps ∧ raw.drop (pos + piece.length) = ps.flatten := by
  have hne : piece ≠ [] := by
    cases h with
    | last hfeed hshown =>
      rintro rfl
      cases hshown
    | line hfeed hshown htail => exact List.append_ne_nil_of_right_ne_nil _ (List.cons_ne_nil _ _)
  have hlength := congrArg List.length hdrop
  rw [List.length_drop, List.flatten_cons, List.length_append] at hlength
  have hpos := List.length_pos_iff.mpr hne
  have hrest : raw.drop (pos + piece.length) = ps.flatten := by
    rw [← List.drop_drop, hdrop, List.flatten_cons, List.drop_left]
  cases h with
  | last hfeed hshown =>
    refine ⟨?_, by omega, hshown, .nil, hrest⟩
    rw [readLineAt_open (by simpa using hdrop) hfeed, Prod.mk.injEq]
    rw [List.flatten_nil, List.length_nil] at hlength
    exact ⟨rfl, by omega⟩
  | line hfeed hshown htail =>
    refine ⟨?_, by omega, ?_, htail, hrest⟩
    · rw [readLineAt_line (by simpa using hdrop) hfeed, List.length_append]
      rfl
    · rw [List.all_append, hshown, Bool.false_and]

end Reading

section Scanning

variable {call : Call} {raw : Bytes} {ps : List Bytes} {budget pos n k : ℕ}

/-- One turn of the loop. -/
theorem scan_cons {piece : Bytes} (h : Pieces (piece :: ps))
    (hdrop : raw.drop pos = (piece :: ps).flatten) :
    call.scan raw (budget + 1) pos n =
      match call.loads piece with
      | none => ⟨[], [], .failed⟩
      | some (signal, payload) =>
        match call.postRecord signal payload with
        | none => ⟨[], [], .failed⟩
        | some request =>
          match call.answers n with
          | none => ⟨[], [request], .failed⟩
          | some status =>
            if isSuccess status then ⟨[], [request], .accepted pos⟩
            else
              let rest := call.scan raw budget (pos + piece.length) (n + 1)
              ⟨⟨pos, signal, payload.length, status⟩ :: rest.bad, request :: rest.sent,
                rest.ending⟩ := by
  obtain ⟨hread, hlt, hshown, -, -⟩ := h.read hdrop
  rw [Call.scan, if_neg (not_le.mpr hlt), hread, hshown]
  rfl

theorem postRecord_of_isSome (call : Call) {signal : String} (body : Bytes)
    (h : (signalPaths.lookup signal).isSome = true) :
    ∃ request, call.postRecord signal body = some request ∧ request.body = body ∧
      request.contentType = "application/x-protobuf" := by
  obtain ⟨path, hpath⟩ := Option.isSome_iff_exists.mp h
  exact ⟨_, by rw [Call.postRecord, hpath]; rfl, rfl, rfl⟩

/-- What the scan does up to the first success. -/
structure Reached (call : Call) (ps : List Bytes) (pos k : ℕ) (scan : Scan) : Prop where
  ending : scan.ending = .accepted (pos + (ps.take k).flatten.length)
  bad : scan.bad.length = k
  sent : ∀ i ≤ k, ∃ piece signal payload request, ps[i]? = some piece ∧
    call.loads piece = some (signal, payload) ∧ scan.sent[i]? = some request ∧
    request.body = payload ∧ request.contentType = "application/x-protobuf"

/-- A success within the limit is where the scan ends. -/
theorem reached_of_reaches (hps : Pieces ps) (hdrop : raw.drop pos = ps.flatten)
    (h : Reaches call ps budget n k) : Reached call ps pos k (call.scan raw budget pos n) := by
  induction k generalizing ps budget pos n with
  | zero =>
    obtain ⟨piece, hpiece, signal, payload, status, hloads, hsignal, hanswer, hsuccess⟩ :=
      h.accepted
    obtain ⟨budget, rfl⟩ : ∃ b, budget = b + 1 := ⟨budget - 1, by have := h.lt; omega⟩
    obtain ⟨ps', rfl⟩ : ∃ ps', ps = piece :: ps' := by
      cases ps with
      | nil => cases hpiece
      | cons p ps' =>
        cases hpiece
        exact ⟨ps', rfl⟩
    obtain ⟨request, hrequest, hbody, htype⟩ := postRecord_of_isSome call payload hsignal
    rw [Nat.add_zero] at hanswer
    rw [scan_cons hps hdrop]
    simp only [hloads, hrequest, hanswer, hsuccess, if_true]
    refine ⟨rfl, rfl, ?_⟩
    intro i hi
    obtain rfl : i = 0 := by omega
    exact ⟨piece, signal, payload, request, rfl, hloads, rfl, hbody, htype⟩
  | succ k ih =>
    obtain ⟨piece, hpiece, signal, payload, status, hloads, hsignal, hanswer, hsuccess⟩ :=
      h.refused 0 (Nat.succ_pos k)
    obtain ⟨budget, rfl⟩ : ∃ b, budget = b + 1 := ⟨budget - 1, by have := h.lt; omega⟩
    obtain ⟨ps', rfl⟩ : ∃ ps', ps = piece :: ps' := by
      cases ps with
      | nil => cases hpiece
      | cons p ps' =>
        cases hpiece
        exact ⟨ps', rfl⟩
    obtain ⟨request, hrequest, hbody, htype⟩ := postRecord_of_isSome call payload hsignal
    obtain ⟨-, -, -, hps', hdrop'⟩ := hps.read hdrop
    have hrest : Reaches call ps' budget (n + 1) k := by
      refine ⟨by have := h.lt; omega, ?_, ?_⟩
      · intro i hi
        obtain ⟨piece', hpiece', hreplays⟩ := h.refused (i + 1) (by omega)
        exact ⟨piece', hpiece', by rwa [Nat.add_assoc, Nat.add_comm 1 i]⟩
      · obtain ⟨piece', hpiece', hreplays⟩ := h.accepted
        exact ⟨piece', hpiece', by rwa [Nat.add_assoc, Nat.add_comm 1 k]⟩
    obtain ⟨hending, hbad, hsent⟩ := ih hps' hdrop' hrest
    rw [Nat.add_zero] at hanswer
    rw [scan_cons hps hdrop]
    simp only [hloads, hrequest, hanswer, hsuccess, Bool.false_eq_true, if_false]
    refine ⟨?_, ?_, ?_⟩
    · show (call.scan raw budget (pos + piece.length) (n + 1)).ending = _
      rw [hending, List.take_succ_cons, List.flatten_cons, List.length_append, Nat.add_assoc]
    · rw [List.length_cons, hbad]
    · intro i hi
      cases i with
      | zero => exact ⟨piece, signal, payload, request, rfl, hloads, rfl, hbody, htype⟩
      | succ i => exact hsent i (by omega)

/-- The scan ends at no other record. -/
theorem reaches_of_accepted {start : ℕ} (hps : Pieces ps) (hdrop : raw.drop pos = ps.flatten)
    (h : (call.scan raw budget pos n).ending = .accepted start) :
    ∃ k, Reaches call ps budget n k := by
  induction budget generalizing ps pos n with
  | zero => cases h
  | succ budget ih =>
    cases ps with
    | nil =>
      have hend : raw.length ≤ pos := List.drop_eq_nil_iff.mp hdrop
      rw [Call.scan, if_pos hend] at h
      cases h
    | cons piece ps =>
      obtain ⟨-, -, -, hps', hdrop'⟩ := hps.read hdrop
      rw [scan_cons hps hdrop] at h
      split at h
      · cases h
      · next signal payload hloads =>
        split at h
        · cases h
        · next request hrequest =>
          have hsignal : (signalPaths.lookup signal).isSome = true := by
            rw [Call.postRecord, Option.map_eq_some_iff] at hrequest
            obtain ⟨path, hpath, -⟩ := hrequest
            rw [hpath]
            rfl
          split at h
          · cases h
          · next status hanswer =>
            split at h
            · next hsuccess =>
              exact ⟨0, Nat.succ_pos _, nofun,
                piece, rfl, signal, payload, status, hloads, hsignal, hanswer, hsuccess⟩
            · next hfailure =>
              obtain ⟨k, hlt, hrefused, piece', hpiece', haccepted⟩ := ih hps' hdrop' h
              refine ⟨k + 1, by omega, ?_, piece', hpiece', ?_⟩
              · intro i hi
                cases i with
                | zero =>
                  exact ⟨piece, rfl, signal, payload, status, hloads, hsignal, hanswer,
                    by simpa using hfailure⟩
                | succ i =>
                  obtain ⟨q, hq, hreplays⟩ := hrefused i (by omega)
                  exact ⟨q, hq, by rwa [Nat.add_assoc, Nat.add_comm 1 i] at hreplays⟩
              · rwa [Nat.add_assoc, Nat.add_comm 1 k] at haccepted

end Scanning

/-! ## What the daemon reads afterwards -/

section Daemon

variable {env : SpoolEnv} {s : DurableSpool} {f : SpoolFile} {t : Text} {rest : Bytes}

/-- The last line feed is not before any other. -/
theorem exists_lastLineFeed (l rest : Bytes) :
    ∃ i, lastLineFeed (l ++ lineFeed :: rest) = some (l.length + i) := by
  induction l with
  | nil =>
    cases hlast : lastLineFeed rest with
    | none => exact ⟨0, by simp [lastLineFeed, hlast]⟩
    | some i => exact ⟨i + 1, by simp [lastLineFeed, hlast]⟩
  | cons b l ih =>
    obtain ⟨i, hi⟩ := ih
    refine ⟨i, ?_⟩
    rw [List.cons_append, lastLineFeed, hi, List.length_cons]
    exact congrArg some (by omega)

/-- A line at the offset that fits into the window is the first that is read. -/
theorem peekAt_line {r : Record} (hfile : s.disk.spool = some f)
    (hdrop : f.bytes.drop s.checkpoint.offset = encode t ++ lineFeed :: rest) (ht : IsLine t)
    (hrestart : Identity.restart env.digest s.checkpoint.spool f s.checkpoint.offset = none)
    (hfits : (encode t).length < maxRead) (hdecode : decodeEnvelope env.codec t = some r) :
    ∃ p, p.record = r ∧
      s.peekAt env s.checkpoint.offset = .ok (.decoded p, some (Identity.of env.digest f)) := by
  have hbuffer : (f.bytes.drop s.checkpoint.offset).take maxRead =
      encode t ++ lineFeed :: rest.take (maxRead - ((encode t).length + 1)) := by
    have hsplit : maxRead - (encode t).length = maxRead - ((encode t).length + 1) + 1 := by omega
    rw [hdrop, List.take_append, List.take_of_length_le (by omega), hsplit, List.take_succ_cons]
  obtain ⟨i, hlast⟩ :=
    exists_lastLineFeed (encode t) (rest.take (maxRead - ((encode t).length + 1)))
  have htake : (encode t ++ lineFeed :: rest.take (maxRead - ((encode t).length + 1))).take
      ((encode t).length + i + 1) =
      encode t ++ lineFeed :: (rest.take (maxRead - ((encode t).length + 1))).take i := by
    rw [List.take_append, List.take_of_length_le (by omega),
      show (encode t).length + i + 1 - (encode t).length = i + 1 by omega, List.take_succ_cons]
  obtain ⟨d, hdrain, hrestarted, hidentity, hhead⟩ : ∃ d,
      drain env.digest (some f) s.checkpoint.offset s.checkpoint.spool = .ok d ∧
        d.restarted = none ∧ d.identity = some (Identity.of env.digest f) ∧
        d.lines.head? = some ⟨s.checkpoint.offset, t⟩ := by
    simp only [drain, hrestart, Option.isSome_none, Bool.false_eq_true, if_false, hbuffer, hlast,
      htake, segments_append ht.notMem_encode, collectLines_cons ht]
    exact ⟨_, rfl, rfl, rfl, rfl⟩
  refine ⟨⟨r.signal, r.payload, r.format, Quarantine.key env.digest t, d.boundary⟩, rfl, ?_⟩
  simp only [DurableSpool.peekAt, hfile, hdrain, hrestarted, hidentity, hhead, hdecode,
    Option.isSome_none, Bool.false_eq_true, if_false]

/-- A line that does not fit is an error. -/
theorem peekAt_large (hfile : s.disk.spool = some f)
    (hdrop : f.bytes.drop s.checkpoint.offset = encode t ++ lineFeed :: rest) (ht : IsLine t)
    (hrestart : Identity.restart env.digest s.checkpoint.spool f s.checkpoint.offset = none)
    (hlarge : maxRead ≤ (encode t).length) :
    s.peekAt env s.checkpoint.offset = .error (.recordTooLarge s.checkpoint.offset) := by
  have hbuffer : (f.bytes.drop s.checkpoint.offset).take maxRead = (encode t).take maxRead := by
    rw [hdrop, List.take_append_of_le_length hlarge]
  have hfeed : lastLineFeed ((encode t).take maxRead) = none :=
    lastLineFeed_of_notMem fun hmem => ht.notMem_encode (List.mem_of_mem_take hmem)
  have hlength : ((encode t).take maxRead).length ≥ maxRead := by
    rw [List.length_take]
    omega
  simp only [DurableSpool.peekAt, drain, hfile, hrestart, Option.isSome_none, Bool.false_eq_true,
    if_false, hbuffer, hfeed, if_pos hlength]

/-- `next` hands out a line that fits, and only such a line, without moving the offset. -/
theorem next_line_iff {r : Record} (hfile : s.disk.spool = some f)
    (hdrop : f.bytes.drop s.checkpoint.offset = encode t ++ lineFeed :: rest) (ht : IsLine t)
    (hrestart : Identity.restart env.digest s.checkpoint.spool f s.checkpoint.offset = none)
    (hdecode : decodeEnvelope env.codec t = some r) (now : ℕ) :
    (∃ p s', s.next env now = (.ok (some p), s') ∧ p.record = r ∧
        s'.checkpoint.offset = s.checkpoint.offset) ↔ (encode t).length < maxRead := by
  have hnext : s.next env now = DurableSpool.nextLoop env now (s.fileSize + 2 + 1) (s.pruned now) :=
    rfl
  constructor
  · rintro ⟨p, s', hp, -, -⟩
    by_contra hlarge
    have hpeek := peekAt_large (s := s.pruned now) hfile hdrop ht hrestart (not_lt.mp hlarge)
    rw [hnext, DurableSpool.nextLoop, hpeek] at hp
    cases hp
  · intro hfits
    obtain ⟨p, hp, hpeek⟩ :=
      peekAt_line (s := s.pruned now) hfile hdrop ht hrestart hfits hdecode
    refine ⟨p, { s.pruned now with pendingIdentity := some (.of env.digest f) }, ?_, hp, rfl⟩
    rw [hnext, DurableSpool.nextLoop, hpeek]

end Daemon

/-! ## Pieces of lines -/

section Lines

variable {lines : List Text} {fragment : Text}

theorem isWhiteSpace_of_isSpace {c : Char} {b : UInt8} (h : b ∈ String.utf8EncodeChar c)
    (hb : isSpace b = true) : isWhiteSpace c = true := by
  have hvalue : b.toNat = 9 ∨ b.toNat = 10 ∨ b.toNat = 11 ∨ b.toNat = 12 ∨ b.toNat = 13 ∨
      b.toNat = 32 := by
    simp only [isSpace, List.mem_cons, List.not_mem_nil, or_false, decide_eq_true_eq] at hb
    rcases hb with rfl | rfl | rfl | rfl | rfl | rfl <;> decide
  have hchar := toNat_eq_of_mem_utf8EncodeChar h (by omega)
  simp only [isWhiteSpace, Bool.or_eq_true, Bool.and_eq_true, decide_eq_true_eq]
  omega

/-- A line is not blank. -/
theorem all_isSpace_of_isLine {t : Text} (h : IsLine t) : (encode t).all isSpace = false := by
  rw [Bool.eq_false_iff]
  intro hall
  obtain ⟨c, t', rfl⟩ := List.exists_cons_of_ne_nil h.nonempty
  obtain ⟨b, bs, hb⟩ := List.exists_cons_of_ne_nil (String.utf8EncodeChar_ne_nil (c := c))
  have hmem : b ∈ String.utf8EncodeChar c := by
    rw [hb]
    exact List.mem_cons_self
  have hspace : isSpace b = true :=
    List.all_eq_true.mp hall b (by rw [encode_cons]; exact List.mem_append_left _ hmem)
  -- A character that `trim` would have taken.
  have hwhite := isWhiteSpace_of_isSpace hmem hspace
  have htrim := congrArg List.length h.trimmed
  have hle : (Utf8Text.trim (c :: t')).length ≤ t'.length := by
    rw [Utf8Text.trim, List.dropWhile_cons_of_pos hwhite]
    exact (List.rdropWhile_prefix _ _).length_le.trans (List.dropWhile_sublist _).length_le
  rw [List.length_cons] at htrim
  omega

theorem flatten_pieces (lines : List Text) (fragment : Text) :
    (pieces lines fragment).flatten = lineBytes lines ++ encode fragment := by
  have hlines : (lines.map fun t => encode t ++ [lineFeed]).flatten = lineBytes lines := by
    induction lines with
    | nil => rfl
    | cons t lines ih => rw [List.map_cons, List.flatten_cons, ih, lineBytes_cons]; simp
  rw [pieces, List.flatten_append, hlines]
  split
  · next h =>
    rw [h]
    rfl
  · simp

theorem pieces_spec (hlines : ∀ t ∈ lines, IsLine t) (hfragment : fragment ≠ [] → IsLine fragment) :
    Pieces (pieces lines fragment) := by
  induction lines with
  | nil =>
    rw [pieces, List.map_nil, List.nil_append]
    split
    · exact .nil
    · next hne =>
      have hline := hfragment hne
      exact .last hline.notMem_encode (all_isSpace_of_isLine hline)
  | cons t lines ih =>
    have hline := hlines t List.mem_cons_self
    exact .line hline.notMem_encode (all_isSpace_of_isLine hline)
      (ih fun t' ht' => hlines t' (List.mem_cons_of_mem t ht'))

theorem getElem?_pieces {i : ℕ} {t : Text} (h : lines[i]? = some t) :
    (pieces lines fragment)[i]? = some (encode t ++ [lineFeed]) := by
  have hlt : i < (lines.map fun t => encode t ++ [lineFeed]).length := by
    rw [List.length_map]
    exact (List.getElem?_eq_some_iff.mp h).1
  rw [pieces, List.getElem?_append_left hlt, List.getElem?_map, h]
  rfl

theorem drop_pieces {n : ℕ} (h : n ≤ lines.length) :
    (pieces lines fragment).drop n = pieces (lines.drop n) fragment := by
  rw [pieces, List.drop_append_of_le_length (by rwa [List.length_map]), pieces, List.map_drop]

end Lines

/-! ## The condition is exact -/

section Exact

variable {env : SpoolEnv} {call : Call} {f : SpoolFile} {c : Checkpoint} {lines : List Text}
  {fragment : Text} {recorded : Identity} {n : ℕ}

/-- A run that changes the disk has come to its end. -/
theorem main_changes (h : (main env.digest call ⟨some f, some c⟩).disk ≠ ⟨some f, some c⟩) :
    ∃ recorded start, call.apply = true ∧ c.spool = some recorded ∧
      env.digest (f.bytes.take recorded.headLen) = recorded.head ∧ headBytes ≤ c.offset ∧
      (call.scan f.bytes call.maxScan c.offset 0).ending = .accepted start ∧
      (call.scan f.bytes call.maxScan c.offset 0).bad ≠ [] := by
  simp only [main] at h
  split at h
  · exact absurd rfl h
  · next recorded hrecorded =>
    split at h
    · exact absurd rfl h
    · next hdigest =>
      split at h
      · exact absurd rfl h
      · next hoffset =>
        split at h
        · exact absurd rfl h
        · exact absurd rfl h
        · next start hending =>
          split at h
          · exact absurd rfl h
          · next hgo =>
            push Not at hgo
            exact ⟨recorded, start, by simpa using hgo.2, hrecorded, not_not.mp hdigest,
              not_lt.mp hoffset, hending, hgo.1⟩

/-- The disk after a run that comes to its end. -/
def cutDisk (env : SpoolEnv) (call : Call) (f : SpoolFile) (c : Checkpoint) (recorded : Identity)
    (start : ℕ) : Disk :=
  ⟨some ⟨some call.inode, some call.device, f.bytes.take c.offset ++ f.bytes.drop start,
      f.generation + 1⟩,
    some { c with
      spool := some { recorded with inode := some call.inode, device := some call.device }
      quarantine := ((call.scan f.bytes call.maxScan c.offset 0).bad.map fun bad =>
        quarantineKeyAt env.digest f.bytes bad.start).foldl Quarantine.forget c.quarantine }⟩

/-- The head that was digested lies before the offset. -/
theorem take_cut (start : ℕ) (hlen : recorded.headLen ≤ c.offset)
    (hle : c.offset ≤ f.bytes.length) :
    (f.bytes.take c.offset ++ f.bytes.drop start).take recorded.headLen =
      f.bytes.take recorded.headLen := by
  rw [List.take_append_of_le_length (by rw [List.length_take]; omega), List.take_take,
    min_eq_left hlen]

theorem main_of_accepted {start : ℕ} (happly : call.apply = true)
    (hrecorded : c.spool = some recorded)
    (hdigest : env.digest (f.bytes.take recorded.headLen) = recorded.head)
    (hoffset : headBytes ≤ c.offset) (hlen : recorded.headLen ≤ headBytes)
    (hle : c.offset ≤ f.bytes.length)
    (hending : (call.scan f.bytes call.maxScan c.offset 0).ending = .accepted start)
    (hbad : (call.scan f.bytes call.maxScan c.offset 0).bad ≠ []) :
    main env.digest call ⟨some f, some c⟩ =
      ⟨cutDisk env call f c recorded start,
        (call.scan f.bytes call.maxScan c.offset 0).sent, 0⟩ := by
  have htake := take_cut start (hlen.trans hoffset) hle
  simp only [main, hrecorded, hdigest, not_lt.mpr hoffset, hending, hbad, happly, htake,
    ne_eq, not_true_eq_false, if_false, Bool.true_eq_false, or_false, cutDisk]

/-- The identity in the checkpoint names the file that was renamed into place. -/
theorem restart_cutDisk {start : ℕ}
    (hdigest : env.digest (f.bytes.take recorded.headLen) = recorded.head)
    (hlen : recorded.headLen ≤ c.offset) (hle : c.offset ≤ f.bytes.length) :
    Identity.restart env.digest
      (some { recorded with inode := some call.inode, device := some call.device })
      ⟨some call.inode, some call.device, f.bytes.take c.offset ++ f.bytes.drop start,
        f.generation + 1⟩ c.offset = none := by
  have hsize : c.offset ≤ (f.bytes.take c.offset ++ f.bytes.drop start).length := by
    rw [List.length_append, List.length_take]
    omega
  have hsame : Identity.same env.digest
      { recorded with inode := some call.inode, device := some call.device }
      ⟨some call.inode, some call.device, f.bytes.take c.offset ++ f.bytes.drop start,
        f.generation + 1⟩ = true := by
    rw [Identity.same_iff]
    exact ⟨hlen.trans hsize, Identity.agree_self _, Identity.agree_self _,
      (congrArg env.digest (take_cut start hlen hle)).trans hdigest⟩
  rw [Identity.restart, if_neg (not_lt.mpr hsize)]
  simp only [hsame, if_true]

/-- What the script reads of a line is what the daemon reads. -/
def ReadsAlike (env : SpoolEnv) (call : Call) (t : Text) : Prop :=
  call.loads (encode t ++ [lineFeed]) =
    (env.codec.fromStr t).bind fun (signal, body, _) =>
      (env.codec.base64Decode body).map fun payload => (signal.name, payload)

theorem decodeEnvelope_of_loads {t : Text} {signal : String} {payload : Bytes}
    (halike : ReadsAlike env call t)
    (h : call.loads (encode t ++ [lineFeed]) = some (signal, payload)) :
    ∃ r, decodeEnvelope env.codec t = some r ∧ r.payload = payload := by
  rw [halike, Option.bind_eq_some_iff] at h
  obtain ⟨⟨s, body, format⟩, hfrom, h⟩ := h
  rw [Option.map_eq_some_iff] at h
  obtain ⟨payload', hbody, heq⟩ := h
  cases heq
  exact ⟨_, by simp only [decodeEnvelope, hfrom, Option.bind_some, hbody, Option.map_some]; rfl,
    rfl⟩

theorem contentType_eq_iff (format : WireFormat) :
    "application/x-protobuf" = format.contentType ↔ format = .protobuf := by
  cases format <;> decide

theorem not_isSuccess_of_isPermanent {status : ℕ} (h : isPermanent status = true) :
    isSuccess status = false := by
  simp only [isPermanent, List.mem_cons, List.not_mem_nil, or_false, decide_eq_true_eq] at h
  rcases h with rfl | rfl | rfl <;> rfl

/-- A run that finds a success behind `n` answers of another kind. -/
theorem main_of_reaches (hrest : f.bytes.drop c.offset = lineBytes lines ++ encode fragment)
    (hlines : ∀ t ∈ lines, IsLine t) (hfragment : fragment ≠ [] → IsLine fragment)
    (happly : call.apply = true) (hrecorded : c.spool = some recorded)
    (hdigest : env.digest (f.bytes.take recorded.headLen) = recorded.head)
    (hoffset : headBytes ≤ c.offset) (hlen : recorded.headLen ≤ headBytes) (hn : 0 < n)
    (h : Reaches call (pieces lines fragment) call.maxScan 0 n) :
    c.offset ≤ f.bytes.length ∧ ∃ start,
      f.bytes.drop start = ((pieces lines fragment).drop n).flatten ∧
      (main env.digest call ⟨some f, some c⟩).disk = cutDisk env call f c recorded start ∧
      ∀ i ≤ n, ∃ piece signal payload request, (pieces lines fragment)[i]? = some piece ∧
        call.loads piece = some (signal, payload) ∧
        (main env.digest call ⟨some f, some c⟩).sent[i]? = some request ∧
        request.body = payload ∧ request.contentType = "application/x-protobuf" := by
  have hps := pieces_spec hlines hfragment
  have hdrop : f.bytes.drop c.offset = (pieces lines fragment).flatten :=
    hrest.trans (flatten_pieces lines fragment).symm
  have hreached := reached_of_reaches hps hdrop h
  have hle : c.offset ≤ f.bytes.length := by
    -- There is a piece behind the offset.
    obtain ⟨piece, hpiece, -⟩ := h.accepted
    cases hpieces : pieces lines fragment with
    | nil => simp [hpieces] at hpiece
    | cons p ps =>
      rw [hpieces] at hps hdrop
      exact (hps.read hdrop).2.1.le
  have hbad : (call.scan f.bytes call.maxScan c.offset 0).bad ≠ [] := by
    intro hnil
    have hlength := hreached.bad
    rw [hnil, List.length_nil] at hlength
    omega
  have hmain := main_of_accepted happly hrecorded hdigest hoffset hlen hle hreached.ending hbad
  refine ⟨hle, c.offset + ((pieces lines fragment).take n).flatten.length, ?_, ?_, ?_⟩
  · have hsplit : (pieces lines fragment).flatten =
        ((pieces lines fragment).take n).flatten ++ ((pieces lines fragment).drop n).flatten := by
      rw [← List.flatten_append, List.take_append_drop]
    rw [← List.drop_drop, hdrop, hsplit, List.drop_left]
  · rw [hmain]
  · intro i hi
    rw [hmain]
    exact hreached.sent i hi

/-- The run that was promised and the run that took place end at the same record. -/
theorem length_of_cuts {m : ℕ} (hcuts : Cuts env call f c lines fragment m)
    (h : Reaches call (pieces lines fragment) call.maxScan 0 n) : m = n := by
  obtain ⟨-, -, -, status, -, -, -, -, hanswer, hsuccess, -⟩ := hcuts.accepted
  obtain ⟨-, -, -, -, status', -, -, hanswer', hsuccess'⟩ := h.accepted
  rw [Nat.zero_add] at hanswer'
  obtain hlt | heq | hgt := lt_trichotomy m n
  · obtain ⟨-, -, -, -, status₀, -, -, hanswer₀, hfailure⟩ := h.refused m hlt
    rw [Nat.zero_add, hanswer] at hanswer₀
    cases hanswer₀
    rw [hsuccess] at hfailure
    cases hfailure
  · exact heq
  · obtain ⟨-, -, -, status₀, -, -, -, -, -, hanswer₀, hpermanent⟩ := hcuts.refused n hgt
    rw [hanswer'] at hanswer₀
    cases hanswer₀
    rw [not_isSuccess_of_isPermanent hpermanent] at hsuccess'
    cases hsuccess'

/-- The record that was accepted is where the daemon goes on, if it fits. -/
theorem next_cutDisk_iff {t : Text} {r : Record} {start : ℕ} (hlines : ∀ t ∈ lines, IsLine t)
    (hdigest : env.digest (f.bytes.take recorded.headLen) = recorded.head)
    (hlen : recorded.headLen ≤ c.offset) (hle : c.offset ≤ f.bytes.length)
    (ht : lines[n]? = some t) (hdecode : decodeEnvelope env.codec t = some r)
    (hstart : f.bytes.drop start = ((pieces lines fragment).drop n).flatten) (now : ℕ) :
    (∃ p s, (DurableSpool.openAt (cutDisk env call f c recorded start)).next env now =
        (.ok (some p), s) ∧ p.record = r ∧ s.checkpoint.offset = c.offset) ↔
      (encode t).length < maxRead := by
  have hlt : n < lines.length := (List.getElem?_eq_some_iff.mp ht).1
  have hbytes : f.bytes.drop start =
      encode t ++ lineFeed :: (lineBytes (lines.drop (n + 1)) ++ encode fragment) := by
    rw [hstart, drop_pieces hlt.le, flatten_pieces, List.drop_eq_getElem?_toList_append, ht]
    simp
  have hdrop : (f.bytes.take c.offset ++ f.bytes.drop start).drop c.offset =
      encode t ++ lineFeed :: (lineBytes (lines.drop (n + 1)) ++ encode fragment) := by
    rw [List.drop_left' (by rw [List.length_take]; omega), hbytes]
  exact next_line_iff (s := DurableSpool.openAt (cutDisk env call f c recorded start)) rfl hdrop
    (hlines t (List.mem_of_getElem? ht)) (restart_cutDisk hdigest hlen hle) hdecode now

section File

variable (hrest : f.bytes.drop c.offset = lineBytes lines ++ encode fragment)
  (hlines : ∀ t ∈ lines, IsLine t) (hfragment : fragment ≠ [] → IsLine fragment)
  (hhead : ∀ recorded, c.spool = some recorded → recorded.headLen ≤ headBytes)

include hrest hlines hfragment hhead

theorem refusals_of_cutsRefused (h : CutsRefused env call f c lines fragment) :
    Refusals env call f c lines fragment := by
  intro recorded n happly hrecorded hdigest hoffset hn hreaches
  obtain ⟨hle, start, hstart, hdisk, hsent⟩ := main_of_reaches hrest hlines hfragment happly
    hrecorded hdigest hoffset (hhead recorded hrecorded) hn hreaches
  obtain hsame | ⟨m, hm, hcuts⟩ := h
  · -- Another file was renamed into place.
    have hfile : some (f.generation + 1) = some f.generation :=
      congrArg (fun disk => disk.spool.map SpoolFile.generation) (hdisk.symm.trans hsame)
    exact absurd (Option.some.inj hfile) (Nat.succ_ne_self _)
  · obtain rfl : m = n := length_of_cuts hcuts hreaches
    obtain ⟨t, r, request, status, ht, hdecode, -, -, -, -, hnext⟩ := hcuts.accepted
    refine ⟨?_, t, ht, ?_⟩
    · intro i hi
      obtain ⟨t', r', request', status', ht', hdecode', hsent', hbody', htype', hanswer',
        hpermanent'⟩ := hcuts.refused i hi
      refine ⟨by rw [hanswer']; exact hpermanent', ?_⟩
      intro t'' r'' ht'' hdecode''
      cases ht'.symm.trans ht''
      cases hdecode'.symm.trans hdecode''
      obtain ⟨-, -, -, request'', -, -, hsent'', -, htype''⟩ := hsent i hi.le
      cases hsent'.symm.trans hsent''
      exact (contentType_eq_iff _).mp (htype''.symm.trans htype')
    · rw [hdisk] at hnext
      exact (next_cutDisk_iff hlines hdigest ((hhead recorded hrecorded).trans hoffset) hle ht
        hdecode hstart 0).mp (hnext 0)

theorem cutsRefused_of_refusals (halike : ∀ t ∈ lines, ReadsAlike env call t)
    (h : Refusals env call f c lines fragment) : CutsRefused env call f c lines fragment := by
  by_cases hsame : (main env.digest call ⟨some f, some c⟩).disk = ⟨some f, some c⟩
  · exact .inl hsame
  · obtain ⟨recorded, goodStart, happly, hrecorded, hdigest, hoffset, hending, hbad⟩ :=
      main_changes hsame
    have hps := pieces_spec hlines hfragment
    have hdrop : f.bytes.drop c.offset = (pieces lines fragment).flatten :=
      hrest.trans (flatten_pieces lines fragment).symm
    obtain ⟨n, hreaches⟩ := reaches_of_accepted hps hdrop hending
    have hn : 0 < n := by
      rw [← (reached_of_reaches hps hdrop hreaches).bad]
      exact List.length_pos_iff.mpr hbad
    obtain ⟨hle, start, hstart, hdisk, hsent⟩ := main_of_reaches hrest hlines hfragment happly
      hrecorded hdigest hoffset (hhead recorded hrecorded) hn hreaches
    obtain ⟨hrefused, t, ht, hfits⟩ := h recorded n happly hrecorded hdigest hoffset hn hreaches
    have hlt : n < lines.length := (List.getElem?_eq_some_iff.mp ht).1
    -- What was sent for a line, and what the daemon reads there.
    have hline : ∀ i ≤ n, ∃ t r request, lines[i]? = some t ∧
        decodeEnvelope env.codec t = some r ∧
        (main env.digest call ⟨some f, some c⟩).sent[i]? = some request ∧
        request.body = r.payload ∧ request.contentType = "application/x-protobuf" := by
      intro i hi
      obtain ⟨t', ht'⟩ : ∃ t', lines[i]? = some t' := ⟨_, List.getElem?_eq_getElem (by omega)⟩
      obtain ⟨piece, signal, payload, request, hpiece, hloads, hrequest, hbody, htype⟩ := hsent i hi
      cases (getElem?_pieces ht').symm.trans hpiece
      obtain ⟨r, hdecode, hpayload⟩ :=
        decodeEnvelope_of_loads (halike t' (List.mem_of_getElem? ht')) hloads
      exact ⟨t', r, request, ht', hdecode, hrequest, hbody.trans hpayload.symm, htype⟩
    refine .inr ⟨n, hn, ?_, ?_, ?_⟩
    · intro i hi
      obtain ⟨t', r, request, ht', hdecode, hrequest, hbody, htype⟩ := hline i hi.le
      obtain ⟨hpermanent, hformat⟩ := hrefused i hi
      obtain ⟨status, hanswer, hstatus⟩ := (Option.any_eq_true _ _).mp hpermanent
      refine ⟨t', r, request, status, ht', hdecode, hrequest, hbody, ?_, hanswer, hstatus⟩
      exact htype.trans ((contentType_eq_iff _).mpr (hformat t' r ht' hdecode))
    · obtain ⟨t', r, request, ht', hdecode, hrequest, hbody, -⟩ := hline n le_rfl
      cases ht.symm.trans ht'
      obtain ⟨-, -, -, -, status, -, -, hanswer, hsuccess⟩ := hreaches.accepted
      rw [Nat.zero_add] at hanswer
      refine ⟨t, r, request, status, ht, hdecode, hrequest, hbody, hanswer, hsuccess, ?_⟩
      intro now
      rw [hdisk]
      exact (next_cutDisk_iff hlines hdigest ((hhead recorded hrecorded).trans hoffset) hle ht
        hdecode hstart now).mpr hfits
    · refine ⟨_, by rw [hdisk]; rfl, ?_⟩
      show f.bytes.take c.offset ++ f.bytes.drop start = _
      rw [hstart, drop_pieces hlt.le, flatten_pieces]

end File

/-- The script cuts out records that were refused for good, and no others, exactly if every answer
outside 2xx was such a refusal, of a protobuf record, and the record accepted is whole and fits. -/
theorem cutsRefused_iff (env : SpoolEnv) (call : Call) (f : SpoolFile) (c : Checkpoint)
    (lines : List Text) (fragment : Text)
    (hrest : f.bytes.drop c.offset = lineBytes lines ++ encode fragment)
    (hlines : ∀ t ∈ lines, IsLine t) (hfragment : fragment ≠ [] → IsLine fragment)
    (halike : ∀ t ∈ lines, ReadsAlike env call t)
    (hhead : ∀ recorded, c.spool = some recorded → recorded.headLen ≤ headBytes) :
    CutsRefused env call f c lines fragment ↔ Refusals env call f c lines fragment :=
  ⟨refusals_of_cutsRefused hrest hlines hfragment hhead,
    cutsRefused_of_refusals hrest hlines hfragment hhead halike⟩

end Exact

/-! ## Two runs -/

section Runs

/-- What Python reads of the daemon's lines. -/
def loadsLine (codec : EnvelopeCodec) (line : Bytes) : Option (String × Bytes) :=
  (codec.fromStr (fromUtf8Lossy (line.filter (· ≠ lineFeed)))).bind fun (signal, body, _) =>
    (codec.base64Decode body).map fun payload => (signal.name, payload)

/-- The script with `--apply`, and the answers it gets. -/
def applyCall (answers : List ℕ) : Call where
  loads := loadsLine numberedEnv.codec
  otelEndpoint := "https://otel.example"
  token := "token"
  apply := true
  maxScan := 20
  answers n := answers[n]?
  inode := 7
  device := 0

theorem readsAlike_applyCall (answers : List ℕ) {t : Text} (ht : IsLine t) :
    ReadsAlike numberedEnv (applyCall answers) t := by
  have hfilter : (encode t ++ [lineFeed]).filter (· ≠ lineFeed) = encode t := by
    rw [List.filter_append, List.filter_eq_self.mpr]
    · simp
    · intro b hb
      rw [decide_eq_true_iff]
      rintro rfl
      exact ht.notMem_encode hb
  show loadsLine _ _ = _
  rw [loadsLine, hfilter, fromUtf8Lossy_encode]

/-- A record that was delivered, and reaches past the head that is digested. -/
def delivered : Record := ⟨.logs, List.replicate 3072 0, .protobuf⟩

theorem endOf_delivered : endOf [delivered] = 4144 := by
  have hover : envelopeOverhead .logs .protobuf = 47 := by decide
  rw [endOf_singleton, length_encode_line]
  simp only [delivered, List.length_replicate, hover]

/-- Two records behind the one that was delivered. -/
def stuck : List Record := [⟨.logs, [10, 3], .protobuf⟩, ⟨.metrics, [10], .protobuf⟩]

def stuckFile : SpoolFile := ⟨some 3, some 0, recordBytes (delivered :: stuck), 0⟩

def stuckCheckpoint : Checkpoint :=
  { Checkpoint.default with
    offset := endOf [delivered]
    spool := some (Identity.of numberedEnv.digest stuckFile) }

theorem drop_stuckFile : stuckFile.bytes.drop stuckCheckpoint.offset =
    lineBytes (stuck.map Record.line) ++ encode [] := by
  have htake : (delivered :: stuck).take 1 = [delivered] := rfl
  have hdrop : (delivered :: stuck).drop 1 = stuck := rfl
  have hbytes := drop_recordBytes (delivered :: stuck) 1
  rw [htake, hdrop] at hbytes
  rw [show encode [] = [] from rfl, List.append_nil]
  exact hbytes

theorem isLine_stuck : ∀ t ∈ stuck.map Record.line, IsLine t := by
  intro t ht
  obtain ⟨r, -, rfl⟩ := List.mem_map.mp ht
  exact isLine_line r

theorem headLen_stuckCheckpoint (recorded : Identity) (h : stuckCheckpoint.spool = some recorded) :
    recorded.headLen ≤ headBytes := by
  obtain rfl : Identity.of numberedEnv.digest stuckFile = recorded := Option.some.inj h
  rw [Identity.of, Identity.read]
  dsimp only
  rw [List.length_take]
  omega

theorem replays_record {answers : List ℕ} {n : ℕ} {success : Bool} (r : Record) (status : ℕ)
    (hsignal : (signalPaths.lookup r.signal.name).isSome = true)
    (hanswer : answers[n]? = some status) (hsuccess : isSuccess status = success) :
    Replays (applyCall answers) n success (encode r.line ++ [lineFeed]) := by
  have hlawful := EnvelopeCodec.lawful_printed (fun _ => none) fun _ => none
  refine ⟨r.signal.name, r.payload, status, ?_, hsignal, hanswer, hsuccess⟩
  rw [readsAlike_applyCall answers (isLine_line r)]
  show ((EnvelopeCodec.printed _ _).fromStr (renderEnvelope _ _ _)).bind _ = _
  rw [hlawful.fromStr_render, Option.bind_some]
  show ((EnvelopeCodec.printed _ _).base64Decode _).map _ = _
  rw [hlawful.base64Decode_base64]
  rfl

/-- The first record is refused as malformed, and the second is accepted: the first is cut out. -/
theorem cutsRefused_malformed :
    CutsRefused numberedEnv (applyCall [400, 200]) stuckFile stuckCheckpoint
      (stuck.map Record.line) [] := by
  refine (cutsRefused_iff _ _ _ _ _ _ drop_stuckFile isLine_stuck nofun
    (fun t ht => readsAlike_applyCall _ (isLine_stuck t ht)) headLen_stuckCheckpoint).mpr ?_
  intro recorded n _ _ _ _ hn hreaches
  obtain ⟨-, -, -, -, status, -, -, hanswer, -⟩ := hreaches.accepted
  obtain rfl : n = 1 := by
    have hlt : 0 + n < [400, 200].length := (List.getElem?_eq_some_iff.mp hanswer).1
    rw [List.length_cons, List.length_singleton] at hlt
    omega
  refine ⟨?_, _, rfl, ?_⟩
  · intro i hi
    obtain rfl : i = 0 := by omega
    refine ⟨rfl, ?_⟩
    intro t r ht hdecode
    cases ht
    obtain ⟨signal, hline, -⟩ := decodeEnvelope_line
      (EnvelopeCodec.lawful_printed (fun _ => none) fun _ => none) ⟨.logs, [10, 3], .protobuf⟩
    cases hline.symm.trans hdecode
    rfl
  · have hover := envelopeOverhead_bounds .metrics .protobuf
    show (encode (Record.line ⟨.metrics, [10], .protobuf⟩)).length < maxRead
    rw [length_encode_line, maxRead]
    show 4 * 1 + envelopeOverhead .metrics .protobuf < _
    omega

/-- The collector is unavailable for a moment: the record in front, which it has never refused, is
cut out all the same. -/
theorem cuts_out_unavailable :
    ¬CutsRefused numberedEnv (applyCall [503, 200]) stuckFile stuckCheckpoint
      (stuck.map Record.line) [] := by
  intro h
  have hoffset : headBytes ≤ stuckCheckpoint.offset := by
    rw [show stuckCheckpoint.offset = 4144 from endOf_delivered, headBytes]
    omega
  have hdigest := ((Identity.same_iff numberedEnv.digest).mp
    (Identity.same_of numberedEnv.digest stuckFile)).2.2.2
  have hreaches : Reaches (applyCall [503, 200]) (pieces (stuck.map Record.line) []) 20 0 1 := by
    refine ⟨by omega, ?_, ?_⟩
    · intro i hi
      obtain rfl : i = 0 := by omega
      exact ⟨_, getElem?_pieces rfl,
        replays_record ⟨.logs, [10, 3], .protobuf⟩ 503 (by decide) rfl rfl⟩
    · exact ⟨_, getElem?_pieces rfl,
        replays_record ⟨.metrics, [10], .protobuf⟩ 200 (by decide) rfl rfl⟩
  have hcondition := refusals_of_cutsRefused drop_stuckFile isLine_stuck
    (fun h => absurd rfl h) headLen_stuckCheckpoint h _ 1 rfl rfl hdigest hoffset one_pos hreaches
  exact absurd (hcondition.1 0 one_pos).1 (by decide)

end Runs

end Unstick

end Governance
