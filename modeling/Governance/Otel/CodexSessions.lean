import Governance.Lib.ByteLines
import Governance.Lib.KeyedMap

/-!
# Codex session metadata

`codex_measurements/parse.rs`, `codex_measurements/scan.rs` and `otel_daemon/codex_sessions.rs`:
every minute the daemon lists the session files of the last day, reads the eight newest ones whose
signature it has not seen, and retains the terminal turns of the last day, at most a hundred in a
payload. A file is remembered with its signature once its payloads have been retained, whatever
the time filter left out of it.
-/

namespace Governance

namespace CodexSessions

open ByteLines

/-! ## Reading a transcript -/

/-- `parse::Fact`: a terminal turn. -/
structure Fact where
  session : String
  turn : String
  started : ℕ
  ended : ℕ
  durationMs : ℕ
  repository : Option String
  status : String
  deriving DecidableEq

/-- `parse::Payload`, with its `git.repository_url`. -/
structure Payload where
  kind : String
  id : Option String
  cliVersion : Option String
  turnId : Option String
  cwd : Option String
  repositoryUrl : Option String
  startedAt : Option ℕ
  completedAt : Option ℕ
  durationMs : Option ℕ

/-- `parse::Record`. -/
structure Record where
  kind : String
  payload : Payload

/-- Why a transcript is not read. -/
inductive ReadError where
  | opening
  | tooLarge
  | invalidRecord
  | unsupportedVersion
  | multipleHeaders
  | noHeader
  | noTurnId
  | noStart
  | noEnd
  | noDuration
  | invalidInterval
  | durationDisagrees
  | noSession
  deriving DecidableEq

/-- What `canonical_repository` reads of a `url::Url`. -/
structure RemoteUrl where
  scheme : String
  host : Option String
  path : String

/-- The JSON decoder of a record, and `Url::parse`. -/
structure Env where
  decode : Bytes → Option Record
  parseUrl : String → Option RemoteUrl

/-- The variables of the loop of `parse`. -/
structure Parser where
  session : Option String
  launchCwd : Option String
  repository : Option String
  contexts : String → Option (Option String)
  facts : List Fact

/-- The parser before the first record. -/
def Parser.initial : Parser := ⟨none, none, none, fun _ => none, []⟩

/-- The inspection limit of `read`, 64 MiB. -/
def maxInspected : ℕ := 64 * 1024 * 1024

/-- The largest `u64`. -/
def u64Max : ℕ := 2 ^ 64 - 1

/-- `u64::abs_diff`. -/
def absDiff (a b : ℕ) : ℕ := max a b - min a b

/-- `split_once`. -/
def splitOnce (c : Char) : List Char → Option (List Char × List Char)
  | [] => none
  | a :: rest => if a = c then some ([], rest) else (splitOnce c rest).map fun s => (a :: s.1, s.2)

/-- `trim_matches` of one character. -/
def trimMatches (c : Char) (s : List Char) : List Char :=
  ((s.dropWhile (· = c)).reverse.dropWhile (· = c)).reverse

/-- `trim_end_matches` of a text that is not empty, on the reversed characters. -/
def trimEndFuel (suffix : List Char) : ℕ → List Char → List Char
  | 0, s => s
  | fuel + 1, s =>
    if suffix <+: s then trimEndFuel suffix fuel (s.drop suffix.length) else s

/-- `path().trim_matches('/').trim_end_matches(".git")`. -/
def repositoryPath (path : String) : String :=
  let trimmed := (trimMatches '/' path.toList).reverse
  String.ofList (trimEndFuel ".git".toList.reverse trimmed.length trimmed).reverse

namespace Env

variable (env : Env)

/-- The remote as a URL: the form of `scp` becomes one of `ssh`. -/
def remoteCandidate (remote : String) : Option String :=
  if "://".toList <:+: remote.toList then some remote
  else (splitOnce ':' remote.toList).map fun s =>
    "ssh://" ++ String.ofList (s.1.reverse.takeWhile (· ≠ '@')).reverse ++ "/" ++ String.ofList s.2

/-- `canonical_repository`. -/
def canonicalRepository (remote : String) : Option String := do
  let parsed ← env.parseUrl (← remoteCandidate remote)
  let host ← parsed.host
  if parsed.scheme ∉ ["ssh", "https", "http", "git"] ∨ repositoryPath parsed.path = "" then none
  else some (host ++ "/" ++ repositoryPath parsed.path)

/-- The branch for `session_meta`. -/
def sessionMeta (p : Parser) (payload : Payload) : Except ReadError Parser :=
  if payload.cliVersion ≠ some "0.154.0-alpha.6.2" then .error .unsupportedVersion
  else if p.session.isSome then .error .multipleHeaders
  else .ok
    { p with
      session := payload.id
      launchCwd := payload.cwd
      repository := payload.repositoryUrl.bind env.canonicalRepository }

/-- The branch for a `task_complete` or a `turn_aborted`. -/
def terminalTurn (p : Parser) (payload : Payload) : Except ReadError Parser :=
  match p.session, payload.turnId, payload.startedAt, payload.completedAt, payload.durationMs with
  | none, _, _, _, _ => .error .noHeader
  | some _, none, _, _, _ => .error .noTurnId
  | some _, some _, none, _, _ => .error .noStart
  | some _, some _, some _, none, _ => .error .noEnd
  | some _, some _, some _, some _, none => .error .noDuration
  | some session, some turn, some started, some ended, some durationMs =>
    if ended < started ∨ u64Max / 1000000000 < ended then .error .invalidInterval
    else if 2000 < absDiff durationMs (min ((ended - started) * 1000) u64Max) then
      .error .durationDisagrees
    else
      let matchingCwd := p.launchCwd.isSome && p.contexts turn = some p.launchCwd
      .ok { p with
        facts := p.facts ++
          [⟨session, turn, started, ended, durationMs,
            if matchingCwd then p.repository else none, payload.kind⟩] }

/-- The body of the loop of `parse`. -/
def parseRecord (p : Parser) (record : Record) : Except ReadError Parser :=
  if record.kind = "session_meta" then env.sessionMeta p record.payload
  else if record.kind = "turn_context" then
    .ok (match record.payload.turnId with
      | some turn =>
        { p with contexts := Function.update p.contexts turn (some record.payload.cwd) }
      | none => p)
  else if record.kind = "event_msg" ∧
      (record.payload.kind = "task_complete" ∨ record.payload.kind = "turn_aborted") then
    terminalTurn p record.payload
  else .ok p

/-- The loop of `parse`, over the lines. -/
def parseLines : List Bytes → Parser → Except ReadError Parser
  | [], p => .ok p
  | line :: lines, p =>
    if line = [] then parseLines lines p
    else match env.decode line with
      | none => .error .invalidRecord
      | some record =>
        match env.parseRecord p record with
        | .error e => .error e
        | .ok p' => parseLines lines p'

/-- `parse::parse`. -/
def parse (bytes : Bytes) : Except ReadError (List Fact) :=
  match env.parseLines (bytes.splitOn 10) .initial with
  | .error e => .error e
  | .ok p => if p.session.isNone then .error .noSession else .ok p.facts

end Env

/-! ## Finding the files -/

/-- `scan::Signature`: length and modification time, in nanoseconds. -/
abbrev Signature := ℕ × ℕ

/-- A session file: its path, its signature, and its bytes if it can be opened. -/
structure SessionFile where
  path : List String
  signature : Signature
  content : Option Bytes
  deriving DecidableEq

/-- `parse::read`. -/
def Env.read (env : Env) (file : SessionFile) : Except ReadError (List Fact) :=
  match file.content with
  | none => .error .opening
  | some bytes => if maxInspected < bytes.length then .error .tooLarge else env.parse bytes

/-- A directory entry. A directory that cannot be listed has no entries. -/
inductive Entry where
  | file (name : String) (len modified : ℕ) (content : Option Bytes)
  | dir (name : String) (entries : Option (List Entry))
  | symlink (name : String)

/-- Why a whole scan fails. -/
inductive ScanError where
  | listing
  | budgetExceeded
  | conflictingTurns
  deriving DecidableEq

/-- `Path::extension` of a file name. -/
def extension (name : String) : Option String :=
  let chars := name.toList
  if '.' ∉ chars.tail then none
  else some (String.ofList ((chars.reverse.takeWhile (· ≠ '.')).reverse))

/-- A day, in nanoseconds. -/
def dayNanos : ℕ := 86400 * 1000000000

/-- `discover`, with the levels that are left of the four it looks at, at the time `now` in
nanoseconds. -/
def discover (now : ℕ) : ℕ → List String → List Entry → ℕ →
    Except ScanError (List SessionFile × ℕ)
  | 0, _, _, budget => .ok ([], budget)
  | levels + 1, path, entries, budget =>
    entries.foldlM (fun acc entry =>
      if acc.2 = 0 then .error .budgetExceeded
      else match entry with
        | .symlink _ => .ok (acc.1, acc.2 - 1)
        | .dir _ none => if levels = 0 then .ok (acc.1, acc.2 - 1) else .error .listing
        | .dir name (some entries) =>
          match discover now levels (path ++ [name]) entries (acc.2 - 1) with
          | .error e => .error e
          | .ok (found, left) => .ok (acc.1 ++ found, left)
        | .file name len modified content =>
          if extension name = some "jsonl" ∧ modified ≤ now ∧ now - modified ≤ dayNanos then
            .ok (acc.1 ++ [⟨path ++ [name], (len, modified), content⟩], acc.2 - 1)
          else .ok (acc.1, acc.2 - 1)) ([], budget)

/-! ## One scan -/

/-- The turn ended in the day before `now`, in seconds. -/
def Fact.recent (now : ℕ) (fact : Fact) : Bool := now - 86400 ≤ fact.ended && fact.ended ≤ now

/-- The key of a turn. -/
def Fact.key (fact : Fact) : String × String := (fact.session, fact.turn)

/-- The order of the keys in a `BTreeMap`. -/
def keyLe (a b : Fact) : Prop := a.session < b.session ∨ a.session = b.session ∧ a.turn ≤ b.turn

instance (a b : Fact) : Decidable (keyLe a b) := inferInstanceAs (Decidable (_ ∨ _ ∧ _))

/-- One insertion into `unique`: a second copy of a turn must be the same. -/
def insertUnique (unique : List Fact) (fact : Fact) : Except ScanError (List Fact) :=
  match unique.find? fun previous => previous.key = fact.key with
  | some previous => if previous = fact then .ok unique else .error .conflictingTurns
  | none => .ok (unique.orderedInsert keyLe fact)

/-- The turns of a file that are exported at `now`, one for each key and in their order. -/
def uniqueTurns (now : ℕ) (facts : List Fact) : Except ScanError (List Fact) :=
  (facts.filter (Fact.recent now)).foldlM insertUnique []

/-- `chunks(size)`, on a list that has at most `fuel` entries. -/
def chunksFuel {α : Type} (size : ℕ) : ℕ → List α → List (List α)
  | 0, _ => []
  | _ + 1, [] => []
  | fuel + 1, a :: l => (a :: l).take size :: chunksFuel size fuel ((a :: l).drop size)

/-- `slice::chunks`. -/
def chunks {α : Type} (size : ℕ) (l : List α) : List (List α) := chunksFuel size l.length l

/-- `scan::Batch`, with the turns of each payload. -/
structure Batch where
  path : List String
  signature : Signature
  payloads : List (List Fact)

/-- `scan::Seen`. -/
abbrev Seen := KeyedMap (List String) Signature

namespace Env

variable (env : Env)

/-- The body of the loop of `collect`: a file that cannot be read gives a batch without payloads,
and conflicting turns fail the scan. -/
def batchOf (now : ℕ) (file : SessionFile) : Except ScanError Batch :=
  match env.read file with
  | .error _ => .ok ⟨file.path, file.signature, []⟩
  | .ok facts =>
    match uniqueTurns now facts with
    | .error e => .error e
    | .ok unique => .ok ⟨file.path, file.signature, chunks 100 unique⟩

/-- The loop of `collect`. -/
def batchesOf (now : ℕ) : List SessionFile → Except ScanError (List Batch)
  | [] => .ok []
  | file :: files =>
    match env.batchOf now file with
    | .error e => .error e
    | .ok batch =>
      match batchesOf now files with
      | .error e => .error e
      | .ok batches => .ok (batch :: batches)

end Env

/-- The newest file comes first. -/
def newerFirst (a b : SessionFile) : Prop := b.signature.2 ≤ a.signature.2

instance (a b : SessionFile) : Decidable (newerFirst a b) := inferInstanceAs (Decidable (_ ≤ _))

/-- The files of a scan, in the order in which they are read. -/
def byAge (found : List SessionFile) : List SessionFile := found.insertionSort newerFirst

/-- The files that a scan reads. -/
def window (seen : Seen) (found : List SessionFile) : List SessionFile :=
  ((byAge found).filter fun file => seen.get? file.path ≠ some file.signature).take 8

/-- `as_secs` of a time in nanoseconds. -/
def seconds (nanos : ℕ) : ℕ := nanos / 1000000000

/-- `collect` under a root that may be missing, at the time `now` in nanoseconds. -/
def Env.collect (env : Env) (now : ℕ) (root : Option (List Entry)) (seen : Seen) :
    Except ScanError (List Batch) :=
  match root with
  | none => .ok []
  | some entries =>
    match discover now 4 [] entries 20000 with
    | .error e => .error e
    | .ok (found, _) => env.batchesOf (seconds now) (window seen found)

/-! ## The ticker -/

/-- The ticker's memory, and the payloads that have been retained, with their file. -/
structure Ticker where
  seen : Seen
  retained : List (List String × List Fact)

/-- The ticker when it starts. -/
def Ticker.initial : Ticker := ⟨.empty, []⟩

namespace Ticker

/-- The loop over the payloads of a batch: those retained before the first refusal. -/
def admitPayloads (retain : List Fact → Bool) (path : List String) :
    List (List Fact) → List (List String × List Fact) × Bool
  | [] => ([], true)
  | payload :: payloads =>
    if retain payload then
      let rest := admitPayloads retain path payloads
      ((path, payload) :: rest.1, rest.2)
    else ([], false)

/-- The loop over the batches: a batch that was admitted whole is remembered. -/
def admitBatch (retain : List Fact → Bool) (t : Ticker) (batch : Batch) : Ticker :=
  let result := admitPayloads retain batch.path batch.payloads
  { seen := if result.2 then t.seen.insert batch.path batch.signature else t.seen
    retained := t.retained ++ result.1 }

/-- One tick with a valid session. A scan that fails leaves everything as it is. -/
def tick (env : Env) (retain : List Fact → Bool) (root : Option (List Entry)) (t : Ticker)
    (now : ℕ) : Ticker :=
  match env.collect now root t.seen with
  | .error _ => t
  | .ok batches =>
    let t' := batches.foldl (admitBatch retain) t
    if 4096 < t'.seen.keys.length then { t' with seen := .empty } else t'

/-- The ticker after the first `k` ticks, at the times `now`. -/
def run (env : Env) (retain : List Fact → Bool) (root : Option (List Entry)) (now : ℕ → ℕ)
    (k : ℕ) : Ticker :=
  (List.range k).foldl (fun t j => t.tick env retain root (now j)) initial

/-- The turns of a file that have been exported. -/
def exported (t : Ticker) (path : List String) : List Fact :=
  (t.retained.filter fun payload => payload.1 = path).flatMap Prod.snd

end Ticker

/-- The scan loses no turn of the files it finds: after a tick for every eight files each file that
can be read has had its turn `j`, each turn of it that was recent then has been exported once, and
none in a payload of more than a hundred; and a turn that was still to end when its file was read
is exported by a later tick. -/
structure LosesNoTurn (env : Env) (root : Option (List Entry)) (found : List SessionFile)
    (now : ℕ → ℕ) : Prop where
  read : ∀ file ∈ found, ∀ facts, env.read file = .ok facts →
    ∃ j < (found.length + 7) / 8,
      file ∈ window (Ticker.run env (fun _ => true) root now j).seen found ∧
      (∀ fact ∈ facts, fact.recent (seconds (now j)) = true →
        ((Ticker.run env (fun _ => true) root now ((found.length + 7) / 8)).exported
          file.path).count fact = 1) ∧
      ∀ fact ∈ facts, seconds (now j) < fact.ended → ∀ later > j,
        fact.recent (seconds (now later)) = true →
          ∃ k, fact ∈ (Ticker.run env (fun _ => true) root now k).exported file.path
  bounded : ∀ k, ∀ payload ∈ (Ticker.run env (fun _ => true) root now k).retained,
    payload.2.length ≤ 100

end CodexSessions

end Governance
