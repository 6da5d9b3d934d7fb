import Governance.Lib.KeyedMap
import Governance.Lib.Literals
import Governance.Managed.Settings

/-!
# `configure_all`

`governance-auth/src/otel/mod.rs`, `vscode/mod.rs` and `managed/{mod,plan,formats}.rs`: the writers
run one after another, then `plan` reads the values of its keys back and `retract_stale` takes out
what an earlier run has recorded and this one has not. Any operation on a file can fail.

Beside the files and the manifest the state says, for every place of every file, which value a
writer has put there, if it is unchanged since.
-/

namespace Governance

namespace Managed

/-! ## Documents -/

/-- A file as the parsers see it. -/
inductive File where
  | blank
  | unparsable
  | document (root : Document)

def emptyTable : Document := .table false []

/-- `key.split('.')`. -/
def segments (key : String) : Place := (key.toList.splitOn '.').map String.ofList

theorem segments_literal {l : List Char} {place : Place}
    (h : (l.splitOn '.').map String.ofList = place) : segments (String.ofList l) = place := by
  rw [segments, String.toList_ofList, h]

theorem segments_append_literals {l m n : List Char} {place : Place}
    (h : ((l ++ m ++ n).splitOn '.').map String.ofList = place) :
    segments (String.ofList l ++ String.ofList m ++ String.ofList n) = place := by
  rw [← String.ofList_append, ← String.ofList_append, segments_literal h]

/-- The literal key, or else the nested one. -/
def find (root : Document) (key : String) : Option (Place × Document) :=
  match root.get key with
  | some node => some ([key], node)
  | none => (root.at? (segments key)).map fun node => (segments key, node)

/-- `json_string_or_array` and `toml_string_or_array`. -/
def Value.text (env : Env) : Value → Option String
  | .string text => some text
  | .strings items => some (env.arrayText items)
  | .other _ => none

def nodeText (env : Env) : Document → Option String
  | .leaf value => value.text env
  | .table _ _ => none

/-- `Document::get`. -/
def get (env : Env) (root : Document) (key : String) : Option String :=
  (find root key).bind fun found => nodeText env found.2

/-- `Document::remove`. -/
def remove (root : Document) (key : String) : Document :=
  match root.get key with
  | some _ => root.erase [key]
  | none => root.erase (segments key)

/-- `Format::read`, after the file has been read. -/
def Target.parse (t : Target) : File → Option Document
  | .document root => some root
  | .blank => if t = .codex then some emptyTable else none
  | .unparsable => none

/-- What the writer of a target starts from. VS Code's takes a blank file for an empty one. -/
def Target.start (t : Target) : Option File → Option Document
  | none => some emptyTable
  | some (.document root) => some root
  | some .blank => if t = .claude then none else some emptyTable
  | some .unparsable => none

def Edit.apply : Edit → Document → Option Document
  | .put place value, root => root.set value place
  | .take place, root => some (root.erase place)

def applyEdits : List Edit → Document → Option Document
  | [], root => some root
  | edit :: rest, root => (edit.apply root).bind (applyEdits rest)

/-! ## The state -/

/-- The keys of a target with the digests of their values. -/
abbrev Record := KeyedMap String String

/-- The client directories, their files, the manifest on disk, and what the writers own: the
values that they have put and that nobody has changed. -/
structure World where
  dir : Target → Bool
  file : Target → Option File
  manifest : Target → Option Record
  owned : Target → Place → Option Value

/-- The operations that can fail. -/
inductive Op where
  | load
  | isDir (t : Target)
  | read (t : Target)
  | write (t : Target)
  | shell
  | planRead (t : Target)
  | isFile (t : Target)
  | retractRead (t : Target)
  | retractWrite (t : Target)
  | save
  deriving DecidableEq

/-- One run of `configure_all`. -/
structure Run where
  settings : OtelSettings
  optout : ClientOptOut
  fails : Op → Bool

def World.document (w : World) (t : Target) : Option Document := (w.file t).bind t.parse

def nodeValue : Document → Option Value
  | .leaf value => some value
  | .table _ _ => none

/-- The value at a place. -/
def valueAt (root : Option Document) (place : Place) : Option Value :=
  (root.bind (Node.at? place)).bind nodeValue

/-- What is still owned when a document has changed. -/
def keep (owned : Place → Option Value) (root root' : Option Document) : Place → Option Value :=
  fun place => if valueAt root place = valueAt root' place then owned place else none

/-- What is owned after the edits of a writer. -/
def own (edits : List Edit) (owned : Place → Option Value) : Place → Option Value :=
  edits.foldl (fun owned edit =>
    match edit with
    | .put place value => Function.update owned place (some value)
    | .take place => Function.update owned place none) owned

/-! ## The writers -/

inductive Written where
  | failed
  | skipped
  | written (root : Document)

/-- `configure_claude_code`, `configure_codex` and `configure_flavour`. -/
def writeTarget (env : Env) (run : Run) (w : World) (t : Target) : Written :=
  if !w.dir t || run.fails (.isDir t) then .skipped
  else if run.fails (.read t) then .failed
  else
    match (t.start (w.file t)).bind (applyEdits (t.edits env run.settings run.optout)) with
    | none => .failed
    | some root => if run.fails (.write t) then .failed else .written root

def World.write (env : Env) (run : Run) (w : World) (t : Target) (root : Document) : World :=
  { w with
    file := Function.update w.file t (some (.document root))
    owned := Function.update w.owned t
      (own (t.edits env run.settings run.optout) (w.owned t)) }

/-- The state after some writers, the targets that they have written, and whether none failed. -/
structure Outcome where
  world : World
  written : List Target
  ok : Bool

/-- The writers of some targets, up to the first that fails. -/
def writeAll (env : Env) (run : Run) : List Target → World → Outcome
  | [], w => ⟨w, [], true⟩
  | t :: rest, w =>
    if t.declined run.optout then writeAll env run rest w
    else
      match writeTarget env run w t with
      | .failed => ⟨w, [], false⟩
      | .skipped => writeAll env run rest w
      | .written root =>
        let outcome := writeAll env run rest (w.write env run t root)
        { outcome with written := t :: outcome.written }

/-- `configure_all` up to `plan`, which it comes to if nothing failed. A failure of VS Code's writer
is a warning; the flavours after it are not written. -/
def runWriters (env : Env) (run : Run) (w : World) : Outcome :=
  let clients := writeAll env run [.claude, .codex] w
  if !clients.ok then clients
  else if entries env run.settings = [] then { clients with ok := !run.fails .shell }
  else
    let vscode := writeAll env run (flavours.map .vscode) clients.world
    ⟨vscode.world, clients.written ++ vscode.written, !run.fails .shell⟩

/-! ## The manifest -/

/-- The digests of the values that are at the keys. -/
def record (env : Env) (root : Document) (keys : List String) : Record :=
  keys.foldl (fun recorded key =>
    match get env root key with
    | some value => recorded.insert key (env.digest value)
    | none => recorded) .empty

/-- `--codex-telemetry-only` leaves the provider keys of the previous record as they are. -/
def carryInference (run : Run) (t : Target) (previous : Option Record) (recorded : Record) :
    Record :=
  if run.optout.codexTelemetryOnly ∧ t = .codex then
    (previous.getD .empty).keys.foldl (fun recorded key =>
      match (previous.getD .empty).get? key with
      | some value => if codexInferenceKey key then recorded.insert key value else recorded
      | none => recorded) recorded
  else recorded

/-- `plan`, for one target. -/
def plan (env : Env) (run : Run) (previous : Option Record) (w : World) (t : Target) :
    Option Record :=
  let keys := t.keys env run.settings run.optout
  if t.declined run.optout then previous
  else if keys = [] then none
  else
    match if run.fails (.planRead t) then none else w.document t with
    | none => none
    | some root =>
      let recorded := carryInference run t previous (record env root keys)
      if recorded.keys = [] then none else some recorded

/-- An entry that `retract_stale` takes out. -/
structure Removal where
  target : Target
  place : Place
  value : Value
  deriving DecidableEq

/-- The loop over the stale keys of a target. -/
def retractKeys (env : Env) (t : Target) (old : Record) :
    List String → Document → Document × List Removal
  | [], root => (root, [])
  | key :: rest, root =>
    match find root key, old.get? key with
    | some (place, .leaf value), some recorded =>
      if (value.text env).map env.digest = some recorded then
        let (root', removed) := retractKeys env t old rest (remove root key)
        (root', ⟨t, place, value⟩ :: removed)
      else retractKeys env t old rest root
    | _, _ => retractKeys env t old rest root

/-- What `retract_stale` makes of a target: its entry in the new manifest, its file, and what was
taken out of the document. -/
structure Retraction where
  now : Option Record
  file : Option File
  removed : List Removal

/-- The keys that were recorded and are not recorded now. -/
def staleKeys (old : Record) (now : Option Record) : List String :=
  old.keys.filter fun key => now.all fun now => key ∉ now.keys

/-- `retract_stale`, for one target. -/
def retractStale (env : Env) (run : Run) (previous now : Option Record) (w : World) (t : Target) :
    Retraction :=
  match previous with
  | none => ⟨now, w.file t, []⟩
  | some old =>
    if (w.file t).isNone || run.fails (.isFile t) || (staleKeys old now).isEmpty then
      ⟨now, w.file t, []⟩
    else
      match if run.fails (.retractRead t) then none else w.document t with
      -- Keys that cannot be inspected stay recorded.
      | none => ⟨some old, w.file t, []⟩
      | some root =>
        match retractKeys env t old (staleKeys old now) root with
        | (_, []) => ⟨now, w.file t, []⟩
        | (root', removed) =>
          if run.fails (.retractWrite t) then ⟨some old, w.file t, removed⟩
          else ⟨now, some (.document root'), removed⟩

/-! ## Steps -/

def allTargets : List Target := [Target.claude, Target.codex] ++ flavours.map Target.vscode

/-- The manifest that a run has loaded. -/
def Run.previous (run : Run) (w : World) (t : Target) : Option Record :=
  if run.fails .load then none else w.manifest t

/-- `plan` and `retract_stale` of a target, in the state after the writers. -/
def retraction (env : Env) (run : Run) (w : World) (t : Target) : Retraction :=
  retractStale env run (run.previous w t) (plan env run (run.previous w t) w t) w t

/-- What follows the writers. -/
def finish (env : Env) (run : Run) (w : World) : World :=
  { w with
    file := fun t => (retraction env run w t).file
    manifest := if run.fails .save then w.manifest else fun t => (retraction env run w t).now
    owned := fun t =>
      keep (w.owned t) (w.document t) ((retraction env run w t).file.bind t.parse) }

instance : Fintype Target :=
  ⟨⟨allTargets, by decide⟩, fun t => by
    cases t with
    | vscode flavour => cases flavour <;> decide
    | _ => decide⟩

/-- A run of `configure_all`, or an edit of a client's file by the developer. -/
inductive Action where
  | configureAll (run : Run)
  | edit (t : Target) (dir : Bool) (file : Option File)

def step (env : Env) (w : World) : Action → World
  | .configureAll run =>
    let outcome := runWriters env run w
    if outcome.ok then finish env run outcome.world else outcome.world
  | .edit t dir file =>
    { w with
      dir := Function.update w.dir t dir
      file := Function.update w.file t file
      owned := Function.update w.owned t
        (keep (w.owned t) (w.document t) (file.bind t.parse)) }

/-- What a step takes out of the documents. -/
def removals (env : Env) (w : World) : Action → List Removal
  | .configureAll run =>
    let outcome := runWriters env run w
    if outcome.ok then
      allTargets.flatMap fun t => (retraction env run outcome.world t).removed
    else []
  | .edit _ _ _ => []

/-- No run and no manifest yet: whatever is in the files is the developer's. -/
def World.initial (dir : Target → Bool) (file : Target → Option File) : World :=
  ⟨dir, file, fun _ => none, fun _ _ => none⟩

end Managed

end Governance
