import Governance.Lib.Runs
import Governance.Managed.Configure

/-!
# Retraction and the developer's own work

Everything that is recorded is read back from the files. It is a writer's as long as every key
that a run takes on resolves to a place that the run's writer puts a value at, or to one that a
writer owns already; and it stays so as long as no edit makes a recorded key resolve to a recorded
value that it did not resolve to before.
-/

namespace Governance

namespace Managed

/-! ## The condition -/

/-- The value of a recorded key that would be taken for the one recorded. -/
def Recorded (env : Env) (recorded : Record) (key : String) (value : Value) : Prop :=
  ∃ digest, recorded.get? key = some digest ∧ (value.text env).map env.digest = some digest

/-- The place and the value that a dotted key stands for in a file. -/
def resolve (root : Option Document) (key : String) : Option (Place × Value) :=
  (root.bind fun root => find root key).bind fun found =>
    (nodeValue found.2).map fun value => (found.1, value)

def putPlaces (edits : List Edit) : List Place :=
  edits.filterMap fun
    | .put place _ => some place
    | .take _ => none

/-- A key that the run records stands for a place that its writer puts a value at, or for a value
that a writer owns already. -/
def TakesOwn (env : Env) (run : Run) (w : World) (t : Target) : Prop :=
  t.declined run.optout = false →
  ∀ key ∈ t.keys env run.settings run.optout, ∀ found ∈ resolve (w.document t) key,
    found.2.text env ≠ none →
    t ∈ (runWriters env run w).written ∧
        found.1 ∈ putPlaces (t.edits env run.settings run.optout) ∨
      w.owned t found.1 = some found.2

/-- A key with a value at the literal and another at the nested place. -/
def Twofold (root : Document) (key : String) : Prop :=
  segments key ≠ [key] ∧ valueAt (some root) [key] ≠ none ∧
    valueAt (some root) (segments key) ≠ none

/-- A manifest that is not saved goes on recording what has been taken out; a key stands for
nothing then. -/
def SingleUnlessSaved (env : Env) (run : Run) (w : World) (t : Target) : Prop :=
  run.fails .save = true → ∀ recorded ∈ w.manifest t,
    ∀ root ∈ (runWriters env run w).world.document t, ∀ key ∈ recorded.keys, ¬ Twofold root key

/-- No key comes to stand for a value that is recorded for it, unless it stood for it before. -/
def RestoresNothing (env : Env) (w : World) (t : Target) (file : Option File) : Prop :=
  ∀ recorded ∈ w.manifest t, ∀ key ∈ recorded.keys, ∀ found ∈ resolve (file.bind t.parse) key,
    (found.2.text env).map env.digest = recorded.get? key →
    resolve (w.document t) key = some found

/-- The condition on a step. -/
def Undisturbed (env : Env) (w : World) : Action → Prop
  | .configureAll run => ∀ t, TakesOwn env run w t ∧ SingleUnlessSaved env run w t
  | .edit t _ file => RestoresNothing env w t file

/-- What a step is to do: every entry that it takes out is one that a writer owns. -/
def Correct (env : Env) (w : World) : Action → Prop
  | .configureAll run => ∀ removal ∈ removals env w (.configureAll run),
    (runWriters env run w).world.owned removal.target removal.place = some removal.value
  | .edit _ _ _ => True

section Decidable

variable (env : Env) (run : Run) (w : World) (t : Target)

instance : Decidable (TakesOwn env run w t) := by
  unfold TakesOwn
  infer_instance

instance (root : Document) (key : String) : Decidable (Twofold root key) := by
  unfold Twofold
  infer_instance

instance : Decidable (SingleUnlessSaved env run w t) := by
  unfold SingleUnlessSaved
  infer_instance

instance (file : Option File) : Decidable (RestoresNothing env w t file) := by
  unfold RestoresNothing
  infer_instance

instance : ∀ a, Decidable (Undisturbed env w a)
  | .configureAll run =>
    inferInstanceAs (Decidable (∀ t, TakesOwn env run w t ∧ SingleUnlessSaved env run w t))
  | .edit t _ file => inferInstanceAs (Decidable (RestoresNothing env w t file))

instance : ∀ a, Decidable (Correct env w a)
  | .configureAll run => inferInstanceAs (Decidable (∀ removal ∈ removals env w (.configureAll run),
      (runWriters env run w).world.owned removal.target removal.place = some removal.value))
  | .edit _ _ _ => .isTrue trivial

end Decidable

/-! ## Keys and places -/

section Keys

variable {root root' : Document} {key key' : String} {place place' : Place} {value value' : Value}

theorem intercalate_segments (key : String) :
    ['.'].intercalate ((segments key).map String.toList) = key.toList := by
  have hback : (segments key).map String.toList = key.toList.splitOn '.' := by
    simp [segments]
  rw [hback, List.intercalate_splitOn]

theorem segments_ne_nil (key : String) : segments key ≠ [] := by
  intro h
  exact List.splitOn_ne_nil _ _ (List.map_eq_nil_iff.mp h)

theorem segments_injective (h : segments key = segments key') : key = key' := by
  apply String.toList_injective
  rw [← intercalate_segments key, h, intercalate_segments]

/-- A key without nesting. -/
theorem eq_of_segments (h : segments key = [key']) : key = key' := by
  apply String.toList_injective
  rw [← intercalate_segments key, h]
  simp

/-- A value is found at the literal place, or at the nested one where there is nothing literal. -/
theorem find_eq_leaf : find root key = some (place, .leaf value) ↔
    place = [key] ∧ root.at? [key] = some (.leaf value) ∨
      root.get key = none ∧ place = segments key ∧
        root.at? (segments key) = some (.leaf value) := by
  rw [Node.at?_singleton, find]
  cases root.get key with
  | none => simp [and_comm, eq_comm]
  | some node => simp [eq_comm]

theorem at?_of_find (h : find root key = some (place, .leaf value)) :
    root.at? place = some (.leaf value) := by
  rcases find_eq_leaf.1 h with ⟨rfl, hat⟩ | ⟨-, rfl, hat⟩
  · exact hat
  · exact hat

/-- A put makes a key stand for what was put, or for what it stood for. -/
theorem find_of_set (h : root.set value place = some root')
    (hfind : find root' key = some (place', .leaf value')) :
    place' = place ∧ value' = value ∨ find root key = some (place', .leaf value') := by
  rw [find_eq_leaf] at hfind ⊢
  rcases hfind with ⟨rfl, hat⟩ | ⟨hnone, rfl, hat⟩
  · exact (Node.at?_leaf_of_set h hat).imp_right fun hold => .inl ⟨rfl, hold⟩
  · exact (Node.at?_leaf_of_set h hat).imp_right fun hold =>
      .inr ⟨Node.get_of_set h hnone, rfl, hold⟩

/-- Taking out what is not at a key's literal place makes it stand for nothing new. -/
theorem find_of_erase (hplace : place ≠ []) (hliteral : place ≠ [key])
    (hfind : find (root.erase place) key = some (place', .leaf value)) :
    place' ≠ place ∧ find root key = some (place', .leaf value) := by
  rw [find_eq_leaf] at hfind ⊢
  rcases hfind with ⟨rfl, hat⟩ | ⟨hnone, rfl, hat⟩
  · obtain ⟨hne, hold⟩ := Node.at?_leaf_of_erase hplace hat
    exact ⟨hne, .inl ⟨rfl, hold⟩⟩
  · obtain ⟨hne, hold⟩ := Node.at?_leaf_of_erase hplace hat
    exact ⟨hne, .inr ⟨Node.get_of_erase hliteral hnone, rfl, hold⟩⟩

theorem find_of_remove (hne : key ≠ key')
    (hfind : find (remove root key') key = some (place, .leaf value)) :
    find root key = some (place, .leaf value) := by
  unfold remove at hfind
  split at hfind
  · refine (find_of_erase (List.cons_ne_nil _ _) ?_ hfind).2
    intro heq
    exact hne (List.cons.inj heq).1.symm
  · refine (find_of_erase (segments_ne_nil key') ?_ hfind).2
    intro heq
    exact hne (eq_of_segments heq).symm

theorem at?_leaf_of_remove (h : (remove root key').at? place = some (.leaf value)) :
    root.at? place = some (.leaf value) := by
  unfold remove at h
  split at h
  · exact (Node.at?_leaf_of_erase (List.cons_ne_nil _ _) h).2
  · exact (Node.at?_leaf_of_erase (segments_ne_nil key') h).2

theorem valueAt_eq_some :
    valueAt (some root) place = some value ↔ root.at? place = some (.leaf value) := by
  rw [valueAt, Option.bind_some]
  constructor
  · intro h
    obtain ⟨node, hat, hnode⟩ := Option.bind_eq_some_iff.mp h
    cases node with
    | leaf value' =>
      obtain rfl := Option.some.inj hnode
      exact hat
    | table inline entries => cases hnode
  · intro h
    rw [h]
    rfl

theorem valueAt_of_remove (h : valueAt (some (remove root key')) place ≠ none) :
    valueAt (some root) place ≠ none := by
  obtain ⟨value, hvalue⟩ := Option.ne_none_iff_exists'.mp h
  rw [valueAt_eq_some.2 (at?_leaf_of_remove (valueAt_eq_some.1 hvalue))]
  exact Option.some_ne_none value

theorem Twofold.of_remove (h : Twofold (remove root key') key) : Twofold root key :=
  ⟨h.1, valueAt_of_remove h.2.1, valueAt_of_remove h.2.2⟩

/-- A key with one value stands for none once that is taken out. -/
theorem find_remove_self (hsome : find root key = some (place, .leaf value))
    (hsingle : ¬ Twofold root key) :
    find (remove root key) key ≠ some (place', .leaf value') := by
  intro hfind
  unfold remove at hfind
  rcases find_eq_leaf.1 hsome with ⟨-, hat⟩ | ⟨hnone, -, -⟩
  · have hget : root.get key = some (.leaf value) := by rwa [Node.at?_singleton] at hat
    simp only [hget] at hfind
    rcases find_eq_leaf.1 hfind with ⟨-, hat'⟩ | ⟨-, -, hat'⟩
    · exact (Node.at?_leaf_of_erase (List.cons_ne_nil _ _) hat').1 rfl
    · obtain ⟨hne, hold⟩ := Node.at?_leaf_of_erase (List.cons_ne_nil _ _) hat'
      refine hsingle ⟨hne, ?_, ?_⟩
      · rw [valueAt_eq_some.2 hat]
        exact Option.some_ne_none _
      · rw [valueAt_eq_some.2 hold]
        exact Option.some_ne_none _
  · simp only [hnone] at hfind
    rcases find_eq_leaf.1 hfind with ⟨-, hat'⟩ | ⟨-, -, hat'⟩
    · obtain ⟨-, hold⟩ := Node.at?_leaf_of_erase (segments_ne_nil key) hat'
      rw [Node.at?_singleton, hnone] at hold
      cases hold
    · exact (Node.at?_leaf_of_erase (segments_ne_nil key) hat').1 rfl

theorem resolve_eq_some {file : Option Document} : resolve file key = some (place, value) ↔
    ∃ root, file = some root ∧ find root key = some (place, .leaf value) := by
  constructor
  · intro h
    obtain ⟨found, hfound, hvalue⟩ := Option.bind_eq_some_iff.mp h
    obtain ⟨root, hroot, hfind⟩ := Option.bind_eq_some_iff.mp hfound
    obtain ⟨place', node⟩ := found
    cases node with
    | leaf value' =>
      obtain ⟨rfl, rfl⟩ : place' = place ∧ value' = value := by simpa [nodeValue] using hvalue
      exact ⟨root, hroot, hfind⟩
    | table inline entries => simp [nodeValue] at hvalue
  · rintro ⟨root, rfl, hfind⟩
    simp [resolve, hfind, nodeValue]

theorem find_emptyTable : find emptyTable key ≠ some (place, .leaf value) := by
  intro hfind
  rcases find_eq_leaf.1 hfind with ⟨-, hat⟩ | ⟨-, -, hat⟩
  · cases hat
  · cases hseg : segments key with
    | nil => exact segments_ne_nil key hseg
    | cons head tail =>
      rw [hseg] at hat
      cases hat

end Keys

/-! ## Owned values -/

/-- Every value of interest that a key stands for is owned, but for those at some places. -/
def Covered (R : String → Value → Prop) (except : List Place) (owned : Place → Option Value)
    (root : Document) : Prop :=
  ∀ key place value, R key value → find root key = some (place, .leaf value) →
    place ∈ except ∨ owned place = some value

section Owned

variable {R : String → Value → Prop} {except : List Place} {owned : Place → Option Value}
  {root root' : Document} {edits : List Edit}

theorem covered_emptyTable : Covered R except owned emptyTable := by
  intro key place value _ hfind
  exact absurd hfind find_emptyTable

/-- What is put is owned, and its place needs no exception any more. -/
theorem Covered.put (h : Covered R except owned root) {place : Place} {value : Value}
    (hset : root.set value place = some root') :
    Covered R (except.filter (· ≠ place)) (Function.update owned place (some value)) root' := by
  intro key place' value' hR hfind
  by_cases hplace : place' = place
  · subst hplace
    right
    have hat := Node.at?_set_self hset
    rw [at?_of_find hfind] at hat
    cases hat
    exact Function.update_self _ _ _
  · rw [Function.update_of_ne hplace]
    rcases find_of_set hset hfind with ⟨heq, -⟩ | hold
    · exact absurd heq hplace
    · refine (h key place' value' hR hold).imp_left fun hmem => ?_
      exact List.mem_filter.mpr ⟨hmem, by simpa using hplace⟩

theorem Covered.take (h : Covered R except owned root) {place : Place} (hlong : 2 ≤ place.length) :
    Covered R except (Function.update owned place none) (root.erase place) := by
  intro key place' value' hR hfind
  have hplace : place ≠ [] := by
    rintro rfl
    simp at hlong
  have hliteral : place ≠ [key] := by
    rintro rfl
    simp at hlong
  obtain ⟨hne, hold⟩ := find_of_erase hplace hliteral hfind
  rw [Function.update_of_ne hne]
  exact h key place' value' hR hold

/-- A writer takes out nothing at the top of a document. -/
def TakesDeep (edits : List Edit) : Prop := ∀ place, Edit.take place ∈ edits → 2 ≤ place.length

/-- The edits of a writer leave everything owned that was, and own what they put. -/
theorem Covered.write (h : Covered R except owned root) (hdeep : TakesDeep edits)
    (happly : applyEdits edits root = some root') :
    Covered R (except.filter (· ∉ putPlaces edits)) (own edits owned) root' := by
  induction edits generalizing except owned root with
  | nil =>
    obtain rfl := Option.some.inj happly
    simpa [putPlaces, own] using h
  | cons edit rest ih =>
    obtain ⟨middle, hedit, hrest⟩ := Option.bind_eq_some_iff.mp happly
    have hdeep' : TakesDeep rest := fun place hmem => hdeep place (List.mem_cons_of_mem _ hmem)
    cases edit with
    | put place value =>
      have hput := ih (h.put hedit) hdeep' hrest
      have hfilter : (except.filter (· ≠ place)).filter (· ∉ putPlaces rest) =
          except.filter (· ∉ putPlaces (.put place value :: rest)) := by
        rw [List.filter_filter]
        apply List.filter_congr
        intro other _
        simp [putPlaces, Bool.and_comm]
      rwa [hfilter] at hput
    | take place =>
      obtain rfl := Option.some.inj hedit
      exact ih (h.take (hdeep place List.mem_cons_self)) hdeep' hrest

end Owned

/-! ## The writers -/

theorem takesDeep_edits (env : Env) (settings : OtelSettings) (optout : ClientOptOut) (t : Target) :
    TakesDeep (t.edits env settings optout) := by
  intro place hmem
  cases t with
  | claude =>
    simp only [Target.edits, configureClaudeCode, List.mem_append, List.mem_map, List.mem_flatMap]
      at hmem
    simp at hmem
    rw [← hmem.2]
    rfl
  | codex =>
    exfalso
    revert hmem
    simp [Target.edits, configureCodex]
  | vscode flavour =>
    exfalso
    revert hmem
    simp [Target.edits]

section Writers

variable {env : Env} {run : Run} {w w' : World} {t : Target} {targets : List Target}

/-- The file of a target is the writer's work. -/
def WrittenBy (env : Env) (run : Run) (w w' : World) (t : Target) : Prop :=
  ∃ start root, t.start (w.file t) = some start ∧
    applyEdits (t.edits env run.settings run.optout) start = some root ∧
    w'.file t = some (.document root) ∧
    w'.owned t = own (t.edits env run.settings run.optout) (w.owned t)

def Untouched (w w' : World) (t : Target) : Prop :=
  w'.file t = w.file t ∧ w'.owned t = w.owned t

theorem writtenBy_of_writeTarget {root : Document} (h : writeTarget env run w t = .written root) :
    WrittenBy env run w (w.write env run t root) t := by
  unfold writeTarget at h
  split at h
  · cases h
  · split at h
    · cases h
    · split at h
      · cases h
      · next root' happly =>
        split at h
        · cases h
        · cases h
          obtain ⟨start, hstart, hroot⟩ := Option.bind_eq_some_iff.mp happly
          exact ⟨start, root, hstart, hroot, by simp [World.write], by simp [World.write]⟩

theorem untouched_write {root : Document} {t' : Target} (h : t' ≠ t) :
    Untouched w (w.write env run t root) t' := by
  simp [Untouched, World.write, h]

theorem WrittenBy.of_untouched {w'' : World} (h : Untouched w w' t)
    (hwritten : WrittenBy env run w' w'' t) : WrittenBy env run w w'' t := by
  obtain ⟨start, root, hstart, happly, hfile, howned⟩ := hwritten
  exact ⟨start, root, h.1 ▸ hstart, happly, hfile, h.2 ▸ howned⟩

/-- A list of writers writes the files that it reports, and touches no others. -/
theorem writeAll_spec (env : Env) (run : Run) (targets : List Target) (w : World)
    (hnodup : targets.Nodup) :
    (∀ t, t ∈ (writeAll env run targets w).written →
      t ∈ targets ∧ WrittenBy env run w (writeAll env run targets w).world t) ∧
    (∀ t, t ∉ (writeAll env run targets w).written →
      Untouched w (writeAll env run targets w).world t) ∧
    (writeAll env run targets w).world.manifest = w.manifest := by
  induction targets generalizing w with
  | nil => exact ⟨nofun, fun _ _ => ⟨rfl, rfl⟩, rfl⟩
  | cons t rest ih =>
    obtain ⟨hnew, hnodup⟩ := List.nodup_cons.mp hnodup
    have hskip (w : World) :
        (∀ t', t' ∈ (writeAll env run rest w).written →
          t' ∈ t :: rest ∧ WrittenBy env run w (writeAll env run rest w).world t') ∧
        (∀ t', t' ∉ (writeAll env run rest w).written →
          Untouched w (writeAll env run rest w).world t') ∧
        (writeAll env run rest w).world.manifest = w.manifest := by
      obtain ⟨hwritten, huntouched, hmanifest⟩ := ih w hnodup
      refine ⟨fun t' ht' => ?_, huntouched, hmanifest⟩
      exact ⟨List.mem_cons_of_mem _ (hwritten t' ht').1, (hwritten t' ht').2⟩
    simp only [writeAll]
    split
    · exact hskip w
    · split
      · exact ⟨nofun, fun _ _ => ⟨rfl, rfl⟩, rfl⟩
      · exact hskip w
      · next root hroot =>
        obtain ⟨hwritten, huntouched, hmanifest⟩ := ih (w.write env run t root) hnodup
        refine ⟨?_, ?_, hmanifest⟩
        · intro t' ht'
          rcases List.mem_cons.mp ht' with rfl | hrest
          · refine ⟨List.mem_cons_self, ?_⟩
            have hlater : t' ∉ (writeAll env run rest (w.write env run t' root)).written :=
              fun hmem => hnew (hwritten t' hmem).1
            obtain ⟨start, root', hstart, happly, hfile, howned⟩ := writtenBy_of_writeTarget hroot
            obtain ⟨hfile', howned'⟩ := huntouched t' hlater
            exact ⟨start, root', hstart, happly, hfile'.trans hfile, howned'.trans howned⟩
          · obtain ⟨hmem, hlater⟩ := hwritten t' hrest
            have hne : t' ≠ t := by
              rintro rfl
              exact hnew hmem
            exact ⟨List.mem_cons_of_mem _ hmem, .of_untouched (untouched_write hne) hlater⟩
        · intro t' ht'
          have hne : t' ≠ t := by
            rintro rfl
            exact ht' List.mem_cons_self
          have hrest := huntouched t' fun hmem => ht' (List.mem_cons_of_mem _ hmem)
          obtain ⟨hfile, howned⟩ : Untouched w (w.write env run t root) t' := untouched_write hne
          exact ⟨hrest.1.trans hfile, hrest.2.trans howned⟩

theorem Untouched.trans {w'' : World} (h : Untouched w w' t) (h' : Untouched w' w'' t) :
    Untouched w w'' t :=
  ⟨h'.1.trans h.1, h'.2.trans h.2⟩

/-- `configure_all` writes the files that it reports, and touches no others before `plan`. -/
theorem runWriters_spec (env : Env) (run : Run) (w : World) :
    (∀ t, t ∈ (runWriters env run w).written →
      WrittenBy env run w (runWriters env run w).world t) ∧
    (∀ t, t ∉ (runWriters env run w).written → Untouched w (runWriters env run w).world t) ∧
    (runWriters env run w).world.manifest = w.manifest := by
  obtain ⟨hwritten, huntouched, hmanifest⟩ :=
    writeAll_spec env run [.claude, .codex] w (by decide)
  unfold runWriters
  dsimp only
  split
  · exact ⟨fun t ht => (hwritten t ht).2, huntouched, hmanifest⟩
  · split
    · exact ⟨fun t ht => (hwritten t ht).2, huntouched, hmanifest⟩
    · obtain ⟨hwritten', huntouched', hmanifest'⟩ :=
        writeAll_spec env run (flavours.map .vscode)
          (writeAll env run [.claude, .codex] w).world (by decide)
      refine ⟨?_, ?_, hmanifest'.trans hmanifest⟩
      · intro t ht
        rcases List.mem_append.mp ht with hclient | hvscode
        · -- The other writers are for other files.
          have hother : t ∉ (writeAll env run (flavours.map .vscode)
              (writeAll env run [.claude, .codex] w).world).written := by
            intro hmem
            have hin := (hwritten t hclient).1
            obtain ⟨flavour, -, rfl⟩ := List.mem_map.mp (hwritten' t hmem).1
            simp at hin
          obtain ⟨start, root, hstart, happly, hfile, howned⟩ := (hwritten t hclient).2
          obtain ⟨hfile', howned'⟩ := huntouched' t hother
          exact ⟨start, root, hstart, happly, hfile'.trans hfile, howned'.trans howned⟩
        · have hother : t ∉ (writeAll env run [.claude, .codex] w).written := by
            intro hmem
            have hin := (hwritten t hmem).1
            obtain ⟨flavour, -, rfl⟩ := List.mem_map.mp (hwritten' t hvscode).1
            simp at hin
          exact .of_untouched (huntouched t hother) (hwritten' t hvscode).2
      · intro t ht
        rw [List.mem_append, not_or] at ht
        exact (huntouched t ht.1).trans (huntouched' t ht.2)

/-- A writer starts from the document of the file, or from nothing. -/
theorem start_eq {file : Option File} {start : Document} (h : t.start file = some start) :
    file.bind t.parse = some start ∨ start = emptyTable := by
  cases file with
  | none => exact .inr (Option.some.inj h).symm
  | some file =>
    cases file with
    | document root => exact .inl h
    | unparsable => cases h
    | blank =>
      simp only [Target.start] at h
      split at h
      · cases h
      · exact .inr (Option.some.inj h).symm

theorem WrittenBy.covered {R : String → Value → Prop} (h : WrittenBy env run w w' t)
    (hcovered : ∀ root, w.document t = some root →
      Covered R (putPlaces (t.edits env run.settings run.optout)) (w.owned t) root)
    {root : Document} (hroot : w'.document t = some root) : Covered R [] (w'.owned t) root := by
  obtain ⟨start, root', hstart, happly, hfile, howned⟩ := h
  have heq : root' = root := by
    simpa [World.document, hfile, Target.parse] using hroot
  subst heq
  have hcov : Covered R (putPlaces (t.edits env run.settings run.optout)) (w.owned t) start := by
    rcases start_eq hstart with hdocument | rfl
    · exact hcovered start hdocument
    · exact covered_emptyTable
  have hafter := hcov.write (takesDeep_edits env run.settings run.optout t) happly
  have hnone : (putPlaces (t.edits env run.settings run.optout)).filter
      (· ∉ putPlaces (t.edits env run.settings run.optout)) = [] := by
    simp [List.filter_eq_nil_iff]
  rw [hnone] at hafter
  rw [howned]
  exact hafter

theorem Untouched.covered {R : String → Value → Prop} (h : Untouched w w' t)
    (hcovered : ∀ root, w.document t = some root → Covered R [] (w.owned t) root)
    {root : Document} (hroot : w'.document t = some root) : Covered R [] (w'.owned t) root := by
  rw [h.2]
  apply hcovered
  rw [← hroot, World.document, World.document, h.1]

theorem Covered.mono {R : String → Value → Prop} {except except' : List Place}
    {owned : Place → Option Value} {root : Document} (h : Covered R except owned root)
    (hsub : except ⊆ except') : Covered R except' owned root := by
  intro key place value hR hfind
  exact (h key place value hR hfind).imp_left fun hmem => hsub hmem

/-- What the manifest records is owned. -/
def Tracked (env : Env) (w : World) : Prop :=
  ∀ t recorded, w.manifest t = some recorded → ∀ root, w.document t = some root →
    Covered (Recorded env recorded) [] (w.owned t) root

theorem Tracked.writers (h : Tracked env w) : Tracked env (runWriters env run w).world := by
  obtain ⟨hwritten, huntouched, hmanifest⟩ := runWriters_spec env run w
  intro t recorded hrecorded root hroot
  rw [hmanifest] at hrecorded
  have hcovered := h t recorded hrecorded
  by_cases ht : t ∈ (runWriters env run w).written
  · exact (hwritten t ht).covered (fun root' hroot' =>
      (hcovered root' hroot').mono (List.nil_subset _)) hroot
  · exact (huntouched t ht).covered hcovered hroot

/-- Every value that `plan` records of a run's own keys is owned. -/
theorem TakesOwn.covered (h : TakesOwn env run w t) (hdeclined : t.declined run.optout = false)
    {root : Document} (hroot : (runWriters env run w).world.document t = some root) :
    Covered (fun key value => key ∈ t.keys env run.settings run.optout ∧ value.text env ≠ none) []
      ((runWriters env run w).world.owned t) root := by
  obtain ⟨hwritten, huntouched, -⟩ := runWriters_spec env run w
  have htakes : ∀ root', w.document t = some root' → ∀ key place value,
      (key ∈ t.keys env run.settings run.optout ∧ value.text env ≠ none) →
      find root' key = some (place, .leaf value) →
      t ∈ (runWriters env run w).written ∧
          place ∈ putPlaces (t.edits env run.settings run.optout) ∨
        w.owned t place = some value := by
    intro root' hroot' key place value hkey hfind
    exact h hdeclined key hkey.1 (place, value)
      (resolve_eq_some.2 ⟨root', hroot', hfind⟩) hkey.2
  by_cases ht : t ∈ (runWriters env run w).written
  · refine (hwritten t ht).covered ?_ hroot
    intro root' hroot' key place value hkey hfind
    exact (htakes root' hroot' key place value hkey hfind).imp_left And.right
  · refine (huntouched t ht).covered ?_ hroot
    intro root' hroot' key place value hkey hfind
    exact .inr ((htakes root' hroot' key place value hkey hfind).resolve_left fun h => ht h.1)

end Writers

/-! ## The record -/

section Record

variable {env : Env} {run : Run} {w : World} {t : Target} {previous recorded : Record}
  {keys : List String} {key digest : String} {root : Document}

/-- A digest that is recorded is that of the value the key stands for, or was recorded before. -/
theorem get?_record_foldl (h : (keys.foldl (fun recorded key =>
      match get env root key with
      | some value => recorded.insert key (env.digest value)
      | none => recorded) recorded).get? key = some digest) :
    key ∈ keys ∨ recorded.get? key = some digest := by
  induction keys generalizing recorded with
  | nil => exact .inr h
  | cons key' rest ih =>
    rw [List.foldl_cons] at h
    rcases ih h with hmem | hold
    · exact .inl (List.mem_cons_of_mem _ hmem)
    · split at hold
      · rw [KeyedMap.get?_insert] at hold
        split at hold
        · next heq => exact .inl (heq ▸ List.mem_cons_self)
        · exact .inr hold
      · exact .inr hold

theorem mem_of_get?_record (h : (record env root keys).get? key = some digest) : key ∈ keys :=
  (get?_record_foldl h).resolve_right nofun

theorem get?_carryInference_foldl (h : (keys.foldl (fun recorded key =>
      match previous.get? key with
      | some value => if codexInferenceKey key then recorded.insert key value else recorded
      | none => recorded) recorded).get? key = some digest) :
    previous.get? key = some digest ∨ recorded.get? key = some digest := by
  induction keys generalizing recorded with
  | nil => exact .inr h
  | cons key' rest ih =>
    rw [List.foldl_cons] at h
    refine (ih h).elim .inl fun hold => ?_
    split at hold
    · next value hvalue =>
      split at hold
      · rw [KeyedMap.get?_insert] at hold
        split at hold
        · next heq =>
          left
          rw [heq, hvalue]
          exact hold
        · exact .inr hold
      · exact .inr hold
    · exact .inr hold

theorem get?_carryInference {old : Option Record}
    (h : (carryInference run t old recorded).get? key = some digest) :
    (∃ previous, old = some previous ∧ previous.get? key = some digest) ∨
      recorded.get? key = some digest := by
  unfold carryInference at h
  split at h
  · refine (get?_carryInference_foldl h).imp_left fun hprevious => ?_
    cases old with
    | none => cases hprevious
    | some previous => exact ⟨previous, rfl, hprevious⟩
  · exact .inr h

/-- What `plan` records is owned when the run's own keys and the previous record are. -/
theorem covered_plan {owned : Place → Option Value} {old : Option Record}
    (hplan : plan env run old w t = some recorded)
    (hown : t.declined run.optout = false →
      Covered (fun key value => key ∈ t.keys env run.settings run.optout ∧ value.text env ≠ none) []
        owned root)
    (hold : ∀ recorded, old = some recorded → Covered (Recorded env recorded) [] owned root) :
    Covered (Recorded env recorded) [] owned root := by
  unfold plan at hplan
  dsimp only at hplan
  split at hplan
  · exact hold recorded hplan
  · next hdeclined =>
    have hdeclined' : t.declined run.optout = false := by simpa using hdeclined
    split at hplan
    · cases hplan
    · split at hplan
      · cases hplan
      · next root' hread =>
        -- The keys are the run's own, or carried from the previous record.
        have hsource : ∀ key digest, recorded.get? key = some digest →
            key ∈ t.keys env run.settings run.optout ∨
              ∃ previous, old = some previous ∧ previous.get? key = some digest := by
          intro key digest hget
          split at hplan
          · cases hplan
          · obtain rfl := Option.some.inj hplan
            exact (get?_carryInference hget).symm.imp_left mem_of_get?_record
        rintro key place value ⟨digest, hget, hdigest⟩ hfind
        rcases hsource key digest hget with hkey | ⟨previous, hprevious, hget'⟩
        · refine hown hdeclined' key place value ⟨hkey, ?_⟩ hfind
          intro hnone
          rw [hnone] at hdigest
          cases hdigest
        · exact hold previous hprevious key place value ⟨digest, hget', hdigest⟩ hfind

end Record

/-! ## Retraction -/

section Retract

variable {env : Env} {run : Run} {w : World} {t : Target} {old : Record} {keys : List String}
  {root root' : Document} {removed : List Removal} {owned : Place → Option Value}

/-- One stale key: it stays, or the value that it stands for is taken out. -/
theorem retractKeys_cons (env : Env) (t : Target) (old : Record) (key : String)
    (rest : List String) (root : Document) :
    retractKeys env t old (key :: rest) root = retractKeys env t old rest root ∨
    ∃ place value, find root key = some (place, .leaf value) ∧ Recorded env old key value ∧
      retractKeys env t old (key :: rest) root =
        ((retractKeys env t old rest (remove root key)).1,
          ⟨t, place, value⟩ :: (retractKeys env t old rest (remove root key)).2) := by
  simp only [retractKeys]
  split
  · next place value digest hfind hget =>
    split
    · next hdigest => exact .inr ⟨place, value, hfind, ⟨digest, hget, hdigest⟩, rfl⟩
    · exact .inl rfl
  · exact .inl rfl

/-- Everything that is taken out is owned. -/
theorem owned_of_retractKeys (hnodup : keys.Nodup)
    (hcovered : ∀ key ∈ keys, ∀ place value, Recorded env old key value →
      find root key = some (place, .leaf value) → owned place = some value) :
    ∀ removal ∈ (retractKeys env t old keys root).2,
      removal.target = t ∧ owned removal.place = some removal.value := by
  induction keys generalizing root with
  | nil => nofun
  | cons key rest ih =>
    obtain ⟨hnew, hnodup⟩ := List.nodup_cons.mp hnodup
    have hrest : ∀ key' ∈ rest, ∀ place value, Recorded env old key' value →
        find root key' = some (place, .leaf value) → owned place = some value :=
      fun key' hmem => hcovered key' (List.mem_cons_of_mem _ hmem)
    rcases retractKeys_cons env t old key rest root with
      heq | ⟨place, value, hfind, hrecorded, heq⟩
    · rw [heq]
      exact ih hnodup hrest
    · rw [heq]
      intro removal hmem
      rcases List.mem_cons.mp hmem with rfl | hmem
      · exact ⟨rfl, hcovered key List.mem_cons_self place value hrecorded hfind⟩
      · refine ih hnodup ?_ removal hmem
        intro key' hmem' place' value' hrecorded' hfind'
        have hne : key' ≠ key := by
          rintro rfl
          exact hnew hmem'
        exact hrest key' hmem' place' value' hrecorded' (find_of_remove hne hfind')

/-- A key that is not stale, or has one value only, stands for what it stood for, or nothing. -/
theorem find_of_retractKeys {key : String} {place : Place} {value : Value}
    (hkey : key ∉ keys ∨ ¬ Twofold root key)
    (hfind : find (retractKeys env t old keys root).1 key = some (place, .leaf value)) :
    find root key = some (place, .leaf value) := by
  induction keys generalizing root with
  | nil => exact hfind
  | cons key' rest ih =>
    rcases retractKeys_cons env t old key' rest root with
      heq | ⟨place', value', hfind', -, heq⟩
    · rw [heq] at hfind
      exact ih (hkey.imp_left fun hnew hmem => hnew (List.mem_cons_of_mem _ hmem)) hfind
    · rw [heq] at hfind
      by_cases hne : key = key'
      · subst hne
        have hsingle := hkey.resolve_left fun hnew => hnew List.mem_cons_self
        have hmiddle := ih (.inr fun htwo => hsingle htwo.of_remove) hfind
        exact absurd hmiddle (find_remove_self hfind' hsingle)
      · have hkey' : key ∉ rest ∨ ¬ Twofold (remove root key') key :=
          hkey.imp (fun hnew hmem => hnew (List.mem_cons_of_mem _ hmem))
            fun hsingle htwo => hsingle htwo.of_remove
        exact find_of_remove hne (ih hkey' hfind)

theorem retractStale_cases (env : Env) (run : Run) (previous now : Option Record) (w : World)
    (t : Target) :
    (retractStale env run previous now w t).file = w.file t ∧
      ((retractStale env run previous now w t).now = now ∨
        (retractStale env run previous now w t).now = previous) ∨
    ∃ old root, previous = some old ∧ w.document t = some root ∧
      (retractStale env run previous now w t).now = now ∧
      (retractStale env run previous now w t).file =
        some (.document (retractKeys env t old (staleKeys old now) root).1) := by
  cases previous with
  | none => exact .inl ⟨rfl, .inl rfl⟩
  | some old =>
    simp only [retractStale]
    split
    · exact .inl ⟨rfl, .inl rfl⟩
    · split
      · exact .inl ⟨rfl, .inr rfl⟩
      · next root hread =>
        have hroot : w.document t = some root := by
          split at hread
          · cases hread
          · exact hread
        split
        · exact .inl ⟨rfl, .inl rfl⟩
        · next root' removed _ hretract =>
          split
          · exact .inl ⟨rfl, .inr rfl⟩
          · refine .inr ⟨old, root, rfl, hroot, rfl, ?_⟩
            rw [hretract]

theorem mem_removed_retractStale {previous now : Option Record} {removal : Removal}
    (h : removal ∈ (retractStale env run previous now w t).removed) :
    ∃ old root, previous = some old ∧ w.document t = some root ∧
      removal ∈ (retractKeys env t old (staleKeys old now) root).2 := by
  cases previous with
  | none => cases h
  | some old =>
    simp only [retractStale] at h
    split at h
    · cases h
    · split at h
      · cases h
      · next root hread =>
        have hroot : w.document t = some root := by
          split at hread
          · cases hread
          · exact hread
        split at h
        · cases h
        · next root' removed _ hretract =>
          refine ⟨old, root, rfl, hroot, ?_⟩
          rw [hretract]
          split at h
          · exact h
          · exact h

theorem nodup_staleKeys (old : Record) (now : Option Record) : (staleKeys old now).Nodup :=
  old.nodup.filter _

theorem notMem_staleKeys {now : Record} {key digest : String} (h : now.get? key = some digest) :
    key ∉ staleKeys old (some now) := by
  intro hmem
  have hnew : key ∉ now.keys := by simpa [staleKeys] using (List.mem_filter.mp hmem).2
  exact hnew ((now.mem_keys key).mpr (by rw [h]; rfl))

/-! ## Changed files -/

theorem valueAt_of_find {key : String} {place : Place} {value : Value}
    (h : find root key = some (place, .leaf value)) : valueAt (some root) place = some value :=
  valueAt_eq_some.2 (at?_of_find h)

/-- A changed document has everything owned that its keys stood for before. -/
theorem Covered.keep {R : String → Value → Prop} {before : Option Document}
    (hcovered : ∀ root, before = some root → Covered R [] owned root)
    (hsame : ∀ key place value, R key value → find root' key = some (place, .leaf value) →
      resolve before key = some (place, value)) :
    Covered R [] (Managed.keep owned before (some root')) root' := by
  intro key place value hR hfind
  right
  obtain ⟨root, rfl, hbefore⟩ := resolve_eq_some.1 (hsame key place value hR hfind)
  have howned := (hcovered root rfl key place value hR hbefore).resolve_left List.not_mem_nil
  rw [Managed.keep, valueAt_of_find hbefore, valueAt_of_find hfind, if_pos rfl, howned]

/-- `plan` and `retract_stale` leave everything owned that is recorded after them. -/
theorem tracked_finish (h : Tracked env w)
    (hown : ∀ t, t.declined run.optout = false → ∀ root, w.document t = some root →
      Covered (fun key value => key ∈ t.keys env run.settings run.optout ∧ value.text env ≠ none) []
        (w.owned t) root)
    (hsave : run.fails .save = true → ∀ t, ∀ recorded ∈ w.manifest t, ∀ root ∈ w.document t,
      ∀ key ∈ recorded.keys, ¬ Twofold root key) :
    Tracked env (finish env run w) := by
  intro t recorded hrecorded root' hroot'
  have hprevious : ∀ old, run.previous w t = some old → w.manifest t = some old := by
    intro old hold
    unfold Run.previous at hold
    split at hold
    · cases hold
    · exact hold
  have hplan : ∀ rec, plan env run (run.previous w t) w t = some rec → ∀ root,
      w.document t = some root → Covered (Recorded env rec) [] (w.owned t) root := by
    intro rec hrec root hroot
    exact covered_plan hrec (fun hdeclined => hown t hdeclined root hroot) fun old hold =>
      h t old (hprevious old hold) root hroot
  have hfile : (retraction env run w t).file.bind t.parse = some root' := hroot'
  show Covered _ _ (keep (w.owned t) (w.document t) ((retraction env run w t).file.bind t.parse)) _
  rw [hfile]
  -- What is recorded was owned before, and its keys stand for what they stood for.
  suffices hboth : (∀ root, w.document t = some root →
      Covered (Recorded env recorded) [] (w.owned t) root) ∧
      ∀ key place value, Recorded env recorded key value →
        find root' key = some (place, .leaf value) →
        resolve (w.document t) key = some (place, value) from
    Covered.keep hboth.1 hboth.2
  have hcases : (retraction env run w t).file = w.file t ∧
      ((retraction env run w t).now = plan env run (run.previous w t) w t ∨
        (retraction env run w t).now = run.previous w t) ∨ _ :=
    retractStale_cases env run (run.previous w t) (plan env run (run.previous w t) w t) w t
  have hmanifest : (finish env run w).manifest =
      if run.fails .save then w.manifest else fun t => (retraction env run w t).now := rfl
  rw [hmanifest] at hrecorded
  constructor
  · intro root hroot
    split at hrecorded
    · exact h t recorded hrecorded root hroot
    · rcases hcases with ⟨-, hnow | hnow⟩ | ⟨old, root, -, -, hnow, -⟩
      · exact hplan recorded (hnow.symm.trans hrecorded) root hroot
      · exact h t recorded (hprevious recorded (hnow.symm.trans hrecorded)) root hroot
      · exact hplan recorded (hnow.symm.trans hrecorded) _ hroot
  · rintro key place value ⟨digest, hget, -⟩ hfind
    rcases hcases with ⟨hsame, -⟩ | ⟨old, root, -, hroot, hnow, hchanged⟩
    · rw [hsame] at hfile
      exact resolve_eq_some.2 ⟨root', hfile, hfind⟩
    · have heq : (retractKeys env t old (staleKeys old (plan env run (run.previous w t) w t))
          root).1 = root' := by
        have hchanged' : (retraction env run w t).file = _ := hchanged
        rw [hchanged'] at hfile
        exact Option.some.inj hfile
      rw [← heq] at hfind
      refine resolve_eq_some.2 ⟨root, hroot, find_of_retractKeys ?_ hfind⟩
      split at hrecorded
      · next hfails =>
        exact .inr (hsave hfails t recorded hrecorded root hroot key
          ((recorded.mem_keys key).mpr (by rw [hget]; rfl)))
      · left
        have hplanned : plan env run (run.previous w t) w t = some recorded :=
          hnow.symm.trans hrecorded
        rw [hplanned]
        exact notMem_staleKeys hget

/-- Everything that a run takes out is owned. -/
theorem owned_of_removed (h : Tracked env w) {removal : Removal}
    (hmem : removal ∈ (retraction env run w t).removed) :
    w.owned removal.target removal.place = some removal.value := by
  obtain ⟨old, root, hprevious, hroot, hmem⟩ := mem_removed_retractStale hmem
  have hmanifest : w.manifest t = some old := by
    unfold Run.previous at hprevious
    split at hprevious
    · cases hprevious
    · exact hprevious
  have hcovered := h t old hmanifest root hroot
  have howned : ∀ key ∈ staleKeys old (plan env run (run.previous w t) w t), ∀ place value,
      Recorded env old key value → find root key = some (place, .leaf value) →
      w.owned t place = some value := by
    intro key _ place value hrecorded hfind
    exact (hcovered key place value hrecorded hfind).resolve_left List.not_mem_nil
  obtain ⟨rfl, hvalue⟩ := owned_of_retractKeys (nodup_staleKeys old _) howned removal hmem
  exact hvalue

end Retract

/-! ## Runs -/

section Steps

variable {env : Env} {w : World} {a : Action}

theorem Tracked.edit (h : Tracked env w) {t : Target} {dir : Bool} {file : Option File}
    (hund : Undisturbed env w (.edit t dir file)) : Tracked env (step env w (.edit t dir file)) := by
  intro t' recorded hrecorded root hroot
  by_cases ht : t' = t
  · subst ht
    have hroot' : file.bind t'.parse = some root := by
      simpa [step, World.document] using hroot
    have howned : (step env w (.edit t' dir file)).owned t' =
        keep (w.owned t') (w.document t') (some root) := by
      simp [step, hroot']
    rw [howned]
    refine Covered.keep (fun root' hbefore => h t' recorded hrecorded root' hbefore) ?_
    rintro key place value ⟨digest, hget, hdigest⟩ hfind
    refine hund recorded hrecorded key ((recorded.mem_keys key).mpr (by rw [hget]; rfl))
      (place, value) (resolve_eq_some.2 ⟨root, hroot', hfind⟩) ?_
    rw [hget]
    exact hdigest
  · have hroot' : w.document t' = some root := by
      simpa [step, World.document, ht] using hroot
    have howned : (step env w (.edit t dir file)).owned t' = w.owned t' := by
      simp [step, ht]
    rw [howned]
    exact h t' recorded hrecorded root hroot'

theorem Tracked.step (h : Tracked env w) (hund : Undisturbed env w a) :
    Tracked env (Managed.step env w a) := by
  cases a with
  | edit t dir file => exact h.edit hund
  | configureAll run =>
    simp only [Managed.step]
    split
    · refine tracked_finish h.writers ?_ ?_
      · intro t hdeclined root hroot
        exact (hund t).1.covered hdeclined hroot
      · intro hfails t
        rw [(runWriters_spec env run w).2.2]
        exact (hund t).2 hfails
    · exact h.writers

theorem Tracked.correct (h : Tracked env w) (a : Action) : Correct env w a := by
  cases a with
  | edit t dir file => trivial
  | configureAll run =>
    intro removal hmem
    simp only [removals] at hmem
    split at hmem
    · obtain ⟨t, -, hmem⟩ := List.mem_flatMap.mp hmem
      exact owned_of_removed h.writers hmem
    · cases hmem

end Steps

/-- For every sequence of runs of `configure_all` with any settings, opt-outs and failures, and of
edits by the developer: if every key that a run records stands for what its writer puts or a writer
owns, and no edit makes a recorded key stand for a recorded value anew, then every entry that
`retract_stale` takes out is the value that a writer put at that place, unchanged since. -/
theorem retraction_spares_developer (env : Env) (dir : Target → Bool)
    (file : Target → Option File) (actions : List Action)
    (hund : Runs.Always (step env) (Undisturbed env) (.initial dir file) actions) :
    Runs.Always (step env) (Correct env) (.initial dir file) actions := by
  have htracked : Tracked env (.initial dir file) := nofun
  exact hund.of_invariant htracked (fun _ _ h hallowed => h.step hallowed) fun _ a h _ => h.correct a

/-! ## Two runs -/

/-- Digests and renderings that are told apart. -/
def plainEnv : Env := ⟨id, fun items => ",".intercalate items, "governance-auth"⟩

def noFailures : Op → Bool := fun _ => false

/-- A collector and no gateway; Copilot writes to a file, or to the daemon. -/
def telemetrySettings (daemon : Bool) : OtelSettings where
  issuer := "https://issuer"
  clientId := "client"
  endpoint := some "http://127.0.0.1:4318"
  copilotSpool := "/home/dev/.local/state/copilot.jsonl"
  copilotDrainAvailable := !daemon
  copilotOtlpDirect := daemon
  token := none
  resourceAttributes := []
  headersHelper := none
  headersHelperDebounceMs := 240000
  tokenCommand := "governance-auth token"
  gatewayUrl := none

/-- `configure` under one of the profiles. -/
def configureProfile (daemon : Bool) : Action :=
  .configureAll ⟨telemetrySettings daemon, ⟨false, false, false, false⟩, noFailures⟩

/-- With VS Code alone, and no settings file yet, the switch takes out what the first run put. -/
theorem profile_switch_spares_developer :
    let start : World := .initial (fun t => t = .vscode .code) fun _ => none
    Runs.Always (step plainEnv) (Correct plainEnv) start
        [configureProfile false, configureProfile true] ∧
      removals plainEnv (step plainEnv start (configureProfile false)) (configureProfile true) =
        [⟨.vscode .code, ["github.copilot.chat.otel.outfile"],
          .string "/home/dev/.local/state/copilot.jsonl"⟩] := by
  refine ⟨retraction_spares_developer plainEnv _ _ _ ?_, ?_⟩
  · decide +kernel
  · decide +kernel

/-- The settings file of VS Code has comments, and the developer has put a path into VSCodium's.
The first run writes neither file, and records the developer's path; the second takes it out. -/
theorem profile_switch_removes_developers_path :
    let file : Target → Option File := fun
      | .vscode .code => some .unparsable
      | .vscode .vscodium => some (.document (.table false
          [("github.copilot.chat.otel.outfile", .leaf (.string "/home/dev/own.jsonl"))]))
      | _ => none
    let start : World := .initial (fun t => t = .vscode .code ∨ t = .vscode .vscodium) file
    removals plainEnv (step plainEnv start (configureProfile false)) (configureProfile true) =
        [⟨.vscode .vscodium, ["github.copilot.chat.otel.outfile"],
          .string "/home/dev/own.jsonl"⟩] ∧
      (runWriters plainEnv
          ⟨telemetrySettings true, ⟨false, false, false, false⟩, noFailures⟩
          (step plainEnv start (configureProfile false))).world.owned (.vscode .vscodium)
        ["github.copilot.chat.otel.outfile"] = none ∧
      ¬ Runs.Always (step plainEnv) (Correct plainEnv) start
        [configureProfile false, configureProfile true] := by
  decide

end Managed

end Governance
