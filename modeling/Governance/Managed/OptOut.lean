import Governance.Managed.Retraction

/-!
# What an opt-out leaves alone

`optout/mod.rs`: a client that is opted out is neither written nor retracted from, and its entry in
the manifest is carried forward. `--codex-telemetry-only` promises the same for the provider half of
`config.toml`, but `plan` carries nothing forward once it has no telemetry keys to own or finds no
file, and then the retraction takes the provider keys for stale ones.
-/

namespace Governance

namespace Managed

/-! ## The promise -/

/-- A `model_provider` or `model_providers.*` entry, nested or with its dotted name. -/
def InferencePlace (place : Place) : Prop :=
  (∃ key, codexInferenceKey key = true ∧ place = [key]) ∨
    ∃ rest, rest ≠ [] ∧ place = "model_providers" :: rest

/-- The digest that a manifest records for a key of a target. -/
def recordedDigest (recorded : Option Record) (key : String) : Option String :=
  recorded.bind fun recorded => recorded.get? key

/-- `configure_all` where no operation on a file fails. -/
def plainRun (settings : OtelSettings) (optout : ClientOptOut) : Run :=
  ⟨settings, optout, noFailures⟩

/-- What the flags promise of a run. -/
structure LeavesAlone (env : Env) (w : World) (run : Run) : Prop where
  unwritten : ∀ t, t.declined run.optout = true → t ∉ (runWriters env run w).written ∧
    (step env w (.configureAll run)).file t = w.file t ∧
    ∀ removal ∈ removals env w (.configureAll run), removal.target ≠ t
  carried : ∀ t, t.declined run.optout = true →
    (step env w (.configureAll run)).manifest t = w.manifest t
  values : run.optout.codexTelemetryOnly = true → ∀ place, InferencePlace place →
    valueAt ((step env w (.configureAll run)).document .codex) place =
      valueAt (w.document .codex) place
  recorded : run.optout.codexTelemetryOnly = true → ∀ key, codexInferenceKey key = true →
    ∀ digest, recordedDigest (w.manifest .codex) key = some digest →
      recordedDigest ((step env w (.configureAll run)).manifest .codex) key = some digest

/-- The writer of a target has nothing to do, or its edits apply to the file. -/
def Writable (env : Env) (settings : OtelSettings) (optout : ClientOptOut) (w : World)
    (t : Target) : Prop :=
  t.declined optout = true ∨ w.dir t = false ∨
    ((t.start (w.file t)).bind (applyEdits (t.edits env settings optout))).isSome = true

/-- The condition: a run that is not stopped by one of the files, and has provider keys on record
that it is to leave alone, is given a telemetry endpoint and finds the directory of Codex. -/
def Spared (env : Env) (settings : OtelSettings) (optout : ClientOptOut) (w : World) : Prop :=
  optout.codexTelemetryOnly = true → optout.codex = false →
  (∃ key, codexInferenceKey key = true ∧ recordedDigest (w.manifest .codex) key ≠ none) →
  Writable env settings optout w .claude → Writable env settings optout w .codex →
  settings.endpoint ≠ none ∧ w.dir .codex = true

/-! ## Declined targets -/

section Declined

variable {env : Env} {run : Run} {w : World} {t : Target}

theorem notMem_written_writeAll (hdeclined : t.declined run.optout = true)
    (targets : List Target) (w : World) : t ∉ (writeAll env run targets w).written := by
  induction targets generalizing w with
  | nil => exact List.not_mem_nil
  | cons t' rest ih =>
    rw [writeAll]
    split
    · exact ih w
    · next hnot =>
      split
      · exact List.not_mem_nil
      · exact ih w
      · next root _ =>
        rw [List.mem_cons, not_or]
        refine ⟨?_, ih _⟩
        rintro rfl
        exact hnot hdeclined

theorem notMem_written (hdeclined : t.declined run.optout = true) (w : World) :
    t ∉ (runWriters env run w).written := by
  unfold runWriters
  dsimp only
  split
  · exact notMem_written_writeAll hdeclined _ _
  · split
    · exact notMem_written_writeAll hdeclined _ _
    · rw [List.mem_append, not_or]
      exact ⟨notMem_written_writeAll hdeclined _ _, notMem_written_writeAll hdeclined _ _⟩

theorem staleKeys_self (old : Record) : staleKeys old (some old) = [] := by
  rw [staleKeys, List.filter_eq_nil_iff]
  intro key hkey
  simpa using hkey

/-- Nothing is retracted from a target that was declined. -/
theorem retraction_of_declined (env : Env) (hdeclined : t.declined run.optout = true) (w : World) :
    retraction env run w t = ⟨run.previous w t, w.file t, []⟩ := by
  have hplan : plan env run (run.previous w t) w t = run.previous w t := by
    simp only [plan, hdeclined, if_true]
  rw [retraction, hplan]
  cases hprevious : run.previous w t with
  | none => rfl
  | some old => simp [retractStale, staleKeys_self]

theorem target_of_mem_retractKeys {old : Record} {keys : List String} {root : Document} :
    ∀ removal ∈ (retractKeys env t old keys root).2, removal.target = t := by
  induction keys generalizing root with
  | nil => nofun
  | cons key rest ih =>
    rcases retractKeys_cons env t old key rest root with heq | ⟨place, value, -, -, heq⟩
    · rw [heq]
      exact ih
    · rw [heq, List.forall_mem_cons]
      exact ⟨rfl, ih⟩

/-- A declined target takes part in nothing. -/
theorem step_of_declined (env : Env) (w : World) (hdeclined : t.declined run.optout = true)
    (hload : run.fails .load = false) :
    t ∉ (runWriters env run w).written ∧
      (step env w (.configureAll run)).file t = w.file t ∧
      (∀ removal ∈ removals env w (.configureAll run), removal.target ≠ t) ∧
      (step env w (.configureAll run)).manifest t = w.manifest t := by
  have hnot : t ∉ (runWriters env run w).written := notMem_written hdeclined w
  obtain ⟨-, huntouched, hmanifest⟩ := runWriters_spec env run w
  have hprevious : run.previous (runWriters env run w).world t = w.manifest t := by
    rw [Run.previous, hload, hmanifest]
    rfl
  have hretraction := retraction_of_declined env hdeclined (runWriters env run w).world
  refine ⟨hnot, ?_, ?_, ?_⟩
  · simp only [step]
    split
    · show (retraction env run (runWriters env run w).world t).file = w.file t
      rw [hretraction]
      exact (huntouched t hnot).1
    · exact (huntouched t hnot).1
  · intro removal hmem htarget
    simp only [removals] at hmem
    split at hmem
    · obtain ⟨t', -, hmem⟩ := List.mem_flatMap.mp hmem
      obtain ⟨old, root, -, -, hkeys⟩ := mem_removed_retractStale hmem
      obtain rfl : t' = t := (target_of_mem_retractKeys removal hkeys).symm.trans htarget
      rw [hretraction] at hmem
      cases hmem
    · cases hmem
  · simp only [step]
    split
    · simp only [finish]
      split
      · rw [hmanifest]
      · show (retraction env run (runWriters env run w).world t).now = w.manifest t
        rw [hretraction, hprevious]
    · rw [hmanifest]

end Declined

/-! ## Which writers succeed -/

section Success

variable {env : Env} {run : Run} {w : World} {t : Target} {targets : List Target}

theorem writeTarget_write_of_ne {t' : Target} {root : Document} (hne : t' ≠ t) :
    writeTarget env run (w.write env run t root) t' = writeTarget env run w t' := by
  simp only [writeTarget, World.write, Function.update_of_ne hne]

/-- Some writers succeed if each of them does in the state before them all. -/
theorem writeAll_ok_iff (hnodup : targets.Nodup) :
    (writeAll env run targets w).ok = true ↔
      ∀ t ∈ targets, t.declined run.optout = true ∨ writeTarget env run w t ≠ .failed := by
  induction targets generalizing w with
  | nil => simp [writeAll]
  | cons t rest ih =>
    obtain ⟨hnew, hnodup⟩ := List.nodup_cons.mp hnodup
    rw [List.forall_mem_cons, writeAll]
    split
    · next hdeclined => simp [hdeclined, ih hnodup]
    · next hdeclined =>
      cases hwrite : writeTarget env run w t with
      | failed => simp [hdeclined]
      | skipped => simp [ih hnodup]
      | written root =>
        simp only [ih hnodup, ne_eq, reduceCtorEq, not_false_eq_true, or_true, true_and]
        refine forall₂_congr fun t' ht' => ?_
        have hne : t' ≠ t := by
          rintro rfl
          exact hnew ht'
        rw [writeTarget_write_of_ne hne]

/-- Writers that all succeed write what each of them writes in the state before them all. -/
theorem mem_written_writeAll_iff (hnodup : targets.Nodup)
    (hok : (writeAll env run targets w).ok = true) :
    t ∈ (writeAll env run targets w).written ↔
      t ∈ targets ∧ t.declined run.optout = false ∧
        ∃ root, writeTarget env run w t = .written root := by
  induction targets generalizing w with
  | nil => simp [writeAll]
  | cons t' rest ih =>
    obtain ⟨hnew, hnodup⟩ := List.nodup_cons.mp hnodup
    rw [writeAll] at hok ⊢
    split at hok
    · next hdeclined =>
      rw [if_pos hdeclined, ih hnodup hok, List.mem_cons]
      constructor
      · tauto
      · rintro ⟨rfl | hmem, hnot, hwrite⟩
        · rw [hdeclined] at hnot
          cases hnot
        · exact ⟨hmem, hnot, hwrite⟩
    · next hdeclined =>
      rw [if_neg hdeclined]
      cases hwrite : writeTarget env run w t' with
      | failed => simp [hwrite] at hok
      | skipped =>
        simp only [hwrite] at hok
        dsimp only
        rw [ih hnodup hok, List.mem_cons]
        constructor
        · tauto
        · rintro ⟨rfl | hmem, hnot, root, hroot⟩
          · rw [hwrite] at hroot
            cases hroot
          · exact ⟨hmem, hnot, root, hroot⟩
      | written root =>
        simp only [hwrite] at hok
        dsimp only
        rw [List.mem_cons, ih hnodup hok, List.mem_cons]
        have hsame : t ∈ rest →
            writeTarget env run (w.write env run t' root) t = writeTarget env run w t :=
          fun hmem => writeTarget_write_of_ne fun heq => hnew (heq ▸ hmem)
        constructor
        · rintro (rfl | ⟨hmem, hnot, hroot⟩)
          · exact ⟨.inl rfl, by simpa using hdeclined, root, hwrite⟩
          · exact ⟨.inr hmem, hnot, hsame hmem ▸ hroot⟩
        · rintro ⟨rfl | hmem, hnot, hroot⟩
          · exact .inl rfl
          · exact .inr ⟨hmem, hnot, (hsame hmem).symm ▸ hroot⟩

/-- A run comes to its plan if neither Claude's nor Codex' writer fails, nor that of the shell. -/
theorem runWriters_ok_iff : (runWriters env run w).ok = true ↔
    (∀ t ∈ [Target.claude, .codex],
      t.declined run.optout = true ∨ writeTarget env run w t ≠ .failed) ∧
      run.fails .shell = false := by
  rw [← writeAll_ok_iff (by decide)]
  unfold runWriters
  dsimp only
  cases hok : (writeAll env run [.claude, .codex] w).ok with
  | false => simp [hok]
  | true =>
    simp only [Bool.not_true, Bool.false_eq_true, if_false, true_and]
    split
    · simp
    · simp

theorem mem_written_clients_iff (hok : (runWriters env run w).ok = true)
    (ht : t ∈ [Target.claude, .codex]) :
    t ∈ (runWriters env run w).written ↔
      t.declined run.optout = false ∧ ∃ root, writeTarget env run w t = .written root := by
  have hclients : (writeAll env run [.claude, .codex] w).ok = true :=
    (writeAll_ok_iff (by decide)).mpr (runWriters_ok_iff.1 hok).1
  have hmem := mem_written_writeAll_iff (t := t) (by decide) hclients
  rw [← and_iff_right (b := _ ∧ _) ht, ← hmem]
  unfold runWriters
  simp only [hclients, Bool.not_true, Bool.false_eq_true, if_false]
  split
  · rfl
  · rw [List.mem_append, or_iff_left]
    intro hvscode
    obtain ⟨flavour, -, rfl⟩ :=
      List.mem_map.mp ((writeAll_spec env run _ _ (by decide)).1 t hvscode).1
    simp at ht

end Success

/-! ## Provider keys -/

section Inference

variable {env : Env} {run : Run} {w : World} {root root' : Document} {key : String}
  {place : Place}

theorem codexInferenceKey_of_segments {rest : Place} (hrest : rest ≠ [])
    (h : segments key = "model_providers" :: rest) : codexInferenceKey key = true := by
  have hkey := intercalate_segments key
  obtain ⟨name, rest, rfl⟩ := List.exists_cons_of_ne_nil hrest
  rw [h, List.map_cons, List.map_cons, List.intercalate_cons_cons] at hkey
  rw [codexInferenceKey, ← hkey]
  simp

/-- A key that is not a provider's leads to no provider entry. -/
theorem InferencePlace.ne_of_key (h : InferencePlace place) (hkey : codexInferenceKey key = false) :
    place ≠ [key] ∧ place ≠ segments key := by
  rcases h with ⟨other, hother, rfl⟩ | ⟨rest, hrest, rfl⟩
  · have hne : other ≠ key := by
      rintro rfl
      rw [hother] at hkey
      cases hkey
    refine ⟨fun heq => hne (List.cons.inj heq).1, fun heq => hne ?_⟩
    exact (eq_of_segments heq.symm).symm
  · refine ⟨fun heq => hrest (List.cons.inj heq).2, fun heq => ?_⟩
    rw [codexInferenceKey_of_segments hrest heq.symm] at hkey
    cases hkey

/-- Values at the same places. -/
theorem valueAt_congr (h : ∀ value, root'.at? place = some (.leaf value) ↔
    root.at? place = some (.leaf value)) :
    valueAt (some root') place = valueAt (some root) place := by
  apply Option.ext
  intro value
  rw [valueAt_eq_some, valueAt_eq_some, h value]

theorem valueAt_remove {value : Value} {found : Place} (hplace : InferencePlace place)
    (hkey : codexInferenceKey key = false) (hfind : find root key = some (found, .leaf value)) :
    valueAt (some (remove root key)) place = valueAt (some root) place := by
  apply valueAt_congr
  intro value'
  refine ⟨at?_leaf_of_remove, fun hat => ?_⟩
  obtain ⟨hliteral, hnested⟩ := hplace.ne_of_key hkey
  rcases find_eq_leaf.1 hfind with ⟨-, hleaf⟩ | ⟨hnone, -, hleaf⟩
  · have hget : root.get key = some (.leaf value) := by rwa [Node.at?_singleton] at hleaf
    simp only [remove, hget]
    exact Node.at?_erase_of_ne hleaf hat hliteral
  · simp only [remove, hnone]
    exact Node.at?_erase_of_ne hleaf hat hnested

/-- The retraction of other keys leaves the provider entries. -/
theorem valueAt_retractKeys {old : Record} {t : Target} {keys : List String}
    (hplace : InferencePlace place) (hkeys : ∀ key ∈ keys, codexInferenceKey key = false) :
    valueAt (some (retractKeys env t old keys root).1) place = valueAt (some root) place := by
  induction keys generalizing root with
  | nil => rfl
  | cons key rest ih =>
    rw [List.forall_mem_cons] at hkeys
    rcases retractKeys_cons env t old key rest root with heq | ⟨found, value, hfind, -, heq⟩
    · rw [heq]
      exact ih hkeys.2
    · rw [heq]
      exact (ih hkeys.2).trans (valueAt_remove hplace hkeys.1 hfind)

theorem InferencePlace.head_ne (h : InferencePlace place) :
    ∃ name rest, place = name :: rest ∧ name ≠ "otel" := by
  rcases h with ⟨key, hkey, rfl⟩ | ⟨rest, -, rfl⟩
  · refine ⟨key, [], rfl, ?_⟩
    rintro rfl
    revert hkey
    decide
  · exact ⟨_, rest, rfl, by decide⟩

/-- Without a gateway the writer of Codex puts telemetry only. -/
theorem mem_configureCodex {settings : OtelSettings} (hgateway : settings.gatewayUrl = none)
    {edit : Edit} (h : edit ∈ configureCodex env settings) :
    ∃ rest value, edit = .put ("otel" :: rest) value := by
  have hbase : settings.openaiBaseUrl = none := by rw [OtelSettings.openaiBaseUrl, hgateway]; rfl
  simp only [configureCodex, hbase, Option.toList_none, List.flatMap_nil, List.append_nil,
    List.mem_flatMap] at h
  obtain ⟨endpoint, -, hedit⟩ := h
  simp at hedit
  rcases hedit with rfl | rfl | rfl | rfl | ⟨_, -, rfl⟩ | rfl | rfl | ⟨_, -, rfl⟩ <;>
    exact ⟨_, _, rfl⟩

theorem valueAt_applyEdits {edits : List Edit}
    (hedits : ∀ edit ∈ edits, ∃ rest value, edit = .put ("otel" :: rest) value)
    (happly : applyEdits edits root = some root') (hplace : InferencePlace place) :
    valueAt (some root') place = valueAt (some root) place := by
  induction edits generalizing root with
  | nil =>
    cases happly
    rfl
  | cons edit rest ih =>
    obtain ⟨middle, hedit, hrest⟩ := Option.bind_eq_some_iff.mp happly
    rw [List.forall_mem_cons] at hedits
    obtain ⟨⟨tail, value, rfl⟩, hedits⟩ := hedits
    obtain ⟨name, below, rfl, hname⟩ := hplace.head_ne
    refine (ih hedits hrest).trans ?_
    simp only [valueAt, Option.bind_some, Node.at?_cons, Node.get_set_of_ne hedit hname]

theorem valueAt_emptyTable (place : Place) : valueAt (some emptyTable) place = none := by
  cases place <;> rfl

/-- A writer starts with the values of the file. -/
theorem valueAt_start {t : Target} {file : Option File} {start : Document}
    (h : t.start file = some start) (place : Place) :
    valueAt (some start) place = valueAt (file.bind t.parse) place := by
  cases file with
  | none =>
    cases h
    exact valueAt_emptyTable place
  | some file =>
    cases file with
    | document root =>
      cases h
      rfl
    | unparsable => cases h
    | blank =>
      simp only [Target.start] at h
      split at h
      · cases h
      · cases h
        simp only [Option.bind_some, Target.parse]
        split
        · rfl
        · exact valueAt_emptyTable place

/-- The values of Codex' file before the retraction. -/
theorem valueAt_writers (env : Env) (run : Run) (w : World)
    (honly : run.optout.codexTelemetryOnly = true)
    (hplace : InferencePlace place) :
    valueAt ((runWriters env run w).world.document .codex) place =
      valueAt (w.document .codex) place := by
  obtain ⟨hwritten, huntouched, -⟩ := runWriters_spec env run w
  by_cases hmem : .codex ∈ (runWriters env run w).written
  · obtain ⟨start, root, hstart, happly, hfile, -⟩ := hwritten .codex hmem
    have hedits : ∀ edit ∈ Target.codex.edits env run.settings run.optout,
        ∃ rest value, edit = .put ("otel" :: rest) value := by
      intro edit hedit
      simp only [Target.edits, honly, if_true] at hedit
      exact mem_configureCodex rfl hedit
    have hafter : (runWriters env run w).world.document .codex = some root := by
      rw [World.document, hfile]
      rfl
    rw [hafter, valueAt_applyEdits hedits happly hplace, valueAt_start hstart, World.document]
  · rw [World.document, (huntouched .codex hmem).1]
    rfl

theorem get?_carryInference_of_get? {previous recorded : Record} {digest : String}
    (hkey : codexInferenceKey key = true) (hprevious : previous.get? key = some digest)
    (keys : List String) (h : key ∈ keys ∨ recorded.get? key = some digest) :
    (keys.foldl (fun recorded key =>
      match previous.get? key with
      | some value => if codexInferenceKey key then recorded.insert key value else recorded
      | none => recorded) recorded).get? key = some digest := by
  induction keys generalizing recorded with
  | nil => exact h.resolve_left List.not_mem_nil
  | cons key' rest ih =>
    rw [List.foldl_cons]
    apply ih
    by_cases hsame : key' = key
    · subst hsame
      right
      simp only [hprevious, hkey, if_true]
      exact KeyedMap.get?_insert_self _ _ _
    · rw [List.mem_cons, or_assoc] at h
      refine (h.resolve_left (Ne.symm hsame)).imp_right fun hold => ?_
      split
      · split
        · rwa [KeyedMap.get?_insert_of_ne _ _ (Ne.symm hsame)]
        · exact hold
      · exact hold

/-- With telemetry keys of its own, and a file, `plan` carries the provider keys forward. -/
theorem plan_of_endpoint (honly : run.optout.codexTelemetryOnly = true)
    (hcodex : run.optout.codex = false) (hread : run.fails (.planRead .codex) = false)
    (hendpoint : run.settings.endpoint ≠ none) (hroot : w.document .codex = some root)
    {old : Record} {digest : String} (hkey : codexInferenceKey key = true)
    (hold : old.get? key = some digest) :
    ∃ recorded, plan env run (some old) w .codex = some recorded ∧
      recorded.get? key = some digest := by
  have hkeys : Target.codex.keys env run.settings run.optout ≠ [] := by
    obtain ⟨endpoint, hsome⟩ := Option.ne_none_iff_exists'.mp hendpoint
    refine List.ne_nil_of_mem (List.mem_append_right _ (b := "otel.environment") ?_)
    rw [hsome, Option.isSome_some, if_pos rfl]
    exact List.mem_append_left _ (List.mem_singleton_self _)
  set recorded := carryInference run .codex (some old)
    (record env root (Target.codex.keys env run.settings run.optout)) with hrecorded
  have hget : recorded.get? key = some digest := by
    rw [hrecorded, carryInference, if_pos ⟨honly, rfl⟩]
    have hmem : key ∈ old.keys := (old.mem_keys key).mpr (by rw [hold]; rfl)
    exact get?_carryInference_of_get? hkey hold _ (.inl hmem)
  have hsome : recorded.keys ≠ [] :=
    List.ne_nil_of_mem ((recorded.mem_keys key).mpr (by rw [hget]; rfl))
  refine ⟨recorded, ?_, hget⟩
  simp only [plan, Target.declined, hcodex, Bool.false_eq_true, if_false, if_neg hkeys, hread,
    hroot, ← hrecorded, if_neg hsome]

/-- Without telemetry keys, or without a file, it plans nothing. -/
theorem plan_eq_none (honly : run.optout.codexTelemetryOnly = true)
    (hcodex : run.optout.codex = false)
    (h : run.settings.endpoint = none ∨ w.file .codex = none) (old : Option Record) :
    plan env run old w .codex = none := by
  rcases h with hendpoint | hfile
  · have hkeys : Target.codex.keys env run.settings run.optout = [] := by
      simp only [Target.keys, codexKeys, honly, hendpoint, Option.isSome_none, Bool.not_true,
        Bool.and_false, Bool.false_eq_true, if_false, List.append_nil]
    simp only [plan, Target.declined, hcodex, Bool.false_eq_true, if_false, if_pos hkeys]
  · simp only [plan, Target.declined, hcodex, Bool.false_eq_true, if_false, World.document, hfile,
      Option.bind_none, ite_self]

end Inference

/-! ## The condition is exact -/

section Exact

variable {env : Env} {settings : OtelSettings} {optout : ClientOptOut} {w : World}

theorem writable_iff {t : Target} : Writable env settings optout w t ↔
    t.declined optout = true ∨ writeTarget env (plainRun settings optout) w t ≠ .failed := by
  unfold Writable writeTarget
  cases hdir : w.dir t with
  | false => simp
  | true =>
    cases hedits : (t.start (w.file t)).bind (applyEdits (t.edits env settings optout)) with
    | none => simp [plainRun, noFailures, hedits]
    | some root => simp [plainRun, noFailures, hedits]

theorem ok_iff_writable : (runWriters env (plainRun settings optout) w).ok = true ↔
    Writable env settings optout w .claude ∧ Writable env settings optout w .codex := by
  rw [runWriters_ok_iff, writable_iff, writable_iff]
  simp [plainRun, noFailures]

/-- Codex' file, where it is written. -/
theorem document_of_dir (hok : (runWriters env (plainRun settings optout) w).ok = true)
    (hcodex : optout.codex = false) (hdir : w.dir .codex = true) :
    ∃ root, (runWriters env (plainRun settings optout) w).world.document .codex = some root := by
  have hsome := ((ok_iff_writable.1 hok).2.resolve_left (by simp [Target.declined, hcodex]))
    |>.resolve_left (by simp [hdir])
  obtain ⟨root, hroot⟩ := Option.isSome_iff_exists.mp hsome
  have hwrite : writeTarget env (plainRun settings optout) w .codex = .written root := by
    simp [writeTarget, plainRun, noFailures, hdir, hroot]
  have hmem := (mem_written_clients_iff (t := .codex) hok (by simp)).mpr ⟨hcodex, root, hwrite⟩
  obtain ⟨-, root', -, -, hfile, -⟩ := (runWriters_spec env _ w).1 .codex hmem
  refine ⟨root', ?_⟩
  rw [World.document, hfile]
  rfl

/-- Without a directory there is no file, and none is written. -/
theorem file_of_dir_eq_false (hok : (runWriters env (plainRun settings optout) w).ok = true)
    (hdirs : ∀ t, w.file t ≠ none → w.dir t = true) (hdir : w.dir .codex = false) :
    (runWriters env (plainRun settings optout) w).world.file .codex = none := by
  have hnot : .codex ∉ (runWriters env (plainRun settings optout) w).written := by
    rw [mem_written_clients_iff hok (by simp)]
    rintro ⟨-, root, hwrite⟩
    simp [writeTarget, hdir] at hwrite
  rw [((runWriters_spec env _ w).2.1 .codex hnot).1]
  by_contra hfile
  rw [hdirs .codex hfile] at hdir
  cases hdir

/-- Under the condition every provider key on record is planned with its digest. -/
theorem Spared.plan (h : Spared env settings optout w)
    (hok : (runWriters env (plainRun settings optout) w).ok = true)
    (honly : optout.codexTelemetryOnly = true) (hcodex : optout.codex = false) {old : Record}
    (hold : w.manifest .codex = some old) {key digest : String}
    (hkey : codexInferenceKey key = true) (hget : old.get? key = some digest) :
    ∃ recorded, Managed.plan env (plainRun settings optout) (some old)
        (runWriters env (plainRun settings optout) w).world .codex = some recorded ∧
      recorded.get? key = some digest := by
  obtain ⟨hclaude, hwritable⟩ := ok_iff_writable.1 hok
  have hrecord : recordedDigest (w.manifest .codex) key ≠ none := by
    rw [recordedDigest, hold, Option.bind_some, hget]
    exact Option.some_ne_none _
  obtain ⟨hendpoint, hdir⟩ := h honly hcodex ⟨key, hkey, hrecord⟩ hclaude hwritable
  obtain ⟨root, hroot⟩ := document_of_dir hok hcodex hdir
  exact plan_of_endpoint honly hcodex rfl hendpoint hroot hkey hget

theorem previous_plainRun (t : Target) :
    (plainRun settings optout).previous (runWriters env (plainRun settings optout) w).world t =
      w.manifest t := by
  rw [Run.previous, (runWriters_spec env _ w).2.2]
  rfl

/-- Under the condition the provider entries stay as they are. -/
theorem Spared.values (h : Spared env settings optout w)
    (honly : optout.codexTelemetryOnly = true) (hcodex : optout.codex = false) {place : Place}
    (hplace : InferencePlace place) :
    valueAt ((step env w (.configureAll (plainRun settings optout))).document .codex) place =
      valueAt (w.document .codex) place := by
  rw [← valueAt_writers env (plainRun settings optout) w honly hplace]
  simp only [step]
  split
  · next hok =>
    set world := (runWriters env (plainRun settings optout) w).world with hworld
    show valueAt ((retraction env (plainRun settings optout) world .codex).file.bind _) place = _
    rw [retraction, previous_plainRun]
    rcases retractStale_cases env (plainRun settings optout) (w.manifest .codex)
      (Managed.plan env (plainRun settings optout) (w.manifest .codex) world .codex) world .codex
      with ⟨hfile, -⟩ | ⟨old, root, hold, hroot, -, hfile⟩
    · rw [hfile]
      rfl
    · rw [hfile, hroot]
      refine valueAt_retractKeys hplace fun key hstale => ?_
      -- A provider key on record is planned, so it is not stale.
      by_contra hinference
      have hmem : key ∈ old.keys := (List.mem_filter.mp hstale).1
      obtain ⟨digest, hget⟩ := Option.isSome_iff_exists.mp ((old.mem_keys key).mp hmem)
      obtain ⟨recorded, hplan, hrecorded⟩ :=
        h.plan hok honly hcodex hold (by simpa using hinference) hget
      rw [hold, hplan] at hstale
      exact notMem_staleKeys hrecorded hstale
  · rfl

/-- Under the condition the provider keys stay on record. -/
theorem Spared.recorded (h : Spared env settings optout w)
    (honly : optout.codexTelemetryOnly = true) (hcodex : optout.codex = false)
    {key digest : String} (hkey : codexInferenceKey key = true)
    (hrecord : recordedDigest (w.manifest .codex) key = some digest) :
    recordedDigest ((step env w (.configureAll (plainRun settings optout))).manifest .codex) key =
      some digest := by
  obtain ⟨old, hold, hget⟩ := Option.bind_eq_some_iff.mp hrecord
  simp only [step]
  split
  · next hok =>
    set world := (runWriters env (plainRun settings optout) w).world with hworld
    show recordedDigest (retraction env (plainRun settings optout) world .codex).now key = _
    obtain ⟨recorded, hplan, hrecorded⟩ := h.plan hok honly hcodex hold hkey hget
    rw [retraction, previous_plainRun, hold, hplan]
    rcases retractStale_cases env (plainRun settings optout) (some old) (some recorded) world .codex
      with ⟨-, hnow | hnow⟩ | ⟨-, -, -, -, hnow, -⟩
    · rw [hnow]
      exact hrecorded
    · rw [hnow]
      exact hget
    · rw [hnow]
      exact hrecorded
  · rw [(runWriters_spec env _ w).2.2]
    exact hrecord

/-- A run that plans nothing for Codex, and can read its file if there is one, drops its record. -/
theorem recordedDigest_of_plan_eq_none
    (hok : (runWriters env (plainRun settings optout) w).ok = true)
    (hplan : ∀ old, Managed.plan env (plainRun settings optout) old
      (runWriters env (plainRun settings optout) w).world .codex = none)
    (hfile : ∀ file, (runWriters env (plainRun settings optout) w).world.file .codex = some file →
      Target.codex.parse file ≠ none) (key : String) :
    recordedDigest ((step env w (.configureAll (plainRun settings optout))).manifest .codex) key =
      none := by
  simp only [step, hok, if_true]
  set world := (runWriters env (plainRun settings optout) w).world with hworld
  show recordedDigest (retraction env (plainRun settings optout) world .codex).now key = _
  have hnow : (retraction env (plainRun settings optout) world .codex).now = none := by
    rw [retraction, previous_plainRun, hplan]
    cases hmanifest : w.manifest .codex with
    | none => rfl
    | some old =>
      rw [retractStale]
      split
      · rfl
      · next hpresent =>
        obtain ⟨file, hsome⟩ : ∃ file, world.file .codex = some file := by
          cases hcase : world.file .codex with
          | none => simp [hcase] at hpresent
          | some file => exact ⟨file, rfl⟩
        obtain ⟨root, hroot⟩ := Option.ne_none_iff_exists'.mp (hfile file hsome)
        simp only [plainRun, noFailures, Bool.false_eq_true, if_false, World.document, hsome,
          Option.bind_some, hroot]
        split <;> rfl
  rw [hnow]
  rfl

/-- The opt-outs leave the clients alone exactly if a run that is to leave provider keys on record
alone has a telemetry endpoint and finds the directory of Codex. -/
theorem optout_leaves_alone_iff (env : Env) (settings : OtelSettings) (optout : ClientOptOut)
    (w : World) (hdirs : ∀ t, w.file t ≠ none → w.dir t = true) :
    LeavesAlone env w (plainRun settings optout) ↔ Spared env settings optout w := by
  constructor
  · rintro h honly hcodex ⟨key, hkey, hrecord⟩ hclaude hwritable
    have hok := ok_iff_writable.2 ⟨hclaude, hwritable⟩
    obtain ⟨digest, hdigest⟩ := Option.ne_none_iff_exists'.mp hrecord
    have hkept := h.recorded honly key hkey digest hdigest
    by_contra hneither
    have hdropped : recordedDigest
        ((step env w (.configureAll (plainRun settings optout))).manifest .codex) key = none := by
      refine recordedDigest_of_plan_eq_none hok (fun old => plan_eq_none honly hcodex ?_ old) ?_ key
      · cases hdir : w.dir .codex with
        | false => exact .inr (file_of_dir_eq_false hok hdirs hdir)
        | true => exact .inl (by_contra fun hendpoint => hneither ⟨hendpoint, hdir⟩)
      · intro file hfile
        cases hdir : w.dir .codex with
        | false =>
          rw [file_of_dir_eq_false hok hdirs hdir] at hfile
          cases hfile
        | true =>
          obtain ⟨root, hroot⟩ := document_of_dir hok hcodex hdir
          rw [World.document, hfile, Option.bind_some] at hroot
          rw [hroot]
          exact Option.some_ne_none _
    rw [hdropped] at hkept
    cases hkept
  · intro h
    refine ⟨?_, ?_, ?_, ?_⟩
    · intro t hdeclined
      obtain ⟨hwritten, hfile, hremoved, -⟩ := step_of_declined env w hdeclined rfl
      exact ⟨hwritten, hfile, hremoved⟩
    · intro t hdeclined
      exact (step_of_declined env w hdeclined rfl).2.2.2
    · intro honly place hplace
      cases hcodex : optout.codex with
      | false => exact h.values honly hcodex hplace
      | true =>
        have hdeclined : Target.codex.declined (plainRun settings optout).optout = true := hcodex
        rw [World.document, (step_of_declined env w hdeclined rfl).2.1]
        rfl
    · intro honly key hkey digest hrecord
      cases hcodex : optout.codex with
      | false => exact h.recorded honly hcodex hkey hrecord
      | true =>
        have hdeclined : Target.codex.declined (plainRun settings optout).optout = true := hcodex
        rw [(step_of_declined env w hdeclined rfl).2.2.2]
        exact hrecord

end Exact

/-! ## With and without an endpoint -/

/-- A gateway, and a collector or none. -/
def gatewaySettings (endpoint : Option String) : OtelSettings :=
  { telemetrySettings false with
    endpoint := endpoint
    gatewayUrl := some "https://gateway" }

/-- Codex as an earlier run has configured it, with a provider of its own. -/
def configuredCodex : World :=
  step plainEnv (.initial (fun t => t = .codex) fun _ => none)
    (.configureAll (plainRun (gatewaySettings (some "http://127.0.0.1:4318"))
      ⟨false, false, false, false⟩))

/-- With a collector the provider stays. -/
theorem telemetry_only_keeps_provider :
    LeavesAlone plainEnv configuredCodex
      (plainRun (gatewaySettings (some "http://127.0.0.1:4318")) ⟨false, false, true, false⟩) := by
  refine (optout_leaves_alone_iff _ _ _ _ ?_).mpr fun _ _ _ _ _ => ⟨by decide, by decide⟩
  decide

/-- Without a collector `--codex-telemetry-only` takes the provider out. -/
theorem telemetry_only_removes_provider :
    valueAt (configuredCodex.document .codex) ["model_provider"] = some (.string "governance") ∧
      valueAt ((step plainEnv configuredCodex (.configureAll
          (plainRun (gatewaySettings none) ⟨false, false, true, false⟩))).document .codex)
        ["model_provider"] = none ∧
      ¬LeavesAlone plainEnv configuredCodex
        (plainRun (gatewaySettings none) ⟨false, false, true, false⟩) := by
  obtain ⟨hbefore, hafter⟩ :
      valueAt (configuredCodex.document .codex) ["model_provider"] =
        some (.string "governance") ∧
      valueAt ((step plainEnv configuredCodex (.configureAll
        (plainRun (gatewaySettings none) ⟨false, false, true, false⟩))).document .codex)
          ["model_provider"] = none := by
    decide +kernel
  refine ⟨hbefore, hafter, fun h => ?_⟩
  have hsame := h.values rfl ["model_provider"] (.inl ⟨"model_provider", by decide, rfl⟩)
  rw [hbefore, hafter] at hsame
  cases hsame

end Managed

end Governance
