import Governance.Managed.OptOut

/-!
# What the manifest remembers

Everything that a writer has put into a client's file, and that is still there, is to be on record
with its digest, so that a later run can take it back. A run that finishes records what it has
written; but a run that fails after its first file saves no manifest, a failed write-back restores
the old record over the new one, and a key that also stands in the file with its dots is recorded
with the value of the other entry.
-/

namespace Governance

namespace Managed

/-! ## The promise -/

/-- A run of `configure_all`. -/
def configure (env : Env) (w : World) (run : Run) : World := step env w (.configureAll run)

/-- Every text or list of texts that a writer has put, and that is still there, is on record with
its digest, under a key that stands for it. -/
def Remembered (env : Env) (w : World) : Prop :=
  ∀ t place value text, w.owned t place = some value → value.text env = some text →
    valueAt (w.document t) place = some value →
    ∃ key, resolve (w.document t) key = some (place, value) ∧
      recordedDigest (w.manifest t) key = some (env.digest text)

/-- Where the writer of a target puts the value of a key of `plan`. -/
def Target.place (key : String) : Target → Place
  | .vscode _ => [key]
  | .claude => segments key
  | .codex => segments key

/-- The key does not also stand in the document with its dots. -/
def Unshadowed (t : Target) (root : Document) (key : String) : Prop :=
  t.place key = [key] ∨ (root.get key).isNone = true

instance (t : Target) (root : Document) (key : String) : Decidable (Unshadowed t root key) :=
  inferInstanceAs (Decidable (_ ∨ _))

/-- The writers of Claude and Codex and that of the shell succeed. -/
def Completes (env : Env) (run : Run) (w : World) : Prop :=
  (∀ t ∈ [Target.claude, .codex],
    t.declined run.optout = true ∨ writeTarget env run w t ≠ .failed) ∧ run.fails .shell = false

/-- The first writer fails, or no file is written at all. -/
def WritesNothing (env : Env) (run : Run) (w : World) : Prop :=
  Target.claude.declined run.optout = false ∧ writeTarget env run w .claude = .failed ∨
    ∀ t, t.declined run.optout = true ∨ ∀ root, writeTarget env run w t ≠ .written root

/-- The condition on a run: it does not fail after a file was written, the manifest is loaded and
saved, the files can be read back and written back, and no key of the plan has a namesake with
dots. -/
structure Orderly (env : Env) (w : World) (run : Run) : Prop where
  whole : Completes env run w ∨ WritesNothing env run w
  loaded : run.fails .load = false
  saved : run.fails .save = false
  present : ∀ t, run.fails (.isFile t) = false
  planned : ∀ t, run.fails (.planRead t) = false
  inspected : ∀ t, run.fails (.retractRead t) = false
  retracted : ∀ t, run.fails (.retractWrite t) = false
  unshadowed : ∀ t, t.declined run.optout = false →
    ∀ key ∈ t.keys env run.settings run.optout, ∀ root ∈ w.document t, Unshadowed t root key

/-! ## Keys and places -/

section Keys

variable {env : Env} {settings : OtelSettings} {optout : ClientOptOut} {t : Target}
  {key key' name : String} {place : Place} {value : Value}

theorem segments_eq_singleton (h : '.' ∉ key.toList) : segments key = [key] := by
  rw [segments, List.splitOn_eq_singleton h]
  simp

theorem segments_env (h : '.' ∉ name.toList) : segments ("env." ++ name) = ["env", name] := by
  have hchars : ("env." ++ name).toList = "env".toList ++ '.' :: name.toList := by
    rw [String.toList_append]
    rfl
  have henv : '.' ∉ "env".toList := by decide
  rw [segments, hchars, List.splitOn_append_cons_self, List.splitOn_eq_singleton h,
    List.splitOn_eq_singleton henv]
  simp

theorem claudeCodeEnv_plain {entry : String × String} (h : entry ∈ claudeCodeEnv settings) :
    '.' ∉ entry.1.toList := by
  unfold claudeCodeEnv at h
  rw [List.mem_append] at h
  rcases h with h | h
  · simp only [List.mem_cons, List.not_mem_nil, or_false] at h
    rcases h with rfl | rfl <;> exact Literals.notMem_toList (by decide)
  · split at h
    · cases h
    · rw [List.mem_append] at h
      rcases h with h | h
      · simp only [List.mem_cons, List.not_mem_nil, or_false] at h
        rcases h with rfl | rfl | rfl | rfl | rfl | rfl | rfl | rfl <;>
          exact Literals.notMem_toList (by decide)
      · split at h
        · obtain rfl := List.mem_singleton.mp h
          exact Literals.notMem_toList (by decide)
        · obtain rfl := List.mem_singleton.mp h
          exact Literals.notMem_toList (by decide)
        · cases h

theorem exists_key_of_put_codex (honly : optout.codexTelemetryOnly = false)
    (hput : Edit.put place value ∈ configureCodex env settings) (htext : value.text env ≠ none) :
    ∃ key ∈ codexKeys settings optout, segments key = place := by
  simp only [configureCodex, List.mem_append, List.mem_flatMap, Option.mem_toList] at hput
  unfold codexKeys
  rcases hput with ⟨endpoint, hendpoint, hmem⟩ | ⟨baseUrl, hbase, hmem⟩
  · rw [hendpoint, Option.isSome_some, if_pos rfl]
    suffices h : ∃ key ∈ ["otel.environment"] ++
        ["exporter", "metrics_exporter"].flatMap fun kind =>
          ["otel." ++ kind ++ ".otlp-http.endpoint", "otel." ++ kind ++ ".otlp-http.protocol"] ++
          if settings.token.isSome then ["otel." ++ kind ++ ".otlp-http.headers.Authorization"]
          else [], segments key = place by
      obtain ⟨key, hkey, hplace⟩ := h
      exact ⟨key, List.mem_append_right _ hkey, hplace⟩
    rcases hmem with hmem | ⟨⟨kind, signal⟩, hkind, hmem⟩
    · simp only [List.mem_cons, Edit.put.injEq, List.not_mem_nil, or_false] at hmem
      rcases hmem with ⟨rfl, -⟩ | ⟨-, rfl⟩
      · exact ⟨"otel.environment", List.mem_append_left _ (List.mem_singleton_self _),
          segments_literal rfl⟩
      · exact absurd rfl htext
    · have hkind' : kind ∈ ["exporter", "metrics_exporter"] :=
        List.mem_map_of_mem (f := Prod.fst) hkind
      have hplaces : segments ("otel." ++ kind ++ ".otlp-http.endpoint") =
            ["otel", kind, "otlp-http", "endpoint"] ∧
          segments ("otel." ++ kind ++ ".otlp-http.protocol") =
            ["otel", kind, "otlp-http", "protocol"] ∧
          segments ("otel." ++ kind ++ ".otlp-http.headers.Authorization") =
            ["otel", kind, "otlp-http", "headers", "Authorization"] := by
        simp only [List.mem_cons, List.not_mem_nil, or_false] at hkind'
        rcases hkind' with rfl | rfl <;>
          exact ⟨segments_append_literals rfl, segments_append_literals rfl,
            segments_append_literals rfl⟩
      rcases hmem with hmem | hmem
      · simp only [List.mem_cons, Edit.put.injEq, List.not_mem_nil, or_false] at hmem
        rcases hmem with ⟨rfl, -⟩ | ⟨rfl, -⟩
        · refine ⟨_, List.mem_append_right _ (List.mem_flatMap.mpr ⟨kind, hkind', ?_⟩), hplaces.1⟩
          exact List.mem_append_left _ List.mem_cons_self
        · refine ⟨_, List.mem_append_right _ (List.mem_flatMap.mpr ⟨kind, hkind', ?_⟩), hplaces.2.1⟩
          exact List.mem_append_left _ (List.mem_cons_of_mem _ List.mem_cons_self)
      · obtain ⟨token, htoken, heq⟩ := List.mem_map.mp hmem
        cases heq
        refine ⟨_, List.mem_append_right _ (List.mem_flatMap.mpr ⟨kind, hkind', ?_⟩), hplaces.2.2⟩
        rw [Option.mem_toList.mp htoken, Option.isSome_some, if_pos rfl]
        exact List.mem_append_right _ (List.mem_singleton_self _)
  · have hgateway : settings.gatewayUrl.isSome = true := by
      obtain ⟨base, hsome, -⟩ := Option.map_eq_some_iff.mp hbase
      rw [hsome]
      rfl
    rw [hgateway, honly, Bool.not_false, Bool.and_true, if_pos rfl]
    suffices h : ∃ key ∈ ["model_provider", "model_providers.governance.name",
        "model_providers.governance.base_url", "model_providers.governance.wire_api",
        "model_providers.governance.auth.command", "model_providers.governance.auth.args"],
        segments key = place by
      obtain ⟨key, hkey, hplace⟩ := h
      exact ⟨key, List.mem_append_left _ hkey, hplace⟩
    simp only [List.mem_cons, Edit.put.injEq, List.not_mem_nil, or_false] at hmem
    rcases hmem with ⟨rfl, -⟩ | ⟨rfl, -⟩ | ⟨rfl, -⟩ | ⟨rfl, -⟩ | ⟨rfl, -⟩ | ⟨rfl, -⟩ | ⟨-, rfl⟩
    · exact ⟨"model_provider", by simp, segments_literal rfl⟩
    · exact ⟨"model_providers.governance.name", by simp, segments_literal rfl⟩
    · exact ⟨"model_providers.governance.base_url", by simp, segments_literal rfl⟩
    · exact ⟨"model_providers.governance.wire_api", by simp, segments_literal rfl⟩
    · exact ⟨"model_providers.governance.auth.command", by simp, segments_literal rfl⟩
    · exact ⟨"model_providers.governance.auth.args", by simp, segments_literal rfl⟩
    · exact absurd rfl htext

/-- Every text that a writer puts has its key in the plan. -/
theorem exists_key_of_put (hput : Edit.put place value ∈ t.edits env settings optout)
    (htext : value.text env ≠ none) :
    ∃ key ∈ t.keys env settings optout, t.place key = place := by
  cases t with
  | claude =>
    simp only [Target.edits, configureClaudeCode, List.mem_append, List.mem_map, List.mem_flatMap,
      Option.mem_toList, Edit.put.injEq, reduceCtorEq, and_false, exists_false, or_false] at hput
    simp only [Target.keys, claudeKeys, Target.place]
    rcases hput with (⟨helper, hhelper, rfl, -⟩ | ⟨baseUrl, hbase, hmem⟩) | ⟨entry, hentry, rfl, -⟩
    · refine ⟨"otelHeadersHelper", ?_, segments_literal rfl⟩
      rw [hhelper, Option.isSome_some, if_pos rfl]
      exact List.mem_append_left _ (List.mem_append_right _ (List.mem_singleton_self _))
    · have hgateway : settings.gatewayUrl.isSome = true := by
        obtain ⟨base, hsome, -⟩ := Option.map_eq_some_iff.mp hbase
        rw [hsome]
        rfl
      rw [if_pos hgateway]
      simp only [List.mem_cons, Edit.put.injEq, List.not_mem_nil, or_false] at hmem
      rcases hmem with ⟨rfl, -⟩ | ⟨rfl, -⟩
      · exact ⟨"apiKeyHelper", by simp, segments_literal rfl⟩
      · exact ⟨"env.ANTHROPIC_BASE_URL", by simp, segments_literal rfl⟩
    · refine ⟨"env." ++ entry.1, ?_, segments_env (claudeCodeEnv_plain hentry)⟩
      exact List.mem_append_right _ (List.mem_map_of_mem hentry)
  | codex =>
    have hkeys : codexKeys settings optout = codexKeys
        (if optout.codexTelemetryOnly then { settings with gatewayUrl := none } else settings)
        { optout with codexTelemetryOnly := false } := by
      cases honly : optout.codexTelemetryOnly with
      | false => simp only [codexKeys, honly, Bool.false_eq_true, if_false]
      | true =>
        simp only [codexKeys, honly, Bool.not_true, Bool.and_false, Option.isSome_none,
          Bool.false_and, if_true]
    simp only [Target.keys, hkeys]
    exact exists_key_of_put_codex rfl hput htext
  | vscode flavour =>
    obtain ⟨entry, hentry, heq⟩ := List.mem_map.mp hput
    cases heq
    exact ⟨entry.1, List.mem_map_of_mem hentry, rfl⟩

theorem mem_claude_names
    (hput : Edit.put (name :: place) value ∈ configureClaudeCode settings) :
    name ∈ ["otelHeadersHelper", "apiKeyHelper", "env"] := by
  simp only [configureClaudeCode, List.mem_append, List.mem_map, List.mem_flatMap,
    Option.mem_toList, Edit.put.injEq, List.cons.injEq, reduceCtorEq, and_false, exists_false,
    or_false, List.mem_cons, List.not_mem_nil] at hput ⊢
  rcases hput with (⟨-, -, ⟨rfl, -⟩, -⟩ | ⟨-, -, ⟨⟨rfl, -⟩, -⟩ | ⟨⟨rfl, -⟩, -⟩⟩) |
    ⟨-, -, ⟨rfl, -⟩, -⟩
  · exact .inl rfl
  · exact .inr (.inl rfl)
  · exact .inr (.inr rfl)
  · exact .inr (.inr rfl)

theorem mem_codex_names
    (hput : Edit.put (name :: place) value ∈ configureCodex env settings) :
    name ∈ ["otel", "model_provider", "model_providers"] := by
  simp only [configureCodex, List.mem_append, List.mem_map, List.mem_flatMap,
    Option.mem_toList, Edit.put.injEq, List.cons.injEq, or_false, List.mem_cons,
    List.not_mem_nil] at hput ⊢
  rcases hput with ⟨-, -, (⟨⟨rfl, -⟩, -⟩ | ⟨⟨rfl, -⟩, -⟩) |
    ⟨-, -, (⟨⟨rfl, -⟩, -⟩ | ⟨⟨rfl, -⟩, -⟩) | ⟨-, -, ⟨rfl, -⟩, -⟩⟩⟩ | ⟨_, _, hmem⟩
  · exact .inl rfl
  · exact .inl rfl
  · exact .inl rfl
  · exact .inl rfl
  · exact .inl rfl
  · tauto

/-- The names that the writers of Claude and Codex put at the top have no dots. -/
theorem ne_of_put (hput : Edit.put (name :: place) value ∈ t.edits env settings optout)
    (hkey : t.place key ≠ [key]) : key ≠ name := by
  rintro rfl
  apply hkey
  cases t with
  | vscode flavour => rfl
  | claude =>
    have hname := mem_claude_names hput
    simp only [List.mem_cons, List.not_mem_nil, or_false] at hname
    rcases hname with rfl | rfl | rfl <;> exact segments_literal rfl
  | codex =>
    have hname := mem_codex_names hput
    simp only [List.mem_cons, List.not_mem_nil, or_false] at hname
    rcases hname with rfl | rfl | rfl <;> exact segments_literal rfl

end Keys

/-! ## The writers -/

section Writers

variable {env : Env} {run : Run} {w : World} {t : Target} {root root' : Document}
  {owned : Place → Option Value} {edits : List Edit} {place : Place} {value : Value} {key : String}

/-- What is owned after some edits was put by one of them, or was owned. -/
theorem own_cases (h : own edits owned place = some value) :
    Edit.put place value ∈ edits ∨ owned place = some value := by
  induction edits generalizing owned with
  | nil => exact .inr h
  | cons edit rest ih =>
    rcases ih h with hrest | hold
    · exact .inl (List.mem_cons_of_mem _ hrest)
    · cases edit with
      | put place' value' =>
        change Function.update owned place' (some value') place = some value at hold
        by_cases hplace : place = place'
        · subst hplace
          rw [Function.update_self] at hold
          cases hold
          exact .inl List.mem_cons_self
        · rw [Function.update_of_ne hplace] at hold
          exact .inr hold
      | take place' =>
        change Function.update owned place' none place = some value at hold
        by_cases hplace : place = place'
        · subst hplace
          rw [Function.update_self] at hold
          cases hold
        · rw [Function.update_of_ne hplace] at hold
          exact .inr hold

/-- A value after some edits was put by one of them, or was there. -/
theorem valueAt_of_applyEdits (hdeep : TakesDeep edits)
    (happly : applyEdits edits root = some root') (h : valueAt (some root') place = some value) :
    Edit.put place value ∈ edits ∨ valueAt (some root) place = some value := by
  induction edits generalizing root with
  | nil =>
    cases happly
    exact .inr h
  | cons edit rest ih =>
    obtain ⟨middle, hedit, hrest⟩ := Option.bind_eq_some_iff.mp happly
    have hdeep' : TakesDeep rest := fun place hmem => hdeep place (List.mem_cons_of_mem _ hmem)
    rcases ih hdeep' hrest with hmem | hmiddle
    · exact .inl (List.mem_cons_of_mem _ hmem)
    · rw [valueAt_eq_some] at hmiddle
      cases edit with
      | put place' value' =>
        rcases Node.at?_leaf_of_set hedit hmiddle with ⟨rfl, rfl⟩ | hold
        · exact .inl List.mem_cons_self
        · exact .inr (valueAt_eq_some.2 hold)
      | take place' =>
        cases hedit
        have hlong := hdeep place' List.mem_cons_self
        have hplace : place' ≠ [] := by
          rintro rfl
          simp at hlong
        exact .inr (valueAt_eq_some.2 (Node.at?_leaf_of_erase hplace hmiddle).2)

/-- Edits bring in only the names that they put at the top. -/
theorem get_applyEdits
    (hnames : ∀ name rest value, Edit.put (name :: rest) value ∈ edits → key ≠ name)
    (happly : applyEdits edits root = some root') (h : root.get key = none) :
    root'.get key = none := by
  induction edits generalizing root with
  | nil =>
    cases happly
    exact h
  | cons edit rest ih =>
    obtain ⟨middle, hedit, hrest⟩ := Option.bind_eq_some_iff.mp happly
    refine ih (fun name tail value hmem => hnames name tail value (List.mem_cons_of_mem _ hmem))
      hrest ?_
    cases edit with
    | put place' value' =>
      cases place' with
      | nil => cases hedit
      | cons name tail =>
        rw [Node.get_set_of_ne hedit (hnames name tail value' List.mem_cons_self)]
        exact h
    | take place' =>
      cases hedit
      exact Node.get_erase_eq_none h

/-- A writer starts without the names that the file does not have. -/
theorem get_start {file : Option File} {start : Document} (hstart : t.start file = some start)
    (h : ∀ root, file.bind t.parse = some root → root.get key = none) : start.get key = none := by
  rcases start_eq hstart with hdocument | rfl
  · exact h start hdocument
  · rfl

theorem Unshadowed.written {w' : World} (hwritten : WrittenBy env run w w' t)
    (h : ∀ root ∈ w.document t, Unshadowed t root key) :
    ∀ root ∈ w'.document t, Unshadowed t root key := by
  obtain ⟨start, root, hstart, happly, hfile, -⟩ := hwritten
  intro root' hroot'
  obtain rfl : root = root' := by
    simpa [World.document, hfile, Target.parse] using hroot'
  by_cases hkey : t.place key = [key]
  · exact .inl hkey
  · right
    have hnone : root.get key = none := by
      refine get_applyEdits (fun name rest value hput => ne_of_put hput hkey) happly ?_
      refine get_start hstart fun before hbefore => ?_
      exact Option.isNone_iff_eq_none.mp ((h before hbefore).resolve_left hkey)
    rw [hnone]
    rfl

/-- Where a key stands without a namesake, it stands for the value at its place. -/
theorem Unshadowed.find (h : Unshadowed t root key)
    (hvalue : valueAt (some root) (t.place key) = some value) :
    Managed.find root key = some (t.place key, .leaf value) := by
  rw [valueAt_eq_some] at hvalue
  rw [find_eq_leaf]
  rcases h with hliteral | hnone
  · rw [hliteral] at hvalue ⊢
    exact .inl ⟨rfl, hvalue⟩
  · cases t with
    | vscode flavour => exact .inl ⟨rfl, hvalue⟩
    | claude => exact .inr ⟨Option.isNone_iff_eq_none.mp hnone, rfl, hvalue⟩
    | codex => exact .inr ⟨Option.isNone_iff_eq_none.mp hnone, rfl, hvalue⟩

/-- Every text that a writer has put, and that is still there, stands under a key without a
namesake which `recorded` knows. -/
def Entered (env : Env) (w : World) (t : Target) (recorded : String → String → Prop) : Prop :=
  ∀ place value text, w.owned t place = some value → value.text env = some text →
    valueAt (w.document t) place = some value →
    ∃ key, t.place key = place ∧ (∀ root ∈ w.document t, Unshadowed t root key) ∧
      recorded key (env.digest text)

/-- The manifest knows all of them. -/
def Ledger (env : Env) (w : World) : Prop :=
  ∀ t, Entered env w t fun key digest => recordedDigest (w.manifest t) key = some digest

theorem Ledger.remembered (h : Ledger env w) : Remembered env w := by
  intro t place value text howned htext hvalue
  obtain ⟨key, rfl, hplain, hrecord⟩ := h t place value text howned htext hvalue
  refine ⟨key, ?_, hrecord⟩
  cases hroot : w.document t with
  | none =>
    rw [hroot] at hvalue
    cases hvalue
  | some root =>
    rw [hroot] at hvalue
    exact resolve_eq_some.2 ⟨root, rfl, (hplain root hroot).find hvalue⟩

theorem Entered.of_untouched {w' : World} {recorded : String → String → Prop}
    (h : Entered env w t recorded) (hsame : Untouched w w' t) : Entered env w' t recorded := by
  have hdocument : w'.document t = w.document t := by
    rw [World.document, World.document, hsame.1]
  intro place value text howned htext hvalue
  rw [hsame.2] at howned
  rw [hdocument] at hvalue ⊢
  exact h place value text howned htext hvalue

/-- After the writers, what was not on record before is one of the keys of the run. -/
theorem Entered.writers {recorded : String → String → Prop} (h : Entered env w t recorded)
    (hplain : ∀ key ∈ t.keys env run.settings run.optout, ∀ root ∈ w.document t,
      Unshadowed t root key)
    {w' : World} (hwritten : WrittenBy env run w w' t) :
    Entered env w' t fun key digest =>
      key ∈ t.keys env run.settings run.optout ∨ recorded key digest := by
  have hkeep := hwritten
  obtain ⟨start, root, hstart, happly, hfile, hown⟩ := hwritten
  intro place value text howned htext hvalue
  have hput : Edit.put place value ∈ t.edits env run.settings run.optout →
      ∃ key, t.place key = place ∧ (∀ root ∈ w'.document t, Unshadowed t root key) ∧
        (key ∈ t.keys env run.settings run.optout ∨ recorded key (env.digest text)) := by
    intro hmem
    have hsome : value.text env ≠ none := by
      rw [htext]
      exact Option.some_ne_none _
    obtain ⟨key, hkey, hplace⟩ := exists_key_of_put hmem hsome
    exact ⟨key, hplace, Unshadowed.written hkeep (hplain key hkey), .inl hkey⟩
  rw [hown] at howned
  have hvalue' : valueAt (some root) place = some value := by
    simpa [World.document, hfile, Target.parse] using hvalue
  -- A value that the writer has not put was there and owned before it.
  rcases own_cases howned with hmem | howned
  · exact hput hmem
  · rcases valueAt_of_applyEdits (takesDeep_edits env _ _ t) happly hvalue' with hmem | hbefore
    · exact hput hmem
    · rw [valueAt_start hstart] at hbefore
      obtain ⟨key, hkey, hunshadowed, hrecorded⟩ := h place value text howned htext hbefore
      exact ⟨key, hkey, Unshadowed.written hkeep hunshadowed, .inr hrecorded⟩

end Writers

/-! ## The plan -/

section Plan

variable {env : Env} {run : Run} {w : World} {t : Target} {root : Document} {keys : List String}
  {key digest : String} {recorded : Record} {old : Option Record}

theorem get?_record_of_mem {text : String} (hget : get env root key = some text)
    (h : key ∈ keys ∨ recorded.get? key = some (env.digest text)) :
    (keys.foldl (fun recorded key =>
      match get env root key with
      | some value => recorded.insert key (env.digest value)
      | none => recorded) recorded).get? key = some (env.digest text) := by
  induction keys generalizing recorded with
  | nil => exact h.resolve_left List.not_mem_nil
  | cons key' rest ih =>
    rw [List.foldl_cons]
    apply ih
    by_cases hsame : key' = key
    · subst hsame
      right
      simp only [hget]
      exact KeyedMap.get?_insert_self _ _ _
    · rw [List.mem_cons, or_assoc] at h
      refine (h.resolve_left (Ne.symm hsame)).imp_right fun hold => ?_
      split
      · rwa [KeyedMap.get?_insert_of_ne _ _ (Ne.symm hsame)]
      · exact hold

/-- The keys of the telemetry are not a provider's. -/
theorem codexInferenceKey_otel (rest : String) : codexInferenceKey ("otel." ++ rest) = false := by
  obtain ⟨t, hkey⟩ : ∃ t, "otel.".toList = 'o' :: t := ⟨_, String.toList_ofList⟩
  obtain ⟨u, hname⟩ : ∃ u, "model_provider".toList = 'm' :: u := ⟨_, String.toList_ofList⟩
  obtain ⟨v, hopen⟩ : ∃ v, "model_providers.".toList = 'm' :: v := ⟨_, String.toList_ofList⟩
  have hchars : ("otel." ++ rest).toList = 'o' :: (t ++ rest.toList) := by
    rw [String.toList_append, hkey, List.cons_append]
  refine Bool.or_eq_false_iff.mpr ⟨decide_eq_false fun heq => ?_, ?_⟩
  · have hlists := congrArg String.toList heq
    rw [hchars, hname] at hlists
    exact absurd (List.cons.inj hlists).1 (by decide)
  · rw [hopen, hchars]
    rfl

theorem codexInferenceKey_of_mem_keys {settings : OtelSettings} {optout : ClientOptOut}
    (honly : optout.codexTelemetryOnly = true) (h : key ∈ codexKeys settings optout) :
    codexInferenceKey key = false := by
  rw [codexKeys, honly, Bool.not_true, Bool.and_false, if_neg Bool.false_ne_true,
    List.nil_append] at h
  split at h
  · rw [List.mem_append, List.mem_singleton, List.mem_flatMap] at h
    rcases h with rfl | ⟨kind, -, hmem⟩
    · exact codexInferenceKey_otel "environment"
    · have hkeys : ∀ rest, codexInferenceKey ("otel." ++ kind ++ rest) = false := by
        intro rest
        rw [String.append_assoc]
        exact codexInferenceKey_otel (kind ++ rest)
      rw [List.mem_append] at hmem
      rcases hmem with hmem | hmem
      · simp only [List.mem_cons, List.not_mem_nil, or_false] at hmem
        rcases hmem with rfl | rfl
        · exact hkeys _
        · exact hkeys _
      · split at hmem
        · obtain rfl := List.mem_singleton.mp hmem
          exact hkeys _
        · cases hmem
  · cases h

/-- Carrying the provider keys forward leaves the run's own keys. -/
theorem get?_carryInference_of_mem (hkey : key ∈ t.keys env run.settings run.optout)
    (h : recorded.get? key = some digest) :
    (carryInference run t old recorded).get? key = some digest := by
  unfold carryInference
  split
  · next honly =>
    obtain ⟨honly, rfl⟩ := honly
    have hkind := codexInferenceKey_of_mem_keys honly hkey
    generalize (old.getD .empty).keys = keys
    induction keys generalizing recorded with
    | nil => exact h
    | cons key' rest ih =>
      rw [List.foldl_cons]
      apply ih
      split
      · split
        · next hinference =>
          have hne : key ≠ key' := by
            rintro rfl
            rw [hinference] at hkind
            cases hkind
          rwa [KeyedMap.get?_insert_of_ne _ _ hne]
        · exact h
      · exact h
  · exact h

/-- `plan` records the values of the run's own keys. -/
theorem recordedDigest_plan (hdeclined : t.declined run.optout = false)
    (hread : run.fails (.planRead t) = false) (hroot : w.document t = some root)
    (hkey : key ∈ t.keys env run.settings run.optout) {text : String}
    (hget : get env root key = some text) :
    recordedDigest (plan env run old w t) key = some (env.digest text) := by
  have hkeys : t.keys env run.settings run.optout ≠ [] := List.ne_nil_of_mem hkey
  set recorded := carryInference run t old
    (record env root (t.keys env run.settings run.optout)) with hrecorded
  have hdigest : recorded.get? key = some (env.digest text) :=
    get?_carryInference_of_mem hkey (get?_record_of_mem hget (.inl hkey))
  have hsome : recorded.keys ≠ [] :=
    List.ne_nil_of_mem ((recorded.mem_keys key).mpr (by rw [hdigest]; rfl))
  have hplan : plan env run old w t = some recorded := by
    simp only [plan, hdeclined, Bool.false_eq_true, if_false, if_neg hkeys, hread, hroot,
      ← hrecorded, if_neg hsome]
  rw [hplan]
  exact hdigest

/-- What `plan` records is one of the run's own keys, or was on record with the same digest. -/
theorem mem_or_of_recordedDigest_plan (hdeclined : t.declined run.optout = false)
    (h : recordedDigest (plan env run old w t) key = some digest) :
    key ∈ t.keys env run.settings run.optout ∨ recordedDigest old key = some digest := by
  obtain ⟨recorded, hplan, hget⟩ := Option.bind_eq_some_iff.mp h
  simp only [plan, hdeclined, Bool.false_eq_true, if_false] at hplan
  split at hplan
  · cases hplan
  · split at hplan
    · cases hplan
    · split at hplan
      · cases hplan
      · cases hplan
        rcases get?_carryInference hget with ⟨previous, rfl, hprevious⟩ | hrecord
        · exact .inr hprevious
        · exact .inl (mem_of_get?_record hrecord)

end Plan

/-! ## The retraction -/

section Retract

variable {env : Env} {run : Run} {w : World} {t : Target} {root : Document} {keys : List String}
  {key key' : String} {place place' : Place} {value value' : Value} {old : Record}
  {previous now : Option Record}

theorem remove_eq_erase (h : find root key = some (place, .leaf value)) :
    remove root key = root.erase place := by
  rcases find_eq_leaf.1 h with ⟨rfl, hat⟩ | ⟨hnone, rfl, -⟩
  · have hget : root.get key = some (.leaf value) := by rwa [Node.at?_singleton] at hat
    simp only [remove, hget]
  · simp only [remove, hnone]

/-- Different keys stand for different places. -/
theorem place_ne_of_find (hne : key ≠ key') (h : find root key = some (place, .leaf value))
    (h' : find root key' = some (place', .leaf value')) : place ≠ place' := by
  rintro rfl
  rcases find_eq_leaf.1 h with ⟨rfl, -⟩ | ⟨-, rfl, -⟩
  · rcases find_eq_leaf.1 h' with ⟨heq, -⟩ | ⟨-, heq, -⟩
    · exact hne (List.cons.inj heq).1
    · exact hne (eq_of_segments heq.symm).symm
  · rcases find_eq_leaf.1 h' with ⟨heq, -⟩ | ⟨-, heq, -⟩
    · exact hne (eq_of_segments heq)
    · exact hne (segments_injective heq)

/-- Taking out one key leaves the others. -/
theorem find_remove_of_ne (hne : key ≠ key') (h : find root key = some (place, .leaf value))
    (h' : find root key' = some (place', .leaf value')) :
    find (remove root key') key = some (place, .leaf value) := by
  rw [remove_eq_erase h']
  have hplace := place_ne_of_find hne h h'
  have hat := at?_of_find h
  have hat' := at?_of_find h'
  rw [find_eq_leaf] at h ⊢
  rcases h with ⟨rfl, -⟩ | ⟨hnone, rfl, -⟩
  · exact .inl ⟨rfl, Node.at?_erase_of_ne hat' hat hplace⟩
  · exact .inr ⟨Node.get_erase_eq_none hnone, rfl, Node.at?_erase_of_ne hat' hat hplace⟩

theorem at?_of_retractKeys
    (h : (retractKeys env t old keys root).1.at? place = some (.leaf value)) :
    root.at? place = some (.leaf value) := by
  induction keys generalizing root with
  | nil => exact h
  | cons key rest ih =>
    rcases retractKeys_cons env t old key rest root with heq | ⟨_, _, -, -, heq⟩
    · rw [heq] at h
      exact ih h
    · rw [heq] at h
      exact at?_leaf_of_remove (ih h)

theorem retractKeys_cons_of_recorded (hfind : find root key = some (place, .leaf value))
    (hrecorded : Recorded env old key value) (rest : List String) :
    retractKeys env t old (key :: rest) root =
      ((retractKeys env t old rest (remove root key)).1,
        ⟨t, place, value⟩ :: (retractKeys env t old rest (remove root key)).2) := by
  obtain ⟨digest, hget, hdigest⟩ := hrecorded
  simp only [retractKeys, hfind, hget, if_pos hdigest]

theorem ne_nil_of_find (h : find root key = some (place, .leaf value)) : place ≠ [] := by
  rcases find_eq_leaf.1 h with ⟨rfl, -⟩ | ⟨-, rfl, -⟩
  · exact List.cons_ne_nil _ _
  · exact segments_ne_nil key

/-- A stale key that stands for the value on record is taken out. -/
theorem at?_retractKeys_of_recorded (hkey : key ∈ keys)
    (hfind : find root key = some (place, .leaf value)) (hrecorded : Recorded env old key value) :
    (retractKeys env t old keys root).1.at? place ≠ some (.leaf value') := by
  induction keys generalizing root with
  | nil => cases hkey
  | cons first rest ih =>
    intro hat
    by_cases hsame : first = key
    · subst hsame
      rw [retractKeys_cons_of_recorded hfind hrecorded] at hat
      have hgone := at?_of_retractKeys hat
      rw [remove_eq_erase hfind] at hgone
      exact (Node.at?_leaf_of_erase (ne_nil_of_find hfind) hgone).1 rfl
    · have hrest := (List.mem_cons.mp hkey).resolve_left (Ne.symm hsame)
      rcases retractKeys_cons env t old first rest root with heq | ⟨place', _, hfind', -, heq⟩
      · rw [heq] at hat
        exact ih hrest hfind hat
      · rw [heq] at hat
        exact ih hrest (find_remove_of_ne (Ne.symm hsame) hfind hfind') hat

theorem get_retractKeys (h : root.get key = none) :
    (retractKeys env t old keys root).1.get key = none := by
  induction keys generalizing root with
  | nil => exact h
  | cons first rest ih =>
    rcases retractKeys_cons env t old first rest root with heq | ⟨_, _, hfind, -, heq⟩
    · rw [heq]
      exact ih h
    · rw [heq]
      refine ih ?_
      rw [remove_eq_erase hfind]
      exact Node.get_erase_eq_none h

/-- Where nothing is taken out, the document is as it was. -/
theorem retractKeys_eq_of_nil (h : (retractKeys env t old keys root).2 = []) :
    (retractKeys env t old keys root).1 = root := by
  induction keys generalizing root with
  | nil => rfl
  | cons first rest ih =>
    rcases retractKeys_cons env t old first rest root with heq | ⟨_, _, -, -, heq⟩
    · rw [heq] at h ⊢
      exact ih h
    · rw [heq] at h
      cases h

theorem mem_staleKeys {digest : String} (hold : old.get? key = some digest)
    (hnow : recordedDigest now key = none) : key ∈ staleKeys old now := by
  refine List.mem_filter.mpr ⟨(old.mem_keys key).mpr (by rw [hold]; rfl), ?_⟩
  cases now with
  | none => rfl
  | some recorded =>
    have hnone : recorded.get? key = none := hnow
    simp [recorded.mem_keys, hnone]

/-- Where nothing fails, `retract_stale` leaves the plan and takes out the stale keys. -/
theorem retractStale_of_orderly (env : Env) (old : Record) (now : Option Record)
    (hpresent : run.fails (.isFile t) = false)
    (hread : run.fails (.retractRead t) = false) (hwrite : run.fails (.retractWrite t) = false)
    (hroot : w.document t = some root) :
    (retractStale env run (some old) now w t).now = now ∧
      (retractStale env run (some old) now w t).file.bind t.parse =
        some (retractKeys env t old (staleKeys old now) root).1 := by
  have hsome : (w.file t).isNone = false := by
    cases hfile : w.file t with
    | none =>
      rw [World.document, hfile] at hroot
      cases hroot
    | some file => rfl
  rw [retractStale]
  split
  · next hcase =>
    rw [hsome, hpresent, Bool.false_or, Bool.false_or, List.isEmpty_iff] at hcase
    rw [hcase]
    exact ⟨rfl, hroot⟩
  · simp only [hread, Bool.false_eq_true, if_false, hroot]
    split
    · next root' hretract =>
      refine ⟨rfl, hroot.trans ?_⟩
      rw [retractKeys_eq_of_nil (congrArg Prod.snd hretract)]
    · next root' removed _ hretract =>
      rw [if_neg (by rw [hwrite]; exact Bool.false_ne_true), hretract]
      exact ⟨rfl, rfl⟩

/-- The document after the retraction takes nothing in. -/
theorem Unshadowed.retracted (h : Unshadowed t root key) :
    Unshadowed t (retractKeys env t old keys root).1 key := by
  refine h.imp_right fun hnone => ?_
  rw [get_retractKeys (Option.isNone_iff_eq_none.mp hnone)]
  rfl

end Retract

/-! ## Runs -/

section Steps

variable {env : Env} {run : Run} {w : World}

/-- Once a run has written its files, what follows enters them in the manifest. -/
theorem Ledger.finish (horderly : Orderly env w run) {w' : World}
    (h : ∀ t, Entered env w' t fun key digest =>
      t.declined run.optout = false ∧ key ∈ t.keys env run.settings run.optout ∨
        recordedDigest (w'.manifest t) key = some digest) :
    Ledger env (Managed.finish env run w') := by
  intro t place value text howned htext hvalue
  have hdocument : (Managed.finish env run w').document t =
      (retraction env run w' t).file.bind t.parse := rfl
  have hmanifest : (Managed.finish env run w').manifest t = (retraction env run w' t).now := by
    show (if run.fails .save then w'.manifest else _) t = _
    rw [horderly.saved]
    rfl
  have hprevious : run.previous w' t = w'.manifest t := by
    rw [Run.previous, horderly.loaded]
    rfl
  change keep (w'.owned t) (w'.document t) _ place = some value at howned
  rw [← hdocument, keep] at howned
  split at howned
  · next hsame =>
    have hbefore : valueAt (w'.document t) place = some value := hsame.trans hvalue
    obtain ⟨key, rfl, hplain, hknown⟩ := h t place value text howned htext hbefore
    obtain ⟨root, hroot⟩ : ∃ root, w'.document t = some root := by
      cases hcase : w'.document t with
      | none =>
        rw [hcase] at hbefore
        cases hbefore
      | some root => exact ⟨root, rfl⟩
    have hfind : find root key = some (t.place key, .leaf value) := by
      rw [hroot] at hbefore
      exact (hplain root hroot).find hbefore
    have hget : get env root key = some text := by
      rw [get, hfind]
      exact htext
    rw [hdocument] at hvalue ⊢
    rw [hmanifest]
    refine ⟨key, rfl, ?_⟩
    cases hdeclined : t.declined run.optout with
    | true =>
      rw [retraction_of_declined env hdeclined, hprevious]
      refine ⟨hplain, hknown.resolve_left fun hkey => ?_⟩
      rw [hdeclined] at hkey
      cases hkey.1
    | false =>
      have hplan : key ∈ t.keys env run.settings run.optout →
          recordedDigest (plan env run (w'.manifest t) w' t) key = some (env.digest text) :=
        fun hkey => recordedDigest_plan hdeclined (horderly.planned t) hroot hkey hget
      rw [retraction, hprevious] at hvalue ⊢
      cases hcase : w'.manifest t with
      | none =>
        rw [hcase] at hknown hplan
        refine ⟨hplain, hplan ?_⟩
        exact (hknown.resolve_right fun h => by cases h).2
      | some old =>
        rw [hcase] at hknown hplan hvalue
        obtain ⟨hnow, hfile⟩ := retractStale_of_orderly env old (plan env run (some old) w' t)
          (horderly.present t) (horderly.inspected t) (horderly.retracted t) hroot
        rw [hfile] at hvalue ⊢
        rw [hnow]
        constructor
        · rintro root' hroot'
          obtain rfl := Option.some.inj hroot'
          exact (hplain root hroot).retracted
        · -- A key that is not planned is stale, and its value is gone.
          by_contra hlost
          have hold : old.get? key = some (env.digest text) :=
            hknown.resolve_left fun hkey => hlost (hplan hkey.2)
          have hnone : recordedDigest (plan env run (some old) w' t) key = none := by
            cases hsome : recordedDigest (plan env run (some old) w' t) key with
            | none => rfl
            | some digest =>
              exfalso
              rcases mem_or_of_recordedDigest_plan hdeclined hsome with hkey | hsame
              · exact hlost (hplan hkey)
              · exact hlost (hsome.trans (hsame.symm.trans hold))
          exact at?_retractKeys_of_recorded (mem_staleKeys hold hnone) hfind
            ⟨_, hold, by rw [htext]; rfl⟩ (valueAt_eq_some.1 hvalue)
  · cases howned

theorem writeAll_of_writesNothing (targets : List Target)
    (h : ∀ t, t.declined run.optout = true ∨ ∀ root, writeTarget env run w t ≠ .written root) :
    (writeAll env run targets w).written = [] ∧ (writeAll env run targets w).world = w := by
  induction targets with
  | nil => exact ⟨rfl, rfl⟩
  | cons t rest ih =>
    rw [writeAll]
    split
    · exact ih
    · next hdeclined =>
      split
      · exact ⟨rfl, rfl⟩
      · exact ih
      · next root hwrite => exact absurd hwrite ((h t).resolve_left hdeclined root)

theorem written_of_writesNothing (h : WritesNothing env run w) :
    (runWriters env run w).written = [] := by
  rcases h with ⟨hdeclined, hfailed⟩ | h
  · have hclients : writeAll env run [.claude, .codex] w = ⟨w, [], false⟩ := by
      simp only [writeAll, hdeclined, Bool.false_eq_true, if_false, hfailed]
    simp only [runWriters, hclients, Bool.not_false, if_true]
  · obtain ⟨hclients, hworld⟩ := writeAll_of_writesNothing [.claude, .codex] h
    have hvscode := (writeAll_of_writesNothing (flavours.map .vscode) h).1
    unfold runWriters
    dsimp only
    split
    · exact hclients
    · split
      · exact hclients
      · rw [hclients, hworld, hvscode]
        rfl

theorem Ledger.step (h : Ledger env w) (horderly : Orderly env w run) :
    Ledger env (configure env w run) := by
  obtain ⟨hwritten, huntouched, hmanifest⟩ := runWriters_spec env run w
  simp only [configure, Managed.step]
  split
  · refine Ledger.finish horderly fun t => ?_
    rw [hmanifest]
    by_cases ht : t ∈ (runWriters env run w).written
    · have hdeclined : t.declined run.optout = false := by
        cases hcase : t.declined run.optout with
        | false => rfl
        | true => exact absurd ht (notMem_written hcase w)
      intro place value text howned htext hvalue
      obtain ⟨key, hplace, hplain, hknown⟩ :=
        (h t).writers (horderly.unshadowed t hdeclined) (hwritten t ht) place value text howned
          htext hvalue
      exact ⟨key, hplace, hplain, hknown.imp_left fun hkey => ⟨hdeclined, hkey⟩⟩
    · intro place value text howned htext hvalue
      obtain ⟨key, hplace, hplain, hknown⟩ :=
        (h t).of_untouched (huntouched t ht) place value text howned htext hvalue
      exact ⟨key, hplace, hplain, .inr hknown⟩
  · next hfailed =>
    have hnone : (runWriters env run w).written = [] := by
      refine horderly.whole.elim (fun hcompletes => ?_) written_of_writesNothing
      exact absurd (runWriters_ok_iff.2 hcompletes) hfailed
    intro t
    rw [hmanifest]
    exact (h t).of_untouched (huntouched t (by rw [hnone]; exact List.not_mem_nil))

end Steps

/-- For every sequence of runs that do not fail half-way, load and save the manifest, read their
files back and write them back, over files without namesakes of the keys: after every run each text
that a writer has put, and that is still there, is on record with its digest. -/
theorem nothing_forgotten (env : Env) (dir : Target → Bool) (file : Target → Option File)
    (runs : List Run)
    (horderly : Runs.Always (configure env) (Orderly env) (.initial dir file) runs) :
    Runs.Always (configure env) (fun w run => Remembered env (configure env w run))
      (.initial dir file) runs := by
  have hinitial : Ledger env (.initial dir file) := by
    intro t place value text howned
    cases howned
  exact horderly.of_invariant hinitial (fun _ _ h horderly => h.step horderly)
    fun _ _ h horderly => (h.step horderly).remembered

/-! ## Runs that remember and forget -/

/-- A run with a gateway and a collector, for every client. -/
def gatewayRun : Run :=
  plainRun (gatewaySettings (some "http://127.0.0.1:4318")) ⟨false, false, false, false⟩

/-- A run that wants no gateway any more. -/
def collectorRun : Run := plainRun (telemetrySettings false) ⟨false, false, false, false⟩

theorem Completes.of_ok {env : Env} {run : Run} {w : World}
    (h : (runWriters env run w).ok = true) : Completes env run w :=
  runWriters_ok_iff.1 h

/-- The keys of VS Code are the places of their values; those of the others are not in their
files. -/
theorem unshadowed_of_absent {env : Env} {run : Run} {w : World}
    (h : ∀ t ∈ [Target.claude, .codex], ∀ key ∈ t.keys env run.settings run.optout,
      ∀ root ∈ w.document t, (root.get key).isNone = true) (t : Target) :
    ∀ key ∈ t.keys env run.settings run.optout, ∀ root ∈ w.document t, Unshadowed t root key := by
  intro key hkey root hroot
  cases t with
  | claude => exact .inr (h .claude (by decide) key hkey root hroot)
  | codex => exact .inr (h .codex (by decide) key hkey root hroot)
  | vscode flavour => exact .inl rfl

/-- Claude Code and Codex, with empty files: what the two runs have put is on record. -/
theorem gateway_is_remembered :
    Runs.Always (configure plainEnv)
      (fun w run => Remembered plainEnv (configure plainEnv w run))
      (.initial (fun t => t = .claude ∨ t = .codex) fun t =>
        if t = .claude ∨ t = .codex then some (.document emptyTable) else none)
      [gatewayRun, collectorRun] := by
  refine nothing_forgotten plainEnv _ _ _ ⟨?_, ?_, trivial⟩
  · exact ⟨.inl (.of_ok (by decide)), rfl, rfl, fun _ => rfl, fun _ => rfl, fun _ => rfl,
      fun _ => rfl, fun t _ => unshadowed_of_absent (by decide) t⟩
  · exact ⟨.inl (.of_ok (by decide)), rfl, rfl, fun _ => rfl, fun _ => rfl, fun _ => rfl,
      fun _ => rfl, fun t _ => unshadowed_of_absent (by decide) t⟩

/-- The file of Codex cannot be parsed: the run fails after Claude's file was written, and nothing
of it is on record. -/
theorem failed_run_is_forgotten :
    ¬Runs.Always (configure plainEnv)
      (fun w run => Remembered plainEnv (configure plainEnv w run))
      (.initial (fun t => t = .claude ∨ t = .codex) fun t =>
        if t = .claude then some (.document emptyTable)
        else if t = .codex then some .unparsable else none)
      [gatewayRun] := by
  rintro ⟨h, -⟩
  obtain ⟨key, -, hrecord⟩ := h .claude ["apiKeyHelper"] (.string "governance-auth token")
    "governance-auth token" (by decide) rfl (by decide)
  cases hrecord

end Managed

end Governance
