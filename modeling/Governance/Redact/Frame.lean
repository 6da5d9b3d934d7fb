import Governance.Redact.Payload

/-!
# What a scan of a body touches

`payload.rs` decides by an explicit path list which strings of a body are user content. Here
the list is data: a path is a list of steps, `mapAt` rewrites the strings at the end of one
path and `textsAt` lists them. Two different paths never lead to one string
(`textsAt_mapAt_of_ne`), so the paths of a list can be rewritten one after the other.

`Touched` says what a successful scan did to a body, given its path list. The walkers and the
path lists have the same shape, and each level of the walk is one lemma.
-/

namespace Governance

open Utf8Text

/-- A step into a value: to what an object has under a key, or to each element of an array. -/
inductive Step where
  | key (name : String)
  | each
  deriving DecidableEq, Repr

/-- Rewrites the strings at the end of a path. -/
def mapAt (f : Text → Text) : List Step → Json → Json
  | [], .str text => .str (f text)
  | [], v => v
  | .key name :: path, v => Json.mapKey name (mapAt f path) v
  | .each :: path, v => Json.mapArray (List.map (mapAt f path)) v

/-- The strings at the end of a path. -/
def textsAt : List Step → Json → List Text
  | [], v => slotText v
  | .key name :: path, v => keyTexts name (textsAt path) v
  | .each :: path, v => itemTexts (textsAt path) v

/-- Rewrites the strings at the ends of some paths. -/
def rewriteSlots (paths : List (List Step)) (f : Text → Text) (v : Json) : Json :=
  paths.foldl (fun v path => mapAt f path v) v

/-- The strings at the ends of some paths. -/
def pathTexts (paths : List (List Step)) (v : Json) : List Text :=
  paths.flatMap fun path => textsAt path v

/-- The paths `scan_message` covers: `content`, `content[].text` and
`tool_calls[].function.arguments`. -/
def messagePaths : List (List Step) :=
  [[.key "content"],
    [.key "content", .each, .key "text"],
    [.key "tool_calls", .each, .key "function", .key "arguments"]]

/-- The paths `scan_request` covers: those of `messages[]`, and `input` and `prompt` as a string
or as an array of strings. -/
def requestPaths : List (List Step) :=
  [[.key "messages", .each, .key "content"],
    [.key "messages", .each, .key "content", .each, .key "text"],
    [.key "messages", .each, .key "tool_calls", .each, .key "function", .key "arguments"],
    [.key "input"],
    [.key "input", .each],
    [.key "prompt"],
    [.key "prompt", .each]]

/-- The paths `scan_response` covers: those of `choices[].message`, and `choices[].text` as a
string or as an array of strings. -/
def responsePaths : List (List Step) :=
  [[.key "choices", .each, .key "message", .key "content"],
    [.key "choices", .each, .key "message", .key "content", .each, .key "text"],
    [.key "choices", .each, .key "message", .key "tool_calls", .each, .key "function",
      .key "arguments"],
    [.key "choices", .each, .key "text"],
    [.key "choices", .each, .key "text", .each]]

/-! ## Rewriting along paths -/

section Paths

variable {f : Text → Text}

/-- A rewrite along a path shows at the end of that path. -/
theorem textsAt_mapAt_self (path : List Step) (v : Json) :
    textsAt path (mapAt f path v) = (textsAt path v).map f := by
  induction path generalizing v with
  | nil => cases v <;> rfl
  | cons step path ih =>
    cases step with
    | key name =>
      show keyTexts name _ (Json.mapKey name _ v) = (keyTexts name _ v).map f
      rw [keyTexts, Json.get_mapKey_self, keyTexts]
      cases v.get name with
      | none => rfl
      | some x => exact ih x
    | each =>
      cases v with
      | arr items =>
        show (items.map (mapAt f path)).flatMap (textsAt path) =
          (items.flatMap (textsAt path)).map f
        rw [List.flatMap_map, List.map_flatMap]
        exact List.flatMap_congr fun x _ => ih x
      | _ => rfl

/-- And at the end of no other path: a string is the end of one path only. -/
theorem textsAt_mapAt_of_ne {path other : List Step} (hne : path ≠ other) (v : Json) :
    textsAt path (mapAt f other v) = textsAt path v := by
  induction path generalizing other v with
  | nil =>
    cases other with
    | nil => exact absurd rfl hne
    | cons step other => cases step <;> cases v <;> rfl
  | cons step path ih =>
    cases other with
    | nil => cases step <;> cases v <;> rfl
    | cons step' other =>
      cases step with
      | key name =>
        cases step' with
        | key name' =>
          show keyTexts name _ (Json.mapKey name' _ v) = keyTexts name _ v
          by_cases hname : name = name'
          · subst hname
            have hpath : path ≠ other := fun h => hne (h ▸ rfl)
            rw [keyTexts, Json.get_mapKey_self, keyTexts]
            cases v.get name with
            | none => rfl
            | some x => exact ih hpath x
          · rw [keyTexts, Json.get_mapKey (Ne.symm hname), keyTexts]
        | each => cases v <;> rfl
      | each =>
        cases step' with
        | key name' => cases v <;> rfl
        | each =>
          have hpath : path ≠ other := fun h => hne (h ▸ rfl)
          cases v with
          | arr items =>
            show (items.map (mapAt f other)).flatMap (textsAt path) = items.flatMap (textsAt path)
            rw [List.flatMap_map]
            exact List.flatMap_congr fun x _ => ih hpath x
          | _ => rfl

/-- Rewriting the ends of some paths shows at these paths, once, and nowhere else. -/
theorem textsAt_rewriteSlots {paths : List (List Step)} (hnodup : paths.Nodup) (path : List Step)
    (v : Json) : textsAt path (rewriteSlots paths f v) =
      if path ∈ paths then (textsAt path v).map f else textsAt path v := by
  induction paths generalizing v with
  | nil => rfl
  | cons first paths ih =>
    obtain ⟨hfirst, hrest⟩ := List.nodup_cons.mp hnodup
    show textsAt path (rewriteSlots paths f (mapAt f first v)) = _
    rw [ih hrest]
    by_cases hpath : path = first
    · subst hpath
      rw [if_neg hfirst, if_pos List.mem_cons_self, textsAt_mapAt_self]
    · rw [textsAt_mapAt_of_ne hpath]
      simp [hpath]

theorem rewriteSlots_append (ps qs : List (List Step)) (v : Json) :
    rewriteSlots (ps ++ qs) f v = rewriteSlots qs f (rewriteSlots ps f v) := List.foldl_append

theorem Json.mapKey_id (name : String) (v : Json) : Json.mapKey name id v = v := by
  cases v with
  | obj entries =>
    simp only [Json.mapKey, Json.obj.injEq]
    induction entries with
    | nil => rfl
    | cons kv rest ih =>
      obtain ⟨k, x⟩ := kv
      by_cases hk : k = name <;> simp [Json.mapEntry, hk, ih]
  | _ => rfl

/-- Paths that start with one key are rewritten under that key. -/
theorem rewriteSlots_key (name : String) (paths : List (List Step)) :
    rewriteSlots (paths.map (Step.key name :: ·)) f = Json.mapKey name (rewriteSlots paths f) := by
  funext v
  induction paths generalizing v with
  | nil => exact (Json.mapKey_id name v).symm
  | cons path paths ih =>
    show rewriteSlots (paths.map _) f (Json.mapKey name (mapAt f path) v) = _
    rw [ih, Json.mapKey_mapKey]
    rfl

/-- Paths that start in an array are rewritten in each of its elements. -/
theorem rewriteSlots_each (paths : List (List Step)) :
    rewriteSlots (paths.map (Step.each :: ·)) f =
      Json.mapArray (List.map (rewriteSlots paths f)) := by
  funext v
  induction paths generalizing v with
  | nil =>
    cases v with
    | arr items =>
      show Json.arr items = Json.arr (items.map fun x => x)
      rw [List.map_id']
    | _ => rfl
  | cons path paths ih =>
    show rewriteSlots (paths.map _) f (Json.mapArray (List.map (mapAt f path)) v) = _
    rw [ih]
    cases v with
    | arr items =>
      show Json.arr ((items.map _).map _) = Json.arr (items.map _)
      rw [List.map_map]
      rfl
    | _ => rfl

end Paths

/-! ## The walks, as rewrites -/

/-- What the engine makes of the text of a slot: the redacted text if the verdict is one, else
the text itself. -/
def Engine.redactedText (e : Engine) (text : Text) : Text :=
  ((e.scan text).toOption.bind Verdict.replacement).getD text

namespace Walk

/-- Whenever the walk succeeds, the value it leaves is `g` of the one it was given. -/
def Rewrites (f : Walk) (g : Json → Json) : Prop :=
  ∀ v report v' report', f v report = .ok (v', report') → v' = g v

variable {f f' : Walk} {g g' : Json → Json}

theorem Rewrites.andThen (hf : Rewrites f g) (hf' : Rewrites f' g') :
    Rewrites (f.andThen f') (g' ∘ g) := by
  intro v report v' report' h
  rw [Walk.andThen] at h
  cases hv : f v report with
  | error err => simp [hv] at h
  | ok r =>
    obtain ⟨v₁, report₁⟩ := r
    rw [hv] at h
    rw [hf' v₁ report₁ v' report' h, hf v report v₁ report₁ hv]
    rfl

theorem Rewrites.entry (hf : Rewrites f g) (name : String) {entries entries' : List (String × Json)}
    {report report' : ScanReport} (h : entry name f entries report = .ok (entries', report')) :
    entries' = Json.mapEntry name g entries := by
  induction entries generalizing entries' with
  | nil => exact (by simpa [Walk.entry] using h : [] = entries' ∧ _).1.symm
  | cons kv rest ih =>
    obtain ⟨k, x⟩ := kv
    rw [Walk.entry] at h
    by_cases hk : k = name
    · rw [if_pos hk] at h
      cases hx : f x report with
      | error err => simp [hx, Except.map] at h
      | ok r =>
        obtain ⟨x', report₁⟩ := r
        obtain ⟨rfl, -⟩ : (k, x') :: rest = entries' ∧ report₁ = report' := by
          simpa [hx, Except.map] using h
        rw [Json.mapEntry, if_pos hk, hf x report x' report₁ hx]
    · rw [if_neg hk] at h
      cases hrest : Walk.entry name f rest report with
      | error err => simp [hrest, Except.map] at h
      | ok r =>
        obtain ⟨rest', report₁⟩ := r
        obtain ⟨rfl, rfl⟩ : (k, x) :: rest' = entries' ∧ report₁ = report' := by
          simpa [hrest, Except.map] using h
        rw [Json.mapEntry, if_neg hk, ih hrest]

theorem Rewrites.inKey (hf : Rewrites f g) (name : String) :
    Rewrites (inKey name f) (Json.mapKey name g) := by
  intro v report v' report' h
  cases v with
  | obj entries =>
    rw [Walk.inKey] at h
    cases hentries : Walk.entry name f entries report with
    | error err => simp [hentries, Except.map] at h
    | ok r =>
      obtain ⟨entries', report₁⟩ := r
      obtain ⟨rfl, -⟩ : Json.obj entries' = v' ∧ report₁ = report' := by
        simpa [hentries, Except.map] using h
      exact congrArg Json.obj (hf.entry name hentries)
  | _ =>
    cases h
    rfl

theorem Rewrites.items (hf : Rewrites f g) {xs xs' : List Json} {report report' : ScanReport}
    (h : items f xs report = .ok (xs', report')) : xs' = xs.map g := by
  induction xs generalizing xs' report with
  | nil => exact (by simpa [Walk.items] using h : [] = xs' ∧ _).1.symm
  | cons x xs ih =>
    rw [Walk.items] at h
    cases hx : f x report with
    | error err => simp [hx] at h
    | ok r =>
      obtain ⟨x', report₁⟩ := r
      rw [hx] at h
      cases hrest : Walk.items f xs report₁ with
      | error err => simp [hrest, Except.map] at h
      | ok r =>
        obtain ⟨rest', report₂⟩ := r
        obtain ⟨rfl, rfl⟩ : x' :: rest' = xs' ∧ report₂ = report' := by
          simpa [hrest, Except.map] using h
        rw [List.map_cons, ← hf x report x' report₁ hx, ← ih hrest]

theorem Rewrites.inArray (hf : Rewrites f g) :
    Rewrites (inArray f) (Json.mapArray (List.map g)) := by
  intro v report v' report' h
  cases v with
  | arr xs =>
    rw [Walk.inArray] at h
    cases hxs : Walk.items f xs report with
    | error err => simp [hxs, Except.map] at h
    | ok r =>
      obtain ⟨xs', report₁⟩ := r
      obtain ⟨rfl, -⟩ : Json.arr xs' = v' ∧ report₁ = report' := by
        simpa [hxs, Except.map] using h
      exact congrArg Json.arr (hf.items hxs)
  | _ =>
    cases h
    rfl

end Walk

section Rewrites

variable (e : Engine)

theorem scanSlot_rewrites : (scanSlot e).Rewrites (rewriteSlots [[]] e.redactedText) := by
  intro v report v' report' h
  cases v with
  | str text =>
    rw [scanSlot] at h
    cases hscan : e.scan text with
    | error err => simp [hscan] at h
    | ok verdict =>
      obtain ⟨rfl, -⟩ : (verdict.replacement.map Json.str).getD (.str text) = v' ∧ _ := by
        simpa [hscan] using h
      show _ = Json.str (e.redactedText text)
      rw [Engine.redactedText, hscan]
      show _ = Json.str (verdict.replacement.getD text)
      cases verdict.replacement <;> rfl
  | _ =>
    cases h
    rfl

/-- A slot that may also be an array is the slot or the elements, by its kind. -/
theorem rewriteSlots_slot_or_each (paths : List (List Step)) (f : Text → Text) (v : Json) :
    rewriteSlots ([] :: paths.map (Step.each :: ·)) f v =
      match v with
      | .arr items => Json.mapArray (List.map (rewriteSlots paths f)) (.arr items)
      | other => rewriteSlots [[]] f other := by
  show rewriteSlots (paths.map _) f (mapAt f [] v) = _
  rw [rewriteSlots_each]
  cases v <;> rfl

theorem scanContent_rewrites :
    (scanContent e).Rewrites (rewriteSlots [[], [.each, .key "text"]] e.redactedText) := by
  intro v report v' report' h
  rw [show [[], [.each, .key "text"]] = [] :: [[Step.key "text"]].map (Step.each :: ·) from rfl,
    rewriteSlots_slot_or_each, show [[Step.key "text"]] = [[]].map (Step.key "text" :: ·) from rfl,
    rewriteSlots_key]
  cases v with
  | arr parts => exact ((scanSlot_rewrites e).inKey "text").inArray _ _ _ _ h
  | _ => exact scanSlot_rewrites e _ _ _ _ h

theorem scanStringOrArray_rewrites :
    (scanStringOrArray e).Rewrites (rewriteSlots [[], [.each]] e.redactedText) := by
  intro v report v' report' h
  rw [show [[], [Step.each]] = [] :: [[]].map (Step.each :: ·) from rfl, rewriteSlots_slot_or_each]
  cases v with
  | arr items => exact (scanSlot_rewrites e).inArray _ _ _ _ h
  | _ => exact scanSlot_rewrites e _ _ _ _ h

theorem scanMessage_rewrites :
    (scanMessage e).Rewrites (rewriteSlots messagePaths e.redactedText) := by
  have hcontent := (scanContent_rewrites e).inKey "content"
  have hcalls := ((((scanSlot_rewrites e).inKey "arguments").inKey "function").inArray).inKey
    "tool_calls"
  simp only [← rewriteSlots_key, ← rewriteSlots_each] at hcontent hcalls
  intro v report v' report' h
  rw [hcontent.andThen hcalls v report v' report' h, Function.comp_apply, ← rewriteSlots_append]
  rfl

theorem scanRequest_rewrites {body v : Json} {report : ScanReport}
    (h : scanRequest e body = .ok (v, report)) :
    v = rewriteSlots requestPaths e.redactedText body := by
  have hmessages := ((scanMessage_rewrites e).inArray).inKey "messages"
  have hinput := (scanStringOrArray_rewrites e).inKey "input"
  have hprompt := (scanStringOrArray_rewrites e).inKey "prompt"
  simp only [← rewriteSlots_key, ← rewriteSlots_each] at hmessages hinput hprompt
  rw [hmessages.andThen (hinput.andThen hprompt) body .default v report h]
  simp only [Function.comp_apply, ← rewriteSlots_append]
  rfl

theorem scanResponse_rewrites {body v : Json} {report : ScanReport}
    (h : scanResponse e body = .ok (v, report)) :
    v = rewriteSlots responsePaths e.redactedText body := by
  have hmessage := (scanMessage_rewrites e).inKey "message"
  have htext := (scanStringOrArray_rewrites e).inKey "text"
  simp only [← rewriteSlots_key] at hmessage htext
  have hchoice : (scanChoice e).Rewrites (rewriteSlots
      (messagePaths.map (Step.key "message" :: ·) ++ [[], [.each]].map (Step.key "text" :: ·))
      e.redactedText) := by
    intro choice r choice' r' hchoice
    rw [hmessage.andThen htext choice r choice' r' hchoice, Function.comp_apply,
      ← rewriteSlots_append]
  have hchoices := (hchoice.inArray).inKey "choices"
  simp only [← rewriteSlots_key, ← rewriteSlots_each] at hchoices
  exact hchoices body .default v report h

end Rewrites

/-! ## The slots a walk finds are those of the path list -/

section Covers

/-- The texts `g` lists are those at the ends of the paths, in some order. -/
def Covers (g : Json → List Text) (paths : List (List Step)) : Prop :=
  ∀ v, (g v).Perm (pathTexts paths v)

variable {g g' : Json → List Text} {paths paths' : List (List Step)}

theorem covers_slotText : Covers slotText [[]] := by
  intro v
  simp [pathTexts, textsAt]

theorem Covers.append (h : Covers g paths) (h' : Covers g' paths') :
    Covers (fun v => g v ++ g' v) (paths ++ paths') := by
  intro v
  rw [pathTexts, List.flatMap_append]
  exact (h v).append (h' v)

theorem Covers.key (h : Covers g paths) (name : String) :
    Covers (keyTexts name g) (paths.map (Step.key name :: ·)) := by
  intro v
  rw [pathTexts, List.flatMap_map, keyTexts]
  cases hv : v.get name with
  | none => simp [textsAt, keyTexts, hv]
  | some x => simpa [pathTexts, textsAt, keyTexts, hv] using h x

/-- Walking some elements each along all paths, or along each path all elements. -/
theorem flatMap_pathTexts (items : List Json) (paths : List (List Step)) :
    (items.flatMap (pathTexts paths)).Perm
      (paths.flatMap fun path => items.flatMap (textsAt path)) := by
  induction paths with
  | nil => simp [pathTexts]
  | cons path paths ih =>
    rw [List.flatMap_cons]
    exact (List.flatMap_append_perm items (textsAt path) (pathTexts paths)).symm.trans
      (ih.append_left _)

theorem Covers.each (h : Covers g paths) : Covers (itemTexts g) (paths.map (Step.each :: ·)) := by
  intro v
  rw [pathTexts, List.flatMap_map]
  cases v with
  | arr items =>
    show (items.flatMap g).Perm (paths.flatMap fun path => items.flatMap (textsAt path))
    exact (List.Perm.flatMap_left items fun x _ => h x).trans (flatMap_pathTexts items paths)
  | _ => simp [itemTexts, textsAt, Json.asArray]

/-- A slot that may also be an array: a value is one or the other. -/
theorem Covers.slot_or_each (h : Covers g paths) {k : Json → List Text}
    (hk : ∀ v, k v = slotText v ++ itemTexts g v) :
    Covers k ([] :: paths.map (Step.each :: ·)) := by
  intro v
  rw [hk v]
  exact ((covers_slotText).append h.each) v

theorem covers_contentTexts : Covers contentTexts [[], [.each, .key "text"]] :=
  ((covers_slotText).key "text").slot_or_each fun v => by
    cases v with
    | arr parts => rfl
    | _ => simp [contentTexts, slotText, itemTexts, Json.asStr, Json.asArray]

theorem covers_stringOrArrayTexts : Covers stringOrArrayTexts [[], [.each]] :=
  (covers_slotText).slot_or_each fun v => by
    cases v with
    | arr items => rfl
    | _ => simp [stringOrArrayTexts, slotText, itemTexts, Json.asStr, Json.asArray]

theorem covers_messageTexts : Covers messageTexts messagePaths :=
  ((covers_contentTexts).key "content").append
    (((((covers_slotText).key "arguments").key "function").each).key "tool_calls")

theorem covers_requestTexts : Covers requestTexts requestPaths :=
  (((covers_messageTexts).each).key "messages").append
    (((covers_stringOrArrayTexts).key "input").append ((covers_stringOrArrayTexts).key "prompt"))

theorem covers_responseTexts : Covers responseTexts responsePaths :=
  ((((covers_messageTexts).key "message").append ((covers_stringOrArrayTexts).key "text")).each).key
    "choices"

end Covers

/-! ## The report -/

theorem mem_sortDedup {names : List String} {name : String} :
    name ∈ sortDedup names ↔ name ∈ names := by
  rw [sortDedup, (List.pairwise_insertionSort (· ≤ ·) names).destutter_eq_dedup,
    List.mem_dedup, List.mem_insertionSort]

/-- Sorted and without repetitions, that is, strictly increasing. -/
theorem pairwise_sortDedup (names : List String) : (sortDedup names).Pairwise (· < ·) := by
  have hle := (List.pairwise_insertionSort (· ≤ ·) names).sublist
    (List.destutter_sublist (· ≠ ·) (names.insertionSort (· ≤ ·)))
  have hnodup : (sortDedup names).Nodup := by
    rw [sortDedup, (List.pairwise_insertionSort (· ≤ ·) names).destutter_eq_dedup]
    exact List.nodup_dedup _
  exact (hle.and hnodup).imp fun h => lt_of_le_of_ne h.1 h.2

namespace Verdict

/-- The number of spans a verdict rewrites. -/
def count : Verdict → ℕ
  | .redacted _ n => n
  | _ => 0

/-- The entity types a verdict blocks. -/
def entities : Verdict → List String
  | .blocked types => types
  | _ => []

end Verdict

namespace Engine

variable (e : Engine)

/-- The spans that the scan of a text rewrites. -/
def redactionCount (text : Text) : ℕ := (e.scan text).toOption.elim 0 Verdict.count

/-- The entity types for which the scan of a text blocks. -/
def blockingTypes (text : Text) : List String := (e.scan text).toOption.elim [] Verdict.entities

variable {e}

/-- A text is blocked for some entity type. -/
theorem scan_blocked_ne_nil {text : Text} {types : List String}
    (h : e.scan text = .ok (.blocked types)) : types ≠ [] := by
  unfold Engine.scan at h
  split at h
  · cases h
  split at h
  · cases h
  split at h
  · cases h
  dsimp only at h
  split at h
  · next entities _ _ hblocking =>
    cases h
    obtain ⟨name, hname⟩ := List.exists_mem_of_ne_nil _ hblocking
    exact List.ne_nil_of_mem (mem_sortDedup.2 hname)
  split at h
  · cases h
  split at h <;> cases h

end Engine

section Report

variable {e : Engine}

/-- What a scan of some texts that does not fail adds to a report. -/
structure Reported (e : Engine) (texts : List Text) (report report' : ScanReport) : Prop where
  scanned : ∀ text ∈ texts, ∃ verdict, e.scan text = .ok verdict
  fields : report'.scannedFields = report.scannedFields + texts.length
  redactions : report'.redactions = report.redactions + (texts.map e.redactionCount).sum
  sorted : report.blocked.Pairwise (· < ·) → report'.blocked.Pairwise (· < ·)
  types : ∀ name, name ∈ report'.blocked ↔
    name ∈ report.blocked ∨ ∃ text ∈ texts, name ∈ e.blockingTypes text

theorem reported_cons {text : Text} {texts : List Text} {verdict : Verdict}
    {report report' : ScanReport} (hscan : e.scan text = .ok verdict)
    (h : Reported e texts (report.mergeVerdict verdict) report') :
    Reported e (text :: texts) report report' where
  scanned := List.forall_mem_cons.mpr ⟨⟨verdict, hscan⟩, h.scanned⟩
  fields := by
    have hone : (report.mergeVerdict verdict).scannedFields = report.scannedFields + 1 := by
      cases verdict <;> rfl
    rw [h.fields, hone, List.length_cons]
    omega
  redactions := by
    have hone : (report.mergeVerdict verdict).redactions =
        report.redactions + e.redactionCount text := by
      rw [Engine.redactionCount, hscan]
      cases verdict <;> rfl
    rw [h.redactions, hone, List.map_cons, List.sum_cons]
    omega
  sorted hsorted := by
    refine h.sorted ?_
    cases verdict with
    | blocked types => exact pairwise_sortDedup _
    | _ => exact hsorted
  types name := by
    have hone : name ∈ (report.mergeVerdict verdict).blocked ↔
        name ∈ report.blocked ∨ name ∈ e.blockingTypes text := by
      rw [Engine.blockingTypes, hscan]
      cases verdict with
      | blocked types => exact (mem_sortDedup).trans List.mem_append
      | _ => simp [ScanReport.mergeVerdict, Verdict.entities, Except.toOption]
    rw [h.types name, hone, or_assoc]
    simp

theorem reported_of_scanTexts {texts : List Text} {report report' : ScanReport}
    (h : scanTexts e texts report = .ok report') : Reported e texts report report' := by
  induction texts generalizing report with
  | nil =>
    obtain rfl : report = report' := by simpa [scanTexts] using h
    exact ⟨by simp, by simp, by simp, id, by simp⟩
  | cons text texts ih =>
    rw [scanTexts] at h
    cases hscan : e.scan text with
    | error err => simp [hscan] at h
    | ok verdict =>
      rw [hscan] at h
      exact reported_cons hscan (ih h)

/-- The order in which the texts were scanned does not show. -/
theorem Reported.perm {texts texts' : List Text} {report report' : ScanReport}
    (h : Reported e texts report report') (hperm : texts.Perm texts') :
    Reported e texts' report report' where
  scanned text htext := h.scanned text (hperm.mem_iff.mpr htext)
  fields := by rw [h.fields, hperm.length_eq]
  redactions := by rw [h.redactions, (hperm.map e.redactionCount).sum_eq]
  sorted := h.sorted
  types name := by simp only [h.types name, hperm.mem_iff]

end Report

/-! ## What a scan did to a body -/

/-- What a successful scan did to a body whose user text is at the ends of `paths`, and what it
reported. -/
structure Touched (e : Engine) (paths : List (List Step)) (body v : Json) (report : ScanReport) :
    Prop where
  /-- The body is as it was but for the strings at the ends of the paths. -/
  frame : v = rewriteSlots paths e.redactedText body
  /-- Each of these is what the engine makes of it, and the strings at other paths are as they
  were. -/
  slots : ∀ path, textsAt path v =
    if path ∈ paths then (textsAt path body).map e.redactedText else textsAt path body
  /-- The engine had a verdict on each. -/
  scanned : ∀ text ∈ pathTexts paths body, ∃ verdict, e.scan text = .ok verdict
  fields : report.scannedFields = (pathTexts paths body).length
  redactions : report.redactions = ((pathTexts paths body).map e.redactionCount).sum
  sorted : report.blocked.Pairwise (· < ·)
  types : ∀ name, name ∈ report.blocked ↔
    ∃ text ∈ pathTexts paths body, name ∈ e.blockingTypes text
  blocked : report.blocked ≠ [] ↔
    ∃ text ∈ pathTexts paths body, ∃ types, e.scan text = .ok (.blocked types)

theorem touched_of_reported {e : Engine} {paths : List (List Step)} {body v : Json}
    {report : ScanReport} (hnodup : paths.Nodup)
    (hframe : v = rewriteSlots paths e.redactedText body)
    (h : Reported e (pathTexts paths body) .default report) : Touched e paths body v report := by
  have htypes : ∀ name, name ∈ report.blocked ↔
      ∃ text ∈ pathTexts paths body, name ∈ e.blockingTypes text := by
    intro name
    rw [h.types name]
    simp [ScanReport.default]
  refine ⟨hframe, ?_, h.scanned, ?_, ?_, h.sorted List.Pairwise.nil, htypes, ?_⟩
  · intro path
    rw [hframe, textsAt_rewriteSlots hnodup]
  · rw [h.fields]
    exact Nat.zero_add _
  · rw [h.redactions]
    exact Nat.zero_add _
  · constructor
    · intro hne
      obtain ⟨name, hname⟩ := List.exists_mem_of_ne_nil _ hne
      obtain ⟨text, htext, hblocking⟩ := (htypes name).mp hname
      refine ⟨text, htext, ?_⟩
      obtain ⟨verdict, hscan⟩ := h.scanned text htext
      rw [Engine.blockingTypes, hscan] at hblocking
      cases verdict with
      | blocked types => exact ⟨types, hscan⟩
      | _ => exact absurd hblocking List.not_mem_nil
    · rintro ⟨text, htext, types, hscan⟩
      obtain ⟨name, hname⟩ := List.exists_mem_of_ne_nil _ (Engine.scan_blocked_ne_nil hscan)
      refine List.ne_nil_of_mem ((htypes name).mpr ⟨text, htext, ?_⟩)
      rw [Engine.blockingTypes, hscan]
      exact hname

/-- A scan that succeeds touches the strings of its path list and nothing else, and its report is
about exactly these strings: for every engine and every value, of whatever shape. -/
theorem scan_touches_exactly_the_slots (e : Engine) (body v : Json) (report : ScanReport) :
    (scanRequest e body = .ok (v, report) → Touched e requestPaths body v report) ∧
      (scanResponse e body = .ok (v, report) → Touched e responsePaths body v report) := by
  constructor
  · intro h
    have htexts : scanTexts e (requestTexts body) .default = .ok report := by
      rw [← scanRequest_report, h]
      rfl
    exact touched_of_reported (by decide) (scanRequest_rewrites e h)
      ((reported_of_scanTexts htexts).perm (covers_requestTexts body))
  · intro h
    have htexts : scanTexts e (responseTexts body) .default = .ok report := by
      rw [← scanResponse_report, h]
      rfl
    exact touched_of_reported (by decide) (scanResponse_rewrites e h)
      ((reported_of_scanTexts htexts).perm (covers_responseTexts body))

/-- A request with a redacted string, a null content and an unknown field that reads the same, and
a response with a text that is blocked. -/
theorem scan_touches_two_bodies :
    Touched (charEngine '7' .replace) requestPaths
        (.obj [("model", .str ['7']), ("messages", .arr [.obj [("content", .str ['a', '7'])],
          .obj [("content", .null)]]), ("input", .arr [.str ['b'], .bool true])])
        (.obj [("model", .str ['7']), ("messages", .arr [.obj [("content", .str ['a', '*'])],
          .obj [("content", .null)]]), ("input", .arr [.str ['b'], .bool true])])
        ⟨[], 1, 2⟩ ∧
      Touched (charEngine '7' .block) responsePaths
        (.obj [("choices", .arr [.obj [("text", .str ['7'])]])])
        (.obj [("choices", .arr [.obj [("text", .str ['7'])]])])
        ⟨["CHAR"], 0, 1⟩ :=
  ⟨(scan_touches_exactly_the_slots _ _ _ _).1 rfl, (scan_touches_exactly_the_slots _ _ _ _).2 rfl⟩

end Governance
