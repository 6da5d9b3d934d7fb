import Governance.Foundry.Normalizers

/-!
# What the normalizers conserve

An accepted payload gives one execution for each of its spans, in document order, and each is made
of its span and resource alone, so that a payload that is rearranged gives the same executions in
another order. The ids of model calls and tool calls tell their spans apart. What is not checked
are the entries of an `events` array that are no objects, and the sign of a tool call's duration.
-/

namespace Governance

namespace Foundry

open Utf8Text

/-! ## Documents -/

/-- A resource, with the spans of each of its scopes. -/
structure ResourceSpans where
  resource : Json
  scopes : List (List Json)

def resourceOf (resourceSpan : Json) : Option ResourceSpans := do
  let resource ← resourceSpan.get "resource"
  let scopeSpans ← (resourceSpan.get "scopeSpans").bind Json.asArray
  let scopes ← scopeSpans.mapM fun scopeSpan => (scopeSpan.get "spans").bind Json.asArray
  return ⟨resource, scopes⟩

/-- The resources of a payload, when every array is one. -/
def documentOf (payload : Json) : Option (List ResourceSpans) := do
  let resourceSpans ← (payload.get "resourceSpans").bind Json.asArray
  resourceSpans.mapM resourceOf

/-- The spans in document order, each with its resource. -/
def pairsOf (document : List ResourceSpans) : List (Json × Json) :=
  document.flatMap fun r => r.scopes.flatten.map fun span => (r.resource, span)

/-- The spans of a payload, in document order. -/
def spansOf (payload : Json) : List Json :=
  (pairsOf ((documentOf payload).getD [])).map Prod.snd

/-- The resources are permuted, and so are the spans of each of them, over its scopes too. -/
def Rearranged (document document' : List ResourceSpans) : Prop :=
  ∃ mid, document.Perm mid ∧ List.Forall₂
    (fun r r' => r.resource = r'.resource ∧ r.scopes.flatten.Perm r'.scopes.flatten) mid document'

section Payloads

variable {display : Json → String}
  {normalizeSpan : Option String → Json → Except NormalizerError ExecutionInput}

/-- The execution of a span under its resource. -/
def executionOf (display : Json → String)
    (normalizeSpan : Option String → Json → Except NormalizerError ExecutionInput)
    (pair : Json × Json) : Option ExecutionInput :=
  match attrString display pair.1 "user.email" "resource" with
  | .ok userEmail => (normalizeSpan userEmail pair.2).toOption
  | .error _ => none

/-- The resource and its spans are accepted. -/
def Accepted (display : Json → String)
    (normalizeSpan : Option String → Json → Except NormalizerError ExecutionInput)
    (r : ResourceSpans) : Prop :=
  ∃ userEmail, attrString display r.resource "user.email" "resource" = .ok userEmail ∧
    ∀ span ∈ r.scopes.flatten, ∃ x, normalizeSpan userEmail span = .ok x

/-- A scope is read as its spans are. -/
theorem scopes_eq_ok {userEmail : Option String} {scopeSpans : List Json}
    {xss : List (List ExecutionInput)}
    (h : scopeSpans.mapM (fun scopeSpan => do
      let spans ← requiredArray "spans" scopeSpan
      spans.mapM (normalizeSpan userEmail)) = .ok xss) :
    ∃ scopes, scopeSpans.mapM (fun s => (s.get "spans").bind Json.asArray) = some scopes ∧
      List.Forall₂ (fun span x => normalizeSpan userEmail span = .ok x) scopes.flatten
        xss.flatten := by
  rw [Except.mapM_eq_ok_iff] at h
  induction h with
  | nil => exact ⟨[], rfl, .nil⟩
  | @cons scopeSpan xs scopeSpans xss hscope _ ih =>
    obtain ⟨spans, hspans, hxs⟩ := Except.ok_of_bind hscope
    obtain ⟨scopes, hscopes, hrest⟩ := ih
    refine ⟨spans :: scopes, ?_, ?_⟩
    · rw [List.mapM_cons, required_eq_ok hspans, hscopes]
      rfl
    · rw [List.flatten_cons, List.flatten_cons]
      exact List.rel_append (Except.mapM_eq_ok_iff.1 hxs) hrest

/-- The executions of spans under one resource. -/
theorem executions_eq {resource : Json} {userEmail : Option String}
    (hemail : attrString display resource "user.email" "resource" = .ok userEmail)
    {spans : List Json} {xs : List ExecutionInput}
    (h : List.Forall₂ (fun span x => normalizeSpan userEmail span = .ok x) spans xs) :
    (spans.map fun span => (resource, span)).map (executionOf display normalizeSpan) =
      xs.map some := by
  induction h with
  | nil => rfl
  | cons hx _ ih =>
    rw [List.map_cons, List.map_cons, List.map_cons, ih]
    simp only [executionOf, hemail, hx]
    rfl

/-- A resource is read as its spans are. -/
theorem normalizeResource_eq_ok {resourceSpan : Json} {xs : List ExecutionInput}
    (h : normalizeResource display normalizeSpan resourceSpan = .ok xs) :
    ∃ r, resourceOf resourceSpan = some r ∧ Accepted display normalizeSpan r ∧
      (r.scopes.flatten.map fun span => (r.resource, span)).map
        (executionOf display normalizeSpan) = xs.map some := by
  obtain ⟨resource, hresource, h⟩ := Except.ok_of_bind h
  obtain ⟨userEmail, hemail, h⟩ := Except.ok_of_bind h
  obtain ⟨scopeSpans, hscopeSpans, h⟩ := Except.ok_of_bind h
  obtain ⟨xss, hxss, h⟩ := Except.ok_of_bind h
  obtain rfl := Except.ok.inj h
  obtain ⟨scopes, hscopes, hspans⟩ := scopes_eq_ok hxss
  refine ⟨⟨resource, scopes⟩, ?_, ⟨userEmail, hemail, ?_⟩, executions_eq hemail hspans⟩
  · exact Option.bind_eq_some_iff.mpr ⟨resource, required_eq_ok hresource,
      Option.bind_eq_some_iff.mpr ⟨scopeSpans, required_eq_ok hscopeSpans,
        Option.bind_eq_some_iff.mpr ⟨scopes, hscopes, rfl⟩⟩⟩
  · exact Except.mapM_isOk_iff.1 ⟨_, Except.mapM_eq_ok_iff.2 hspans⟩

theorem required_of_eq_some {α : Type} {field : String} {a? : Option α} {a : α} (h : a? = some a) :
    required field a? = .ok a := by
  rw [h, required]

/-- Scopes whose spans are accepted are normalized. -/
theorem scopes_of_accepted {userEmail : Option String} {scopeSpans : List Json}
    {scopes : List (List Json)}
    (hscopes : scopeSpans.mapM (fun s => (s.get "spans").bind Json.asArray) = some scopes)
    (h : ∀ span ∈ scopes.flatten, ∃ x, normalizeSpan userEmail span = .ok x) :
    ∃ xss, scopeSpans.mapM (fun scopeSpan => do
      let spans ← requiredArray "spans" scopeSpan
      spans.mapM (normalizeSpan userEmail)) = .ok xss := by
  rw [Except.mapM_isOk_iff]
  rw [Option.mapM_eq_some_iff] at hscopes
  induction hscopes with
  | nil => exact fun _ hmem => absurd hmem List.not_mem_nil
  | @cons scopeSpan spans _ _ harray _ ih =>
    rw [List.flatten_cons, List.forall_mem_append] at h
    refine List.forall_mem_cons.mpr ⟨?_, ih h.2⟩
    obtain ⟨xs, hxs⟩ := Except.mapM_isOk_iff.2 h.1
    exact ⟨xs, Except.bind_eq_ok (required_of_eq_some harray) hxs⟩

/-- A resource that is accepted is normalized. -/
theorem normalizeResource_of_accepted {resourceSpan : Json} {r : ResourceSpans}
    (hread : resourceOf resourceSpan = some r) (haccepted : Accepted display normalizeSpan r) :
    ∃ xs, normalizeResource display normalizeSpan resourceSpan = .ok xs := by
  obtain ⟨resource, hresource, hread⟩ := Option.bind_eq_some_iff.mp hread
  obtain ⟨scopeSpans, hscopeSpans, hread⟩ := Option.bind_eq_some_iff.mp hread
  obtain ⟨scopes, hscopes, hread⟩ := Option.bind_eq_some_iff.mp hread
  obtain rfl := Option.some.inj hread
  obtain ⟨userEmail, hemail, hspans⟩ := haccepted
  obtain ⟨xss, hxss⟩ := scopes_of_accepted hscopes hspans
  exact ⟨xss.flatten, Except.bind_eq_ok (required_of_eq_some hresource)
    (Except.bind_eq_ok hemail (Except.bind_eq_ok (required_of_eq_some hscopeSpans)
      (Except.bind_eq_ok hxss rfl)))⟩

/-- Resources that are normalized are a document, read as its spans are. -/
theorem resources_eq_ok {resourceSpans : List Json} {xss : List (List ExecutionInput)}
    (h : resourceSpans.mapM (normalizeResource display normalizeSpan) = .ok xss) :
    ∃ document, resourceSpans.mapM resourceOf = some document ∧
      (∀ r ∈ document, Accepted display normalizeSpan r) ∧
      (pairsOf document).map (executionOf display normalizeSpan) = xss.flatten.map some := by
  rw [Except.mapM_eq_ok_iff] at h
  induction h with
  | nil => exact ⟨[], rfl, List.forall_mem_nil _, rfl⟩
  | @cons resourceSpan xs _ _ hresource _ ih =>
    obtain ⟨r, hr, haccepted, hxs⟩ := normalizeResource_eq_ok hresource
    obtain ⟨document, hdocument, hall, hrest⟩ := ih
    refine ⟨r :: document, ?_, List.forall_mem_cons.mpr ⟨haccepted, hall⟩, ?_⟩
    · rw [List.mapM_cons, hr, hdocument]
      rfl
    · rw [List.flatten_cons, List.map_append, ← hxs, ← hrest, ← List.map_append]
      rfl

/-- An accepted payload is a document of accepted resources, and its executions are those of the
spans, in their order. -/
theorem normalizeWith_eq_ok {payload : Json} {out : TelemetryPayload}
    (h : normalizeWith display normalizeSpan payload = .ok out) :
    ∃ document, documentOf payload = some document ∧
      (∀ r ∈ document, Accepted display normalizeSpan r) ∧
      (pairsOf document).map (executionOf display normalizeSpan) = out.executions.map some := by
  obtain ⟨resourceSpans, harray, h⟩ := Except.ok_of_bind h
  obtain ⟨xss, hxss, h⟩ := Except.ok_of_bind h
  obtain rfl := Except.ok.inj h
  obtain ⟨document, hdocument, hall, heq⟩ := resources_eq_ok hxss
  exact ⟨document, Option.bind_eq_some_iff.mpr ⟨resourceSpans, required_eq_ok harray, hdocument⟩,
    hall, heq⟩

/-- A document of accepted resources is normalized. -/
theorem normalizeWith_of_accepted {payload : Json} {document : List ResourceSpans}
    (hdocument : documentOf payload = some document)
    (hall : ∀ r ∈ document, Accepted display normalizeSpan r) :
    ∃ out, normalizeWith display normalizeSpan payload = .ok out := by
  obtain ⟨resourceSpans, harray, hread⟩ := Option.bind_eq_some_iff.mp hdocument
  have hxss : ∃ xss, resourceSpans.mapM (normalizeResource display normalizeSpan) = .ok xss := by
    rw [Except.mapM_isOk_iff]
    rw [Option.mapM_eq_some_iff] at hread
    clear harray hdocument
    induction hread with
    | nil => exact fun _ hmem => absurd hmem List.not_mem_nil
    | cons hr _ ih =>
      obtain ⟨haccepted, hrest⟩ := List.forall_mem_cons.mp hall
      exact List.forall_mem_cons.mpr ⟨normalizeResource_of_accepted hr haccepted, ih hrest⟩
  obtain ⟨xss, hxss⟩ := hxss
  exact ⟨⟨xss.flatten⟩, Except.bind_eq_ok (required_of_eq_some harray)
    (Except.bind_eq_ok hxss rfl)⟩

/-- A rearranged document has the same pairs in another order. -/
theorem perm_pairsOf {document document' : List ResourceSpans}
    (h : Rearranged document document') : (pairsOf document).Perm (pairsOf document') := by
  obtain ⟨mid, hperm, hspans⟩ := h
  refine (hperm.flatMap_right _).trans ?_
  clear hperm
  induction hspans with
  | nil => exact .nil
  | @cons r r' mid document' hr _ ih =>
    obtain ⟨hresource, hflat⟩ := hr
    rw [List.flatMap_cons, pairsOf, List.flatMap_cons, hresource]
    exact (hflat.map _).append ih

theorem accepted_of_rearranged {document document' : List ResourceSpans}
    (h : Rearranged document document') (hall : ∀ r ∈ document, Accepted display normalizeSpan r) :
    ∀ r ∈ document', Accepted display normalizeSpan r := by
  obtain ⟨mid, hperm, hspans⟩ := h
  have hmid : ∀ r ∈ mid, Accepted display normalizeSpan r :=
    fun r hr => hall r (hperm.mem_iff.mpr hr)
  clear hperm
  induction hspans with
  | nil => exact List.forall_mem_nil _
  | @cons r r' mid document' hr _ ih =>
    obtain ⟨hresource, hflat⟩ := hr
    obtain ⟨⟨userEmail, hemail, hx⟩, hrest⟩ := List.forall_mem_cons.mp hmid
    refine List.forall_mem_cons.mpr ⟨⟨userEmail, hresource ▸ hemail, fun span hspan => ?_⟩, ih hrest⟩
    exact hx span (hflat.mem_iff.mpr hspan)

/-- A rearranged payload is accepted and gives the same executions in another order. -/
theorem perm_of_rearranged {payload payload' : Json} {out : TelemetryPayload}
    (h : normalizeWith display normalizeSpan payload = .ok out)
    {document' : List ResourceSpans} (hdocument' : documentOf payload' = some document')
    (hperm : ∀ document, documentOf payload = some document → Rearranged document document') :
    ∃ out', normalizeWith display normalizeSpan payload' = .ok out' ∧
      out'.executions.Perm out.executions := by
  obtain ⟨document, hdocument, hall, hxs⟩ := normalizeWith_eq_ok h
  have hrearranged := hperm document hdocument
  obtain ⟨out', hout'⟩ :=
    normalizeWith_of_accepted hdocument' (accepted_of_rearranged hrearranged hall)
  obtain ⟨_, heq, -, hxs'⟩ := normalizeWith_eq_ok hout'
  obtain rfl := Option.some.inj (hdocument'.symm.trans heq)
  refine ⟨out', hout', ?_⟩
  have hsome : (out'.executions.map some).Perm (out.executions.map some) := by
    rw [← hxs, ← hxs']
    exact ((perm_pairsOf hrearranged).map _).symm
  simpa using hsome.filterMap id

end Payloads

/-! ## Ids -/

/-- Two texts that end with a colon and colon-free texts have the same parts. -/
theorem cut_eq {a b a' b' : Text} (hb : ':' ∉ b) (hb' : ':' ∉ b')
    (h : a ++ ':' :: b = a' ++ ':' :: b') : a = a' ∧ b = b' := by
  rcases List.append_eq_append_iff.mp h with ⟨w, ha, hw⟩ | ⟨w, ha, hw⟩
  · cases w with
    | nil =>
      rw [List.nil_append, List.cons.injEq] at hw
      exact ⟨by rw [ha, List.append_nil], hw.2⟩
    | cons c w =>
      rw [List.cons_append, List.cons.injEq] at hw
      exact absurd (hw.2 ▸ List.mem_append_right w List.mem_cons_self) hb
  · cases w with
    | nil =>
      rw [List.nil_append, List.cons.injEq] at hw
      exact ⟨by rw [ha, List.append_nil], hw.2.symm⟩
    | cons c w =>
      rw [List.cons_append, List.cons.injEq] at hw
      exact absurd (hw.2 ▸ List.mem_append_right w List.mem_cons_self) hb'

/-- The id of a span's model call, or of the tool call of the event in a place. -/
def childId (spanId : String) : Option ℕ → String
  | none => s!"{spanId}:mc"
  | some idx => s!"{spanId}:tc:{idx}"

theorem isDigit_of_mem_repr {n : ℕ} {c : Char} (h : c ∈ n.repr.toList) : c.isDigit = true := by
  rw [Nat.repr_eq_ofList_toDigits, String.toList_ofList] at h
  exact Nat.isDigit_of_mem_toDigits (by decide) (by decide) h

theorem repr_injective {m n : ℕ} (h : m.repr.toList = n.repr.toList) : m = n := by
  rw [Nat.repr_eq_ofList_toDigits, Nat.repr_eq_ofList_toDigits, String.toList_ofList,
    String.toList_ofList] at h
  rw [← Nat.ofDigitChars_toDigits (n := m) (b := 10) (by decide) (by decide), h,
    Nat.ofDigitChars_toDigits (by decide) (by decide)]

/-- An id with its last part cut off at the last colon. -/
theorem childId_toList (spanId : String) (place : Option ℕ) :
    (childId spanId place).toList =
      match place with
      | none => spanId.toList ++ ':' :: "mc".toList
      | some idx => (spanId.toList ++ ":tc".toList) ++ ':' :: idx.repr.toList := by
  cases place with
  | none => simp [childId, toString]
  | some idx => simp [childId, toString]

/-- An id tells its span and its place apart. -/
theorem childId_injective {spanId spanId' : String} {place place' : Option ℕ}
    (h : childId spanId place = childId spanId' place') : spanId = spanId' ∧ place = place' := by
  have hcolon (n : ℕ) : ':' ∉ n.repr.toList := fun hmem =>
    absurd (isDigit_of_mem_repr hmem) (by decide)
  have hmc : ':' ∉ "mc".toList := by decide
  have hletter (n : ℕ) : "mc".toList ≠ n.repr.toList := fun heq => by
    have hm : 'm' ∈ n.repr.toList := heq ▸ List.mem_cons_self
    exact absurd (isDigit_of_mem_repr hm) (by decide)
  have hlist := congrArg String.toList h
  rw [childId_toList, childId_toList] at hlist
  cases place with
  | none =>
    cases place' with
    | none => exact ⟨String.toList_injective (cut_eq hmc hmc hlist).1, rfl⟩
    | some idx' => exact absurd (cut_eq hmc (hcolon idx') hlist).2 (hletter idx')
  | some idx =>
    cases place' with
    | none => exact absurd (cut_eq (hcolon idx) hmc hlist).2.symm (hletter idx)
    | some idx' =>
      obtain ⟨hspan, hidx⟩ := cut_eq (hcolon idx) (hcolon idx') hlist
      exact ⟨String.toList_injective (List.append_cancel_right hspan),
        congrArg some (repr_injective hidx)⟩

/-- The keys of all model calls and tool calls. -/
def childKeys (executions : List ExecutionInput) : List SpanKey :=
  executions.flatMap fun x =>
    x.modelCalls.map ModelCallInput.key ++ x.toolCalls.map ToolCallInput.key

/-- The places of the events that are named `tool.call`. -/
def toolPlaces (span : Json) : List ℕ :=
  ((eventsOf span).filter fun e => isToolCall e.1).map Prod.snd

theorem nodup_toolPlaces (span : Json) : (toolPlaces span).Nodup := by
  have hsub : (toolPlaces span).Sublist ((eventsOf span).map Prod.snd) :=
    List.filter_sublist.map Prod.snd
  refine hsub.nodup ?_
  rw [eventsOf, List.zipIdx_map_snd]
  exact List.nodup_range' _

section Keys

variable {display : Json → String}

/-- The keys of the tool calls of events. -/
theorem toolKeys_of_events {x : ExecutionInput} {events : List (Json × ℕ)}
    {calls : List ToolCallInput} (h : List.Forall₂ (ToolCallOf display x) events calls) :
    calls.map ToolCallInput.key =
      (events.map Prod.snd).map fun idx => ⟨x.traceId, childId x.spanId (some idx)⟩ := by
  induction h with
  | nil => rfl
  | cons hcall _ ih =>
    rw [List.map_cons, List.map_cons, List.map_cons, ih, ToolCallInput.key, hcall.traceId,
      hcall.spanId]
    rfl

/-- The keys of one execution's calls. -/
theorem childKeys_of_execution {span : Json} {x : ExecutionInput} (h : ExecutionOf display span x) :
    x.modelCalls.map ModelCallInput.key ++ x.toolCalls.map ToolCallInput.key =
      (none :: (toolPlaces span).map some).map fun place => ⟨x.traceId, childId x.spanId place⟩ := by
  obtain ⟨c, hcalls, htrace, hspan⟩ := h.modelCalls
  rw [toolKeys_of_events h.toolCalls, hcalls, List.map_singleton, ModelCallInput.key, htrace, hspan, ← toolPlaces,
    List.map_cons, List.map_map]
  rfl

/-- Executions with keys of their own have calls with keys of their own. -/
theorem nodup_childKeys {spans : List Json} {executions : List ExecutionInput}
    (h : List.Forall₂ (ExecutionOf display) spans executions)
    (hkeys : (executions.map ExecutionInput.key).Nodup) : (childKeys executions).Nodup := by
  have hplaces : ∀ x ∈ executions, ∃ places : List (Option ℕ), places.Nodup ∧
      x.modelCalls.map ModelCallInput.key ++ x.toolCalls.map ToolCallInput.key =
        places.map fun place => ⟨x.traceId, childId x.spanId place⟩ := by
    clear hkeys
    induction h with
    | nil => exact List.forall_mem_nil _
    | @cons span x _ _ hx _ ih =>
      refine List.forall_mem_cons.mpr ⟨⟨_, ?_, childKeys_of_execution hx⟩, ih⟩
      refine List.nodup_cons.mpr ⟨by simp, (nodup_toolPlaces span).map (Option.some_injective ℕ)⟩
  rw [childKeys, List.nodup_flatMap]
  constructor
  · intro x hx
    obtain ⟨places, hnodup, heq⟩ := hplaces x hx
    rw [heq]
    exact hnodup.map fun a b hab => (childId_injective (congrArg SpanKey.spanId hab)).2
  · -- A key that two executions share names the same span in both.
    refine (List.pairwise_map.mp hkeys).imp_of_mem fun {x y} hx hy hne => ?_
    obtain ⟨places, -, heq⟩ := hplaces x hx
    obtain ⟨places', -, heq'⟩ := hplaces y hy
    change List.Disjoint (_ ++ _) (_ ++ _)
    rw [heq, heq']
    intro k hk hk'
    obtain ⟨place, -, rfl⟩ := List.mem_map.mp hk
    obtain ⟨place', -, hsame⟩ := List.mem_map.mp hk'
    obtain ⟨htrace, hspan⟩ := SpanKey.mk.inj hsame
    refine hne ?_
    rw [ExecutionInput.key, ExecutionInput.key, htrace, (childId_injective hspan).1]

end Keys

/-! ## Conservation -/

/-- `Normalizer::normalize` by the span. -/
def Normalizer.normalizeSpan (display : Json → String) :
    Normalizer → Option String → Json → Except NormalizerError ExecutionInput
  | .claudeCode => ClaudeCodeNormalizer.normalizeSpan display
  | .codex => CodexNormalizer.normalizeSpan display
  | .foundry => FoundryNormalizer.normalizeSpan display

def isObject : Json → Bool
  | .obj _ => true
  | _ => false

/-- What the executions of a payload are. There is one for each span, in document order; an entry
of an `events` array is an object; calls have keys of their own when the spans do; no duration is
negative; and an execution is made of its span and resource alone, whatever their order. -/
structure Conserves (display : Json → String) (n : Normalizer) (payload : Json)
    (executions : List ExecutionInput) : Prop where
  perSpan : List.Forall₂ (ExecutionOf display) (spansOf payload) executions
  entries : ∀ span ∈ spansOf payload, ∀ e ∈ eventsOf span, isObject e.1 = true
  distinct : ((spansOf payload).map spanKey).Nodup → (childKeys executions).Nodup
  durations : ∀ x ∈ executions, 0 ≤ x.durationMs ∧ ∀ c ∈ x.toolCalls, 0 ≤ c.durationMs
  alone : (pairsOf ((documentOf payload).getD [])).map (executionOf display (n.normalizeSpan display)) =
    executions.map some
  rearranged : ∀ payload' document document', documentOf payload = some document →
    documentOf payload' = some document' → Rearranged document document' →
      ∃ out, n.normalize display payload' = .ok out ∧ out.executions.Perm executions

/-- The entries of the `events` arrays are objects, and a `tool.call` has no negative duration. -/
def EventsSound (display : Json → String) (payload : Json) : Prop :=
  ∀ span ∈ spansOf payload, ∀ e ∈ eventsOf span, isObject e.1 = true ∧
    (isToolCall e.1 = true →
      ∀ d, attrI64 display e.1 "duration.ms" "event" = .ok (some d) → 0 ≤ d)

section Conservation

variable {display : Json → String}

theorem Normalizer.normalize_eq (n : Normalizer) :
    n.normalize display = normalizeWith display (n.normalizeSpan display) := by
  cases n <;> rfl

theorem Normalizer.executionOf_span (n : Normalizer) {userEmail : Option String} {span : Json}
    {x : ExecutionInput} (h : n.normalizeSpan display userEmail span = .ok x) :
    ExecutionOf display span x := by
  cases n with
  | claudeCode => exact normalizeSpanWith_eq_ok h
  | codex => exact normalizeSpanWith_eq_ok h
  | foundry => exact normalizeSpanWith_eq_ok h

/-- Pairs that give executions give those of their spans. -/
theorem executions_of_pairs (n : Normalizer) {pairs : List (Json × Json)}
    {executions : List ExecutionInput}
    (h : pairs.map (executionOf display (n.normalizeSpan display)) = executions.map some) :
    List.Forall₂ (ExecutionOf display) (pairs.map Prod.snd) executions := by
  induction pairs generalizing executions with
  | nil =>
    obtain rfl : executions = [] := by simpa using h.symm
    exact .nil
  | cons pair pairs ih =>
    cases executions with
    | nil => cases h
    | cons x executions =>
      obtain ⟨hx, hrest⟩ := List.cons.inj h
      refine .cons ?_ (ih hrest)
      unfold executionOf at hx
      split at hx
      · next userEmail hemail =>
        cases hspan : n.normalizeSpan display userEmail pair.2 with
        | error e => simp [hspan, Except.toOption] at hx
        | ok y =>
          rw [hspan] at hx
          obtain rfl : y = x := Option.some.inj hx
          exact n.executionOf_span hspan
      · cases hx

/-- The keys of the spans are those of the executions. -/
theorem map_spanKey {spans : List Json} {executions : List ExecutionInput}
    (h : List.Forall₂ (ExecutionOf display) spans executions) :
    spans.map spanKey = (executions.map ExecutionInput.key).map some := by
  induction h with
  | nil => rfl
  | cons hx _ ih => rw [List.map_cons, List.map_cons, List.map_cons, hx.key, ih]

/-- The duration of a span is not negative. -/
theorem ExecutionOf.durationMs_nonneg {span : Json} {x : ExecutionInput}
    (h : ExecutionOf display span x) : 0 ≤ x.durationMs := by
  obtain ⟨stop, -, -, -, -, hle, -, hexact⟩ := h.times
  rw [hexact]
  exact Int.ediv_nonneg (by omega) (by decide)

/-- The tool calls of events have no negative duration exactly if the events say none. -/
theorem toolDurations_iff {x : ExecutionInput} {events : List (Json × ℕ)}
    {calls : List ToolCallInput} (h : List.Forall₂ (ToolCallOf display x) events calls) :
    (∀ c ∈ calls, 0 ≤ c.durationMs) ↔ ∀ e ∈ events,
      ∀ d, attrI64 display e.1 "duration.ms" "event" = .ok (some d) → 0 ≤ d := by
  induction h with
  | nil => simp
  | cons hcall _ ih =>
    rw [List.forall_mem_cons, List.forall_mem_cons, ih]
    refine and_congr_left fun _ => ⟨fun hd d hattr => ?_, fun hd => hd _ hcall.durationMs⟩
    rw [hcall.durationMs] at hattr
    obtain rfl := Option.some.inj (Except.ok.inj hattr)
    exact hd

/-- No duration is negative exactly if no event says one. -/
theorem durations_iff {spans : List Json} {executions : List ExecutionInput}
    (h : List.Forall₂ (ExecutionOf display) spans executions) :
    (∀ x ∈ executions, 0 ≤ x.durationMs ∧ ∀ c ∈ x.toolCalls, 0 ≤ c.durationMs) ↔
      ∀ span ∈ spans, ∀ e ∈ eventsOf span, isToolCall e.1 = true →
        ∀ d, attrI64 display e.1 "duration.ms" "event" = .ok (some d) → 0 ≤ d := by
  induction h with
  | nil => simp
  | cons hx _ ih =>
    rw [List.forall_mem_cons, List.forall_mem_cons, ih, toolDurations_iff hx.toolCalls]
    simp only [hx.durationMs_nonneg, true_and, List.mem_filter, and_imp]

/-- An accepted payload is conserved exactly if its events are sound. -/
theorem conserves_iff_eventsSound (n : Normalizer) {payload : Json} {out : TelemetryPayload}
    (h : n.normalize display payload = .ok out) :
    Conserves display n payload out.executions ↔ EventsSound display payload := by
  rw [n.normalize_eq] at h
  obtain ⟨document, hdocument, -, hxs⟩ := normalizeWith_eq_ok h
  have hpairs : (documentOf payload).getD [] = document := by rw [hdocument, Option.getD_some]
  have hspans : List.Forall₂ (ExecutionOf display) (spansOf payload) out.executions := by
    rw [spansOf, hpairs]
    exact executions_of_pairs n hxs
  constructor
  · intro hc span hspan e he
    exact ⟨hc.entries span hspan e he, (durations_iff hspans).mp hc.durations span hspan e he⟩
  · intro hsound
    refine ⟨hspans, fun span hspan e he => (hsound span hspan e he).1, fun hdistinct => ?_,
      (durations_iff hspans).mpr fun span hspan e he => (hsound span hspan e he).2, ?_, ?_⟩
    · rw [map_spanKey hspans] at hdistinct
      exact nodup_childKeys hspans hdistinct.of_map
    · rw [hpairs]
      exact hxs
    · intro payload' document₁ document' hread hdocument' hrearranged
      rw [n.normalize_eq]
      refine perm_of_rearranged h hdocument' fun document₂ hread₂ => ?_
      rw [Option.some.inj (hread₂.symm.trans hread)]
      exact hrearranged

/-- Whatever a registered normalizer accepts, it conserves exactly when all entries of the `events`
arrays are objects and no `tool.call` says a negative duration. -/
theorem registered_conserves_iff (display : Json → String) {provider : String} {payload : Json}
    {out : TelemetryPayload}
    (h : (dispatchNormalizer provider >>= fun n => n.normalize display payload) = .ok out) :
    ∃ n, dispatchNormalizer provider = .ok n ∧
      (Conserves display n payload out.executions ↔ EventsSound display payload) := by
  obtain ⟨n, hn, h⟩ := Except.ok_of_bind h
  exact ⟨n, hn, conserves_iff_eventsSound n h⟩

end Conservation

/-! ### One span -/

def stringJson (s : String) : Json := .str s.toList

def attrJson (key kind value : String) : Json :=
  .obj [("key", stringJson key), ("value", .obj [(kind, stringJson value)])]

/-- A payload of one span, with these events. -/
def spanPayload (events : List Json) : Json :=
  let span := .obj [("traceId", stringJson "t1"), ("spanId", stringJson "s1"),
    ("attributes", .arr [attrJson "model.name" "stringValue" "gpt-5"]),
    ("startTimeUnixNano", stringJson "1000000000"), ("endTimeUnixNano", stringJson "3500000000"),
    ("events", .arr events)]
  .obj [("resourceSpans", .arr [.obj [("resource", .obj []),
    ("scopeSpans", .arr [.obj [("spans", .arr [span])]])]])]

/-- Its execution, with these tool calls. -/
def spanExecutionInput (toolCalls : List ToolCallInput) : ExecutionInput :=
  ⟨"t1", "s1", none, 1000000000, 2500, [⟨"t1", "s1:mc", "gpt-5", none, none⟩], toolCalls⟩

/-- Two events, the second of which is a tool call. -/
def twoEvents : List Json :=
  [.obj [("name", stringJson "note")],
    .obj [("name", stringJson "tool.call"),
      ("attributes", .arr [attrJson "tool.name" "stringValue" "bash",
        attrJson "duration.ms" "intValue" "12"])]]

theorem twoEvents_sound : EventsSound (fun _ => "") (spanPayload twoEvents) := by
  intro span hspan e he
  obtain rfl := List.mem_singleton.mp hspan
  rcases List.mem_cons.mp he with rfl | he
  · exact ⟨rfl, fun h => absurd h (by decide)⟩
  · obtain rfl := List.mem_singleton.mp he
    refine ⟨rfl, fun _ d hd => ?_⟩
    obtain rfl : 12 = d := Option.some.inj (Except.ok.inj hd)
    decide

theorem registered_conserves_two_events :
    Conserves (fun _ => "") .codex (spanPayload twoEvents)
      [spanExecutionInput [⟨"t1", "s1:tc:1", "bash", 12⟩]] := by
  have haccepted : (dispatchNormalizer "codex" >>=
      fun n => n.normalize (fun _ => "") (spanPayload twoEvents)) =
        .ok ⟨[spanExecutionInput [⟨"t1", "s1:tc:1", "bash", 12⟩]]⟩ := by rfl
  obtain ⟨n, hn, hiff⟩ := registered_conserves_iff (fun _ => "") haccepted
  obtain rfl : n = .codex := (Except.ok.inj hn).symm
  exact hiff.mpr twoEvents_sound

/-- Every normalizer accepts a text in the place of an event, and drops it. -/
theorem text_event_is_dropped :
    (∀ n : Normalizer, n.normalize (fun _ => "") (spanPayload [stringJson "tool.call"]) =
        .ok ⟨[spanExecutionInput []]⟩) ∧
      ∀ n : Normalizer, ¬ Conserves (fun _ => "") n (spanPayload [stringJson "tool.call"])
        [spanExecutionInput []] := by
  constructor
  · intro n
    cases n <;> rfl
  · intro n h
    have hobject : isObject (stringJson "tool.call") = true :=
      h.entries _ List.mem_cons_self (stringJson "tool.call", 0) List.mem_cons_self
    cases hobject

end Foundry

end Governance
