import Governance.Otel.Enrich

/-!
# The estimates of a request

`codex_cost::enrich`, on the requests before and behind it. A record that completes a Codex response
loses every `governance.estimate.` attribute that a client set and gets its own, which its native
attributes determine, so estimating twice is estimating once. Any other record stays as it was sent,
with the attributes of that name that it has.
-/

namespace Governance

open ByteLines

namespace Otlp

variable {ρ : Type}

/-! ## One record -/

/-- An attribute with the name of an estimate. -/
def isEstimate (a : KeyValue ρ) : Bool := startsWith a.key estimatePrefix

/-- The attributes of a record that are none of the estimate. -/
def nativeAttributes (record : LogRecord ρ) : List (KeyValue ρ) :=
  record.attributes.filter fun a => !isEstimate a

/-- The record completes a Codex response. -/
def CompletesResponse (record : LogRecord ρ) : Prop :=
  string record "event.name" = some "codex.sse_event" ∧
    string record "event.kind" = some "response.completed"

instance (record : LogRecord ρ) : Decidable (CompletesResponse record) :=
  inferInstanceAs (Decidable (_ ∧ _))

/-- The price is the sum of what is read, written and cached at the rates of the tariff. -/
structure PricedAt (record : LogRecord ρ) (cost : ℤ) : Prop where
  model : string record "model" = some "gpt-6-astra"
  writes : integer record "cache_write_token_count" = some 0
  sum : ∃ input cached output : ℕ,
    integer record "input_token_count" = some input ∧
    integer record "cached_token_count" = some cached ∧
    integer record "output_token_count" = some output ∧ cached ≤ input ∧
    cost = if input > 272000 then 20 * ((input : ℤ) - cached) + 2 * cached + 75 * output
      else 10 * ((input : ℤ) - cached) + cached + 50 * output
  fits : 0 ≤ cost ∧ cost < 2 ^ 63

theorem price_eq_some {input cached writes output : ℕ} {cost : ℤ}
    (h : price input cached writes output = some cost) :
    writes = 0 ∧ cached ≤ input ∧ (0 ≤ cost ∧ cost < 2 ^ 63) ∧
      cost = if input > 272000 then 20 * ((input : ℤ) - cached) + 2 * cached + 75 * output
        else 10 * ((input : ℤ) - cached) + cached + 50 * output := by
  rw [price] at h
  split at h
  · cases h
  · next hwrites =>
    split at h
    · cases h
    · next hcached =>
      by_cases hlong : input > 272000
      · simp only [if_pos hlong] at h ⊢
        split at h
        · next hfits =>
          have hcost := Option.some.inj h
          push_cast [Nat.cast_sub (not_lt.mp hcached)] at hcost
          omega
        · cases h
      · simp only [if_neg hlong] at h ⊢
        split at h
        · next hfits =>
          have hcost := Option.some.inj h
          push_cast [Nat.cast_sub (not_lt.mp hcached)] at hcost
          omega
        · cases h

theorem pricedAt_of_estimate {record : LogRecord ρ} {cost : ℤ} (h : estimate record = some cost) :
    PricedAt record cost := by
  rw [estimate] at h
  split at h
  · cases h
  · next hmodel =>
    obtain ⟨input, hinput, h⟩ := Option.bind_eq_some_iff.mp h
    obtain ⟨cached, hcached, h⟩ := Option.bind_eq_some_iff.mp h
    obtain ⟨writes, hwrites, h⟩ := Option.bind_eq_some_iff.mp h
    obtain ⟨output, houtput, h⟩ := Option.bind_eq_some_iff.mp h
    obtain ⟨rfl, hle, hfits, hcost⟩ := price_eq_some h
    exact ⟨not_not.mp hmodel, hwrites, ⟨input, cached, output, hinput, hcached, houtput, hle, hcost⟩,
      hfits⟩

/-! ### What a record is read by -/

theorem soleValue_native (attributes : List (KeyValue ρ)) {key : String}
    (hkey : startsWith key estimatePrefix = false) :
    soleValue (attributes.filter fun a => !isEstimate a) key = soleValue attributes key := by
  have hfilter : (attributes.filter fun a => !isEstimate a).filter (fun a => a.key = key) =
      attributes.filter fun a => a.key = key := by
    rw [List.filter_filter]
    apply List.filter_congr
    intro a _
    by_cases hak : a.key = key
    · simp [hak, isEstimate, hkey]
    · simp [hak]
  rw [soleValue, soleValue, hfilter]

section Native

variable {record record' : LogRecord ρ} (h : nativeAttributes record = nativeAttributes record')
include h

theorem soleValue_of_native {key : String} (hkey : startsWith key estimatePrefix = false) :
    soleValue record.attributes key = soleValue record'.attributes key := by
  rw [← soleValue_native record.attributes hkey, ← soleValue_native record'.attributes hkey]
  exact congrArg (soleValue · key) h

theorem string_of_native {key : String} (hkey : startsWith key estimatePrefix = false) :
    string record key = string record' key := by
  rw [string, string, soleValue_of_native h hkey]

theorem integer_of_native {key : String} (hkey : startsWith key estimatePrefix = false) :
    integer record key = integer record' key := by
  rw [integer, integer, soleValue_of_native h hkey]

theorem completesResponse_of_native : CompletesResponse record ↔ CompletesResponse record' := by
  rw [CompletesResponse, CompletesResponse, string_of_native h (by decide),
    string_of_native h (by decide)]

theorem estimate_of_native : estimate record = estimate record' := by
  rw [estimate, estimate, string_of_native h (by decide), integer_of_native h (by decide),
    integer_of_native h (by decide), integer_of_native h (by decide),
    integer_of_native h (by decide)]

end Native

/-! ### What a record gets -/

variable [Inhabited ρ]

/-- The estimate of a record, as attributes. -/
def estimateAttributes (record : LogRecord ρ) : List (KeyValue ρ) :=
  [keyValue (estimatePrefix ++ "status")
      (.stringValue (if (estimate record).isSome then "priced" else "unpriced")),
    keyValue (estimatePrefix ++ "rate_card") (.stringValue rateCard)] ++
  (estimate record).toList.map fun cost => keyValue (estimatePrefix ++ "micro_usd") (.intValue cost)

/-- A record behind the loop. -/
def annotated (record : LogRecord ρ) : LogRecord ρ := (annotate record).getD record

theorem annotated_of_not_completes {record : LogRecord ρ} (h : ¬ CompletesResponse record) :
    annotated record = record := by
  rw [annotated, annotate, if_pos]
  · rfl
  · by_contra hne
    push Not at hne
    exact h hne

theorem annotated_of_completes {record : LogRecord ρ} (h : CompletesResponse record) :
    annotated record =
      { record with attributes := nativeAttributes record ++ estimateAttributes record } := by
  have hestimate : estimate { record with
      attributes := record.attributes.filter fun a => !startsWith a.key estimatePrefix } =
      estimate record := by
    apply estimate_of_native
    simp [nativeAttributes, isEstimate, List.filter_filter]
  have hgate : ¬ (string record "event.name" ≠ some "codex.sse_event" ∨
      string record "event.kind" ≠ some "response.completed") := by
    rintro (hname | hkind)
    · exact hname h.1
    · exact hkind h.2
  rw [annotated, annotate, if_neg hgate]
  rw [Option.getD_some, hestimate, estimateAttributes]
  cases hcost : estimate record with
  | none => simp [attr, nativeAttributes, isEstimate]
  | some cost => simp [attr, nativeAttributes, isEstimate]

theorem isEstimate_of_mem {record : LogRecord ρ} {a : KeyValue ρ}
    (h : a ∈ estimateAttributes record) : isEstimate a = true := by
  have hnames : ∀ suffix ∈ ["status", "rate_card", "micro_usd"],
      startsWith (estimatePrefix ++ suffix) estimatePrefix = true := by decide
  simp only [estimateAttributes, List.cons_append, List.nil_append, List.mem_cons,
    List.mem_map] at h
  rcases h with rfl | rfl | ⟨cost, -, rfl⟩
  · exact hnames "status" (by decide)
  · exact hnames "rate_card" (by decide)
  · exact hnames "micro_usd" (by decide)

theorem estimateAttributes_nodup (record : LogRecord ρ) :
    ((estimateAttributes record).map KeyValue.key).Nodup := by
  rw [estimateAttributes]
  cases estimate record with
  | none =>
    show [estimatePrefix ++ "status", estimatePrefix ++ "rate_card"].Nodup
    decide
  | some cost =>
    show [estimatePrefix ++ "status", estimatePrefix ++ "rate_card",
      estimatePrefix ++ "micro_usd"].Nodup
    decide

theorem nativeAttributes_annotated (record : LogRecord ρ) :
    nativeAttributes (annotated record) = nativeAttributes record := by
  by_cases h : CompletesResponse record
  · have hnone : (estimateAttributes record).filter (fun a => !isEstimate a) = [] := by
      rw [List.filter_eq_nil_iff]
      intro a ha
      simp [isEstimate_of_mem ha]
    rw [annotated_of_completes h, nativeAttributes, List.filter_append, hnone, List.append_nil,
      nativeAttributes, List.filter_filter]
    simp
  · rw [annotated_of_not_completes h]

/-- What the estimate of a record is does not depend on the estimate it has. -/
theorem estimateAttributes_annotated (record : LogRecord ρ) :
    estimateAttributes (annotated record) = estimateAttributes record := by
  rw [estimateAttributes, estimateAttributes,
    estimate_of_native (nativeAttributes_annotated record)]

theorem annotated_annotated (record : LogRecord ρ) :
    annotated (annotated record) = annotated record := by
  by_cases h : CompletesResponse record
  · have h' := (completesResponse_of_native (nativeAttributes_annotated record)).2 h
    rw [annotated_of_completes h', estimateAttributes_annotated, nativeAttributes_annotated,
      annotated_of_completes h]
  · rw [annotated_of_not_completes h, annotated_of_not_completes h]

/-- What the loop makes of a record that completes a response: the attributes with the name of an
estimate are those that its native attributes determine, one of each name. -/
structure Estimated (record out : LogRecord ρ) : Prop where
  native : nativeAttributes out = nativeAttributes record
  rest : out.rest = record.rest
  own : out.attributes.filter isEstimate = estimateAttributes out
  once : ((out.attributes.filter isEstimate).map KeyValue.key).Nodup
  exact : ∀ cost, keyValue (estimatePrefix ++ "micro_usd") (.intValue cost) ∈ out.attributes →
    PricedAt out cost

theorem estimated_annotated {record : LogRecord ρ} (h : CompletesResponse record) :
    Estimated record (annotated record) := by
  have hown : (annotated record).attributes.filter isEstimate = estimateAttributes record := by
    have hnone : (nativeAttributes record).filter isEstimate = [] := by
      rw [List.filter_eq_nil_iff]
      intro a ha
      simpa using (List.mem_filter.mp ha).2
    rw [annotated_of_completes h, List.filter_append, hnone, List.nil_append,
      List.filter_eq_self.mpr fun a ha => isEstimate_of_mem ha]
  refine ⟨nativeAttributes_annotated record, ?_, ?_, ?_, ?_⟩
  · rw [annotated_of_completes h]
  · rw [hown, estimateAttributes_annotated]
  · rw [hown]
    exact estimateAttributes_nodup record
  · intro cost hmem
    apply pricedAt_of_estimate
    rw [estimate_of_native (nativeAttributes_annotated record)]
    have hname : isEstimate (keyValue (estimatePrefix ++ "micro_usd") (.intValue cost) :
        KeyValue ρ) = true := by
      show startsWith (estimatePrefix ++ "micro_usd") estimatePrefix = true
      decide
    have hin := List.mem_filter.mpr ⟨hmem, hname⟩
    rw [hown, estimateAttributes] at hin
    have hstatus : estimatePrefix ++ "micro_usd" ≠ estimatePrefix ++ "status" := by decide
    have hcard : estimatePrefix ++ "micro_usd" ≠ estimatePrefix ++ "rate_card" := by decide
    simp only [List.cons_append, List.nil_append, List.mem_cons, List.mem_map, keyValue,
      KeyValue.mk.injEq, hstatus, hcard, false_and, false_or] at hin
    obtain ⟨cost', hcost', -, hvalue, -⟩ := hin
    obtain rfl : cost' = cost := by simpa using hvalue
    exact Option.mem_toList.mp hcost'

/-! ## The whole request -/

/-- A request with every record changed. -/
def mapRecords (f : LogRecord ρ → LogRecord ρ) (request : ExportRequest ρ (LogRecord ρ)) :
    ExportRequest ρ (LogRecord ρ) :=
  ⟨request.groups.map fun group => { group with
    scopes := group.scopes.map fun scope => { scope with items := scope.items.map f } }⟩

omit [Inhabited ρ] in
theorem mapRecords_mapRecords (f g : LogRecord ρ → LogRecord ρ)
    (request : ExportRequest ρ (LogRecord ρ)) :
    mapRecords g (mapRecords f request) = mapRecords (g ∘ f) request := by
  simp [mapRecords, Function.comp_def]

omit [Inhabited ρ] in
/-- Where there is nothing to change every element stays. -/
theorem editList_getD {β : Type} (f : β → Option β) (xs : List β) :
    (editList f xs).getD xs = xs.map fun x => (f x).getD x := by
  rw [editList]
  split
  · rfl
  · next hnone =>
    have hid : ∀ x ∈ xs, (f x).getD x = x := by
      intro x hx
      cases hfx : f x with
      | none => rfl
      | some y => exact absurd (List.any_eq_true.mpr ⟨x, hx, by rw [hfx]; rfl⟩) hnone
    rw [Option.getD_none, List.map_congr_left hid, List.map_id']

theorem annotateAll_getD (request : ExportRequest ρ (LogRecord ρ)) :
    (annotateAll request).getD request = mapRecords annotated request := by
  have hscope (scope : Scope ρ (LogRecord ρ)) :
      ((editList annotate scope.items).map fun items => { scope with items := items }).getD scope =
        { scope with items := scope.items.map annotated } := by
    rw [← show ((editList annotate scope.items).getD scope.items) = scope.items.map annotated from
      editList_getD annotate scope.items]
    exact Option.getD_map (fun items => { scope with items := items }) scope.items _
  have hgroup (group : ResourceGroup ρ (LogRecord ρ)) :
      ((editList (fun scope : Scope ρ (LogRecord ρ) =>
          (editList annotate scope.items).map fun items => { scope with items := items })
        group.scopes).map fun scopes => { group with scopes := scopes }).getD group =
      { group with
        scopes := group.scopes.map fun scope => { scope with items := scope.items.map annotated } }
      := by
    rw [← List.map_congr_left fun scope _ => hscope scope, ← editList_getD]
    exact Option.getD_map (fun scopes => { group with scopes := scopes }) group.scopes _
  rw [mapRecords, ← List.map_congr_left fun group _ => hgroup group, ← editList_getD]
  exact Option.getD_map ExportRequest.mk request.groups _

/-- Printing a request and parsing it again gives it back. -/
def RequestCodec.GivesBack {α : Type} (codec : RequestCodec ρ α) (format : WireFormat)
    (request : ExportRequest ρ α) : Prop :=
  ∀ body, codec.parse format (codec.render format body request) = some request

theorem parse_codexCostEnrich {codec : OtlpCodec ρ} {body : Bytes} {format : WireFormat}
    {request : ExportRequest ρ (LogRecord ρ)} (hparse : codec.logs.parse format body = some request)
    (hback : ∀ out, annotateAll request = some out → codec.logs.GivesBack format out) :
    codec.logs.parse format (codexCostEnrich codec body format) =
      some (mapRecords annotated request) := by
  rw [← annotateAll_getD]
  simp only [codexCostEnrich, RequestCodec.rewrite, hparse]
  cases hout : annotateAll request with
  | none => exact hparse
  | some out => exact hback out hout body

/-- What the loop makes of a record. -/
structure EstimatedIfCodex (record out : LogRecord ρ) : Prop where
  estimated : CompletesResponse record → Estimated record out
  kept : ¬ CompletesResponse record → out = record

/-- Behind the loop every record that completes a Codex response has its own estimate and no other;
everything else of a request is kept in its place, and the loop changes nothing the second time. -/
theorem estimates_are_own {codec : OtlpCodec ρ} {body : Bytes} {format : WireFormat}
    {request : ExportRequest ρ (LogRecord ρ)} (hparse : codec.logs.parse format body = some request)
    (hback : ∀ out, annotateAll request = some out → codec.logs.GivesBack format out) :
    ∃ out,
      codec.logs.parse format (codexCostEnrich codec body format) = some out ∧
      (∃ f, out = mapRecords f request ∧ ∀ record, EstimatedIfCodex record (f record)) ∧
      codec.logs.parse format
        (codexCostEnrich codec (codexCostEnrich codec body format) format) = some out := by
  have hfirst := parse_codexCostEnrich hparse hback
  have htwice : mapRecords annotated (mapRecords annotated request) =
      mapRecords annotated request := by
    rw [mapRecords_mapRecords]
    congr 1
    funext record
    exact annotated_annotated record
  refine ⟨mapRecords annotated request, hfirst, ⟨annotated, rfl, ?_⟩, ?_⟩
  · intro record
    exact ⟨estimated_annotated, annotated_of_not_completes⟩
  · have hsecond := parse_codexCostEnrich hfirst ?_
    · rwa [htwice] at hsecond
    · intro out hout
      -- what the second loop prints is what the first one printed
      have hsame := annotateAll_getD (mapRecords annotated request)
      rw [hout, Option.getD_some, htwice] at hsame
      have hrequest := annotateAll_getD request
      cases hedit : annotateAll request with
      | none =>
        rw [hedit, Option.getD_none] at hrequest
        rw [← hrequest, hedit] at hout
        cases hout
      | some first =>
        rw [hedit, Option.getD_some] at hrequest
        rw [hsame, ← hrequest]
        exact hback first hedit

/-- A request of one record. -/
def oneRecord (attributes : List (KeyValue Unit)) : ExportRequest Unit (LogRecord Unit) :=
  ⟨[⟨none, [⟨[⟨attributes, ()⟩], ()⟩], ()⟩]⟩

/-- The attributes of a completed response of 100 tokens, 80 of them cached, and 10 written. -/
def completedAttributes : List (KeyValue Unit) :=
  [keyValue "event.name" (.stringValue "codex.sse_event"),
    keyValue "event.kind" (.stringValue "response.completed"),
    keyValue "model" (.stringValue "gpt-6-astra"),
    keyValue "input_token_count" (.intValue 100),
    keyValue "cached_token_count" (.stringValue "80"),
    keyValue "cache_write_token_count" (.intValue 0),
    keyValue "output_token_count" (.intValue 10)]

/-- A completed response with an estimate that its client made. -/
def sentRequest : ExportRequest Unit (LogRecord Unit) :=
  oneRecord (completedAttributes ++ [keyValue "governance.estimate.micro_usd" (.intValue 1)])

/-- The same with its own estimate. -/
def pricedRequest : ExportRequest Unit (LogRecord Unit) :=
  oneRecord (completedAttributes ++ [keyValue "governance.estimate.status" (.stringValue "priced"),
    keyValue "governance.estimate.rate_card" (.stringValue rateCard),
    keyValue "governance.estimate.micro_usd" (.intValue 780)])

/-- The decoder and the encoder on these requests and one more. -/
def twoRequests (other : ExportRequest Unit (LogRecord Unit)) : OtlpCodec Unit where
  logs :=
    let read (body : Bytes) := if body = [0] then some other else
      if body = [1] then some pricedRequest else none
    ⟨read, read, fun _ => some [1], fun _ => [1]⟩
  metrics := ⟨fun _ => none, fun _ => none, fun _ => none, fun _ => []⟩

theorem annotateAll_sentRequest : annotateAll sentRequest = some pricedRequest := by
  rfl

theorem estimates_are_own_sentRequest :
    ∃ out,
      (twoRequests sentRequest).logs.parse .json
        (codexCostEnrich (twoRequests sentRequest) [0] .json) = some out ∧
      ∃ f, out = mapRecords f sentRequest ∧ ∀ record, EstimatedIfCodex record (f record) := by
  have hback : ∀ out, annotateAll sentRequest = some out →
      (twoRequests sentRequest).logs.GivesBack .json out := by
    intro out hout body
    rw [annotateAll_sentRequest] at hout
    obtain rfl := Option.some.inj hout
    rfl
  obtain ⟨out, hout, hf, -⟩ := @estimates_are_own Unit _ (twoRequests sentRequest) [0] .json sentRequest rfl hback
  exact ⟨out, hout, hf⟩

/-- An event of another name, with an estimate that its client made. -/
def forgedAttributes : List (KeyValue Unit) :=
  [keyValue "event.name" (.stringValue "codex.api_request"),
    keyValue "governance.estimate.micro_usd" (.intValue 1)]

/-- The estimate of a client goes through on a record that completes no response. -/
theorem client_estimate_survives :
    (twoRequests (oneRecord forgedAttributes)).logs.parse .json
      (codexCostEnrich (twoRequests (oneRecord forgedAttributes)) [0] .json) =
        some (oneRecord forgedAttributes) ∧
    keyValue "governance.estimate.micro_usd" (.intValue 1) ∈ forgedAttributes ∧
    estimate (⟨forgedAttributes, ()⟩ : LogRecord Unit) = none := by
  have hkept : annotateAll (oneRecord forgedAttributes) = none := rfl
  refine ⟨?_, List.mem_cons_of_mem _ List.mem_cons_self, rfl⟩
  simp only [codexCostEnrich, RequestCodec.rewrite, RequestCodec.parse, twoRequests, if_pos, hkept]

end Otlp

end Governance
