import Governance.Otel.Normalize
import Governance.Lib.PercentCoding

/-!
# Identity as resource attributes

`OTEL_RESOURCE_ATTRIBUTES` is written by `resource_attributes_value` from the claims of an access
token, and read by the clients as a list of pairs with percent-coded values. Nothing is coded when
it is written, so a claim with a comma or an escape in it comes back as something else: after a
comma, as an attribute of its own.
-/

namespace Governance

open Utf8Text PercentCoding

namespace Normalize

/-- `OtelSettings::resource_attributes`, as `apply_telemetry` sets it. -/
def resourceAttributes (codec : StampCodec) (accessToken : Text) : List (String × Text) :=
  insertAttribute "service.namespace" "ai-cli".toList (identityAttributes codec accessToken)

/-- `OtelSettings::resource_attributes_value`. -/
def resourceAttributesValue (attributes : List (String × Text)) : Text :=
  [','].intercalate (attributes.map fun (key, value) => key.toList ++ '=' :: value)

/-- The claims of a token, where it has a payload that can be read. -/
def tokenClaims (codec : StampCodec) (accessToken : Text) : Option Json :=
  ((accessToken.splitOn '.')[1]?.bind codec.urlSafeNoPad).bind codec.fromSlice

/-- The claims that become attributes. -/
def identityClaims : List (String × String) :=
  [("sub", "user.id"), ("email", "user.email"), ("preferred_username", "user.name")]

/-- The text of a claim of a token. -/
def tokenClaim (codec : StampCodec) (accessToken : Text) (claim : String) : Option Text :=
  (tokenClaims codec accessToken).bind (claimText · claim)

/-! ## Which attributes there are -/

theorem insertAttribute_perm {key : String} (value : Text) {attributes : List (String × Text)}
    (h : key ∉ attributes.map Prod.fst) :
    (insertAttribute key value attributes).Perm ((key, value) :: attributes) := by
  induction attributes with
  | nil => exact List.Perm.refl _
  | cons a rest ih =>
    obtain ⟨k, v⟩ := a
    rw [List.map_cons, List.mem_cons, not_or] at h
    rw [insertAttribute]
    split
    · exact List.Perm.refl _
    · rw [if_neg h.1]
      exact ((ih h.2).cons (k, v)).trans (List.Perm.swap _ _ _)

/-- Inserting the claims of a list, whose names are new, adds those that have a text. -/
theorem foldl_insertAttribute_perm (claims : Json) {pairs : List (String × String)}
    {attributes : List (String × Text)}
    (hnames : (attributes.map Prod.fst ++ pairs.map Prod.snd).Nodup) :
    (pairs.foldl (fun attributes (claim, name) =>
      match claimText claims claim with
      | some value => insertAttribute name value attributes
      | none => attributes) attributes).Perm
      (attributes ++ pairs.filterMap fun pair => (claimText claims pair.1).map (pair.2, ·)) := by
  induction pairs generalizing attributes with
  | nil => simp
  | cons pair pairs ih =>
    obtain ⟨claim, name⟩ := pair
    rw [List.foldl_cons, List.filterMap_cons]
    cases hclaim : claimText claims claim with
    | none =>
      simp only [hclaim, Option.map_none]
      apply ih
      exact hnames.sublist ((List.Sublist.refl _).append (List.sublist_cons_self _ _))
    | some value =>
      simp only [hclaim, Option.map_some]
      rw [List.map_cons] at hnames
      have hnew : name ∉ attributes.map Prod.fst := by
        intro hmem
        exact (List.nodup_append.mp hnames).2.2 name hmem name List.mem_cons_self rfl
      have hperm := insertAttribute_perm value hnew
      have hnames' : ((insertAttribute name value attributes).map Prod.fst ++
          pairs.map Prod.snd).Nodup := by
        rw [((hperm.map Prod.fst).append_right _).nodup_iff, List.map_cons, List.cons_append,
          ← List.perm_middle.nodup_iff]
        exact hnames
      exact (ih hnames').trans ((hperm.append_right _).trans List.perm_middle.symm)

theorem identityAttributes_perm (codec : StampCodec) (accessToken : Text) :
    (identityAttributes codec accessToken).Perm
      (identityClaims.filterMap fun pair =>
        (tokenClaim codec accessToken pair.1).map (pair.2, ·)) := by
  rw [identityAttributes]
  cases hpayload : (accessToken.splitOn '.')[1]? with
  | none => simp [tokenClaim, tokenClaims, hpayload]
  | some payload =>
    cases hclaims : (codec.urlSafeNoPad payload).bind codec.fromSlice with
    | none => simp [tokenClaim, tokenClaims, hpayload, hclaims]
    | some claims =>
      have htoken (claim : String) : tokenClaim codec accessToken claim = claimText claims claim := by
        simp [tokenClaim, tokenClaims, hpayload, hclaims]
      simp only [hclaims, htoken]
      exact @foldl_insertAttribute_perm claims identityClaims [] (by decide)

theorem resourceAttributes_perm (codec : StampCodec) (accessToken : Text) :
    (resourceAttributes codec accessToken).Perm
      (("service.namespace", "ai-cli".toList) ::
        identityClaims.filterMap fun pair =>
          (tokenClaim codec accessToken pair.1).map (pair.2, ·)) := by
  have hidentity := identityAttributes_perm codec accessToken
  refine (insertAttribute_perm _ ?_).trans (hidentity.cons _)
  intro hmem
  rw [(hidentity.map Prod.fst).mem_iff] at hmem
  obtain ⟨a, ha, hname⟩ := List.mem_map.mp hmem
  obtain ⟨pair, hpair, hvalue⟩ := List.mem_filterMap.mp ha
  obtain ⟨value, -, rfl⟩ := Option.map_eq_some_iff.mp hvalue
  have hall : ∀ pair ∈ identityClaims, pair.2 ≠ "service.namespace" := by decide
  exact hall pair hpair hname

theorem mem_resourceAttributes {codec : StampCodec} {accessToken : Text} {a : String × Text} :
    a ∈ resourceAttributes codec accessToken ↔
      a = ("service.namespace", "ai-cli".toList) ∨
      ∃ claim, (claim, a.1) ∈ identityClaims ∧ tokenClaim codec accessToken claim = some a.2 := by
  rw [(resourceAttributes_perm codec accessToken).mem_iff, List.mem_cons, List.mem_filterMap]
  apply or_congr_right
  constructor
  · rintro ⟨⟨claim, name⟩, hpair, hvalue⟩
    obtain ⟨value, htext, rfl⟩ := Option.map_eq_some_iff.mp hvalue
    exact ⟨claim, hpair, htext⟩
  · rintro ⟨claim, hpair, hvalue⟩
    exact ⟨(claim, a.1), hpair, Option.map_eq_some_iff.mpr ⟨a.2, hvalue, rfl⟩⟩

theorem resourceAttributes_nodup (codec : StampCodec) (accessToken : Text) :
    ((resourceAttributes codec accessToken).map Prod.fst).Nodup := by
  have hidentity := (ownAttributes_spec codec accessToken none).1
  exact (pairwise_insertAttribute "service.namespace" "ai-cli".toList hidentity).imp
    fun hlt => hlt.ne

/-! ## Reading them back -/

/-- Attributes as the pairs that a reader is to find. -/
def texts (attributes : List (String × Text)) : List (Text × Text) :=
  attributes.map fun a => (a.1.toList, a.2)

theorem resourceAttributesValue_eq (attributes : List (String × Text)) :
    resourceAttributesValue attributes = joinPairs (texts attributes) := by
  rw [joinPairs, texts, List.map_map]
  rfl

/-- The variable decodes to exactly the attributes that were written. -/
def ReadsBack (codec : StampCodec) (accessToken : Text) : Prop :=
  (decodePairs (resourceAttributesValue (resourceAttributes codec accessToken))).map asMap =
    some (asMap (texts (resourceAttributes codec accessToken)))

/-- The names of attributes have no separators. -/
theorem plain_of_mem {codec : StampCodec} {accessToken : Text} {a : String × Text}
    (h : a ∈ resourceAttributes codec accessToken) : ',' ∉ a.1.toList ∧ '=' ∉ a.1.toList := by
  have hall : ∀ name ∈ "service.namespace" :: identityClaims.map Prod.snd,
      ',' ∉ name.toList ∧ '=' ∉ name.toList := by decide
  rcases mem_resourceAttributes.1 h with rfl | ⟨claim, hclaim, -⟩
  · exact hall _ List.mem_cons_self
  · exact hall _ (List.mem_cons_of_mem _ (List.mem_map_of_mem hclaim))

/-- The variable reads back if no claim that becomes an attribute has a comma or an escape in it,
and only then. -/
theorem resourceAttributes_readsBack (codec : StampCodec) (accessToken : Text) :
    ReadsBack codec accessToken ↔
      ∀ claim ∈ identityClaims.map Prod.fst, ∀ value,
        tokenClaim codec accessToken claim = some value → ',' ∉ value ∧ ¬ HasEscape value := by
  have hne : texts (resourceAttributes codec accessToken) ≠ [] := by
    intro hnil
    have hmem : ("service.namespace", "ai-cli".toList) ∈ resourceAttributes codec accessToken :=
      mem_resourceAttributes.2 (.inl rfl)
    rw [List.map_eq_nil_iff.mp hnil] at hmem
    cases hmem
  have hkeys : ((texts (resourceAttributes codec accessToken)).map Prod.fst).Nodup := by
    have hnodup := (resourceAttributes_nodup codec accessToken).map
      fun _ _ heq => String.toList_injective heq
    rw [List.map_map] at hnodup
    rw [texts, List.map_map]
    exact hnodup
  have hplain : ∀ p ∈ texts (resourceAttributes codec accessToken), ',' ∉ p.1 ∧ '=' ∉ p.1 := by
    intro p hp
    obtain ⟨a, ha, rfl⟩ := List.mem_map.mp hp
    exact plain_of_mem ha
  rw [ReadsBack, resourceAttributesValue_eq, joinPairs_readsBack hne hkeys hplain]
  constructor
  · intro h claim hclaim value hvalue
    obtain ⟨pair, hpair, rfl⟩ := List.mem_map.mp hclaim
    have hmem : (pair.2, value) ∈ resourceAttributes codec accessToken :=
      mem_resourceAttributes.2 (.inr ⟨pair.1, hpair, hvalue⟩)
    exact h _ (List.mem_map_of_mem hmem)
  · intro h p hp
    obtain ⟨a, ha, rfl⟩ := List.mem_map.mp hp
    rcases mem_resourceAttributes.1 ha with rfl | ⟨claim, hclaim, hvalue⟩
    · refine ⟨by decide, ?_⟩
      rw [← decodeValue_eq_self]
      decide
    · exact h claim (List.mem_map_of_mem hclaim) a.2 hvalue

/-- A token whose only claim is the `sub` `a,user.email=b`. -/
def forgingCodec : StampCodec where
  urlSafeNoPad _ := some (encode "\x7b\"sub\":\"a,user.email=b\"\x7d".toList)
  fromSlice _ := some (.obj [("sub", .str "a,user.email=b".toList)])
  toVec _ := none

/-- The claim of one attribute comes back as two attributes. -/
theorem sub_forges_email :
    ¬ ReadsBack forgingCodec "h.eyJzdWIiOiJhLHVzZXIuZW1haWw9YiJ9.s".toList := by
  intro h
  have hemail := congrArg (Option.map fun read => read "user.email".toList) h
  rw [Option.map_map] at hemail
  exact absurd hemail (by decide +kernel)

end Normalize

end Governance
