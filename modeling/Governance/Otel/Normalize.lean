import Governance.Redact.Frame
import Governance.Lib.ByteLines

/-!
# Stamping identity onto a JSON body

`normalize/mod.rs`: the attributes that the collector trusts are stripped from every resource of
a body, whoever set them, and the daemon's own are added. A body is a `serde_json::Value` that
the caller has parsed; reading and printing JSON and the decoding of a token belong to other
crates, and a `StampCodec` carries them.

`stampedValue` is the JSON of what `stamp` returns (`stamp_output`). It can be computed from the
body without the stripped attributes (`stampedValue_stripForged`), so these have no influence on
it.
-/

namespace Governance

open Utf8Text ByteLines

namespace Normalize

/-- `URL_SAFE_NO_PAD.decode`, `serde_json::from_slice` and `serde_json::to_vec`. -/
structure StampCodec where
  urlSafeNoPad : Text → Option Bytes
  fromSlice : Bytes → Option Json
  toVec : Json → Option Bytes

/-- `FORGEABLE_IDENTITY_KEYS`. -/
def forgeableIdentityKeys : List String :=
  ["user.id", "user.email", "user.name", "account_id", "api_key_id", "azp"]

/-- `RETRY_KEY_ATTRIBUTE`. -/
def retryKeyAttribute : String := "governance.retry_key"

/-- `BTreeMap::insert`. -/
def insertAttribute (key : String) (value : Text) : List (String × Text) → List (String × Text)
  | [] => [(key, value)]
  | (k, v) :: rest =>
    if key < k then (key, value) :: (k, v) :: rest
    else if key = k then (key, value) :: rest
    else (k, v) :: insertAttribute key value rest

/-- The claim that becomes an attribute, if it is a string with something in it. -/
def claimText (claims : Json) (claim : String) : Option Text :=
  ((claims.get claim).bind Json.asStr).filter (· ≠ [])

/-- `otel::identity_attributes`. -/
def identityAttributes (codec : StampCodec) (accessToken : Text) : List (String × Text) :=
  match (accessToken.splitOn '.')[1]? with
  | none => []
  | some payload =>
    match (codec.urlSafeNoPad payload).bind codec.fromSlice with
    | none => []
    | some claims =>
      [("sub", "user.id"), ("email", "user.email"), ("preferred_username", "user.name")].foldl
        (fun attributes (claim, name) =>
          match claimText claims claim with
          | some value => insertAttribute name value attributes
          | none => attributes) []

/-- The attributes that `stamp` sets. -/
def ownAttributes (codec : StampCodec) (accessToken : Text) (idempotencyKey : Option Text) :
    List (String × Text) :=
  let attributes := identityAttributes codec accessToken
  match idempotencyKey with
  | some key => insertAttribute retryKeyAttribute key attributes
  | none => attributes

/-- Whether an attribute of a client is stripped. -/
def isStripped (attr : Json) : Bool :=
  match (attr.get "key").bind Json.asStr with
  | some key => forgeableIdentityKeys.any (·.toList = key) || retryKeyAttribute.toList = key
  | none => false

/-- An attribute of the daemon, as it is pushed. -/
def attributeValue (own : String × Text) : Json :=
  .obj [("key", .str own.1.toList), ("value", .obj [("stringValue", .str own.2)])]

/-- An attribute array after the strip and the pushes, and whether anything changed. -/
def stampArray (attributes : List (String × Text)) (attrs : List Json) : List Json × Bool :=
  let kept := attrs.filter fun attr => !isStripped attr
  (kept ++ attributes.map attributeValue,
    decide (kept.length ≠ attrs.length) || !attributes.isEmpty)

/-- The part of `stamp_resource` on the entries of `resource`. -/
def stampEntries (attributes : List (String × Text)) (entries : List (String × Json)) :
    List (String × Json) × Bool :=
  -- `entry("attributes").or_insert_with`
  let entries :=
    if (entries.lookup "attributes").isSome then entries else entries ++ [("attributes", .arr [])]
  match entries.lookup "attributes" with
  | some (.arr attrs) =>
    let r := stampArray attributes attrs
    (Json.mapEntry "attributes" (fun _ => .arr r.1) entries, r.2)
  | _ => (entries, false)

/-- `stamp_resource`. -/
def stampResource (attributes : List (String × Text)) (resource : Json) : Json × Bool :=
  match resource.get "resource" with
  | some (.obj entries) =>
    let r := stampEntries attributes entries
    (Json.mapKey "resource" (fun _ => .obj r.1) resource, r.2)
  | _ => (resource, false)

/-- The turn of the loop of `stamp` for one resource list. -/
def stampList (attributes : List (String × Text)) (r : Json × Bool) (key : String) : Json × Bool :=
  match r.1.get key with
  | some (.arr resources) =>
    (Json.mapKey key (fun _ => .arr (resources.map fun v => (stampResource attributes v).1)) r.1,
      r.2 || resources.any fun v => (stampResource attributes v).2)
  | _ => r

/-- The names of the resource lists. -/
def resourceLists : List String := ["resourceMetrics", "resourceLogs", "resourceSpans"]

/-- The loop of `stamp`: the value behind it, and whether it changed. -/
def stampValue (attributes : List (String × Text)) (value : Json) : Json × Bool :=
  resourceLists.foldl (stampList attributes) (value, false)

/-- `stamp`, with `none` for a failure to print. -/
def stamp (codec : StampCodec) (parsed : Option Json) (body : Bytes) (accessToken : Text)
    (idempotencyKey : Option Text) : Option Bytes :=
  let attributes := ownAttributes codec accessToken idempotencyKey
  match parsed with
  | none => some body
  | some value =>
    let r := stampValue attributes value
    if r.2 then codec.toVec r.1 else some body

/-! ## The loop as one rewrite -/

/-- Rewrites the `resource` of every entry of the three lists. -/
def overResources (g : Json → Json) (v : Json) : Json :=
  resourceLists.foldl (fun v key =>
    Json.mapKey key (Json.mapArray (List.map (Json.mapKey "resource" g))) v) v

/-- A `resource` behind the stamp. -/
def restamp (attributes : List (String × Text)) : Json → Json
  | .obj entries => .obj (stampEntries attributes entries).1
  | v => v

/-- The JSON of what `stamp` returns for a body. -/
def stampedValue (attributes : List (String × Text)) (v : Json) : Json :=
  overResources (restamp attributes) v

theorem mapKey_of_get {key : String} {v x : Json} (h : v.get key = some x) (g : Json → Json) :
    Json.mapKey key (fun _ => g x) v = Json.mapKey key g v := by
  cases v with
  | obj entries =>
    simp only [Json.mapKey, Json.obj.injEq]
    rw [Json.get] at h
    induction entries with
    | nil => rfl
    | cons kv rest ih =>
      obtain ⟨k, y⟩ := kv
      by_cases hk : k = key
      · subst hk
        obtain rfl : y = x := by simpa using h
        simp [Json.mapEntry]
      · have hne : (key == k) = false := beq_eq_false_iff_ne.mpr (Ne.symm hk)
        simp only [List.lookup, hne] at h
        simp [Json.mapEntry, hk, ih h]
  | _ => rfl

theorem mapKey_of_get_none {key : String} {v : Json} (h : v.get key = none) (g : Json → Json) :
    Json.mapKey key g v = v := by
  cases v with
  | obj entries =>
    simp only [Json.mapKey, Json.obj.injEq]
    rw [Json.get] at h
    induction entries with
    | nil => rfl
    | cons kv rest ih =>
      obtain ⟨k, y⟩ := kv
      by_cases hk : k = key
      · subst hk
        simp at h
      · have hne : (key == k) = false := beq_eq_false_iff_ne.mpr (Ne.symm hk)
        simp only [List.lookup, hne] at h
        simp [Json.mapEntry, hk, ih h]
  | _ => rfl

/-- A rewrite that leaves the value under the key as it is does nothing. -/
theorem mapKey_eq_self {key : String} {v : Json} {g : Json → Json}
    (h : ∀ x, v.get key = some x → g x = x) : Json.mapKey key g v = v := by
  cases hx : v.get key with
  | none => exact mapKey_of_get_none hx g
  | some x =>
    rw [← mapKey_of_get hx, h x hx]
    exact (mapKey_of_get hx id).trans (Json.mapKey_id key v)

variable {attributes : List (String × Text)}

theorem stampResource_fst (v : Json) :
    (stampResource attributes v).1 = Json.mapKey "resource" (restamp attributes) v := by
  unfold stampResource
  split
  · next entries hget => exact mapKey_of_get hget (restamp attributes)
  · next hget =>
    refine (mapKey_eq_self ?_).symm
    intro x hx
    cases x with
    | obj entries => exact absurd hx (hget entries)
    | _ => rfl

theorem stampList_fst (r : Json × Bool) (key : String) : (stampList attributes r key).1 =
    Json.mapKey key (Json.mapArray (List.map (Json.mapKey "resource" (restamp attributes)))) r.1 := by
  unfold stampList
  split
  · next resources hget =>
    have hmap : (resources.map fun v => (stampResource attributes v).1) =
        resources.map (Json.mapKey "resource" (restamp attributes)) :=
      List.map_congr_left fun v _ => stampResource_fst v
    rw [hmap]
    exact mapKey_of_get hget (Json.mapArray (List.map (Json.mapKey "resource" (restamp attributes))))
  · next hget =>
    refine (mapKey_eq_self ?_).symm
    intro x hx
    cases x with
    | arr items => exact absurd hx (hget items)
    | _ => rfl

theorem stampValue_fst (v : Json) : (stampValue attributes v).1 = stampedValue attributes v := by
  simp only [stampValue, stampedValue, overResources, resourceLists, List.foldl_cons,
    List.foldl_nil, stampList_fst]

/-- With something to add, `stamp` changes every attribute array there is. So where it reports no
change there was none, and nothing was changed. -/
theorem stampResource_unchanged (hne : attributes ≠ []) {v : Json}
    (h : (stampResource attributes v).2 = false) : (stampResource attributes v).1 = v := by
  unfold stampResource at h ⊢
  split
  · next entries hget =>
    rw [hget] at h
    have hentries : (stampEntries attributes entries).1 = entries := by
      unfold stampEntries at h ⊢
      dsimp only at h ⊢
      by_cases hsome : (entries.lookup "attributes").isSome
      · simp only [hsome, if_true] at h ⊢
        split
        · next attrs hattrs =>
          rw [hattrs] at h
          simp [stampArray, hne] at h
        · rfl
      · have hnone : entries.lookup "attributes" = none := Option.not_isSome_iff_eq_none.mp hsome
        have hlast : (entries ++ [("attributes", Json.arr [])]).lookup "attributes" =
            some (.arr []) := by simp [List.lookup_append, hnone]
        simp only [hsome, hlast, Bool.false_eq_true, if_false] at h
        simp [stampArray, hne] at h
    simp only [hentries]
    exact mapKey_eq_self fun x hx => Option.some.inj (hget.symm.trans hx)
  · rfl

theorem stampList_unchanged (hne : attributes ≠ []) {r : Json × Bool} {key : String}
    (h : (stampList attributes r key).2 = false) :
    r.2 = false ∧ (stampList attributes r key).1 = r.1 := by
  unfold stampList at h ⊢
  split
  · next resources hget =>
    rw [hget] at h
    obtain ⟨hbefore, hnone⟩ : r.2 = false ∧
        (resources.any fun v => (stampResource attributes v).2) = false := by
      simpa only [Bool.or_eq_false_iff] using h
    refine ⟨hbefore, mapKey_eq_self fun x hx => ?_⟩
    obtain rfl := Option.some.inj (hget.symm.trans hx)
    have hsame : (resources.map fun v => (stampResource attributes v).1) = resources := by
      refine (List.map_congr_left fun v hv => ?_).trans (List.map_id' resources)
      exact stampResource_unchanged hne (by simpa using List.any_eq_false.mp hnone v hv)
    simp only [hsame]
  · next hget =>
    split at h
    · next resources hget' => exact absurd hget' (hget resources)
    · exact ⟨h, rfl⟩

theorem stampValue_unchanged (hne : attributes ≠ []) {v : Json}
    (h : (stampValue attributes v).2 = false) : (stampValue attributes v).1 = v := by
  obtain ⟨h₂, hspans⟩ := stampList_unchanged hne h
  obtain ⟨h₁, hlogs⟩ := stampList_unchanged hne h₂
  obtain ⟨-, hmetrics⟩ := stampList_unchanged hne h₁
  exact hspans.trans (hlogs.trans hmetrics)

/-! ## Rewriting resources -/

theorem overResources_comp (g h : Json → Json) (v : Json) :
    overResources g (overResources h v) = overResources (g ∘ h) v := by
  have hcomp : ∀ key v, Json.mapKey key (Json.mapArray (List.map (Json.mapKey "resource" g)))
      (Json.mapKey key (Json.mapArray (List.map (Json.mapKey "resource" h))) v) =
      Json.mapKey key (Json.mapArray (List.map (Json.mapKey "resource" (g ∘ h)))) v := by
    intro key v
    rw [Json.mapKey_mapKey]
    congr 1
    funext x
    cases x with
    | arr items =>
      show Json.arr ((items.map _).map _) = Json.arr (items.map _)
      rw [List.map_map]
      congr 2
      funext item
      exact Json.mapKey_mapKey item
    | _ => rfl
  simp only [overResources, resourceLists, List.foldl_cons, List.foldl_nil]
  rw [Json.mapKey_comm (by decide : "resourceSpans" ≠ "resourceMetrics"),
    Json.mapKey_comm (by decide : "resourceLogs" ≠ "resourceMetrics"), hcomp,
    Json.mapKey_comm (by decide : "resourceSpans" ≠ "resourceLogs"), hcomp, hcomp]

/-- The `resource` of every entry of the three lists, in their order. -/
def resourcesOf (v : Json) : List Json :=
  resourceLists.flatMap fun key =>
    (((v.get key).bind Json.asArray).getD []).filterMap (Json.get "resource")

theorem resourcesOf_overResources (g : Json → Json) (v : Json) :
    resourcesOf (overResources g v) = (resourcesOf v).map g := by
  have hlist : ∀ key v, ((((Json.mapKey key (Json.mapArray (List.map (Json.mapKey "resource" g)))
      v).get key).bind Json.asArray).getD []).filterMap (Json.get "resource") =
      ((((v.get key).bind Json.asArray).getD []).filterMap (Json.get "resource")).map g := by
    intro key v
    rw [Json.get_mapKey_self]
    cases v.get key with
    | none => rfl
    | some x =>
      cases x with
      | arr items =>
        show (items.map _).filterMap _ = (items.filterMap _).map g
        rw [List.filterMap_map, List.map_filterMap]
        refine List.filterMap_congr fun item _ => ?_
        exact Json.get_mapKey_self "resource" g item
      | _ => rfl
  simp only [resourcesOf, overResources, resourceLists, List.foldl_cons, List.foldl_nil,
    List.flatMap_cons, List.flatMap_nil, List.map_append, List.append_nil]
  rw [hlist "resourceSpans", Json.get_mapKey (by decide : "resourceSpans" ≠ "resourceMetrics"),
    Json.get_mapKey (by decide : "resourceLogs" ≠ "resourceMetrics"), hlist "resourceMetrics",
    Json.get_mapKey (by decide : "resourceSpans" ≠ "resourceLogs"), hlist "resourceLogs",
    Json.get_mapKey (by decide : "resourceMetrics" ≠ "resourceLogs"),
    Json.get_mapKey (by decide : "resourceLogs" ≠ "resourceSpans"),
    Json.get_mapKey (by decide : "resourceMetrics" ≠ "resourceSpans")]

/-! ## One resource -/

/-- The attributes of a client that are kept, with the daemon's own behind them. -/
def restampedArray (attributes : List (String × Text)) (attrs : List Json) : List Json :=
  attrs.filter (fun attr => !isStripped attr) ++ attributes.map attributeValue

theorem stampEntries_of_none {entries : List (String × Json)}
    (h : entries.lookup "attributes" = none) : (stampEntries attributes entries).1 =
      entries ++ [("attributes", .arr (attributes.map attributeValue))] := by
  have hlast : (entries ++ [("attributes", Json.arr [])]).lookup "attributes" = some (.arr []) := by
    simp [List.lookup_append, h]
  have hmap : ∀ g, Json.mapEntry "attributes" g (entries ++ [("attributes", Json.arr [])]) =
      entries ++ [("attributes", g (.arr []))] := by
    intro g
    induction entries with
    | nil => rfl
    | cons kv rest ih =>
      obtain ⟨k, y⟩ := kv
      by_cases hk : k = "attributes"
      · subst hk
        simp at h
      · have hne : ("attributes" == k) = false := beq_eq_false_iff_ne.mpr (Ne.symm hk)
        simp only [List.lookup, hne] at h
        simp [Json.mapEntry, hk, ih h (by simp [List.lookup_append, h])]
  simp only [stampEntries, h, Option.isSome_none, Bool.false_eq_true, if_false, hlast, hmap,
    stampArray, List.filter_nil, List.nil_append]

theorem stampEntries_of_arr {entries : List (String × Json)} {attrs : List Json}
    (h : entries.lookup "attributes" = some (.arr attrs)) : (stampEntries attributes entries).1 =
      Json.mapEntry "attributes" (fun _ => .arr (restampedArray attributes attrs)) entries := by
  simp only [stampEntries, h, Option.isSome_some, if_true]
  rfl

theorem stampEntries_of_other {entries : List (String × Json)} {x : Json}
    (h : entries.lookup "attributes" = some x) (hx : ∀ attrs, x ≠ .arr attrs) :
    (stampEntries attributes entries).1 = entries := by
  simp only [stampEntries, h, Option.isSome_some, if_true]
  cases x with
  | arr attrs => exact absurd rfl (hx attrs)
  | _ => rfl

/-- The attribute array of a `resource`: a missing one is empty. -/
def attributesOf : Json → Option (List Json)
  | .obj entries =>
    match entries.lookup "attributes" with
    | none => some []
    | some (.arr attrs) => some attrs
    | some _ => none
  | _ => none

/-- A `resource` without the attributes that are stripped. -/
def stripResource (r : Json) : Json :=
  Json.mapKey "attributes" (Json.mapArray (List.filter fun attr => !isStripped attr)) r

/-- A `resource` without its attribute array. -/
def eraseAttributes : Json → Json
  | .obj entries =>
    match entries.lookup "attributes" with
    | some (.arr _) => .obj (entries.eraseP fun entry => entry.1 = "attributes")
    | _ => .obj entries
  | v => v

theorem lookup_mapEntry (g : Json → Json) (entries : List (String × Json)) (key : String) :
    (Json.mapEntry key g entries).lookup key = (entries.lookup key).map g :=
  Json.get_mapKey_self key g (.obj entries)

theorem mapEntry_eq_self {entries : List (String × Json)} {key : String} {g : Json → Json}
    (h : ∀ x, entries.lookup key = some x → g x = x) : Json.mapEntry key g entries = entries :=
  Json.obj.inj (mapKey_eq_self (v := .obj entries) h)

theorem mapEntry_mapEntry (g h : Json → Json) (entries : List (String × Json)) (key : String) :
    Json.mapEntry key g (Json.mapEntry key h entries) = Json.mapEntry key (g ∘ h) entries :=
  Json.obj.inj (Json.mapKey_mapKey (.obj entries))

theorem eraseP_mapEntry (g : Json → Json) (entries : List (String × Json)) (key : String) :
    ((Json.mapEntry key g entries).eraseP fun entry => entry.1 = key) =
      entries.eraseP fun entry => entry.1 = key := by
  induction entries with
  | nil => rfl
  | cons kv rest ih =>
    obtain ⟨k, y⟩ := kv
    by_cases hk : k = key
    · simp [Json.mapEntry, hk]
    · simp [Json.mapEntry, hk, ih]

/-- The three kinds of a `resource` that is an object. -/
theorem attributes_cases (entries : List (String × Json)) :
    entries.lookup "attributes" = none ∨
      (∃ attrs, entries.lookup "attributes" = some (.arr attrs)) ∨
      ∃ x, entries.lookup "attributes" = some x ∧ ∀ attrs, x ≠ .arr attrs := by
  cases h : entries.lookup "attributes" with
  | none => exact .inl rfl
  | some x =>
    cases x with
    | arr attrs => exact .inr (.inl ⟨attrs, rfl⟩)
    | _ => exact .inr (.inr ⟨_, rfl, by nofun⟩)

/-- The stripped attributes have no influence on the stamp. -/
theorem restamp_stripResource (r : Json) : restamp attributes (stripResource r) =
    restamp attributes r := by
  cases r with
  | obj entries =>
    show Json.obj (stampEntries attributes (Json.mapEntry "attributes" _ entries)).1 =
      Json.obj (stampEntries attributes entries).1
    congr 1
    obtain h | ⟨attrs, h⟩ | ⟨x, h, hx⟩ := attributes_cases entries
    · rw [mapEntry_eq_self]
      intro x hx
      rw [h] at hx
      cases hx
    · have h' := lookup_mapEntry (Json.mapArray (List.filter fun attr => !isStripped attr)) entries
        "attributes"
      rw [h] at h'
      rw [stampEntries_of_arr h', stampEntries_of_arr h, mapEntry_mapEntry, restampedArray,
        List.filter_filter]
      simp only [Bool.and_self]
      rfl
    · rw [mapEntry_eq_self]
      intro y hy
      obtain rfl := Option.some.inj (h.symm.trans hy)
      cases x with
      | arr attrs => exact absurd rfl (hx attrs)
      | _ => rfl
  | _ => rfl

/-- What a stamp makes of the attribute array. -/
theorem attributesOf_restamp (r : Json) : attributesOf (restamp attributes r) =
    (attributesOf r).map (restampedArray attributes) := by
  cases r with
  | obj entries =>
    obtain h | ⟨attrs, h⟩ | ⟨x, h, hx⟩ := attributes_cases entries
    · simp only [restamp, attributesOf, stampEntries_of_none h, h]
      simp [List.lookup_append, h, restampedArray]
    · simp only [restamp, attributesOf, stampEntries_of_arr h, lookup_mapEntry, h, Option.map_some]
    · simp only [restamp, attributesOf, stampEntries_of_other h hx, h]
      cases x with
      | arr attrs => exact absurd rfl (hx attrs)
      | _ => rfl
  | _ => rfl

/-- A stamp touches nothing else of a `resource`. -/
theorem eraseAttributes_restamp (r : Json) :
    eraseAttributes (restamp attributes r) = eraseAttributes r := by
  cases r with
  | obj entries =>
    obtain h | ⟨attrs, h⟩ | ⟨x, h, hx⟩ := attributes_cases entries
    · have hnone : ∀ entry ∈ entries, ¬ entry.1 = "attributes" := by
        intro entry hmem heq
        have hne := List.lookup_eq_none_iff.mp h entry hmem
        simp [heq] at hne
      have hlookup : (entries ++ [("attributes", Json.arr (attributes.map attributeValue))]).lookup
          "attributes" = some (.arr (attributes.map attributeValue)) := by
        simp [List.lookup_append, h]
      simp only [restamp, eraseAttributes, stampEntries_of_none h, h, hlookup]
      rw [List.eraseP_append_right _ (by simpa using hnone)]
      simp
    · simp only [restamp, eraseAttributes, stampEntries_of_arr h, lookup_mapEntry, h,
        Option.map_some, eraseP_mapEntry]
    · simp only [restamp, stampEntries_of_other h hx]
  | _ => rfl

theorem filter_restampedArray (hown : ∀ a ∈ attributes, isStripped (attributeValue a) = true)
    (attrs : List Json) : (restampedArray attributes attrs).filter isStripped =
        attributes.map attributeValue ∧
      (restampedArray attributes attrs).filter (fun attr => !isStripped attr) =
        attrs.filter fun attr => !isStripped attr := by
  have hall : ∀ attr ∈ attributes.map attributeValue, isStripped attr = true := by
    intro attr hattr
    obtain ⟨a, ha, rfl⟩ := List.mem_map.mp hattr
    exact hown a ha
  have hnone : ((attributes.map attributeValue).filter fun attr => !isStripped attr) = [] :=
    List.filter_eq_nil_iff.mpr fun attr hattr => by simp [hall attr hattr]
  simp only [restampedArray, List.filter_append, List.filter_filter, hnone,
    List.filter_eq_self.mpr hall]
  simp

/-- A second stamp finds only the daemon's own values to strip. -/
theorem restampedArray_idem (hown : ∀ a ∈ attributes, isStripped (attributeValue a) = true)
    (attrs : List Json) : restampedArray attributes (restampedArray attributes attrs) =
      restampedArray attributes attrs := by
  rw [restampedArray, (filter_restampedArray hown attrs).2]
  rfl

theorem restamp_idem (hown : ∀ a ∈ attributes, isStripped (attributeValue a) = true) (r : Json) :
    restamp attributes (restamp attributes r) = restamp attributes r := by
  cases r with
  | obj entries =>
    show Json.obj (stampEntries attributes (stampEntries attributes entries).1).1 =
      Json.obj (stampEntries attributes entries).1
    congr 1
    obtain h | ⟨attrs, h⟩ | ⟨x, h, hx⟩ := attributes_cases entries
    · have hlookup : (entries ++ [("attributes", Json.arr (attributes.map attributeValue))]).lookup
          "attributes" = some (.arr (restampedArray attributes [])) := by
        simp [List.lookup_append, h, restampedArray]
      rw [stampEntries_of_none h, stampEntries_of_arr hlookup, restampedArray_idem hown,
        mapEntry_eq_self]
      intro x hx
      exact Option.some.inj (hlookup.symm.trans hx)
    · have hlookup := lookup_mapEntry (fun _ => .arr (restampedArray attributes attrs)) entries
        "attributes"
      rw [h] at hlookup
      rw [stampEntries_of_arr h, stampEntries_of_arr hlookup, mapEntry_mapEntry,
        restampedArray_idem hown]
      rfl
    · rw [stampEntries_of_other h hx, stampEntries_of_other h hx]
  | _ => rfl

/-! ## The daemon's own attributes -/

theorem mem_insertAttribute {key : String} {value : Text} {attributes : List (String × Text)}
    {a : String × Text} (h : a ∈ insertAttribute key value attributes) :
    a = (key, value) ∨ a ∈ attributes := by
  induction attributes with
  | nil => exact .inl (List.mem_singleton.mp h)
  | cons b rest ih =>
    obtain ⟨k, v⟩ := b
    unfold insertAttribute at h
    split at h
    · exact List.mem_cons.mp h
    split at h
    · exact (List.mem_cons.mp h).imp_right (List.mem_cons_of_mem _)
    · obtain rfl | h := List.mem_cons.mp h
      · exact .inr List.mem_cons_self
      · exact (ih h).imp_right (List.mem_cons_of_mem _)

/-- The keys stay strictly in order. -/
theorem pairwise_insertAttribute (key : String) (value : Text) {attributes : List (String × Text)}
    (h : (attributes.map Prod.fst).Pairwise (· < ·)) :
    ((insertAttribute key value attributes).map Prod.fst).Pairwise (· < ·) := by
  induction attributes with
  | nil => exact List.pairwise_singleton _ _
  | cons b rest ih =>
    obtain ⟨k, v⟩ := b
    obtain ⟨hk, hrest⟩ := List.pairwise_cons.mp h
    unfold insertAttribute
    split
    · next hlt =>
      refine List.pairwise_cons.mpr ⟨?_, h⟩
      intro k' hk'
      obtain rfl | hk' := List.mem_cons.mp hk'
      · exact hlt
      · exact hlt.trans (hk k' hk')
    · next hge =>
      split
      · next heq =>
        subst heq
        exact h
      · next hne =>
        refine List.pairwise_cons.mpr ⟨?_, ih hrest⟩
        intro k' hk'
        obtain ⟨a, ha, rfl⟩ := List.mem_map.mp hk'
        obtain rfl | ha := mem_insertAttribute ha
        · exact lt_of_le_of_ne (not_lt.mp hge) (Ne.symm hne)
        · exact hk a.1 (List.mem_map_of_mem ha)

section Own

variable (codec : StampCodec) (accessToken : Text) (idempotencyKey : Option Text)

/-- The keys of the daemon's own attributes are strictly in order, and all of them are stripped
from what a client sends. -/
theorem ownAttributes_spec :
    ((ownAttributes codec accessToken idempotencyKey).map Prod.fst).Pairwise (· < ·) ∧
      ∀ a ∈ ownAttributes codec accessToken idempotencyKey,
        a.1 ∈ forgeableIdentityKeys ∨ a.1 = retryKeyAttribute := by
  have hfold : ∀ (claims : Json) (pairs : List (String × String)) (attributes : List (String × Text)),
      (∀ pair ∈ pairs, pair.2 ∈ forgeableIdentityKeys) →
      ((attributes.map Prod.fst).Pairwise (· < ·) ∧ ∀ a ∈ attributes, a.1 ∈ forgeableIdentityKeys) →
      let out := pairs.foldl (fun attributes (claim, name) =>
        match claimText claims claim with
        | some value => insertAttribute name value attributes
        | none => attributes) attributes
      (out.map Prod.fst).Pairwise (· < ·) ∧ ∀ a ∈ out, a.1 ∈ forgeableIdentityKeys := by
    intro claims pairs
    induction pairs with
    | nil => exact fun attributes _ h => h
    | cons pair pairs ih =>
      intro attributes hpairs h
      obtain ⟨claim, name⟩ := pair
      refine ih _ (fun pair hpair => hpairs pair (List.mem_cons_of_mem _ hpair)) ?_
      dsimp only
      split
      · next value _ =>
        refine ⟨pairwise_insertAttribute name value h.1, fun a ha => ?_⟩
        obtain rfl | ha := mem_insertAttribute ha
        · exact hpairs _ List.mem_cons_self
        · exact h.2 a ha
      · exact h
  have hidentity : ((identityAttributes codec accessToken).map Prod.fst).Pairwise (· < ·) ∧
      ∀ a ∈ identityAttributes codec accessToken, a.1 ∈ forgeableIdentityKeys := by
    unfold identityAttributes
    split
    · exact ⟨List.Pairwise.nil, by simp⟩
    · split
      · exact ⟨List.Pairwise.nil, by simp⟩
      · exact hfold _ _ _ (by decide) ⟨List.Pairwise.nil, by simp⟩
  unfold ownAttributes
  cases idempotencyKey with
  | none => exact ⟨hidentity.1, fun a ha => .inl (hidentity.2 a ha)⟩
  | some key =>
    refine ⟨pairwise_insertAttribute _ key hidentity.1, fun a ha => ?_⟩
    obtain rfl | ha := mem_insertAttribute ha
    · exact .inr rfl
    · exact .inl (hidentity.2 a ha)

end Own

/-! ## The whole body -/

/-- A body without the attributes that are stripped. -/
def stripForged (v : Json) : Json := overResources stripResource v

/-- A body without its attribute arrays. -/
def eraseArrays (v : Json) : Json := overResources eraseAttributes v

/-- The output can be computed from the body without the stripped attributes. -/
theorem stampedValue_stripForged (v : Json) :
    stampedValue attributes (stripForged v) = stampedValue attributes v := by
  rw [stampedValue, stripForged, overResources_comp]
  congr 1
  funext r
  exact restamp_stripResource r

/-- The key of an attribute of the daemon is one that is stripped. -/
theorem isStripped_attributeValue {a : String × Text}
    (h : a.1 ∈ forgeableIdentityKeys ∨ a.1 = retryKeyAttribute) :
    isStripped (attributeValue a) = true := by
  show (forgeableIdentityKeys.any (·.toList = a.1.toList) ||
    decide (retryKeyAttribute.toList = a.1.toList)) = true
  rw [Bool.or_eq_true]
  refine h.imp (fun hmem => ?_) fun heq => ?_
  · exact List.any_eq_true.mpr ⟨a.1, hmem, decide_eq_true rfl⟩
  · rw [heq]
    exact decide_eq_true rfl

/-- What `stamp` does with a JSON body, for one token and one idempotency key. -/
structure ForgeryProof (codec : StampCodec) (accessToken key : Text)
    (own : List (String × Text)) (v : Json) : Prop where
  /-- What is returned is `stampedValue own v`: printed, or the body it was parsed from. -/
  output : ∀ body, stamp codec (some v) body accessToken (some key) =
      codec.toVec (stampedValue own v) ∨
    (stamp codec (some v) body accessToken (some key) = some body ∧ stampedValue own v = v)
  /-- Bodies that differ in stripped attributes only have one output. -/
  blind : ∀ w, stripForged w = stripForged v → stampedValue own w = stampedValue own v
  /-- An attribute array has, of the stripped keys, the daemon's own values and no others. -/
  ownOnly : ∀ attrs ∈ (resourcesOf (stampedValue own v)).filterMap attributesOf,
    attrs.filter isStripped = own.map attributeValue
  once : (own.map Prod.fst).Nodup
  stripped : ∀ a ∈ own, a.1 ∈ forgeableIdentityKeys ∨ a.1 = retryKeyAttribute
  /-- All other attributes are there, in their order. -/
  kept : (resourcesOf (stampedValue own v)).map (fun r =>
      (attributesOf r).map (List.filter fun attr => !isStripped attr)) =
    (resourcesOf v).map fun r => (attributesOf r).map (List.filter fun attr => !isStripped attr)
  /-- Nothing but the attribute arrays has changed. -/
  rest : eraseArrays (stampedValue own v) = eraseArrays v
  /-- A second stamp changes nothing. -/
  again : stampedValue own (stampedValue own v) = stampedValue own v

theorem stamp_forgery_proof (codec : StampCodec) (accessToken key : Text) (v : Json) :
    ForgeryProof codec accessToken key (ownAttributes codec accessToken (some key)) v := by
  obtain ⟨hordered, hkeys⟩ := ownAttributes_spec codec accessToken (some key)
  have hne : ownAttributes codec accessToken (some key) ≠ [] := by
    simp only [ownAttributes]
    cases identityAttributes codec accessToken with
    | nil => exact List.cons_ne_nil _ _
    | cons a rest =>
      obtain ⟨k, x⟩ := a
      unfold insertAttribute
      split
      · exact List.cons_ne_nil _ _
      · split <;> exact List.cons_ne_nil _ _
  have hstamp : ∀ body, stamp codec (some v) body accessToken (some key) =
      if (stampValue (ownAttributes codec accessToken (some key)) v).2 then
        codec.toVec (stampValue (ownAttributes codec accessToken (some key)) v).1
      else some body := fun body => rfl
  generalize ownAttributes codec accessToken (some key) = own at hordered hkeys hne hstamp ⊢
  have hown : ∀ a ∈ own, isStripped (attributeValue a) = true :=
    fun a ha => isStripped_attributeValue (hkeys a ha)
  have harrays : (resourcesOf (stampedValue own v)).map attributesOf =
      (resourcesOf v).map fun r => (attributesOf r).map (restampedArray own) := by
    rw [stampedValue, resourcesOf_overResources, List.map_map]
    exact List.map_congr_left fun r _ => attributesOf_restamp r
  refine ⟨?_, ?_, ?_, hordered.imp fun h => h.ne, hkeys, ?_, ?_, ?_⟩
  · intro body
    rw [hstamp body]
    split
    · exact .inl (by rw [stampValue_fst])
    · next hchanged =>
      have hsame := stampValue_unchanged hne (by simpa using hchanged)
      rw [stampValue_fst] at hsame
      exact .inr ⟨rfl, hsame⟩
  · intro w hw
    rw [← stampedValue_stripForged w, hw, stampedValue_stripForged]
  · intro attrs hattrs
    obtain ⟨r, hr, hattrs⟩ := List.mem_filterMap.mp hattrs
    have hmem : some attrs ∈ (resourcesOf (stampedValue own v)).map attributesOf :=
      List.mem_map.mpr ⟨r, hr, hattrs⟩
    rw [harrays] at hmem
    obtain ⟨r', -, hr'⟩ := List.mem_map.mp hmem
    obtain ⟨attrs', -, rfl⟩ := Option.map_eq_some_iff.mp hr'
    exact (filter_restampedArray hown attrs').1
  · have hkept := congrArg (List.map (Option.map (List.filter fun attr => !isStripped attr))) harrays
    rw [List.map_map, List.map_map] at hkept
    refine hkept.trans (List.map_congr_left fun r _ => ?_)
    show ((attributesOf r).map (restampedArray own)).map _ = _
    rw [Option.map_map]
    congr 1
    funext attrs
    exact (filter_restampedArray hown attrs).2
  · rw [eraseArrays, stampedValue, overResources_comp, eraseArrays]
    congr 1
    funext r
    exact eraseAttributes_restamp r
  · rw [stampedValue, stampedValue, overResources_comp]
    congr 1
    funext r
    exact restamp_idem hown r

/-- A body of one log resource with these attributes. -/
def logBody (attrs : List Json) : Json :=
  .obj [("resourceLogs", .arr [.obj [("resource", .obj [("attributes", .arr attrs)])]])]

/-- A token that is no JWT, and a body whose client claims to be someone. -/
theorem stamp_forgery_proof_claimed_user :
    stampedValue (ownAttributes ⟨fun _ => none, fun _ => none, fun _ => none⟩ [] (some ['k']))
        (logBody [.obj [("key", .str "user.id".toList), ("value", .str ['m'])], .bool true]) =
      stampedValue (ownAttributes ⟨fun _ => none, fun _ => none, fun _ => none⟩ [] (some ['k']))
        (logBody [.bool true]) :=
  (stamp_forgery_proof _ [] ['k'] _).blind _ rfl

end Normalize

end Governance
