import Governance.Resolve.Handle

/-!
# Who may ask for a resolution

`lightbridge-governance/src/authn.rs` and the request handler of `resolve.rs` in front of it: the
kube-apiserver reviews the bearer token, and the username it answers is looked up in an allowlist
of `namespace/name` entries after a normalisation. A username has more than one shape that is
normalised into an entry; this module says which.
-/

namespace Governance

namespace Resolve

/-! ## The verifier -/

/-- `TokenReviewStatus`, with the `username` of its user. -/
structure TokenReviewStatus where
  authenticated : Bool
  audiences : List String
  username : Option String

/-- `TokenReviewSpec`. -/
structure TokenReviewSpec where
  token : String
  audiences : List String

/-- What a TokenReview request meets: no answer, a status that is no success, a body that is no
review, or a review. -/
inductive ReviewAnswer where
  | unreachable
  | unsuccessful
  | malformed
  | review (status : TokenReviewStatus)

/-- `VerifyError`. -/
inductive VerifyError where
  | unreachable
  | rejected
  | notAllowed
  deriving DecidableEq

/-- The configuration of `TokenReviewVerifier` that decides. -/
structure TokenReviewVerifier where
  audiences : List String
  allowedAccounts : List String

/-- What Kubernetes puts before the namespace of a ServiceAccount. -/
def serviceAccountPrefix : String := "system:serviceaccount:"

/-- `replace(':', "/")` on a character. -/
def colonToSlash (c : Char) : Char := if c = ':' then '/' else c

/-- The normalisation of `verify`. -/
def normalized (username : String) : String :=
  match serviceAccountPrefix.toList.isPrefixOf? username.toList with
  | some rest => .ofList (rest.map colonToSlash)
  | none => username

/-- `TokenReviewVerifier::verify`, on what its request met. -/
def TokenReviewVerifier.verify (v : TokenReviewVerifier) : ReviewAnswer → Except VerifyError Unit
  | .unreachable => .error .unreachable
  | .unsuccessful => .error .unreachable
  | .malformed => .error .unreachable
  | .review status =>
    if !status.authenticated then .error .rejected
    else if !status.audiences.any fun a => v.audiences.contains a then .error .rejected
    else if v.allowedAccounts.contains (normalized (status.username.getD "")) then .ok ()
    else .error .notAllowed

/-! ## The handler -/

/-- What `handle` reads of a request: the `Authorization` header, if it is a text, and the
credential that the JSON reader finds in the body. -/
structure ResolveRequest where
  authorization : Option String
  credential : Option String

/-- `governance_core::credential::resolve` under its timeout. -/
inductive DatabaseAnswer where
  | identity (identity : ResolvedIdentity)
  | rejected
  | timedOut

/-- What `handle` asks, in the order it asks. -/
inductive Consultation where
  | tokenReview (spec : TokenReviewSpec)
  | cacheGet (key : String)
  | database (credential : String)
  | cacheInsert (key : String) (identity : ResolvedIdentity)

/-- Whether the cache or the database is asked. -/
def Consultation.isLookup : Consultation → Bool
  | .tokenReview _ => false
  | _ => true

/-- The answers that `handle` meets. -/
structure Backends where
  review : TokenReviewSpec → ReviewAnswer
  cache : String → Option ResolvedIdentity
  database : String → DatabaseAnswer

/-- The request as the concurrent model has it, with the outcome of its review. -/
def ResolveRequest.inbound (req : ResolveRequest) (verified : Bool) : Inbound where
  authorization := req.authorization
  tokenReview := verified
  credential := req.credential

/-- `extract_bearer_token`. -/
def ResolveRequest.extractBearerToken (req : ResolveRequest) : Option String :=
  (req.inbound true).extractBearerToken

/-- `handle`, with what it consulted. -/
def handle (cfg : Config) (v : TokenReviewVerifier) (b : Backends) (req : ResolveRequest) :
    Except RejectReason ResolvedIdentity × List Consultation :=
  match req.extractBearerToken with
  | none => (.error .missingToken, [])
  | some token =>
    let spec : TokenReviewSpec := ⟨token, v.audiences⟩
    match v.verify (b.review spec) with
    | .error _ => (.error .tokenReviewFailed, [.tokenReview spec])
    | .ok () =>
      match req.credential with
      | none => (.error .malformedBody, [.tokenReview spec])
      | some credential =>
        let key := cfg.cacheKey credential
        match b.cache key with
        | some identity => (.ok identity, [.tokenReview spec, .cacheGet key])
        | none =>
          match b.database credential with
          | .timedOut =>
            (.error .timeout, [.tokenReview spec, .cacheGet key, .database credential])
          | .rejected =>
            (.error .credentialRejected, [.tokenReview spec, .cacheGet key, .database credential])
          | .identity identity =>
            (.ok identity, [.tokenReview spec, .cacheGet key, .database credential,
              .cacheInsert key identity])

section Handle

variable {cfg : Config} {v : TokenReviewVerifier} {b : Backends} {req : ResolveRequest}

/-- The token of a request verifies. -/
def Verified (v : TokenReviewVerifier) (b : Backends) (req : ResolveRequest) : Prop :=
  ∃ token, req.extractBearerToken = some token ∧
    v.verify (b.review ⟨token, v.audiences⟩) = .ok ()

theorem verified_of_isLookup {c : Consultation} (hc : c ∈ (handle cfg v b req).2)
    (hlookup : c.isLookup) : Verified v b req := by
  unfold handle at hc
  split at hc
  · cases hc
  · next token htoken =>
    simp only at hc
    split at hc
    · obtain rfl := List.mem_singleton.mp hc
      cases hlookup
    · next hok => exact ⟨token, htoken, hok⟩

/-- The handler passes its checks where the concurrent model lets the request in, and then looks
the credential up in the cache first. -/
theorem enter_eq_waiting_iff (credential : String) (verified : Bool)
    (hverified : verified = true ↔ Verified v b req) :
    (req.inbound verified).enter = .waiting credential ↔
      Verified v b req ∧ req.credential = some credential := by
  have hextract : (req.inbound verified).extractBearerToken = req.extractBearerToken := rfl
  constructor
  · intro h
    unfold Inbound.enter at h
    split at h
    · cases h
    · split at h
      · next hreview =>
        refine ⟨hverified.mp hreview, ?_⟩
        split at h
        · cases h
        · next c hc =>
          cases h
          exact hc
      · cases h
  · rintro ⟨hok, hcred⟩
    obtain ⟨token, htoken, -⟩ := id hok
    have hreview : (req.inbound verified).tokenReview = true := hverified.mpr hok
    have hbody : (req.inbound verified).credential = some credential := hcred
    simp only [Inbound.enter, hextract, htoken, hreview, hbody, if_true]

end Handle

/-! ## The usernames that pass -/

/-- A ServiceAccount. Names of Kubernetes have neither a colon nor a slash. -/
structure ServiceAccount where
  ns : String
  name : String
  ns_plain : ':' ∉ ns.toList ∧ '/' ∉ ns.toList
  name_plain : ':' ∉ name.toList ∧ '/' ∉ name.toList

namespace ServiceAccount

variable (a : ServiceAccount)

/-- How the allowlist has it. -/
def entry : String := a.ns ++ "/" ++ a.name

/-- How Kubernetes reports it. -/
def username : String := serviceAccountPrefix ++ a.ns ++ ":" ++ a.name

theorem toList_entry : a.entry.toList = a.ns.toList ++ '/' :: a.name.toList := by
  simp [entry]

theorem toList_username : a.username.toList =
    serviceAccountPrefix.toList ++ (a.ns.toList ++ ':' :: a.name.toList) := by
  simp [username]

theorem slash_mem_entry : '/' ∈ a.entry.toList := by
  rw [toList_entry]
  simp

theorem colon_notMem_entry : ':' ∉ a.entry.toList := by
  rw [toList_entry, List.mem_append, List.mem_cons]
  rintro (h | h | h)
  · exact a.ns_plain.1 h
  · exact absurd h (by decide)
  · exact a.name_plain.1 h

end ServiceAccount

theorem map_colonToSlash {t : List Char} (h : ':' ∉ t) : t.map colonToSlash = t := by
  conv_rhs => rw [← List.map_id t]
  refine List.map_congr_left fun c hc => ?_
  have hne : c ≠ ':' := fun heq => h (heq ▸ hc)
  simp [colonToSlash, hne]

/-- A text without slashes comes from itself only. -/
theorem eq_of_map_colonToSlash {s t : List Char} (h : s.map colonToSlash = t) (ht : '/' ∉ t) :
    s = t := by
  rw [← h, List.mem_map] at ht
  refine (List.map_id s).symm.trans (.trans (List.map_congr_left fun c hc => ?_) h)
  by_cases hcolon : c = ':'
  · exact (ht ⟨c, hc, by simp [colonToSlash, hcolon]⟩).elim
  · simp [colonToSlash, hcolon]

theorem normalized_prefixed (s : List Char) {username : String}
    (h : username.toList = serviceAccountPrefix.toList ++ s) :
    normalized username = .ofList (s.map colonToSlash) := by
  have hrest : serviceAccountPrefix.toList.isPrefixOf? username.toList = some s :=
    List.isPrefixOf?_eq_some_iff_append_eq.mpr h.symm
  rw [normalized, hrest]

/-- Three usernames are normalised into one entry. -/
theorem normalized_eq_entry_iff (a : ServiceAccount) (username : String) :
    normalized username = a.entry ↔ username = a.username ∨ username = a.entry ∨
      username = serviceAccountPrefix ++ a.entry := by
  constructor
  · intro h
    cases hrest : serviceAccountPrefix.toList.isPrefixOf? username.toList with
    | none =>
      rw [normalized, hrest] at h
      exact .inr (.inl h)
    | some s =>
      have huser := (List.isPrefixOf?_eq_some_iff_append_eq.mp hrest).symm
      rw [normalized_prefixed s huser] at h
      have hmap := congrArg String.toList h
      rw [String.toList_ofList, a.toList_entry, List.map_eq_append_iff] at hmap
      obtain ⟨ns, rest, rfl, hns, hrest'⟩ := hmap
      obtain ⟨c, name, rfl, hc, hname⟩ := List.map_eq_cons_iff.mp hrest'
      rw [eq_of_map_colonToSlash hns a.ns_plain.2, eq_of_map_colonToSlash hname a.name_plain.2]
        at huser
      by_cases hcolon : c = ':'
      · refine .inl (String.toList_injective ?_)
        rw [huser, hcolon, a.toList_username]
      · have hslash : c = '/' := by simpa [colonToSlash, hcolon] using hc
        refine .inr (.inr (String.toList_injective ?_))
        rw [huser, hslash, String.toList_append, a.toList_entry]
  · rintro (rfl | rfl | rfl)
    · rw [normalized_prefixed _ a.toList_username, List.map_append, List.map_cons,
        map_colonToSlash a.ns_plain.1, map_colonToSlash a.name_plain.1]
      refine String.toList_injective ?_
      rw [String.toList_ofList, a.toList_entry]
      rfl
    · have hnone : serviceAccountPrefix.toList.isPrefixOf? a.entry.toList = none := by
        rw [Option.eq_none_iff_forall_not_mem]
        intro s hs
        refine a.colon_notMem_entry ?_
        rw [← List.isPrefixOf?_eq_some_iff_append_eq.mp hs]
        exact List.mem_append_left _ (by decide)
      rw [normalized, hnone]
    · rw [normalized_prefixed a.entry.toList (by rw [String.toList_append]),
        map_colonToSlash a.colon_notMem_entry, String.ofList_toList]

/-- A review that counts: it authenticates the token and confirms a requested audience. -/
def TokenReviewStatus.Confirms (status : TokenReviewStatus) (audiences : List String) : Prop :=
  status.authenticated = true ∧ ∃ audience ∈ status.audiences, audience ∈ audiences

/-- The answer confirms the token of a ServiceAccount of the allowlist. -/
def Allowlisted (audiences : List String) (accounts : List ServiceAccount)
    (answer : ReviewAnswer) : Prop :=
  ∃ status, answer = .review status ∧ status.Confirms audiences ∧
    ∃ a ∈ accounts, status.username = some a.username

/-- The answer confirms a token whose username is written like an entry of the allowlist, with or
without what Kubernetes puts before it. -/
def WrittenAsEntry (audiences : List String) (accounts : List ServiceAccount)
    (answer : ReviewAnswer) : Prop :=
  ∃ status, answer = .review status ∧ status.Confirms audiences ∧
    ∃ a ∈ accounts, status.username = some a.entry ∨
      status.username = some (serviceAccountPrefix ++ a.entry)

theorem verify_review_iff (v : TokenReviewVerifier) (status : TokenReviewStatus) :
    v.verify (.review status) = .ok () ↔ status.Confirms v.audiences ∧
      normalized (status.username.getD "") ∈ v.allowedAccounts := by
  obtain ⟨authenticated, audiences, username⟩ := status
  have hany : (audiences.any fun a => v.audiences.contains a) = true ↔
      ∃ audience ∈ audiences, audience ∈ v.audiences := by
    simp
  have hmem (name : String) : name ∈ v.allowedAccounts ↔ v.allowedAccounts.contains name = true :=
    List.contains_iff_mem.symm
  simp only [TokenReviewVerifier.verify, TokenReviewStatus.Confirms, ← hany,
    hmem]
  cases authenticated with
  | false => simp
  | true =>
    cases audiences.any fun a => v.audiences.contains a with
    | false => simp
    | true => cases v.allowedAccounts.contains (normalized (username.getD "")) <;> simp

/-- What `verify` lets through: the ServiceAccounts of the allowlist, and the usernames that are
written like its entries. -/
theorem verify_ok_iff (audiences : List String) (accounts : List ServiceAccount)
    (answer : ReviewAnswer) :
    TokenReviewVerifier.verify ⟨audiences, accounts.map ServiceAccount.entry⟩ answer = .ok () ↔
      Allowlisted audiences accounts answer ∨ WrittenAsEntry audiences accounts answer := by
  cases answer with
  | unreachable => simp [TokenReviewVerifier.verify, Allowlisted, WrittenAsEntry]
  | unsuccessful => simp [TokenReviewVerifier.verify, Allowlisted, WrittenAsEntry]
  | malformed => simp [TokenReviewVerifier.verify, Allowlisted, WrittenAsEntry]
  | review status =>
    have huser : ∀ name, normalized (status.username.getD "") = name → '/' ∈ name.toList →
        ∃ u, status.username = some u := by
      intro name hname hslash
      cases hu : status.username with
      | some u => exact ⟨u, rfl⟩
      | none =>
        rw [hu, Option.getD_none] at hname
        rw [← hname] at hslash
        exact absurd hslash (by decide)
    rw [verify_review_iff]
    constructor
    · rintro ⟨hconf, hmem⟩
      obtain ⟨a, ha, hentry⟩ := List.mem_map.mp hmem
      obtain ⟨u, hu⟩ := huser _ hentry.symm a.slash_mem_entry
      rw [hu, Option.getD_some] at hentry
      rcases (normalized_eq_entry_iff a u).mp hentry.symm with rfl | hwritten
      · exact .inl ⟨status, rfl, hconf, a, ha, hu⟩
      · refine .inr ⟨status, rfl, hconf, a, ha, ?_⟩
        simpa [hu] using hwritten
    · have hpass : ∀ a ∈ accounts, ∀ u, status.username = some u →
          (u = a.username ∨ u = a.entry ∨ u = serviceAccountPrefix ++ a.entry) →
          normalized (status.username.getD "") ∈ accounts.map ServiceAccount.entry := by
        intro a ha u hu hshape
        rw [hu, Option.getD_some, (normalized_eq_entry_iff a u).mpr hshape]
        exact List.mem_map_of_mem ha
      rintro (⟨status', heq, hconf, a, ha, hu⟩ | ⟨status', heq, hconf, a, ha, hu⟩)
      · cases heq
        exact ⟨hconf, hpass a ha _ hu (.inl rfl)⟩
      · cases heq
        refine ⟨hconf, ?_⟩
        rcases hu with hu | hu
        · exact hpass a ha _ hu (.inr (.inl rfl))
        · exact hpass a ha _ hu (.inr (.inr rfl))

/-- A username that is written like an entry is not the username of a ServiceAccount. -/
theorem not_allowlisted_of_writtenAsEntry {audiences : List String}
    {accounts : List ServiceAccount} {answer : ReviewAnswer}
    (h : WrittenAsEntry audiences accounts answer) : ¬ Allowlisted audiences accounts answer := by
  obtain ⟨status, rfl, -, a, -, hwritten⟩ := h
  rintro ⟨status', heq, -, a', -, huser⟩
  cases heq
  rcases hwritten with hu | hu
  · have hsame := congrArg String.toList (Option.some.inj (hu.symm.trans huser))
    refine a.colon_notMem_entry ?_
    rw [hsame, a'.toList_username]
    simp
  · have hsame := congrArg String.toList (Option.some.inj (hu.symm.trans huser))
    rw [String.toList_append, a'.toList_username] at hsame
    have hentry := List.append_cancel_left hsame
    have hslash := a.slash_mem_entry
    rw [hentry, List.mem_append, List.mem_cons] at hslash
    rcases hslash with h | h | h
    · exact a'.ns_plain.2 h
    · exact absurd h (by decide)
    · exact a'.name_plain.2 h

/-- The verifier lets exactly the ServiceAccounts of the allowlist through, except for an answer
whose username is written like an entry; and the cache and the database are asked only for a
token that it let through. -/
theorem verify_allowlisted_iff (cfg : Config) (audiences : List String)
    (accounts : List ServiceAccount) (b : Backends) (req : ResolveRequest) :
    let v : TokenReviewVerifier := ⟨audiences, accounts.map ServiceAccount.entry⟩
    (∀ answer, (v.verify answer = .ok () ↔ Allowlisted audiences accounts answer) ↔
      ¬ WrittenAsEntry audiences accounts answer) ∧
    ∀ c ∈ (handle cfg v b req).2, c.isLookup → ∃ token, req.extractBearerToken = some token ∧
      v.verify (b.review ⟨token, audiences⟩) = .ok () := by
  refine ⟨fun answer => ?_, fun c hc hlookup => verified_of_isLookup hc hlookup⟩
  rw [verify_ok_iff]
  constructor
  · intro h hwritten
    exact not_allowlisted_of_writtenAsEntry hwritten (h.mp (.inr hwritten))
  · intro hnot
    constructor
    · rintro (h | h)
      · exact h
      · exact (hnot h).elim
    · exact .inl

/-- The ServiceAccount of Authorino. -/
def authorino : ServiceAccount where
  ns := "authorino"
  name := "authorino"
  ns_plain := by decide
  name_plain := by decide

/-- A user who is named `authorino/authorino`, no ServiceAccount at all, is let through. -/
theorem user_named_like_entry_passes :
    TokenReviewVerifier.verify ⟨["api"], [authorino].map ServiceAccount.entry⟩
        (.review ⟨true, ["api"], some "authorino/authorino"⟩) = .ok () ∧
      ¬ Allowlisted ["api"] [authorino] (.review ⟨true, ["api"], some "authorino/authorino"⟩) := by
  refine ⟨by decide, ?_⟩
  refine not_allowlisted_of_writtenAsEntry ⟨_, rfl, ⟨rfl, "api", by simp, by simp⟩, authorino,
    by simp, .inl ?_⟩
  decide

end Resolve

end Governance
