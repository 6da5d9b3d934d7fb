import Governance.Lib.ByteLines

/-!
# Where credentials are sent

`security.rs`, `oauth/discovery.rs` and the requests that carry a refresh token, an authorization
code or a PKCE verifier: every endpoint of a discovery document, fetched or cached, is pinned to
the issuer's origin before it is used. A redirect of such a request is followed wherever
`require_secure` allows, any number of times, and 307 and 308 send the body again.
-/

namespace Governance

namespace Endpoints

open ByteLines

/-! ## URLs -/

/-- `url::Host`. -/
inductive Host where
  | domain (name : String)
  | ipv4 (a b c d : UInt8)
  | ipv6 (address : BitVec 128)
  deriving DecidableEq

/-- What the code reads of a `url::Url`. -/
structure Url where
  scheme : String
  host : Option Host
  port : Option ℕ
  path : String
  deriving DecidableEq

/-- `security::is_loopback`. -/
def isLoopback : Host → Bool
  | .domain name => name.toLower = "localhost"
  | .ipv4 a _ _ _ => a = 127
  | .ipv6 address => address = 1

/-- `security::require_secure` accepts the URL. -/
def requireSecure (url : Url) : Bool :=
  url.scheme = "https" || (url.scheme = "http" && url.host.any isLoopback)

/-- The ports that `Url::origin` fills in. -/
def defaultPort (scheme : String) : Option ℕ :=
  if scheme = "https" ∨ scheme = "wss" then some 443
  else if scheme = "http" ∨ scheme = "ws" then some 80
  else if scheme = "ftp" then some 21
  else none

/-- `Url::origin`, without the opaque origins, which equal no other. -/
def Url.origin (url : Url) : Option (String × Host × ℕ) :=
  match url.host, defaultPort url.scheme with
  | some host, some port => some (url.scheme, host, url.port.getD port)
  | _, _ => none

/-- The two URLs have one origin. -/
def SameOrigin (a b : Url) : Prop := a.origin ≠ none ∧ a.origin = b.origin

instance (a b : Url) : Decidable (SameOrigin a b) := inferInstanceAs (Decidable (_ ∧ _))

/-! ## Discovery -/

/-- `OidcMetadata`. -/
structure OidcMetadata where
  issuer : String
  authorizationEndpoint : Option String
  tokenEndpoint : String
  deviceAuthorizationEndpoint : Option String
  revocationEndpoint : Option String

/-- `CachedDiscovery`. -/
structure CachedDiscovery where
  fetchedAt : ℕ
  metadata : OidcMetadata

/-- Why a document is not used. An endpoint is named by its field. -/
inductive DiscoveryError where
  | issuerUrl
  | insecureIssuer
  | fetch
  | decode
  | differentIssuer (discovered : String)
  | endpointUrl (field : String)
  | insecureEndpoint (field : String)
  | differentOrigin (field : String)
  deriving DecidableEq

/-- The parsers: `Url::parse`, and the JSON decoders of a document and of a cache file. -/
structure DiscoveryEnv where
  parseUrl : String → Option Url
  decodeMetadata : Bytes → Option OidcMetadata
  decodeCached : Bytes → Option CachedDiscovery

/-- `trim_end_matches('/')`. -/
def trimEndSlashes (s : String) : String :=
  String.ofList (s.toList.reverse.dropWhile (· = '/')).reverse

/-- `DISCOVERY_TTL`, in seconds. -/
def discoveryTtl : ℕ := 24 * 60 * 60

namespace DiscoveryEnv

variable (env : DiscoveryEnv)

/-- `require_same_origin`. -/
def requireSameOrigin (issuerUrl : Url) (endpoint field : String) : Except DiscoveryError Unit :=
  match env.parseUrl endpoint with
  | none => .error (.endpointUrl field)
  | some url =>
    if requireSecure url = false then .error (.insecureEndpoint field)
    else if ¬ SameOrigin url issuerUrl then .error (.differentOrigin field)
    else .ok ()

/-- `require_same_origin` of an endpoint that may be absent. -/
def requireIfPresent (issuerUrl : Url) (endpoint : Option String) (field : String) :
    Except DiscoveryError Unit :=
  match endpoint with
  | none => .ok ()
  | some endpoint => env.requireSameOrigin issuerUrl endpoint field

/-- `validate`. -/
def validate (issuer : String) (issuerUrl : Url) (metadata : OidcMetadata) :
    Except DiscoveryError Unit :=
  let discovered := trimEndSlashes metadata.issuer
  if discovered ≠ issuer then .error (.differentIssuer discovered)
  else do
    env.requireIfPresent issuerUrl metadata.authorizationEndpoint "authorization_endpoint"
    env.requireSameOrigin issuerUrl metadata.tokenEndpoint "token_endpoint"
    env.requireIfPresent issuerUrl metadata.deviceAuthorizationEndpoint
      "device_authorization_endpoint"
    env.requireIfPresent issuerUrl metadata.revocationEndpoint "revocation_endpoint"

/-- `load_cached`, on the bytes of the cache file, if it can be read. -/
def loadCached (issuer : String) (issuerUrl : Url) (now : ℕ) (file : Option Bytes) :
    Option OidcMetadata := do
  let cached ← env.decodeCached (← file)
  if now - cached.fetchedAt > discoveryTtl then none
  else match env.validate issuer issuerUrl cached.metadata with
    | .ok () => some cached.metadata
    | .error _ => none

/-- `discover`, with what the request for the document brings, if it succeeds. -/
def discover (issuer : String) (now : ℕ) (file fetched : Option Bytes) :
    Except DiscoveryError OidcMetadata :=
  let issuer := trimEndSlashes issuer
  match env.parseUrl issuer with
  | none => .error .issuerUrl
  | some issuerUrl =>
    if requireSecure issuerUrl = false then .error .insecureIssuer
    else match env.loadCached issuer issuerUrl now file with
      | some metadata => .ok metadata
      | none =>
        match fetched with
        | none => .error .fetch
        | some bytes =>
          match env.decodeMetadata bytes with
          | none => .error .decode
          | some metadata => (env.validate issuer issuerUrl metadata).map fun _ => metadata

end DiscoveryEnv

/-! ## Requests and redirects -/

/-- The requests with a refresh token, an authorization code, a device code or a PKCE secret. -/
inductive CredentialRequest where
  | authorizationCode
  | refresh
  | deviceAuthorization
  | devicePoll
  | revocation
  deriving DecidableEq

/-- The endpoint that a request is posted to. -/
def OidcMetadata.endpointFor (metadata : OidcMetadata) : CredentialRequest → Option String
  | .authorizationCode => some metadata.tokenEndpoint
  | .refresh => some metadata.tokenEndpoint
  | .deviceAuthorization => metadata.deviceAuthorizationEndpoint
  | .devicePoll => some metadata.tokenEndpoint
  | .revocation => metadata.revocationEndpoint

/-- The statuses that redirect. -/
inductive RedirectStatus where
  | movedPermanently
  | found
  | seeOther
  | temporaryRedirect
  | permanentRedirect
  deriving DecidableEq

/-- 307 and 308 send the method and the body again; the others turn a POST into a GET. -/
def RedirectStatus.resends : RedirectStatus → Bool
  | .temporaryRedirect => true
  | .permanentRedirect => true
  | _ => false

/-- What a server does with a request: an answer, a failure, or a redirect to any URL. -/
inductive Response where
  | ended
  | redirect (status : RedirectStatus) (target : Url)
  deriving DecidableEq

/-- The URL that `redirect_policy` lets the client follow. -/
def Response.followed : Response → Option Url
  | .ended => none
  | .redirect _ target => if requireSecure target then some target else none

/-- The response sends the client on with the body. -/
def Response.resends : Response → Bool
  | .ended => false
  | .redirect status target => requireSecure target && status.resends

/-- A request that is sent, and whether it has the credential in its body. -/
structure Sent where
  url : Url
  credential : Bool
  deriving DecidableEq

/-- The requests that come of one POST, for the responses of the servers one after the other. -/
def sent (url : Url) (responses : ℕ → Response) : ℕ → Option Sent
  | 0 => some ⟨url, true⟩
  | k + 1 => (sent url responses k).bind fun request =>
    (responses k).followed.map fun target =>
      ⟨target, request.credential && (responses k).resends⟩

/-- Every URL that gets the credential has the issuer's origin and is secure, and the redirects
end. -/
structure Confined (issuerUrl url : Url) (responses : ℕ → Response) : Prop where
  origin : ∀ k request, sent url responses k = some request → request.credential = true →
    SameOrigin request.url issuerUrl ∧ requireSecure request.url = true
  ends : ∃ k, sent url responses k = none

/-- The servers do not send the body on to another origin, and do not redirect for ever. -/
structure StaysAtIssuer (issuerUrl : Url) (responses : ℕ → Response) : Prop where
  origin : ∀ k, (∀ j ≤ k, (responses j).resends = true) → ∀ target,
    (responses k).followed = some target → SameOrigin target issuerUrl
  ends : ∃ k, (responses k).followed = none

theorem Response.followed_of_resends {response : Response} (h : response.resends = true) :
    ∃ target, response.followed = some target := by
  cases response with
  | ended => cases h
  | redirect status target =>
    have hsecure := (Bool.and_eq_true_iff.mp h).1
    exact ⟨target, if_pos hsecure⟩

theorem Response.requireSecure_followed {response : Response} {target : Url}
    (h : response.followed = some target) : requireSecure target = true := by
  cases response with
  | ended => cases h
  | redirect status target' =>
    obtain ⟨hsecure, heq⟩ := Option.ite_none_right_eq_some.mp h
    obtain rfl := Option.some.inj heq
    exact hsecure

/-- The credential goes as far as every response so far sends it on. -/
theorem sent_credential_iff (url : Url) {responses : ℕ → Response} {k : ℕ} :
    (∃ request, sent url responses k = some request ∧ request.credential = true) ↔
      ∀ j < k, (responses j).resends = true := by
  induction k with
  | zero => simp [sent]
  | succ k ih =>
    constructor
    · rintro ⟨request, hsent, hcred⟩ j hj
      obtain ⟨before, hbefore, hnext⟩ := Option.bind_eq_some_iff.mp hsent
      obtain ⟨target, -, rfl⟩ := Option.map_eq_some_iff.mp hnext
      obtain ⟨hprev, hresend⟩ := Bool.and_eq_true_iff.mp hcred
      rcases Nat.lt_succ_iff_lt_or_eq.mp hj with hlt | rfl
      · exact ih.mp ⟨before, hbefore, hprev⟩ j hlt
      · exact hresend
    · intro hall
      obtain ⟨before, hbefore, hprev⟩ := ih.mpr fun j hj => hall j (Nat.lt_succ_of_lt hj)
      have hresend := hall k (Nat.lt_succ_self k)
      obtain ⟨target, htarget⟩ := Response.followed_of_resends hresend
      refine ⟨⟨target, before.credential && (responses k).resends⟩, ?_, ?_⟩
      · simp [sent, hbefore, htarget]
      · simp [hprev, hresend]

/-- The redirects end where a response is not followed. -/
theorem sent_ends_iff {url : Url} {responses : ℕ → Response} :
    (∃ k, sent url responses k = none) ↔ ∃ k, (responses k).followed = none := by
  constructor
  · rintro ⟨k, hk⟩
    induction k with
    | zero => cases hk
    | succ k ih =>
      cases hprev : sent url responses k with
      | none => exact ih hprev
      | some request =>
        rw [sent, hprev] at hk
        exact ⟨k, by simpa using hk⟩
  · rintro ⟨k, hk⟩
    refine ⟨k + 1, ?_⟩
    simp [sent, hk]

/-- For every endpoint of the issuer's origin: the credential stays there and the request ends
exactly if no response sends the body elsewhere and some response is not followed. -/
theorem confined_iff {issuerUrl url : Url} (horigin : SameOrigin url issuerUrl)
    (hsecure : requireSecure url = true) (responses : ℕ → Response) :
    Confined issuerUrl url responses ↔ StaysAtIssuer issuerUrl responses := by
  constructor
  · intro h
    refine ⟨?_, sent_ends_iff.1 h.ends⟩
    intro k hall target htarget
    obtain ⟨before, hbefore, hcred⟩ :=
      (sent_credential_iff url).mpr fun j hj => hall j (Nat.le_of_lt hj)
    have hnext : sent url responses (k + 1) = some ⟨target, true⟩ := by
      simp [sent, hbefore, htarget, hcred, hall k le_rfl]
    exact (h.origin (k + 1) _ hnext rfl).1
  · intro h
    refine ⟨?_, sent_ends_iff.2 h.ends⟩
    intro k request hsent hcred
    cases k with
    | zero =>
      obtain rfl := Option.some.inj hsent
      exact ⟨horigin, hsecure⟩
    | succ k =>
      have hall := (sent_credential_iff url).mp ⟨request, hsent, hcred⟩
      obtain ⟨before, hbefore, hnext⟩ := Option.bind_eq_some_iff.mp hsent
      obtain ⟨target, htarget, rfl⟩ := Option.map_eq_some_iff.mp hnext
      refine ⟨?_, Response.requireSecure_followed htarget⟩
      exact h.origin k (fun j hj => hall j (Nat.lt_succ_of_le hj)) target htarget

/-! ## Endpoints are pinned -/

section Pinned

variable {env : DiscoveryEnv} {issuerUrl : Url} {field : String}

/-- The endpoint is a secure URL of the issuer's origin. -/
def Pinned (env : DiscoveryEnv) (issuerUrl : Url) (endpoint : String) : Prop :=
  ∃ url, env.parseUrl endpoint = some url ∧ SameOrigin url issuerUrl ∧ requireSecure url = true

theorem requireSameOrigin_ok {endpoint : String}
    (h : env.requireSameOrigin issuerUrl endpoint field = .ok ()) : Pinned env issuerUrl endpoint := by
  unfold DiscoveryEnv.requireSameOrigin at h
  split at h
  · cases h
  · next url hurl =>
    split at h
    · cases h
    · next hsecure =>
      split at h
      · cases h
      · next horigin => exact ⟨url, hurl, not_not.mp horigin, by simpa using hsecure⟩

theorem requireIfPresent_ok {endpoint : Option String}
    (h : env.requireIfPresent issuerUrl endpoint field = .ok ()) :
    ∀ e, endpoint = some e → Pinned env issuerUrl e := by
  rintro e rfl
  exact requireSameOrigin_ok h

theorem bind_eq_ok {ε α : Type} {x : Except ε Unit} {f : Unit → Except ε α} {a : α}
    (h : x >>= f = .ok a) : x = .ok () ∧ f () = .ok a := by
  cases x with
  | error e => cases h
  | ok u => exact ⟨rfl, h⟩

/-- A document that passes `validate` has its endpoints pinned. -/
theorem validate_ok {issuer : String} {metadata : OidcMetadata}
    (h : env.validate issuer issuerUrl metadata = .ok ()) (request : CredentialRequest)
    {endpoint : String} (hendpoint : metadata.endpointFor request = some endpoint) :
    Pinned env issuerUrl endpoint := by
  unfold DiscoveryEnv.validate at h
  dsimp only at h
  split at h
  · cases h
  obtain ⟨-, h⟩ := bind_eq_ok h
  obtain ⟨htoken, h⟩ := bind_eq_ok h
  obtain ⟨hdevice, hrevocation⟩ := bind_eq_ok h
  cases request with
  | authorizationCode =>
    obtain rfl := Option.some.inj hendpoint
    exact requireSameOrigin_ok htoken
  | refresh =>
    obtain rfl := Option.some.inj hendpoint
    exact requireSameOrigin_ok htoken
  | deviceAuthorization => exact requireIfPresent_ok hdevice endpoint hendpoint
  | devicePoll =>
    obtain rfl := Option.some.inj hendpoint
    exact requireSameOrigin_ok htoken
  | revocation => exact requireIfPresent_ok hrevocation endpoint hendpoint

/-- What `discover` returns, from the cache or from the network, has been validated. -/
theorem discover_ok {issuer : String} {now : ℕ} {file fetched : Option Bytes}
    {metadata : OidcMetadata} (h : env.discover issuer now file fetched = .ok metadata) :
    ∃ issuerUrl, env.parseUrl (trimEndSlashes issuer) = some issuerUrl ∧
      env.validate (trimEndSlashes issuer) issuerUrl metadata = .ok () := by
  unfold DiscoveryEnv.discover at h
  dsimp only at h
  split at h
  · cases h
  · next issuerUrl hissuer =>
    refine ⟨issuerUrl, hissuer, ?_⟩
    split at h
    · cases h
    · split at h
      · next cached hcached =>
        obtain rfl := Except.ok.inj h
        -- the cached copy went through the same checks
        obtain ⟨bytes, -, hcached⟩ := Option.bind_eq_some_iff.mp hcached
        obtain ⟨record, -, hcached⟩ := Option.bind_eq_some_iff.mp hcached
        split at hcached
        · cases hcached
        · split at hcached
          · next hvalid =>
            obtain rfl := Option.some.inj hcached
            exact hvalid
          · cases hcached
      · split at h
        · cases h
        · split at h
          · cases h
          · next fetched hdecode =>
            cases hvalid : env.validate (trimEndSlashes issuer) issuerUrl fetched with
            | error e =>
              rw [hvalid] at h
              cases h
            | ok u =>
              rw [hvalid] at h
              obtain rfl := Except.ok.inj h
              exact hvalid

end Pinned

/-- For every issuer, every discovery document or cache file and every request with a credential,
and whatever the servers answer: the credential goes to secure URLs of the issuer's origin only and
the redirects end, exactly if no response sends the body on to another origin and some response is
not followed. -/
theorem credentials_confined_iff (env : DiscoveryEnv) (issuer : String) (now : ℕ)
    (file fetched : Option Bytes) (metadata : OidcMetadata)
    (hdiscover : env.discover issuer now file fetched = .ok metadata) (request : CredentialRequest)
    (endpoint : String) (hendpoint : metadata.endpointFor request = some endpoint) :
    ∃ issuerUrl url, env.parseUrl (trimEndSlashes issuer) = some issuerUrl ∧
      env.parseUrl endpoint = some url ∧
      ∀ responses, Confined issuerUrl url responses ↔ StaysAtIssuer issuerUrl responses := by
  obtain ⟨issuerUrl, hissuer, hvalid⟩ := discover_ok hdiscover
  obtain ⟨url, hurl, horigin, hsecure⟩ := validate_ok hvalid request hendpoint
  exact ⟨issuerUrl, url, hissuer, hurl, confined_iff horigin hsecure⟩

/-- The issuer, its token endpoint and another host. -/
def exampleUrl (path : String) : Url := ⟨"https", some (.domain "auth.example.com"), none, path⟩

def attackerUrl : Url := ⟨"https", some (.domain "attacker.example"), none, "/collect"⟩

def exampleEnv : DiscoveryEnv where
  parseUrl s :=
    if s = "https://auth.example.com" then some (exampleUrl "/")
    else if s = "https://auth.example.com/token" then some (exampleUrl "/token")
    else none
  decodeMetadata _ :=
    some ⟨"https://auth.example.com", none, "https://auth.example.com/token", none, none⟩
  decodeCached _ := none

/-- A refresh whose answer is final stays at the issuer. -/
theorem credentials_confined_refresh :
    Confined (exampleUrl "/") (exampleUrl "/token") fun _ => .ended := by
  obtain ⟨issuerUrl, url, hissuer, hurl, hiff⟩ := credentials_confined_iff exampleEnv
    "https://auth.example.com/" 0 none (some []) _ rfl .refresh "https://auth.example.com/token" rfl
  obtain rfl : exampleUrl "/" = issuerUrl := by
    refine Option.some.inj (Eq.trans ?_ hissuer)
    decide
  obtain rfl : exampleUrl "/token" = url := Option.some.inj hurl
  refine (hiff _).mpr ⟨fun k hall => ?_, 0, rfl⟩
  cases hall k le_rfl

/-- A 307 takes the refresh token to another host, and a 307 back to the endpoint keeps the
request going for ever. -/
theorem credential_leaves_issuer :
    (∃ metadata, exampleEnv.discover "https://auth.example.com" 0 none (some []) = .ok metadata ∧
      metadata.endpointFor .refresh = some "https://auth.example.com/token") ∧
    sent (exampleUrl "/token")
        (fun k => if k = 0 then .redirect .temporaryRedirect attackerUrl else .ended) 1 =
      some ⟨attackerUrl, true⟩ ∧
    ¬ SameOrigin attackerUrl (exampleUrl "/") ∧
    ¬ Confined (exampleUrl "/") (exampleUrl "/token")
        (fun k => if k = 0 then .redirect .temporaryRedirect attackerUrl else .ended) ∧
    ∀ k, sent (exampleUrl "/token")
        (fun _ => .redirect .temporaryRedirect (exampleUrl "/token")) k =
      some ⟨exampleUrl "/token", true⟩ := by
  refine ⟨⟨_, rfl, rfl⟩, by decide, by decide, ?_, ?_⟩
  · intro h
    exact absurd (h.origin 1 ⟨attackerUrl, true⟩ (by decide) rfl).1 (by decide)
  · intro k
    induction k with
    | zero => rfl
    | succ k ih =>
      rw [sent, ih]
      decide

end Endpoints

end Governance
