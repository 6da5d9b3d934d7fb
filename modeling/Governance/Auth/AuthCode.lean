import Governance.Auth.DeviceFlow
import Governance.Auth.Endpoints
import Governance.Config.Resolve
import Governance.Lib.Utf8Decode
import Mathlib.Logic.Relation

/-!
# Signing in with a browser

`oauth/authcode.rs`: `run` listens on a loopback port, prints an authorization URL with a `state`
and a PKCE challenge of its own, takes one connection on the port, and redeems the code that comes
with it. Any number of logins is under way at a time. Whoever is on the machine can connect to a
port before the browser does, every code is seen by others, and so is a URL once it leaks.

A login whose URL has not leaked ends in no session but one of the user who opened that URL. What a
user authorizes there nobody else can redeem, whatever leaks, where the server checks the verifier.
-/

namespace Governance

open Utf8Text Relation
open Config (OauthConfig callbackPorts)
open Endpoints (OidcMetadata)
open DeviceFlow (TokenAnswer request)
open Session (CachedSession TokenResponse intoSession)

namespace AuthCode

/-- A URL, with its query as `query_pairs` reads it. -/
structure WebUrl where
  base : String
  query : List (String × String)

/-- `Url::parse`, and the SHA-256 of a text in base64url. -/
structure Env where
  parseUrl : String → Option WebUrl
  s256 : String → String

variable (env : Env)

structure Pkce where
  verifier : String
  challenge : String
  hashed : challenge = env.s256 verifier

/-- `pkce::generate`, from what is drawn. -/
def generate (verifier : String) : Pkce env := ⟨verifier, env.s256 verifier, rfl⟩

/-- `callback_port::bind_with`, of the ports that are free. -/
def bindWith (free : ℕ → Bool) : Option ℕ → Option ℕ
  | some port => if free port then some port else none
  | none => callbackPorts.find? free

/-- The redirect URI of a port. -/
def redirectUri (port : ℕ) : String := "http://127.0.0.1:" ++ toString port ++ "/callback"

/-- What a URL of `build_authorize_url` has in its query. -/
def authorizePairs (config : OauthConfig) (redirectUri state challenge : String) :
    List (String × String) :=
  [("response_type", "code"), ("client_id", config.clientId), ("redirect_uri", redirectUri),
    ("scope", config.scopes), ("state", state), ("code_challenge", challenge),
    ("code_challenge_method", "S256")] ++ (config.audience.map fun a => ("audience", a)).toList

/-- `build_authorize_url`: an endpoint that is absent or no URL is an error. -/
def buildAuthorizeUrl (metadata : OidcMetadata) (config : OauthConfig) (redirectUri : String)
    (pkce : Pkce env) (state : String) : Option WebUrl :=
  match metadata.authorizationEndpoint with
  | none => none
  | some endpoint => (env.parseUrl endpoint).map fun url =>
      { url with query := url.query ++ authorizePairs config redirectUri state pkce.challenge }

/-- `split_whitespace().nth(1)`. -/
def secondWord (line : String) : Option String :=
  let rest := (line.toList.dropWhile isWhiteSpace).dropWhile fun c => !isWhiteSpace c
  let word := (rest.dropWhile isWhiteSpace).takeWhile fun c => !isWhiteSpace c
  if word = [] then none else some (String.ofList word)

/-- What `parse_callback_request` makes of a connection: an error, which writes the page of a
failure or none, or a code and a state. -/
inductive Callback where
  | refused (paged : Bool)
  | received (code state : String)

/-- The loop over the pairs of a callback, which an `error` ends. -/
def readPairs : List (String × String) → Option String → Option String →
    Option (Option String × Option String)
  | [], code, state => some (code, state)
  | (key, value) :: rest, code, state =>
    if key = "code" then readPairs rest (some value) state
    else if key = "state" then readPairs rest code (some value)
    else if key = "error" then none
    else readPairs rest code state

/-- `parse_callback_request`, of the first line that a connection sends. -/
def parseCallbackRequest (requestLine : String) : Callback :=
  match secondWord requestLine with
  | none => .refused false
  | some path =>
    match env.parseUrl ("http://127.0.0.1" ++ path) with
    | none => .refused false
    | some url =>
      match readPairs url.query none none with
      | some (some code, some state) => .received code state
      | _ => .refused true

/-- Where `run` is. At the end it has written a page to the browser or none, and has a session. -/
inductive Phase where
  | listening
  | redeeming (code : String)
  | ended (page : Option Bool) (session : Option CachedSession)

/-- A `run`, with the URL that it prints. -/
structure Login where
  config : OauthConfig
  redirectUri : String
  pkce : Pkce env
  state : String
  url : Option WebUrl
  phase : Phase
  ownUrl : ∀ u ∈ url, ("state", state) ∈ u.query ∧ ("code_challenge", pkce.challenge) ∈ u.query

theorem buildAuthorizeUrl_own {metadata : OidcMetadata} {config : OauthConfig}
    {redirectUri : String} {pkce : Pkce env} {state : String} :
    ∀ u ∈ buildAuthorizeUrl env metadata config redirectUri pkce state,
      ("state", state) ∈ u.query ∧ ("code_challenge", pkce.challenge) ∈ u.query := by
  intro u hu
  unfold buildAuthorizeUrl at hu
  split at hu
  · simp at hu
  · obtain ⟨parsed, -, rfl⟩ := Option.map_eq_some_iff.mp hu
    simp [authorizePairs]

namespace Login

variable {env}

/-- The start of `run`, with the ports that are free and what it draws. -/
def start (metadata : OidcMetadata) (config : OauthConfig) (free : ℕ → Bool)
    (verifier state : String) : Login env :=
  let pkce := generate env verifier
  match bindWith free config.callbackPort with
  | none => ⟨config, "", pkce, state, none, .ended none none, by simp⟩
  | some port =>
    let url := buildAuthorizeUrl env metadata config (AuthCode.redirectUri port) pkce state
    ⟨config, AuthCode.redirectUri port, pkce, state, url,
      if url.isSome then .listening else .ended none none, buildAuthorizeUrl_own env⟩

/-- The parameters of the token request. -/
def params (l : Login env) (code : String) : List (String × String) :=
  [("grant_type", "authorization_code"), ("code", code), ("redirect_uri", l.redirectUri),
    ("client_id", l.config.clientId), ("code_verifier", l.pkce.verifier)] ++
    (l.config.audience.map fun a => ("audience", a)).toList

/-- `run` from the connection on, up to the token request. -/
def connected (l : Login env) (requestLine : String) : Login env :=
  match parseCallbackRequest env requestLine with
  | .refused paged => { l with phase := .ended (if paged then some false else none) none }
  | .received code state =>
    if state = l.state then { l with phase := .redeeming code }
    else { l with phase := .ended (some false) none }

/-- `run` from the answer to the token request on. -/
def answered (l : Login env) (answer : TokenAnswer) (now : ℕ) : Login env :=
  match request answer with
  | .ok token => { l with phase := .ended (some true) (some (intoSession now token)) }
  | .error _ => { l with phase := .ended (some false) none }

end Login

/-! ## The parties -/

/-- An authorization that the server gave a code for. `opened` is the login of which the user of
the account opened the URL, or none for a request of anyone else. -/
structure Grant where
  code : String
  account : String
  query : List (String × String)
  opened : Option ℕ

/-- Tokens that the server issued, to a login or to anyone else. -/
structure Issue where
  holder : Option ℕ
  code : String
  token : TokenResponse

/-- The authorization server: its metadata, the account that tokens are for, and whether it checks
the verifier of PKCE. -/
structure Server where
  metadata : OidcMetadata
  accountOf : TokenResponse → String
  checksVerifier : Prop

structure World where
  logins : ℕ → Option (Login env)
  leaked : ℕ → Bool
  grants : List Grant
  issued : List Issue

variable {env}

def World.init : World env := ⟨fun _ => none, fun _ => false, [], []⟩

/-- What is drawn is new: no request that was seen has the state, and no login has it or the
challenge. -/
def World.Fresh (w : World env) (verifier state : String) : Prop :=
  (∀ g ∈ w.grants, g.query.lookup "state" ≠ some state) ∧
    ∀ i l, w.logins i = some l → l.state ≠ state ∧ l.pkce.challenge ≠ env.s256 verifier

/-- What the server issues tokens for: a code that it gave, for the account that it gave it for,
and where it checks the verifier, only to who has the verifier of the challenge. -/
def Server.Redeems (server : Server) (w : World env) (params : List (String × String))
    (token : TokenResponse) : Prop :=
  ∃ g ∈ w.grants, params.lookup "code" = some g.code ∧ server.accountOf token = g.account ∧
    (server.checksVerifier → ∀ challenge, g.query.lookup "code_challenge" = some challenge →
      ∃ verifier, params.lookup "code_verifier" = some verifier ∧ env.s256 verifier = challenge)

open Function (update)

/-- What happens next. Nobody guesses the state of a login whose URL has not leaked, or finds a
verifier for the challenge of a login. -/
inductive Step (server : Server) : World env → World env → Prop
  | start {w : World env} {i : ℕ} (config : OauthConfig) (free : ℕ → Bool) (verifier state : String)
      (hnew : w.logins i = none) (hfresh : w.Fresh verifier state) :
      Step server w { w with
        logins := update w.logins i (some (.start server.metadata config free verifier state)) }
  /-- The user of an account opens the URL that a login printed. -/
  | visit {w : World env} {i : ℕ} {l : Login env} {url : WebUrl} (account code : String)
      (hl : w.logins i = some l) (hurl : l.url = some url) (hkeys : (url.query.map Prod.fst).Nodup)
      (hcode : ∀ g ∈ w.grants, g.code ≠ code) :
      Step server w { w with grants := ⟨code, account, url.query, some i⟩ :: w.grants }
  /-- Anyone else authorizes a request of their own. -/
  | authorize {w : World env} (account code : String) (query : List (String × String))
      (hsecret : ∀ i l, w.logins i = some l → w.leaked i = false →
        query.lookup "state" ≠ some l.state)
      (hcode : ∀ g ∈ w.grants, g.code ≠ code) :
      Step server w { w with grants := ⟨code, account, query, none⟩ :: w.grants }
  | leak (w : World env) (i : ℕ) : Step server w { w with leaked := update w.leaked i true }
  /-- The browser follows the redirect of an authorization, or anyone else connects. -/
  | connect {w : World env} {i : ℕ} {l : Login env} (requestLine : String)
      (hl : w.logins i = some l) (hphase : l.phase = .listening)
      (hsecret : ∀ code, parseCallbackRequest env requestLine = .received code l.state →
        w.leaked i = false →
        ∃ g ∈ w.grants, g.code = code ∧ g.query.lookup "state" = some l.state) :
      Step server w { w with logins := update w.logins i (some (l.connected requestLine)) }
  | accept {w : World env} {i : ℕ} {l : Login env} {code : String} {token : TokenResponse}
      (answer : TokenAnswer) (now : ℕ) (hl : w.logins i = some l)
      (hphase : l.phase = .redeeming code) (hanswer : request answer = .ok token)
      (hredeems : server.Redeems w (l.params code) token) :
      Step server w { w with
        logins := update w.logins i (some (l.answered answer now))
        issued := ⟨some i, code, token⟩ :: w.issued }
  | refuse {w : World env} {i : ℕ} {l : Login env} {code : String} {error : Option String}
      (answer : TokenAnswer) (now : ℕ) (hl : w.logins i = some l)
      (hphase : l.phase = .redeeming code) (hanswer : request answer = .error error) :
      Step server w { w with logins := update w.logins i (some (l.answered answer now)) }
  /-- Anyone else redeems a code. -/
  | redeem {w : World env} {code : String} (params : List (String × String)) (token : TokenResponse)
      (hcode : params.lookup "code" = some code)
      (hverifier : ∀ verifier, params.lookup "code_verifier" = some verifier →
        ∀ i l, w.logins i = some l → env.s256 verifier ≠ l.pkce.challenge)
      (hredeems : server.Redeems w params token) :
      Step server w { w with issued := ⟨none, code, token⟩ :: w.issued }

/-- What any number of logins, their users, the server and anyone else can come to. -/
def Reachable (server : Server) : World env → Prop := ReflTransGen (Step server) .init

/-! ## What they keep -/

/-- What a login puts in its URL and nowhere else. -/
structure Secrets where
  state : String
  challenge : String

def Login.secrets (l : Login env) : Secrets := ⟨l.state, l.pkce.challenge⟩

def World.secrets (w : World env) (i : ℕ) : Option Secrets := (w.logins i).map Login.secrets

/-- What holds of the secrets, of the logins that leaked and of the grants. -/
structure Told (secrets : ℕ → Option Secrets) (leaked : ℕ → Bool) (grants : List Grant) : Prop where
  codes : (grants.map Grant.code).Nodup
  apart : ∀ i j s t, secrets i = some s → secrets j = some t → i ≠ j →
    s.state ≠ t.state ∧ s.challenge ≠ t.challenge
  opened : ∀ g ∈ grants, ∀ i, g.opened = some i →
    ∃ s, secrets i = some s ∧ g.query.lookup "code_challenge" = some s.challenge
  own : ∀ g ∈ grants, ∀ i s, secrets i = some s → leaked i = false →
    g.query.lookup "state" = some s.state → g.opened = some i

/-- How tokens and sessions came about. -/
structure Invariant (server : Server) (w : World env) : Prop where
  told : Told w.secrets w.leaked w.grants
  redeeming : ∀ i l code, w.logins i = some l → l.phase = .redeeming code → w.leaked i = false →
    ∃ g ∈ w.grants, g.code = code ∧ g.opened = some i
  issued : ∀ e ∈ w.issued, ∃ g ∈ w.grants, g.code = e.code ∧ server.accountOf e.token = g.account ∧
    (∀ i, e.holder = some i → w.leaked i = false → g.opened = some i) ∧
    (server.checksVerifier → ∀ i, g.opened = some i → e.holder = some i)
  session : ∀ i l page session, w.logins i = some l → l.phase = .ended page (some session) →
    ∃ e ∈ w.issued, e.holder = some i ∧ ∃ now, session = intoSession now e.token

theorem lookup_of_mem {query : List (String × String)} {key value : String}
    (hkeys : (query.map Prod.fst).Nodup) (hmem : (key, value) ∈ query) :
    query.lookup key = some value := by
  induction query with
  | nil => simp at hmem
  | cons p query ih =>
    rw [List.map_cons, List.nodup_cons] at hkeys
    rcases List.mem_cons.mp hmem with rfl | hmem
    · exact List.lookup_cons_self
    · have hne : key ≠ p.1 := fun he => hkeys.1 (he ▸ List.mem_map_of_mem hmem)
      rw [List.lookup_cons, beq_false_of_ne hne]
      exact ih hkeys.2 hmem

theorem lookup_params {l : Login env} {code : String} :
    (l.params code).lookup "code" = some code ∧
      (l.params code).lookup "code_verifier" = some l.pkce.verifier := by
  constructor <;> simp [Login.params, List.lookup_cons]

/-- What has not leaked after a leak had not leaked before. -/
theorem not_leaked {leaked : ℕ → Bool} {i j : ℕ} (h : update leaked i true j = false) :
    leaked j = false := by
  rw [Function.update_apply] at h
  split_ifs at h
  exact h

namespace Told

variable {secrets : ℕ → Option Secrets} {leaked : ℕ → Bool} {grants : List Grant}

theorem start (h : Told secrets leaked grants) {i : ℕ} {s : Secrets} (hnew : secrets i = none)
    (hstate : ∀ g ∈ grants, g.query.lookup "state" ≠ some s.state)
    (hapart : ∀ j t, secrets j = some t → t.state ≠ s.state ∧ t.challenge ≠ s.challenge) :
    Told (update secrets i (some s)) leaked grants where
  codes := h.codes
  apart := by
    intro j k t u hj hk hne
    simp only [Function.update_apply] at hj hk
    split_ifs at hj hk with hji hki hki
    · exact absurd (hji.trans hki.symm) hne
    · obtain rfl := Option.some.inj hj
      have := hapart k u hk
      exact ⟨this.1.symm, this.2.symm⟩
    · obtain rfl := Option.some.inj hk
      exact hapart j t hj
    · exact h.apart j k t u hj hk hne
  opened := by
    intro g hg j hj
    obtain ⟨t, ht, hchallenge⟩ := h.opened g hg j hj
    have hne : j ≠ i := fun he => by simp [he, hnew] at ht
    exact ⟨t, by rw [Function.update_of_ne hne, ht], hchallenge⟩
  own := by
    intro g hg j t ht hleaked hlookup
    simp only [Function.update_apply] at ht
    split_ifs at ht
    · obtain rfl := Option.some.inj ht
      exact absurd hlookup (hstate g hg)
    · exact h.own g hg j t ht hleaked hlookup

theorem visit (h : Told secrets leaked grants) {i : ℕ} {s : Secrets} {code account : String}
    {query : List (String × String)} (hs : secrets i = some s)
    (hstate : query.lookup "state" = some s.state)
    (hchallenge : query.lookup "code_challenge" = some s.challenge)
    (hcode : ∀ g ∈ grants, g.code ≠ code) :
    Told secrets leaked (⟨code, account, query, some i⟩ :: grants) where
  codes := by
    rw [List.map_cons, List.nodup_cons]
    exact ⟨by simpa using hcode, h.codes⟩
  apart := h.apart
  opened := by
    intro g hg j hj
    rcases List.mem_cons.mp hg with rfl | hg
    · obtain rfl := Option.some.inj hj
      exact ⟨s, hs, hchallenge⟩
    · exact h.opened g hg j hj
  own := by
    intro g hg j t ht hleaked hlookup
    rcases List.mem_cons.mp hg with rfl | hg
    · -- two logins do not share a state
      have heq : s.state = t.state := Option.some.inj (hstate.symm.trans hlookup)
      by_contra hne
      exact (h.apart i j s t hs ht fun he => hne (congrArg some he)).1 heq
    · exact h.own g hg j t ht hleaked hlookup

theorem authorize (h : Told secrets leaked grants) {code account : String}
    {query : List (String × String)}
    (hsecret : ∀ i s, secrets i = some s → leaked i = false → query.lookup "state" ≠ some s.state)
    (hcode : ∀ g ∈ grants, g.code ≠ code) :
    Told secrets leaked (⟨code, account, query, none⟩ :: grants) where
  codes := by
    rw [List.map_cons, List.nodup_cons]
    exact ⟨by simpa using hcode, h.codes⟩
  apart := h.apart
  opened := by
    intro g hg j hj
    rcases List.mem_cons.mp hg with rfl | hg
    · cases hj
    · exact h.opened g hg j hj
  own := by
    intro g hg j t ht hleaked hlookup
    rcases List.mem_cons.mp hg with rfl | hg
    · exact absurd hlookup (hsecret j t ht hleaked)
    · exact h.own g hg j t ht hleaked hlookup

theorem leak (h : Told secrets leaked grants) (i : ℕ) :
    Told secrets (update leaked i true) grants where
  codes := h.codes
  apart := h.apart
  opened := h.opened
  own := by
    intro g hg j s hs hleaked hlookup
    exact h.own g hg j s hs (not_leaked hleaked) hlookup

end Told

namespace Login

theorem secrets_start (metadata : OidcMetadata) (config : OauthConfig) (free : ℕ → Bool)
    (verifier state : String) :
    (start metadata config free verifier state : Login env).secrets =
      ⟨state, env.s256 verifier⟩ := by
  unfold start
  split <;> rfl

theorem start_phase (metadata : OidcMetadata) (config : OauthConfig) (free : ℕ → Bool)
    (verifier state : String) :
    (start metadata config free verifier state : Login env).phase = .listening ∨
      (start metadata config free verifier state : Login env).phase = .ended none none := by
  unfold start
  split
  · exact .inr rfl
  · dsimp only
    split
    · exact .inl rfl
    · exact .inr rfl

variable {l : Login env}

theorem secrets_connected (requestLine : String) :
    (l.connected requestLine).secrets = l.secrets := by
  unfold connected
  split
  · rfl
  · split <;> rfl

theorem secrets_answered (answer : TokenAnswer) (now : ℕ) :
    (l.answered answer now).secrets = l.secrets := by
  unfold answered
  split <;> rfl

/-- Only a callback with the login's own state gets as far as the token request. -/
theorem connected_redeeming {requestLine code : String}
    (h : (l.connected requestLine).phase = .redeeming code) :
    parseCallbackRequest env requestLine = .received code l.state := by
  unfold connected at h
  split at h
  · simp at h
  · rename_i received state hparse
    split at h
    · rename_i hstate
      obtain rfl : received = code := by simpa using h
      rw [hparse, hstate]
    · simp at h

theorem connected_no_session {requestLine : String} {page : Option Bool}
    {session : CachedSession} : (l.connected requestLine).phase ≠ .ended page (some session) := by
  unfold connected
  split
  · simp
  · split <;> simp

theorem answered_ok {answer : TokenAnswer} {now : ℕ} {token : TokenResponse}
    (h : request answer = .ok token) :
    (l.answered answer now).phase = .ended (some true) (some (intoSession now token)) := by
  unfold answered
  rw [h]

theorem answered_error {answer : TokenAnswer} {now : ℕ} {error : Option String}
    (h : request answer = .error error) :
    (l.answered answer now).phase = .ended (some false) none := by
  unfold answered
  rw [h]

end Login

theorem World.secrets_update (w : World env) (i : ℕ) (l : Login env) (issued : List Issue) :
    World.secrets { w with logins := update w.logins i (some l), issued := issued } =
      update w.secrets i (some l.secrets) := by
  funext j
  simp only [World.secrets, Function.update_apply]
  split <;> rfl

/-- A login that goes on keeps its secrets. -/
theorem World.secrets_goesOn {w : World env} {i : ℕ} {l m : Login env} (hl : w.logins i = some l)
    (hm : m.secrets = l.secrets) (issued : List Issue) :
    World.secrets { w with logins := update w.logins i (some m), issued := issued } =
      w.secrets := by
  rw [World.secrets_update, hm, Function.update_eq_self_iff, World.secrets, hl]
  rfl

namespace Invariant

variable {server : Server} {w w' : World env}

theorem init : Invariant server (World.init : World env) where
  told := ⟨List.nodup_nil, by simp [World.secrets, World.init], by simp [World.init],
    by simp [World.init]⟩
  redeeming := by simp [World.init]
  issued := by simp [World.init]
  session := by simp [World.init]

theorem start (h : Invariant server w) {i : ℕ} (config : OauthConfig) (free : ℕ → Bool)
    (verifier state : String) (hnew : w.logins i = none) (hfresh : w.Fresh verifier state) :
    Invariant server { w with
      logins := update w.logins i (some (.start server.metadata config free verifier state)) } where
  told := by
    have hsecrets := w.secrets_update i (.start server.metadata config free verifier state) w.issued
    rw [Login.secrets_start] at hsecrets
    rw [show World.secrets _ = _ from hsecrets]
    refine h.told.start (by simp [World.secrets, hnew]) hfresh.1 fun j t ht => ?_
    obtain ⟨l, hl, rfl⟩ := Option.map_eq_some_iff.mp ht
    exact hfresh.2 j l hl
  redeeming := by
    intro j l code hl hphase hleaked
    simp only [Function.update_apply] at hl
    split_ifs at hl
    · obtain rfl := Option.some.inj hl
      rcases @Login.start_phase env server.metadata config free verifier state with hp | hp
      · simp [hp] at hphase
      · simp [hp] at hphase
    · exact h.redeeming j l code hl hphase hleaked
  issued := h.issued
  session := by
    intro j l page session hl hphase
    simp only [Function.update_apply] at hl
    split_ifs at hl
    · obtain rfl := Option.some.inj hl
      rcases @Login.start_phase env server.metadata config free verifier state with hp | hp
      · simp [hp] at hphase
      · simp [hp] at hphase
    · exact h.session j l page session hl hphase

/-- More grants change nothing about the tokens that were issued. -/
theorem grant (h : Invariant server w) (g : Grant)
    (htold : Told w.secrets w.leaked (g :: w.grants)) :
    Invariant server { w with grants := g :: w.grants } where
  told := htold
  redeeming := by
    intro i l code hl hphase hleaked
    obtain ⟨g', hg', hrest⟩ := h.redeeming i l code hl hphase hleaked
    exact ⟨g', List.mem_cons_of_mem _ hg', hrest⟩
  issued := by
    intro e he
    obtain ⟨g', hg', hrest⟩ := h.issued e he
    exact ⟨g', List.mem_cons_of_mem _ hg', hrest⟩
  session := h.session

theorem leak (h : Invariant server w) (i : ℕ) :
    Invariant server { w with leaked := update w.leaked i true } where
  told := h.told.leak i
  redeeming := fun j l code hl hphase hleaked => h.redeeming j l code hl hphase (not_leaked hleaked)
  issued := by
    intro e he
    obtain ⟨g, hg, hcode, haccount, hown, hkept⟩ := h.issued e he
    exact ⟨g, hg, hcode, haccount, fun j hj hleaked => hown j hj (not_leaked hleaked), hkept⟩
  session := h.session

theorem connect (h : Invariant server w) {i : ℕ} {l : Login env} (requestLine : String)
    (hl : w.logins i = some l)
    (hsecret : ∀ code, parseCallbackRequest env requestLine = .received code l.state →
      w.leaked i = false → ∃ g ∈ w.grants, g.code = code ∧ g.query.lookup "state" = some l.state) :
    Invariant server { w with logins := update w.logins i (some (l.connected requestLine)) } where
  told := by
    rw [show World.secrets _ = _ from
      World.secrets_goesOn hl (Login.secrets_connected requestLine) w.issued]
    exact h.told
  redeeming := by
    intro j m code hm hphase hleaked
    simp only [Function.update_apply] at hm
    split_ifs at hm with hji
    · obtain rfl := Option.some.inj hm
      obtain rfl := hji
      -- an authorization with the state of this login is one of its own URL
      obtain ⟨g, hg, hcode, hstate⟩ := hsecret code (Login.connected_redeeming hphase) hleaked
      exact ⟨g, hg, hcode, h.told.own g hg j l.secrets (by simp [World.secrets, hl]) hleaked hstate⟩
    · exact h.redeeming j m code hm hphase hleaked
  issued := h.issued
  session := by
    intro j m page session hm hphase
    simp only [Function.update_apply] at hm
    split_ifs at hm
    · obtain rfl := Option.some.inj hm
      exact absurd hphase Login.connected_no_session
    · exact h.session j m page session hm hphase

/-- What the server takes for an authorization of a login's URL comes with a verifier of the
login's challenge. -/
theorem verifier_of_opened (h : Invariant server w) {g : Grant} (hg : g ∈ w.grants) {i : ℕ}
    (hopened : g.opened = some i) {params : List (String × String)}
    (hchecks : ∀ challenge, g.query.lookup "code_challenge" = some challenge →
      ∃ verifier, params.lookup "code_verifier" = some verifier ∧ env.s256 verifier = challenge) :
    ∃ l verifier, w.logins i = some l ∧ params.lookup "code_verifier" = some verifier ∧
      env.s256 verifier = l.pkce.challenge := by
  obtain ⟨s, hs, hchallenge⟩ := h.told.opened g hg i hopened
  obtain ⟨l, hl, rfl⟩ := Option.map_eq_some_iff.mp hs
  obtain ⟨verifier, hverifier, hs256⟩ := hchecks _ hchallenge
  exact ⟨l, verifier, hl, hverifier, hs256⟩

theorem accept (h : Invariant server w) {i : ℕ} {l : Login env} {code : String}
    {token : TokenResponse} (answer : TokenAnswer) (now : ℕ) (hl : w.logins i = some l)
    (hphase : l.phase = .redeeming code) (hanswer : request answer = .ok token)
    (hredeems : server.Redeems w (l.params code) token) :
    Invariant server { w with
      logins := update w.logins i (some (l.answered answer now))
      issued := ⟨some i, code, token⟩ :: w.issued } where
  told := by
    rw [World.secrets_goesOn hl (Login.secrets_answered answer now)]
    exact h.told
  redeeming := by
    intro j m code' hm hphase' hleaked
    simp only [Function.update_apply] at hm
    split_ifs at hm
    · obtain rfl := Option.some.inj hm
      simp [Login.answered_ok hanswer] at hphase'
    · exact h.redeeming j m code' hm hphase' hleaked
  issued := by
    intro e he
    rcases List.mem_cons.mp he with rfl | he
    · obtain ⟨g, hg, hcode, haccount, hchecks⟩ := hredeems
      rw [lookup_params.1, Option.some_inj] at hcode
      refine ⟨g, hg, hcode.symm, haccount, ?_, ?_⟩
      · intro j hj hleaked
        obtain rfl := Option.some.inj hj
        -- codes are given once, so this is the authorization that the callback was for
        obtain ⟨g', hg', hcode', hopened⟩ := h.redeeming i l code hl hphase hleaked
        rw [List.inj_on_of_nodup_map h.told.codes hg hg' (hcode.symm.trans hcode'.symm)]
        exact hopened
      · intro hserver j hopened
        obtain ⟨m, verifier, hm, hverifier, hsame⟩ :=
          h.verifier_of_opened hg hopened (hchecks hserver)
        rw [lookup_params.2, Option.some_inj] at hverifier
        rw [← hverifier] at hsame
        by_contra hne
        have hij : i ≠ j := fun he => hne (congrArg some he)
        refine (h.told.apart i j l.secrets m.secrets (by simp [World.secrets, hl])
          (by simp [World.secrets, hm]) hij).2 ?_
        exact l.pkce.hashed.trans hsame
    · exact h.issued e he
  session := by
    intro j m page session hm hphase'
    simp only [Function.update_apply] at hm
    split_ifs at hm with hji
    · obtain rfl := Option.some.inj hm
      rw [Login.answered_ok hanswer] at hphase'
      obtain ⟨-, rfl⟩ : some true = page ∧ intoSession now token = session := by simpa using hphase'
      exact ⟨⟨some i, code, token⟩, List.mem_cons_self, by rw [hji], now, rfl⟩
    · obtain ⟨e, he, hrest⟩ := h.session j m page session hm hphase'
      exact ⟨e, List.mem_cons_of_mem _ he, hrest⟩

theorem refuse (h : Invariant server w) {i : ℕ} {l : Login env} {error : Option String}
    (answer : TokenAnswer) (now : ℕ) (hl : w.logins i = some l)
    (hanswer : request answer = .error error) :
    Invariant server { w with logins := update w.logins i (some (l.answered answer now)) } where
  told := by
    rw [show World.secrets _ = _ from
      World.secrets_goesOn hl (Login.secrets_answered answer now) w.issued]
    exact h.told
  redeeming := by
    intro j m code hm hphase hleaked
    simp only [Function.update_apply] at hm
    split_ifs at hm
    · obtain rfl := Option.some.inj hm
      simp [Login.answered_error hanswer] at hphase
    · exact h.redeeming j m code hm hphase hleaked
  issued := h.issued
  session := by
    intro j m page session hm hphase
    simp only [Function.update_apply] at hm
    split_ifs at hm
    · obtain rfl := Option.some.inj hm
      simp [Login.answered_error hanswer] at hphase
    · exact h.session j m page session hm hphase

theorem redeem (h : Invariant server w) {code : String} (params : List (String × String))
    (token : TokenResponse) (hcode : params.lookup "code" = some code)
    (hverifier : ∀ verifier, params.lookup "code_verifier" = some verifier →
      ∀ i l, w.logins i = some l → env.s256 verifier ≠ l.pkce.challenge)
    (hredeems : server.Redeems w params token) :
    Invariant server { w with issued := ⟨none, code, token⟩ :: w.issued } where
  told := h.told
  redeeming := h.redeeming
  issued := by
    intro e he
    rcases List.mem_cons.mp he with rfl | he
    · obtain ⟨g, hg, hcode', haccount, hchecks⟩ := hredeems
      rw [hcode, Option.some_inj] at hcode'
      refine ⟨g, hg, hcode'.symm, haccount, by simp, ?_⟩
      intro hserver i hopened
      -- who is not the login has no verifier for the challenge in its URL
      obtain ⟨m, verifier, hm, hv, hsame⟩ := h.verifier_of_opened hg hopened (hchecks hserver)
      exact absurd hsame (hverifier verifier hv i m hm)
    · exact h.issued e he
  session := by
    intro i l page session hl hphase
    obtain ⟨e, he, hrest⟩ := h.session i l page session hl hphase
    exact ⟨e, List.mem_cons_of_mem _ he, hrest⟩

theorem step (h : Invariant server w) (hstep : Step server w w') : Invariant server w' := by
  induction hstep with
  | start config free verifier state hnew hfresh =>
    exact h.start config free verifier state hnew hfresh
  | @visit i l url account code hl hurl hkeys hcode =>
    have hown := l.ownUrl url hurl
    exact h.grant _ (h.told.visit (s := l.secrets) (by simp [World.secrets, hl])
      (lookup_of_mem hkeys hown.1) (lookup_of_mem hkeys hown.2) hcode)
  | authorize account code query hsecret hcode =>
    refine h.grant _ (h.told.authorize (fun i s hs hleaked => ?_) hcode)
    obtain ⟨l, hl, rfl⟩ := Option.map_eq_some_iff.mp hs
    exact hsecret i l hl hleaked
  | leak i => exact h.leak i
  | connect requestLine hl hphase hsecret => exact h.connect requestLine hl hsecret
  | accept answer now hl hphase hanswer hredeems =>
    exact h.accept answer now hl hphase hanswer hredeems
  | refuse answer now hl hphase hanswer => exact h.refuse answer now hl hanswer
  | redeem params token hcode hverifier hredeems =>
    exact h.redeem params token hcode hverifier hredeems

end Invariant

theorem reachable_invariant {server : Server} {w : World env} (h : Reachable server w) :
    Invariant server w := by
  induction h with
  | refl => exact Invariant.init
  | tail _ hstep ih => exact ih.step hstep

/-! ## Whose session it is -/

/-- A login whose URL has not leaked, and which ends with a session, has tokens for the account of a
user who opened that URL, whoever connected to its port with what. -/
theorem session_own {server : Server} {w : World env} (h : Reachable server w) {i : ℕ}
    {l : Login env} {page : Option Bool} {session : CachedSession} (hl : w.logins i = some l)
    (hphase : l.phase = .ended page (some session)) (hleaked : w.leaked i = false) :
    ∃ g ∈ w.grants, g.opened = some i ∧ ∃ token now, server.accountOf token = g.account ∧
      session = intoSession now token := by
  have hinv := reachable_invariant h
  obtain ⟨e, he, hholder, now, rfl⟩ := hinv.session i l page session hl hphase
  obtain ⟨g, hg, -, haccount, hown, -⟩ := hinv.issued e he
  exact ⟨g, hg, hown i hholder hleaked, e.token, now, haccount, rfl⟩

/-- What a user authorized at the URL of a login is redeemed by that login or by nobody, whatever
leaked, where the server checks the verifier. -/
theorem grant_kept {server : Server} (hserver : server.checksVerifier) {w : World env}
    (h : Reachable server w) {g : Grant} (hg : g ∈ w.grants) {i : ℕ} (hopened : g.opened = some i)
    {e : Issue} (he : e ∈ w.issued) (hcode : e.code = g.code) :
    e.holder = some i ∧ server.accountOf e.token = g.account := by
  have hinv := reachable_invariant h
  obtain ⟨g', hg', hcode', haccount, -, hkept⟩ := hinv.issued e he
  obtain rfl : g' = g :=
    List.inj_on_of_nodup_map hinv.told.codes hg' hg (hcode'.trans hcode)
  exact ⟨hkept hserver i hopened, haccount⟩

/-! ## Two who open a URL -/

/-- An issuer, and a hash that tells verifiers apart. -/
def exampleEnv : Env where
  parseUrl text :=
    if text = "https://idp.example/authorize" then some ⟨text, []⟩
    else if text = "http://127.0.0.1/callback?code=c1&state=s1" then
      some ⟨"http://127.0.0.1/callback", [("code", "c1"), ("state", "s1")]⟩
    else none
  s256 verifier := "S" ++ verifier

/-- Its tokens name their account. -/
def exampleServer : Server where
  metadata := ⟨"https://idp.example", some "https://idp.example/authorize",
    "https://idp.example/token", none, none⟩
  accountOf token := token.accessToken
  checksVerifier := True

def exampleConfig : OauthConfig where
  issuer := "https://idp.example"
  clientId := "cli"
  scopes := Config.defaultScopes
  audience := none
  otelEndpoint := none
  otelToken := none
  gatewayUrl := none
  profile := .manual
  profileExplicit := none
  copilotSpoolPath := none
  otelHeadersDebounceMs := 0
  openBrowser := false
  callbackPort := none
  callbackBind := Config.defaultBind
  tokenExchange := none
  lastNoClaude := false
  lastNoCodex := false
  lastNoVscode := false
  lastCodexTelemetryOnly := false

def adaLogin : Login exampleEnv :=
  .start exampleServer.metadata exampleConfig (fun _ => true) "v1" "s1"

def adaQuery : List (String × String) :=
  authorizePairs exampleConfig (redirectUri 17452) "s1" "Sv1"

def adaLine : String := "GET /callback?code=c1&state=s1 HTTP/1.1"

def adaToken : TokenResponse := ⟨"ada", none, some 300⟩

/-- Mallory has a code, and Ada one of the login's URL. -/
def bothAuthorized : World exampleEnv where
  logins := update (fun _ => none) 0 (some adaLogin)
  leaked _ := false
  grants := [⟨"c1", "ada", adaQuery, some 0⟩, ⟨"c9", "mallory", [("state", "x")], none⟩]
  issued := []

/-- The login has redeemed Ada's. -/
def adaSignedIn : World exampleEnv where
  logins := update (update bothAuthorized.logins 0 (some (adaLogin.connected adaLine))) 0
    (some ((adaLogin.connected adaLine).answered (.response true none (some adaToken)) 7))
  leaked _ := false
  grants := bothAuthorized.grants
  issued := [⟨some 0, "c1", adaToken⟩]

theorem adaLogin_url : adaLogin.url = some ⟨"https://idp.example/authorize", adaQuery⟩ := by
  rfl

theorem adaLine_received :
    parseCallbackRequest exampleEnv adaLine = .received "c1" "s1" := by
  have hword : secondWord adaLine = some "/callback?code=c1&state=s1" := by decide +kernel
  simp [parseCallbackRequest, hword, exampleEnv, readPairs]

theorem adaLogin_connected : (adaLogin.connected adaLine).phase = .redeeming "c1" := by
  unfold Login.connected
  rw [adaLine_received]
  rfl

theorem reachable_bothAuthorized : Reachable exampleServer bothAuthorized := by
  have hstart : Step exampleServer World.init
      { World.init with logins := update (fun _ => none) 0 (some adaLogin) } :=
    .start exampleConfig (fun _ => true) "v1" "s1" rfl ⟨by simp [World.init], by simp [World.init]⟩
  refine ReflTransGen.tail (ReflTransGen.tail (.single hstart)
    (.authorize "mallory" "c9" [("state", "x")] ?_ (by simp [World.init]))) ?_
  · intro i l hl _
    simp only [Function.update_apply] at hl
    split_ifs at hl
    obtain rfl := Option.some.inj hl
    decide
  · exact .visit "ada" "c1" (by simp) adaLogin_url (by decide) (by simp [World.init])

theorem reachable_adaSignedIn : Reachable exampleServer adaSignedIn := by
  have hconnect : Step exampleServer bothAuthorized { bothAuthorized with
      logins := update bothAuthorized.logins 0 (some (adaLogin.connected adaLine)) } := by
    refine .connect adaLine (by simp [bothAuthorized]) rfl fun code hcode _ => ?_
    rw [adaLine_received] at hcode
    exact ⟨⟨"c1", "ada", adaQuery, some 0⟩, List.mem_cons_self,
      (Callback.received.inj hcode).1, rfl⟩
  refine (reachable_bothAuthorized.tail hconnect).tail
    (.accept (.response true none (some adaToken)) 7 (by simp) adaLogin_connected rfl ?_)
  refine ⟨⟨"c1", "ada", adaQuery, some 0⟩, List.mem_cons_self, rfl, rfl, fun _ challenge h => ?_⟩
  exact ⟨"v1", rfl, Option.some.inj h⟩

theorem session_own_adaSignedIn :
    ∃ g ∈ adaSignedIn.grants, g.opened = some 0 ∧ ∃ token now,
      exampleServer.accountOf token = g.account ∧
        intoSession 7 adaToken = intoSession now token := by
  have hl : adaSignedIn.logins 0 =
      some ((adaLogin.connected adaLine).answered (.response true none (some adaToken)) 7) := by
    simp [adaSignedIn]
  exact session_own reachable_adaSignedIn hl (Login.answered_ok rfl) rfl

theorem grant_kept_adaSignedIn :
    (some 0 : Option ℕ) = some 0 ∧ exampleServer.accountOf adaToken = "ada" :=
  grant_kept (e := ⟨some 0, "c1", adaToken⟩) (g := ⟨"c1", "ada", adaQuery, some 0⟩) trivial
    reachable_adaSignedIn List.mem_cons_self rfl List.mem_cons_self rfl

end AuthCode

end Governance
