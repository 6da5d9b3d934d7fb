import Governance.Copilot.Pagination

/-!
# Fetching the seat listing

`GithubClient::fetch_seats` of `governance-copilot/src/seats.rs` with `send_with_retry` of
`client.rs`, over a server that answers every attempt as it likes. A run follows the targets that
`next_link_url` reads, and so it returns a listing in full exactly when every page's header yields
the address of the next page.
-/

namespace Governance

open Utf8Text LinkHeader ByteLines

namespace Seats

/-! ## One request -/

/-- `SEATS_PER_PAGE`. -/
def seatsPerPage : ℕ := 100

/-- `MAX_SEAT_PAGES`. -/
def maxSeatPages : ℕ := 200

/-- `MAX_SEATS_PAGE_BYTES`. -/
def maxSeatsPageBytes : ℕ := 16 * 1024 * 1024

/-- `MAX_ATTEMPTS`. -/
def maxAttempts : ℕ := 3

def seatsEndpoint : String := "copilot/billing/seats"

/-- `CopilotError`, as far as the fetch returns it. -/
inductive FetchError where
  | github (kind : String) (status : ℕ) (detail : String)
  | transport
  deriving DecidableEq

/-- A response as `reqwest` hands it out. A field value is a text with a character for each byte,
and `cut` is a body that ends in a transport error. -/
structure Response where
  status : ℕ
  links : List Text
  contentLength : Option ℕ
  chunks : List Bytes
  cut : Bool

/-- What becomes of an attempt. A transport error is transient when it is a timeout or a connection
that was never made; an address that is no absolute URL is an error that is not. -/
inductive Answer where
  | response (r : Response)
  | failed (transient : Bool)

/-- The other side: its answer to the attempt with this number, at this address. -/
abbrev Server := ℕ → Text → Answer

/-- `is_retryable_status`. -/
def isRetryableStatus (status : ℕ) : Bool := (500 ≤ status && status ≤ 599) || status = 429

/-- The loop of `send_with_retry`, with the retries that are left and the attempts made so far. -/
def sendFrom (server : Server) (url : Text) : ℕ → ℕ → Except FetchError Response × ℕ
  | 0, attempts =>
    match server attempts url with
    | .response r => (.ok r, attempts + 1)
    | .failed _ => (.error .transport, attempts + 1)
  | retries + 1, attempts =>
    match server attempts url with
    | .response r =>
      if isRetryableStatus r.status then sendFrom server url retries (attempts + 1)
      else (.ok r, attempts + 1)
    | .failed transient =>
      if transient then sendFrom server url retries (attempts + 1)
      else (.error .transport, attempts + 1)

/-- `send_with_retry`. -/
def sendWithRetry (server : Server) (url : Text) (attempts : ℕ) : Except FetchError Response × ℕ :=
  sendFrom server url (maxAttempts - 1) attempts

/-- The error of a body that is too large. -/
def tooLarge (pageNo size : ℕ) : FetchError :=
  .github seatsEndpoint 0
    s!"page {pageNo} body was {size} bytes, over the {maxSeatsPageBytes} byte cap"

/-- The loop of `read_capped_body`. -/
def readChunks (pageNo : ℕ) (cut : Bool) : Bytes → List Bytes → Except FetchError Bytes
  | bytes, [] => if cut then .error .transport else .ok bytes
  | bytes, chunk :: chunks =>
    if maxSeatsPageBytes < bytes.length + chunk.length then
      .error (tooLarge pageNo (bytes.length + chunk.length))
    else readChunks pageNo cut (bytes ++ chunk) chunks

/-- `read_capped_body`. -/
def readCappedBody (r : Response) (pageNo : ℕ) : Except FetchError Bytes :=
  match r.contentLength with
  | some len =>
    if maxSeatsPageBytes < len then .error (tooLarge pageNo len)
    else readChunks pageNo r.cut [] r.chunks
  | none => readChunks pageNo r.cut [] r.chunks

/-- `to_str` of a field value: visible characters, spaces and tabs only. -/
def toStr (value : Text) : Option Text :=
  if value.all fun c => c = '\t' || (0x20 ≤ c.toNat && c.toNat ≤ 0x7E) then some value else none

/-- The next address that a response gives, from the first `Link` field. -/
def Response.nextUrl (r : Response) : Option Text := (r.links.head?.bind toStr).bind nextLinkUrl

/-! ## `fetch_seats` -/

/-- A run: what it returns, the addresses of the pages it asks for, and the attempts made. -/
structure Fetch where
  result : Except FetchError (List Bytes)
  requested : List Text
  attempts : ℕ

/-- A run whose first page is done. -/
def Fetch.behind (url : Text) (bytes : Bytes) (rest : Fetch) : Fetch where
  result := rest.result.map (bytes :: ·)
  requested := url :: rest.requested
  attempts := rest.attempts

/-- The error of a run that reaches the cap. -/
def exceeded : FetchError :=
  .github seatsEndpoint 0 (s!"exceeded {maxSeatPages} pages without exhausting pagination; " ++
    "aborting rather than following a Link header forever")

section Fetching

variable (server : Server) (messageOf : Bytes → Option String)

/-- The loop of `fetch_seats`, with the pages that are left under the cap. `messageOf` reads the
`message` of a JSON body. -/
def fetchPages : ℕ → Option Text → ℕ → Fetch
  | _, none, attempts => ⟨.ok [], [], attempts⟩
  | 0, some _, attempts => ⟨.error exceeded, [], attempts⟩
  | left + 1, some url, attempts =>
    match sendWithRetry server url attempts with
    | (.error e, attempts) => ⟨.error e, [url], attempts⟩
    | (.ok r, attempts) =>
      match readCappedBody r (maxSeatPages - left) with
      | .error e => ⟨.error e, [url], attempts⟩
      | .ok bytes =>
        if r.status ≠ 200 then
          ⟨.error (.github seatsEndpoint r.status ((messageOf bytes).getD "no message")), [url],
            attempts⟩
        else (fetchPages left r.nextUrl attempts).behind url bytes

/-- The address of the first page. -/
def firstUrl (apiBase org : String) : Text :=
  s!"{apiBase}/orgs/{org}/copilot/billing/seats?per_page={seatsPerPage}&page=1".toList

/-- `fetch_seats`. -/
def fetchSeats (apiBase org : String) : Fetch :=
  fetchPages server messageOf maxSeatPages (some (firstUrl apiBase org)) 0

end Fetching

/-- `to_archive_bytes`. -/
def toArchiveBytes (pages : List Bytes) : Bytes := 0x5B :: [0x2C].intercalate pages ++ [0x5D]

/-! ## Listings -/

/-- A page of a listing: its address, the lists of links in its `Link` fields, its body, and the
seats that the body says. -/
structure SeatPage where
  url : Text
  links : List Header
  body : Bytes
  seats : SeatsPage

namespace SeatPage

/-- The targets that the page links to with the relation `next`. -/
def nextTargets (p : SeatPage) : List Text := p.links.flatMap Header.nextTargets

/-- The target that is read from the first `Link` field: of a field in visible ASCII, the one that
the cut at commas and semicolons leaves. -/
def readNext (p : SeatPage) : Option Text :=
  p.links.head?.bind fun header => if (toStr header.text).isSome then readHeader header else none

end SeatPage

/-- A listing under `resolve`, the resolution of a reference against the address of its page: every
page but the last links to the next one, and the last to none. -/
structure Listing (resolve : Text → Text → Text) (first : Text) where
  pages : List SeatPage
  starts : pages.head?.map SeatPage.url = some first
  follows : pages.IsChain fun p q => ∃ target ∈ p.nextTargets, resolve p.url target = q.url
  ends : ∀ p ∈ pages.getLast?, p.nextTargets = []
  length_le : pages.length ≤ maxSeatPages

/-- The server has the page at its address, after transient failures perhaps. -/
def Serves (server : Server) (p : SeatPage) : Prop :=
  ∀ attempts, ∃ r, (sendWithRetry server p.url attempts).1 = .ok r ∧ r.status = 200 ∧
    r.links = p.links.map Header.text ∧ r.chunks.flatten = p.body ∧ r.cut = false ∧
    ∀ len ∈ r.contentLength, len = p.body.length

/-- Every page's header yields the address of the next page and that of the last page none, and
no body is over the cap. -/
structure ReadsOn (pages : List SeatPage) : Prop where
  follows : pages.IsChain fun p q => p.readNext = some q.url
  ends : ∀ p ∈ pages.getLast?, p.readNext = none
  fits : ∀ p ∈ pages, p.body.length ≤ maxSeatsPageBytes

/-! ## Reading a page -/

theorem readChunks_eq (pageNo : ℕ) (chunks : List Bytes) (bytes : Bytes) :
    (bytes.length ≤ maxSeatsPageBytes → (bytes ++ chunks.flatten).length ≤ maxSeatsPageBytes →
      readChunks pageNo false bytes chunks = .ok (bytes ++ chunks.flatten)) ∧
    (maxSeatsPageBytes < (bytes ++ chunks.flatten).length → bytes.length ≤ maxSeatsPageBytes →
      ∃ e, readChunks pageNo false bytes chunks = .error e) := by
  induction chunks generalizing bytes with
  | nil =>
    refine ⟨fun _ _ => by simp [readChunks], fun hbig hfits => ?_⟩
    rw [List.flatten_nil, List.append_nil] at hbig
    omega
  | cons chunk chunks ih =>
    rw [List.flatten_cons, ← List.append_assoc, readChunks]
    by_cases hchunk : maxSeatsPageBytes < bytes.length + chunk.length
    · rw [if_pos hchunk]
      refine ⟨fun _ hfits => ?_, fun _ _ => ⟨_, rfl⟩⟩
      rw [List.length_append, List.length_append] at hfits
      omega
    · rw [if_neg hchunk]
      have hnext : (bytes ++ chunk).length ≤ maxSeatsPageBytes := by
        rw [List.length_append]
        omega
      exact ⟨fun _ => (ih (bytes ++ chunk)).1 hnext, fun hbig _ => (ih (bytes ++ chunk)).2 hbig hnext⟩

/-- A complete body is read when it fits. -/
theorem readCappedBody_eq {r : Response} {body : Bytes} (hchunks : r.chunks.flatten = body)
    (hcut : r.cut = false) (hlen : ∀ len ∈ r.contentLength, len = body.length) (pageNo : ℕ) :
    if body.length ≤ maxSeatsPageBytes then readCappedBody r pageNo = .ok body
    else ∃ e, readCappedBody r pageNo = .error e := by
  have hread := readChunks_eq pageNo r.chunks []
  rw [hchunks, List.nil_append] at hread
  unfold readCappedBody
  rw [hcut]
  split
  · next hfits =>
    cases hcontent : r.contentLength with
    | none => exact hread.1 (Nat.zero_le _) hfits
    | some len =>
      rw [hlen len hcontent]
      exact (if_neg (by omega)).trans (hread.1 (Nat.zero_le _) hfits)
  · next hbig =>
    cases hcontent : r.contentLength with
    | none => exact hread.2 (by omega) (Nat.zero_le _)
    | some len =>
      rw [hlen len hcontent]
      exact ⟨_, if_pos (by omega)⟩

/-- The address that is read from a page's fields. -/
theorem nextUrl_eq {r : Response} {p : SeatPage} (h : r.links = p.links.map Header.text) :
    r.nextUrl = p.readNext := by
  rw [Response.nextUrl, SeatPage.readNext, h]
  cases p.links with
  | nil => rfl
  | cons header rest =>
    rw [List.map_cons, List.head?_cons, List.head?_cons, Option.bind_some, Option.bind_some]
    by_cases hstr : header.text.all fun c => c = '\t' || (0x20 ≤ c.toNat && c.toNat ≤ 0x7E)
    · have hsome : toStr header.text = some header.text := if_pos hstr
      rw [hsome, Option.isSome_some, if_pos rfl, Option.bind_some, nextLinkUrl_text]
    · have hnone : toStr header.text = none := if_neg hstr
      rw [hnone, Option.isSome_none]
      rfl

/-! ## A run over a listing -/

section Runs

variable {server : Server} {messageOf : Bytes → Option String}

variable (messageOf) in
/-- A page that the server has is taken when it fits, and the run goes on as its header says. -/
theorem fetchPages_page {p : SeatPage} (h : Serves server p) (left attempts : ℕ) :
    ∃ attempts', if p.body.length ≤ maxSeatsPageBytes then
        fetchPages server messageOf (left + 1) (some p.url) attempts =
          (fetchPages server messageOf left p.readNext attempts').behind p.url p.body
      else ∃ e, fetchPages server messageOf (left + 1) (some p.url) attempts =
        ⟨.error e, [p.url], attempts'⟩ := by
  obtain ⟨r, hsend, hstatus, hlinks, hchunks, hcut, hlen⟩ := h attempts
  refine ⟨(sendWithRetry server p.url attempts).2, ?_⟩
  have hpair : sendWithRetry server p.url attempts =
      (.ok r, (sendWithRetry server p.url attempts).2) := Prod.ext hsend rfl
  have hread := readCappedBody_eq hchunks hcut hlen (maxSeatPages - left)
  rw [fetchPages, hpair]
  split
  · next hfits =>
    rw [if_pos hfits] at hread
    simp only [hread, hstatus, ne_eq, not_true_eq_false, if_false, nextUrl_eq hlinks]
  · next hbig =>
    rw [if_neg hbig] at hread
    obtain ⟨e, he⟩ := hread
    exact ⟨e, by simp only [he]⟩

variable (server messageOf) in
/-- A run that has an address to ask for and a page left asks for it first. -/
theorem head?_requested (left : ℕ) (url : Text) (attempts : ℕ) :
    (fetchPages server messageOf (left + 1) (some url) attempts).requested.head? = some url := by
  rw [fetchPages]
  split
  · rfl
  · split
    · rfl
    · split <;> rfl

/-- A run that asks for nothing returns no pages only when there is no address. -/
theorem fetchPages_done (left attempts : ℕ) (url? : Option Text) :
    ((fetchPages server messageOf left url? attempts).result = .ok [] ∧
      (fetchPages server messageOf left url? attempts).requested = []) ↔ url? = none := by
  cases url? with
  | none => simp [fetchPages]
  | some url =>
    cases left with
    | zero => simp [fetchPages]
    | succ left =>
      have hhead := head?_requested server messageOf left url attempts
      constructor
      · rintro ⟨-, hnil⟩
        rw [hnil] at hhead
        cases hhead
      · intro h
        cases h

theorem behind_ok_iff {f : Fetch} {url : Text} {bytes : Bytes} {bodies : List Bytes}
    {urls : List Text} : ((f.behind url bytes).result = .ok (bytes :: bodies) ∧
      (f.behind url bytes).requested = url :: urls) ↔ f.result = .ok bodies ∧ f.requested = urls := by
  obtain ⟨result, requested, attempts⟩ := f
  cases result with
  | error e => simp [Fetch.behind, Except.map]
  | ok pages => simp [Fetch.behind, Except.map]

/-- The run over pages that the server has, from the first of them. -/
theorem fetchPages_listing {pages : List SeatPage} {p : SeatPage}
    (hserves : ∀ q ∈ p :: pages, Serves server q) {left : ℕ} (hleft : pages.length ≤ left)
    (attempts : ℕ) :
    ((fetchPages server messageOf (left + 1) (some p.url) attempts).result =
        .ok ((p :: pages).map SeatPage.body) ∧
      (fetchPages server messageOf (left + 1) (some p.url) attempts).requested =
        (p :: pages).map SeatPage.url) ↔ ReadsOn (p :: pages) := by
  induction pages generalizing p left attempts with
  | nil =>
    obtain ⟨attempts', hpage⟩ :=
      fetchPages_page messageOf (hserves p List.mem_cons_self) left attempts
    split at hpage
    · next hfits =>
      rw [hpage]
      refine ((behind_ok_iff).trans (fetchPages_done left attempts' p.readNext)).trans ?_
      exact ⟨fun hnone => ⟨.singleton p, by simpa using hnone, by simpa using hfits⟩,
        fun h => h.ends p rfl⟩
    · next hbig =>
      obtain ⟨e, he⟩ := hpage
      rw [he]
      exact ⟨fun h => absurd h.1 (by simp), fun h => absurd (h.fits p List.mem_cons_self) hbig⟩
  | cons q pages ih =>
    obtain ⟨attempts', hpage⟩ :=
      fetchPages_page messageOf (hserves p List.mem_cons_self) left attempts
    obtain ⟨left, rfl⟩ : ∃ l, left = l + 1 := by
      cases left with
      | zero => simp at hleft
      | succ l => exact ⟨l, rfl⟩
    split at hpage
    · next hfits =>
      rw [hpage]
      refine (behind_ok_iff).trans ?_
      have hlength : pages.length ≤ left := by simpa using hleft
      have hstep := ih (p := q) (fun s hs => hserves s (List.mem_cons_of_mem p hs)) hlength
        attempts'
      constructor
      · rintro ⟨hresult, hrequested⟩
        -- The first address that the rest of the run asks for is the one that was read.
        have hnext : p.readNext = some q.url := by
          cases hread : p.readNext with
          | none =>
            rw [hread] at hrequested
            simp [fetchPages] at hrequested
          | some url =>
            have hhead := head?_requested server messageOf left url attempts'
            rw [hread] at hrequested
            rw [hrequested] at hhead
            exact hhead.symm
        rw [hnext] at hresult hrequested
        have hrest := hstep.mp ⟨hresult, hrequested⟩
        exact ⟨.cons_cons hnext hrest.follows, by simpa using hrest.ends,
          List.forall_mem_cons.mpr ⟨hfits, hrest.fits⟩⟩
      · intro h
        obtain ⟨hnext, hchain⟩ := List.isChain_cons_cons.mp h.follows
        rw [hnext]
        exact hstep.mpr ⟨hchain, by simpa using h.ends,
          fun s hs => h.fits s (List.mem_cons_of_mem p hs)⟩
    · next hbig =>
      obtain ⟨e, he⟩ := hpage
      rw [he]
      exact ⟨fun h => absurd h.1 (by simp), fun h => absurd (h.fits p List.mem_cons_self) hbig⟩

/-! ## The cap -/

theorem sendFrom_attempts (url : Text) (retries attempts : ℕ) :
    (sendFrom server url retries attempts).2 ≤ attempts + retries + 1 := by
  induction retries generalizing attempts with
  | zero =>
    rw [sendFrom]
    split <;> exact le_rfl
  | succ retries ih =>
    have hrest := ih (attempts + 1)
    rw [sendFrom]
    split
    · split
      · omega
      · simp only
        omega
    · split
      · omega
      · simp only
        omega

variable (server messageOf) in
/-- Every page under the cap is asked for once, in at most three attempts. -/
theorem fetchPages_bounded (left : ℕ) (url? : Option Text) (attempts : ℕ) :
    (fetchPages server messageOf left url? attempts).requested.length ≤ left ∧
      (fetchPages server messageOf left url? attempts).attempts ≤ attempts + maxAttempts * left := by
  induction left generalizing url? attempts with
  | zero => cases url? <;> simp [fetchPages]
  | succ left ih =>
    cases url? with
    | none => simp [fetchPages]
    | some url =>
      have hsend : (sendWithRetry server url attempts).2 ≤ attempts + maxAttempts :=
        sendFrom_attempts url (maxAttempts - 1) attempts
      rw [fetchPages, Nat.mul_succ]
      split
      · next e n hpair =>
        rw [hpair] at hsend
        exact ⟨by simp, by simp only; omega⟩
      · next r n hpair =>
        rw [hpair] at hsend
        split
        · exact ⟨by simp, by simp only; omega⟩
        · split
          · exact ⟨by simp, by simp only; omega⟩
          · obtain ⟨hlength, hattempts⟩ := ih r.nextUrl n
            simp only [Fetch.behind, List.length_cons]
            omega

end Runs

/-! ## Listings in full -/

/-- A JSON array of pages reads as the pages do. -/
def ReadsArrays (env : CopilotEnv) (pageOf : Bytes → Option SeatsPage) : Prop :=
  ∀ bodies pages, bodies ≠ [] → bodies.mapM pageOf = some pages →
    env.seatPages (toArchiveBytes bodies) = some pages

/-- The run returns the pages in order, from their own addresses, and their archive is parsed to
the seats of all pages that have an assignee with an id. -/
structure Complete (env : CopilotEnv) (run : Fetch) (pages : List SeatPage) : Prop where
  result : run.result = .ok (pages.map SeatPage.body)
  requested : run.requested = pages.map SeatPage.url
  parsed : ∀ bodies, run.result = .ok bodies → ∀ report day,
    env.parseSeats (toArchiveBytes bodies) report day =
      .ok (pages.flatMap fun p => p.seats.seats.filterMap (env.normalizeSeat day))

/-- The archive of pages is parsed to the seats of all of them. -/
theorem parseSeats_archive {env : CopilotEnv} {pageOf : Bytes → Option SeatsPage}
    (harrays : ReadsArrays env pageOf) {pages : List SeatPage} (hne : pages ≠ [])
    (hseats : ∀ p ∈ pages, pageOf p.body = some p.seats) (report day : String) :
    env.parseSeats (toArchiveBytes (pages.map SeatPage.body)) report day =
      .ok (pages.flatMap fun p => p.seats.seats.filterMap (env.normalizeSeat day)) := by
  have hread : (pages.map SeatPage.body).mapM pageOf = some (pages.map SeatPage.seats) := by
    clear hne
    induction pages with
    | nil => rfl
    | cons p pages ih =>
      obtain ⟨hp, hrest⟩ := List.forall_mem_cons.mp hseats
      simp [hp, ih hrest]
  have harchive := harrays _ _ (by simpa using hne) hread
  simp only [CopilotEnv.parseSeats, harchive, List.flatMap_map, List.filterMap_flatMap]

/-- A run returns a listing in full exactly when the headers of its pages read on. -/
theorem complete_iff_readsOn {resolve : Text → Text → Text} {apiBase org : String}
    (l : Listing resolve (firstUrl apiBase org)) {server : Server}
    (hserves : ∀ p ∈ l.pages, Serves server p) (messageOf : Bytes → Option String)
    {env : CopilotEnv} {pageOf : Bytes → Option SeatsPage} (harrays : ReadsArrays env pageOf)
    (hseats : ∀ p ∈ l.pages, pageOf p.body = some p.seats) :
    Complete env (fetchSeats server messageOf apiBase org) l.pages ↔ ReadsOn l.pages := by
  obtain ⟨pages, starts, follows, ends, length_le⟩ := l
  cases pages with
  | nil => cases starts
  | cons p pages =>
    have hfirst : p.url = firstUrl apiBase org := Option.some.inj starts
    have hrun : (fetchSeats server messageOf apiBase org).result =
          .ok ((p :: pages).map SeatPage.body) ∧
        (fetchSeats server messageOf apiBase org).requested = (p :: pages).map SeatPage.url ↔
          ReadsOn (p :: pages) := by
      rw [fetchSeats, ← hfirst]
      have hleft : pages.length ≤ maxSeatPages - 1 := Nat.le_pred_of_lt length_le
      exact fetchPages_listing hserves hleft 0
    rw [← hrun]
    refine ⟨fun h => ⟨h.result, h.requested⟩, fun h => ⟨h.1, h.2, fun bodies hok => ?_⟩⟩
    obtain rfl : (p :: pages).map SeatPage.body = bodies := Except.ok.inj (h.1.symm.trans hok)
    exact parseSeats_archive harrays (List.cons_ne_nil p pages) hseats

/-- A link-value without commas, and without semicolons in its target, is read when one of its
parameters is written `rel="next"`. -/
theorem readLink_of_plain {l : LinkValue} (htarget : ',' ∉ l.target.text ∧ ';' ∉ l.target.text)
    (hparams : ∀ p ∈ l.params, ',' ∉ p.2.1.text) :
    readLink l = if l.params.any fun p => isPlainNext p.2.1 then some l.target.text else none := by
  have hread (params : List LinkParam) (found : Bool) (h : ∀ p ∈ params, ',' ∉ p.text) :
      readParams (some l.target.text) found params =
        if found || params.any isPlainNext then some l.target.text else none := by
    induction params generalizing found with
    | nil => simp [readParams]
    | cons p params ih =>
      obtain ⟨hp, hrest⟩ := List.forall_mem_cons.mp h
      rw [readParams, if_neg hp, ih _ hrest, List.any_cons, Bool.or_assoc]
  rw [readLink, if_neg (not_or.mpr htarget), hread _ false (List.forall_mem_map.mpr hparams),
    Bool.false_or, List.any_map]
  rfl

/-- Of such link-values, whose relation is `next` only where a parameter says so in full, the first
target with the relation is read. -/
theorem readHeader_of_plain {header : Header}
    (h : ∀ e ∈ header, ∀ l ∈ e.link, (',' ∉ l.target.text ∧ ';' ∉ l.target.text) ∧
      (∀ p ∈ l.params, ',' ∉ p.2.1.text) ∧ l.isNext = l.params.any fun p => isPlainNext p.2.1) :
    readHeader header = header.nextTargets.head? := by
  induction header with
  | nil => rfl
  | cons e header ih =>
    obtain ⟨he, hrest⟩ := List.forall_mem_cons.mp h
    have htail := ih hrest
    obtain ⟨b, link⟩ := e
    cases link with
    | none => simpa [readHeader, Header.nextTargets] using htail
    | some l =>
      obtain ⟨htarget, hparams, hnext⟩ := he l rfl
      have hread := readLink_of_plain htarget hparams
      rw [← hnext] at hread
      rw [readHeader, List.findSome?_cons, Option.bind_some, hread]
      cases hl : l.isNext with
      | true => simp [Header.nextTargets, hl]
      | false => simpa [readHeader, Header.nextTargets, hl] using htail

/-- Under any server a run asks for at most 200 pages, each in at most three attempts. It returns a
listing in full exactly when the headers of its pages read on. -/
theorem seat_listing_complete_iff {resolve : Text → Text → Text} {apiBase org : String}
    (l : Listing resolve (firstUrl apiBase org)) {server : Server}
    (hserves : ∀ p ∈ l.pages, Serves server p) (messageOf : Bytes → Option String)
    {env : CopilotEnv} {pageOf : Bytes → Option SeatsPage} (harrays : ReadsArrays env pageOf)
    (hseats : ∀ p ∈ l.pages, pageOf p.body = some p.seats) :
    (Complete env (fetchSeats server messageOf apiBase org) l.pages ↔ ReadsOn l.pages) ∧
      ∀ server : Server,
        (fetchSeats server messageOf apiBase org).requested.length ≤ maxSeatPages ∧
        (fetchSeats server messageOf apiBase org).attempts ≤ maxAttempts * maxSeatPages := by
  refine ⟨complete_iff_readsOn l hserves messageOf harrays hseats, fun server => ?_⟩
  have hbound := fetchPages_bounded server messageOf maxSeatPages
    (some (firstUrl apiBase org)) 0
  rw [Nat.zero_add] at hbound
  exact hbound

/-! ### Two pages -/

/-- A server that has these pages. -/
def serverOf (pages : List SeatPage) : Server := fun _ url =>
  match pages.find? fun p => p.url = url with
  | some p => .response ⟨200, p.links.map Header.text, none, [p.body], false⟩
  | none => .failed false

theorem serves_serverOf {pages : List SeatPage} (h : (pages.map SeatPage.url).Nodup) :
    ∀ p ∈ pages, Serves (serverOf pages) p := by
  intro p hp attempts
  have hfind : pages.find? (fun q => q.url = p.url) = some p := by
    induction pages with
    | nil => cases hp
    | cons q pages ih =>
      rw [List.map_cons, List.nodup_cons] at h
      rcases List.mem_cons.mp hp with rfl | hmem
      · exact List.find?_cons_of_pos (by simp)
      · have hne : ¬ q.url = p.url := fun heq => h.1 (heq ▸ List.mem_map_of_mem hmem)
        rw [List.find?_cons_of_neg (by simpa using hne)]
        exact ih h.2 hmem
  refine ⟨⟨200, p.links.map Header.text, none, [p.body], false⟩, ?_, rfl, rfl, ?_, rfl, ?_⟩
  · simp [sendWithRetry, sendFrom, maxAttempts, serverOf, hfind, isRetryableStatus]
  · simp
  · simp

/-- The bytes of an ASCII text. -/
def ascii (s : String) : Bytes := s.toList.map fun c => c.toNat.toUInt8

def noBlank : Blank := ⟨[], List.forall_mem_nil _⟩

def oneBlank : Blank := ⟨[' '], List.all_eq_true.mp (by decide)⟩

/-- `; rel="next"`, and the same with `last`. -/
def relParam (units : List QuotedUnit) : Blank × LinkParam × Blank :=
  (oneBlank, ⟨⟨"rel".toList, by decide, List.all_eq_true.mp (by decide)⟩,
    some (noBlank, noBlank, .quoted units)⟩, noBlank)

def nextUnits : List QuotedUnit :=
  [.plain 'n' (by decide), .plain 'e' (by decide), .plain 'x' (by decide), .plain 't' (by decide)]

def lastUnits : List QuotedUnit :=
  [.plain 'l' (by decide), .plain 'a' (by decide), .plain 's' (by decide), .plain 't' (by decide)]

def linkTo (target : UriReference) (units : List QuotedUnit) : LinkValue :=
  ⟨target, noBlank, [relParam units]⟩

/-- The body with one seat, of this holder. -/
def seatBody (id : String) : Bytes :=
  ascii "\x7b\"seats\":[\x7b\"assignee\":\x7b\"id\":\"" ++ ascii id ++ ascii "\"\x7d\x7d]\x7d"

def seatOf (id : String) : SeatsPage := ⟨[⟨none, none, none, none, some ⟨some id, none⟩⟩]⟩

/-- Two bodies that are read, neither of which has a comma. -/
def pageOf (body : Bytes) : Option SeatsPage :=
  if body = seatBody "7" then some (seatOf "7")
  else if body = seatBody "8" then some (seatOf "8") else none

/-- An environment that reads arrays of them. -/
def arrayEnv : CopilotEnv :=
  ⟨fun _ => none, fun _ => none, fun _ => none, fun _ => none,
    fun bytes => (bytes.tail.dropLast.splitOn 0x2C).mapM pageOf, fun _ => 0, fun _ => none,
    fun _ => none, fun _ => "", fun _ _ h => by cases h⟩

theorem arrayEnv_readsArrays : ReadsArrays arrayEnv pageOf := by
  intro bodies pages hne hread
  have hcomma : ∀ body ∈ bodies, 0x2C ∉ body := by
    intro body hbody
    have hsome : pageOf body ≠ none := by
      intro hnone
      clear hne
      induction bodies generalizing pages with
      | nil => cases hbody
      | cons b bodies ih =>
        rcases List.mem_cons.mp hbody with rfl | hmem
        · simp [hnone] at hread
        · cases hb : pageOf b with
          | none => simp [hb] at hread
          | some page =>
            cases hrest : bodies.mapM pageOf with
            | none => simp [hb, hrest] at hread
            | some rest => exact ih rest hrest hmem
    unfold pageOf at hsome
    split at hsome
    · next h =>
      rw [h]
      decide
    · split at hsome
      · next h =>
        rw [h]
        decide
      · exact absurd rfl hsome
  have hinner : (toArchiveBytes bodies).tail.dropLast = [0x2C].intercalate bodies := by
    rw [toArchiveBytes, List.cons_append, List.tail_cons, List.dropLast_concat]
  change ((toArchiveBytes bodies).tail.dropLast.splitOn 0x2C).mapM pageOf = some pages
  rw [hinner, List.splitOn_intercalate _ hcomma hne, hread]

def apiBase : String := "https://api.github.com"

/-- The address of the second page. -/
def secondUrl : UriReference :=
  ⟨(apiBase ++ "/orgs/acme/copilot/billing/seats?per_page=100&page=2").toList,
    List.all_eq_true.mp (by decide +kernel)⟩

/-- The header that GitHub sends with the first of two pages. -/
def usualHeader : Header :=
  [⟨noBlank, some (linkTo secondUrl nextUnits)⟩, ⟨oneBlank, some (linkTo secondUrl lastUnits)⟩]

def usualPages : List SeatPage :=
  [⟨firstUrl apiBase "acme", [usualHeader], seatBody "7", seatOf "7"⟩,
    ⟨secondUrl.text, [], seatBody "8", seatOf "8"⟩]

def usualListing : Listing (fun _ target => target) (firstUrl apiBase "acme") where
  pages := usualPages
  starts := rfl
  follows := .cons_cons ⟨secondUrl.text, by decide, rfl⟩ (.singleton _)
  ends := by rintro p ⟨⟩; rfl
  length_le := by decide

theorem usualPages_readsOn : ReadsOn usualPages where
  follows := .cons_cons (by decide +kernel) (.singleton _)
  ends := by rintro p ⟨⟩; rfl
  fits := by simp [usualPages, maxSeatsPageBytes, seatBody, ascii]

theorem usualPages_seats : ∀ p ∈ usualPages, pageOf p.body = some p.seats :=
  List.forall_mem_cons.mpr ⟨rfl, List.forall_mem_cons.mpr ⟨rfl, List.forall_mem_nil _⟩⟩

theorem seat_listing_complete_two_pages :
    Complete arrayEnv (fetchSeats (serverOf usualPages) (fun _ => none) apiBase "acme") usualPages :=
  (seat_listing_complete_iff usualListing (serves_serverOf (by decide +kernel)) (fun _ => none)
    arrayEnv_readsArrays usualPages_seats).1.mpr usualPages_readsOn

/-- An address with a comma in its query. -/
def commaUrl : UriReference :=
  ⟨(apiBase ++ "/orgs/acme/copilot/billing/seats?per_page=100&after=a,b").toList,
    List.all_eq_true.mp (by decide +kernel)⟩

def commaPages : List SeatPage :=
  [⟨firstUrl apiBase "acme", [[⟨noBlank, some (linkTo commaUrl nextUnits)⟩]], seatBody "7",
      seatOf "7"⟩,
    ⟨commaUrl.text, [], seatBody "8", seatOf "8"⟩]

def commaListing : Listing (fun _ target => target) (firstUrl apiBase "acme") where
  pages := commaPages
  starts := rfl
  follows := .cons_cons ⟨commaUrl.text, by decide +kernel, rfl⟩ (.singleton _)
  ends := by rintro p ⟨⟩; rfl
  length_le := by decide +kernel

/-- The listing ends with its first page, without an error. -/
theorem comma_in_target_ends_listing :
    (∀ p ∈ commaListing.pages, Serves (serverOf commaPages) p) ∧
      (fetchSeats (serverOf commaPages) (fun _ => none) apiBase "acme").result =
        .ok [seatBody "7"] ∧
      ¬ Complete arrayEnv (fetchSeats (serverOf commaPages) (fun _ => none) apiBase "acme")
        commaListing.pages := by
  obtain ⟨hnodup, hrun⟩ : (commaPages.map SeatPage.url).Nodup ∧
      (fetchSeats (serverOf commaPages) (fun _ => none) apiBase "acme").result =
        .ok [seatBody "7"] := by
    decide +kernel
  refine ⟨serves_serverOf hnodup, hrun, fun h => ?_⟩
  have hlength := congrArg List.length (Except.ok.inj (hrun.symm.trans h.result))
  exact absurd hlength (by decide)

end Seats

end Governance
