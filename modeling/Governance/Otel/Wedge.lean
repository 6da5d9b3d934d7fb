import Governance.Otel.Request

/-!
# A drain that cannot be wedged

`drain` gives up when a window of `MAX_READ` bytes has no line feed, and then `next` fails
until the file changes. A spool in which every piece without a line feed is shorter than the
window (`ShortRuns`) is never in that state, whatever the checkpoint says, and no operation
makes such a piece but an append. So the run theorem has one condition, on the appends.

A kill can come behind any durable step of a call (`World.crash`), or in the middle of an
append, which leaves the start of a line at the end of the file.
-/

namespace Governance

open Utf8Text ByteLines Otlp

/-- A disk on which no read can get stuck. -/
def Disk.Readable (d : Disk) : Prop := ∀ f, d.spool = some f → ShortRuns maxRead f.bytes

theorem Disk.readable_iff {d : Disk} :
    d.Readable ↔ ShortRuns maxRead ((d.spool.map SpoolFile.bytes).getD []) := by
  cases hf : d.spool with
  | none =>
    simp only [Readable, hf, Option.map_none, Option.getD_none]
    exact ⟨fun _ => .nil (by decide), fun _ _ h => by cases h⟩
  | some f => simp [Readable, hf]

/-- A readable file is read at every offset. -/
theorem drain_of_readable (digest : Bytes → String) {d : Disk} (h : d.Readable) (offset : ℕ)
    (known : Option Identity) : ∃ out, drain digest d.spool offset known = .ok out := by
  cases hf : d.spool with
  | none => exact ⟨_, rfl⟩
  | some f =>
    simp only [drain]
    -- the drain starts at the offset, or at the first byte after a restart
    generalize (if (Identity.restart digest known f offset).isSome then 0 else offset) = start
    cases hlast : lastLineFeed ((f.bytes.drop start).take maxRead) with
    | none =>
      rw [if_neg fun hlen => (h f hf).lastLineFeed_isSome start hlen hlast]
      exact ⟨_, rfl⟩
    | some last => exact ⟨_, rfl⟩

namespace DurableSpool

/-- The disk, and every disk a crash can leave, is readable. -/
structure Unwedged (s : DurableSpool) : Prop where
  disk : s.disk.Readable
  trail : ∀ d ∈ s.trail, d.Readable

variable {s : DurableSpool} {env : SpoolEnv}

theorem unwedged_openAt {d : Disk} (h : d.Readable) : (openAt d).Unwedged :=
  ⟨h, by simpa [openAt] using h⟩

namespace Unwedged

/-- What is in memory does not matter. -/
theorem inMemory (h : s.Unwedged) {s' : DurableSpool} (hdisk : s'.disk = s.disk)
    (htrail : s'.trail = s.trail) : s'.Unwedged :=
  ⟨hdisk ▸ h.disk, htrail ▸ h.trail⟩

theorem persist (h : s.Unwedged) {d : Disk} (hd : d.Readable) : (s.persist d).Unwedged := by
  refine ⟨hd, ?_⟩
  intro d' hd'
  rcases List.mem_append.mp hd' with hd' | hd'
  · exact h.trail d' hd'
  · rw [List.mem_singleton.mp hd']
    exact hd

theorem store (h : s.Unwedged) : s.store.Unwedged := h.persist h.disk

/-- A file that is a rest of the old one. -/
theorem setFile_suffix (h : s.Unwedged) {f f' : SpoolFile} (hf : s.disk.spool = some f)
    (hsuf : f'.bytes <:+ f.bytes) : (s.setFile f').Unwedged := by
  refine h.persist ?_
  intro f'' hf''
  obtain rfl := Option.some.inj hf''
  exact (h.disk f hf).of_suffix hsuf

theorem commitPast (h : s.Unwedged) (boundary lost now : ℕ) :
    (s.commitPast boundary lost now).Unwedged := by
  have hcommitted : { s with checkpoint := s.committed boundary lost now }.Unwedged :=
    h.inMemory rfl rfl
  have hstore := hcommitted.store
  by_cases hreclaim : ∃ f, s.disk.spool = some f ∧ reclaimAbove < boundary ∧
      f.bytes.length = boundary
  · obtain ⟨f, hf, habove, hsize⟩ := hreclaim
    rw [commitPast_reclaims lost now hf habove hsize]
    refine store (inMemory (hstore.setFile_suffix hf ?_) rfl rfl)
    exact List.nil_suffix
  · rw [commitPast_keeps lost now]
    · exact hstore
    · intro f hf habove hsize
      exact hreclaim ⟨f, hf, habove, hsize⟩

theorem compact (h : s.Unwedged) : (s.compactIfStuck env).2.Unwedged := by
  obtain hsame | ⟨f, hf, -, -, hnew⟩ := compact_spec env s
  · rw [hsame]
    exact h
  · rw [hnew]
    refine store (inMemory (h.setFile_suffix hf ?_) rfl rfl)
    exact List.drop_suffix _ _

/-- `next` answers, and what it commits past keeps the spool readable. -/
theorem nextLoop (h : s.Unwedged) (now fuel : ℕ) :
    (∃ p, (s.nextLoop env now fuel).1 = .ok p) ∧ (s.nextLoop env now fuel).2.Unwedged := by
  induction fuel generalizing s with
  | zero => exact ⟨⟨none, rfl⟩, h⟩
  | succ fuel ih =>
    obtain ⟨d, hd⟩ := drain_of_readable env.digest h.disk s.checkpoint.offset s.checkpoint.spool
    have hpeek : ∃ out, s.peekAt env s.checkpoint.offset = .ok out := by
      simp only [peekAt, hd]
      split
      · exact ⟨_, rfl⟩
      · split
        · exact ⟨_, rfl⟩
        · split <;> exact ⟨_, rfl⟩
    obtain ⟨⟨peeked, identity⟩, hpeek⟩ := hpeek
    have hadopted : ({ s with pendingIdentity := identity }).Unwedged := h.inMemory rfl rfl
    simp only [DurableSpool.nextLoop, hpeek]
    cases peeked with
    | empty => exact ⟨⟨none, rfl⟩, hadopted⟩
    | restarted => exact ih (hadopted.inMemory rfl rfl)
    | undecodable boundary => exact ih (hadopted.commitPast boundary 1 now)
    | decoded p => exact ⟨⟨some p, rfl⟩, hadopted⟩

theorem next (env : SpoolEnv) (h : s.Unwedged) (now : ℕ) :
    (∃ p, (s.next env now).1 = .ok p) ∧ (s.next env now).2.Unwedged := by
  have hpruned : (s.pruned now).Unwedged := h.inMemory rfl rfl
  exact hpruned.nextLoop now (s.fileSize + 3)

/-- An append that leaves room, whole or torn. -/
theorem setFile_append (h : s.Unwedged) {f : SpoolFile} {more : Bytes}
    (hbytes : f.bytes = s.fileBytes ++ more)
    (hmore : ShortRuns maxRead (s.fileBytes ++ more)) : (s.setFile f).Unwedged := by
  refine h.persist ?_
  intro f' hf'
  obtain rfl := Option.some.inj hf'
  rw [hbytes]
  exact hmore

end Unwedged

/-- The file `append_line` opens. -/
def appendTarget (env : SpoolEnv) (s : DurableSpool) : SpoolFile :=
  s.disk.spool.getD ⟨(env.ids 0).1, (env.ids 0).2, [], 0⟩

theorem appendTarget_bytes (env : SpoolEnv) (s : DurableSpool) :
    (s.appendTarget env).bytes = s.fileBytes := by
  simp only [appendTarget, fileBytes]
  cases s.disk.spool <;> rfl

/-- Whether the bytes behind the last line feed of the file and a piece of a line, joined, are
shorter than the reader's window. -/
def roomFor (s : DurableSpool) (length : ℕ) : Bool := openTail s.fileBytes + length < maxRead

/-- A line that is appended, or `n` bytes of it, leaves room. -/
def Appends (env : SpoolEnv) (s : DurableSpool) (r : Record) (n : ℕ) : Prop :=
  (s.retain env r).1 = .ok () → s.roomFor (min n (encode r.line).length) = true

theorem Unwedged.retain (h : s.Unwedged) {r : Record}
    (hroom : s.Appends env r (encode r.line).length) : (s.retain env r).2.Unwedged := by
  simp only [Appends, DurableSpool.retain] at hroom ⊢
  split
  · exact h
  · next hfull =>
    have hlt : openTail s.fileBytes + (encode r.line).length < maxRead := by
      simpa [roomFor, hfull] using hroom
    refine h.setFile_append ?_ ((Disk.readable_iff.1 h.disk).append_line hlt)
    rw [← appendTarget_bytes env]
    rfl

/-- A kill in the middle of an append: the first `n` bytes of the line are in the file. -/
def tornAppend (env : SpoolEnv) (s : DurableSpool) (r : Record) (n : ℕ) : DurableSpool :=
  match s.retain env r with
  | (.error _, _) => s
  | (.ok (), _) => s.setFile ((s.appendTarget env).append ((encode r.line).take n))

theorem Unwedged.tornAppend (h : s.Unwedged) {r : Record} {n : ℕ} (hroom : s.Appends env r n) :
    (s.tornAppend env r n).Unwedged := by
  simp only [Appends, DurableSpool.tornAppend] at hroom ⊢
  split
  · exact h
  · next hretain =>
    have hlt : openTail s.fileBytes + ((encode r.line).take n).length < maxRead := by
      simpa [roomFor, hretain] using hroom
    refine h.setFile_append ?_ ((Disk.readable_iff.1 h.disk).append_piece hlt)
    rw [← appendTarget_bytes env]
    rfl

end DurableSpool

/-! ## Runs of the daemon -/

/-- What can happen to the daemon: a request, a call of the drain, of the compaction timer or
of the other producer, a kill behind a durable step of a call, and a kill within the append of
a request. -/
inductive DaemonEvent where
  | request (request : HttpRequest)
  | call (act : Act)
  | crash (act : Act) (n : ℕ)
  | torn (request : HttpRequest) (n : ℕ)

namespace World

variable {ρ : Type} [Inhabited ρ] (env : SpoolEnv) (codec : OtlpCodec ρ)

/-- One event. After a kill the spool is opened again on what the disk holds. -/
def daemonStep (w : World) : DaemonEvent → World
  | .request request =>
    match admission env codec request with
    | .error _ => w
    | .ok r => w.step env (.retain r)
  | .call act => w.step env act
  | .crash act n => w.crash env act n
  | .torn request n =>
    match admission env codec request with
    | .error _ => w
    | .ok r =>
      let s := w.spool.tornAppend env r n
      { w with spool := { DurableSpool.openAt s.disk with trail := s.trail }, held := [] }

/-- A run of events. -/
def daemonRun : World → List DaemonEvent → World
  | w, [] => w
  | w, event :: rest => daemonRun (w.daemonStep env codec event) rest

/-- The request event is `handle_request`. -/
theorem daemonStep_request (w : World) (request : HttpRequest) :
    (w.daemonStep env codec (.request request)).spool =
      (handleRequest env codec w.spool request).2 := by
  simp only [daemonStep, handleRequest]
  split
  · next response hadm => simp [hadm]
  · next r hadm =>
    simp only [hadm, step, retainedResponse]
    split <;> next hretain => simp [hretain]

/-- What is asked of an event: a line, or the part of it that a kill lets through, is only
appended where it leaves a line feed in every window of the reader. -/
def LeavesRoom (w : World) : DaemonEvent → Prop
  | .request request => ∀ r, admission env codec request = .ok r →
      w.spool.Appends env r (encode r.line).length
  | .call (.retain r) => w.spool.Appends env r (encode r.line).length
  | .crash (.retain r) _ => w.spool.Appends env r (encode r.line).length
  | .torn request n => ∀ r, admission env codec request = .ok r → w.spool.Appends env r n
  | _ => True

/-- A run of which every event leaves room. -/
def RoomyRun : World → List DaemonEvent → Prop
  | _, [] => True
  | w, event :: rest =>
    LeavesRoom env codec w event ∧ RoomyRun (w.daemonStep env codec event) rest

variable {env codec} {w : World}

theorem unwedged_step (h : w.spool.Unwedged) {act : Act}
    (hroom : ∀ r, act = .retain r → w.spool.Appends env r (encode r.line).length) :
    (w.step env act).spool.Unwedged := by
  cases act with
  | retain r =>
    have hretain := h.retain (hroom r rfl)
    simp only [step]
    split <;> next heq => rwa [heq] at hretain
  | compact => exact h.compact
  | next now =>
    have hnext := (h.next env now).2
    simp only [step]
    split <;> next heq => rwa [heq] at hnext
  | advance now =>
    simp only [step]
    split
    · exact h
    · exact h.commitPast _ _ _
  | recordRefusal now =>
    simp only [step]
    split
    · exact h
    · next p i rest hheld =>
      have hmemory : { w.spool with checkpoint := { w.spool.checkpoint with quarantine :=
          (w.spool.checkpoint.quarantine.refused (p.signal.display ++ ":" ++ p.key) now
            minSeparationSeconds).2 } }.Unwedged := h.inMemory rfl rfl
      exact hmemory.store
  | peekNext =>
    simp only [step]
    split
    · exact h
    · split <;> exact h
  | discardConfirmed now =>
    obtain hsame | ⟨q, probe, i, -, -, hstep⟩ := step_discardConfirmed env w now
    · rw [hsame]
      exact h
    · rw [hstep]
      have hmemory : { w.spool with checkpoint := { w.spool.checkpoint with quarantine := q } }.Unwedged :=
        h.inMemory rfl rfl
      exact hmemory.commitPast _ _ _

theorem unwedged_crash (h : w.spool.Unwedged) {act : Act} (n : ℕ)
    (hroom : ∀ r, act = .retain r → w.spool.Appends env r (encode r.line).length) :
    (w.crash env act n).spool.Unwedged := by
  have hstep := unwedged_step h hroom
  have htrail : ∀ d ∈ (w.step env act).spool.trail.take (w.spool.trail.length + n), d.Readable := by
    intro d hd
    exact hstep.trail d (List.mem_of_mem_take hd)
  refine ⟨?_, htrail⟩
  show Disk.Readable (((w.step env act).spool.trail.take (w.spool.trail.length + n)).getLast?.getD
    w.spool.disk)
  cases hlast : ((w.step env act).spool.trail.take (w.spool.trail.length + n)).getLast? with
  | none => exact h.disk
  | some d => exact htrail d (List.mem_of_getLast? hlast)

theorem unwedged_daemonStep (h : w.spool.Unwedged) {event : DaemonEvent}
    (hroom : LeavesRoom env codec w event) : (w.daemonStep env codec event).spool.Unwedged := by
  cases event with
  | request request =>
    simp only [daemonStep]
    split
    · exact h
    · next r hadm =>
      refine unwedged_step h ?_
      rintro r' hr'
      cases hr'
      exact hroom r hadm
  | call act =>
    have happends : ∀ r, act = .retain r → w.spool.Appends env r (encode r.line).length := by
      rintro r rfl
      exact hroom
    simp only [daemonStep]
    exact unwedged_step h happends
  | crash act n =>
    apply unwedged_crash h
    rintro r rfl
    exact hroom
  | torn request n =>
    simp only [daemonStep]
    split
    · exact h
    · next r hadm =>
      have htorn := h.tornAppend (hroom r hadm)
      generalize w.spool.tornAppend env r n = s at htorn
      exact htorn.inMemory rfl rfl

theorem unwedged_daemonRun {events before : List DaemonEvent} (hpre : before <+: events)
    (h : w.spool.Unwedged) (hroom : RoomyRun env codec w events) :
    (w.daemonRun env codec before).spool.Unwedged := by
  induction events generalizing w before with
  | nil =>
    rw [List.prefix_nil.mp hpre]
    exact h
  | cons event rest ih =>
    cases before with
    | nil => exact h
    | cons e before =>
      obtain ⟨rfl, htail⟩ := List.cons_prefix_cons.mp hpre
      rw [daemonRun]
      exact ih htail (unwedged_daemonStep h hroom.1) hroom.2

theorem unwedged_init : init.spool.Unwedged := by
  apply DurableSpool.unwedged_openAt
  intro f hf
  cases hf

/-- The line of an admitted request fits the reader's window exactly if its body, with what the
daemon adds to it, is at most `maxPayload` bytes long; a body to which nothing is added always
fits. In a run of which every append leaves room, no read gets stuck and `next` answers. -/
theorem requests_never_wedge (env : SpoolEnv) (codec : OtlpCodec ρ) :
    (∀ request r, admission env codec request = .ok r →
      (endOf [r] ≤ maxRead ↔
        (enriched codec r.signal request.body r.format).length ≤ maxPayload r.signal r.format) ∧
      (r.payload = request.body → endOf [r] ≤ maxRead)) ∧
    ∀ events, RoomyRun env codec init events → ∀ before, before <+: events →
      let s := (init.daemonRun env codec before).spool
      (∃ out, drain env.digest s.disk.spool s.checkpoint.offset s.checkpoint.spool = .ok out) ∧
        ∀ now, ∃ p, (s.next env now).1 = .ok p := by
  refine ⟨?_, ?_⟩
  · intro request r hadm
    obtain ⟨hsize, -, hpayload⟩ := admission_ok hadm
    refine ⟨by rw [endOf_le_maxRead_iff, hpayload], ?_⟩
    intro hsame
    rw [endOf_le_maxRead_iff, hsame]
    exact hsize.trans (maxBodySize_le_maxPayload _ _)
  · intro events hroom before hpre
    have h := unwedged_daemonRun hpre unwedged_init hroom
    refine ⟨drain_of_readable env.digest h.disk _ _, ?_⟩
    intro now
    exact (h.next env now).1

end World

/-! ## A request at the limit -/

namespace Otlp

/-- `prost`: a number in base 128, least digit first. -/
def varint (n : ℕ) : Bytes :=
  if n < 128 then [UInt8.ofNat n] else UInt8.ofNat (n % 128 + 128) :: varint (n / 128)

/-- `prost`: a length-delimited field with a number below 16. -/
def lenField (number : ℕ) (content : Bytes) : Bytes :=
  UInt8.ofNat (8 * number + 2) :: (varint content.length ++ content)

/-- An attribute with a text as its value. -/
def encodeAttribute (key value : String) : Bytes :=
  lenField 1 (encode key.toList) ++ lenField 2 (lenField 1 (encode value.toList))

/-- A logs request with one record, whose `event.name` is `auth`. `body` is the encoded `body`
field of the record, and the resource, if there is one, has one attribute. -/
def authRequest (source : Option String) (body : Bytes) : ExportRequest Bytes (LogRecord Bytes) :=
  ⟨[⟨source.map fun s => ⟨[keyValue sourceAttribute (.stringValue s)], []⟩,
    [⟨[⟨[keyValue "event.name" (.stringValue "auth")], body⟩], []⟩], []⟩]⟩

/-- What `prost` makes of `authRequest`. -/
def encodeAuthRequest (source : Option String) (body : Bytes) : Bytes :=
  let record := body ++ lenField 6 (encodeAttribute "event.name" "auth")
  let resource := source.elim [] fun s =>
    lenField 1 (lenField 1 (encodeAttribute sourceAttribute s))
  lenField 1 (resource ++ lenField 2 (lenField 2 record))

theorem length_lenField (number : ℕ) (content : Bytes) :
    (lenField number content).length = 1 + (varint content.length).length + content.length := by
  simp [lenField]
  omega

theorem length_varint_one {n : ℕ} (h : n < 128) : (varint n).length = 1 := by
  rw [varint, if_pos h, List.length_singleton]

theorem length_varint_four {n : ℕ} (hlow : 2097152 ≤ n) (hhigh : n < 268435456) :
    (varint n).length = 4 := by
  rw [varint, if_neg (by omega), varint, if_neg (by omega), varint, if_neg (by omega), varint,
    if_pos (by omega)]
  rfl

/-- Without a resource the request is as long as a body may be, and the resource that the
daemon adds takes 38 bytes. -/
theorem length_encodeAuthRequest {body : Bytes} (hbody : body.length = 6291371) :
    (encodeAuthRequest none body).length = maxBodySize ∧
      (encodeAuthRequest (some "claude-code") body).length = maxBodySize + 38 := by
  have hname : (lenField 6 (encodeAttribute "event.name" "auth")).length = 22 := by decide +kernel
  have hsource : (lenField 1 (lenField 1 (encodeAttribute sourceAttribute "claude-code"))).length =
      38 := by decide +kernel
  have hscope : (lenField 2 (body ++ lenField 6 (encodeAttribute "event.name" "auth"))).length =
      6291398 := by
    rw [length_lenField, List.length_append, hbody, hname,
      length_varint_four (by omega) (by omega)]
  have hgroup : (lenField 2 (lenField 2 (body ++
      lenField 6 (encodeAttribute "event.name" "auth")))).length = 6291403 := by
    rw [length_lenField, hscope, length_varint_four (by omega) (by omega)]
  have hmax : maxBodySize = 6291408 := by decide +kernel
  constructor
  · rw [encodeAuthRequest, Option.elim_none, List.nil_append, length_lenField, hgroup,
      length_varint_four (by omega) (by omega), hmax]
  · rw [encodeAuthRequest, Option.elim_some, length_lenField, List.length_append, hsource, hgroup,
      length_varint_four (by omega) (by omega), hmax]

/-- The decoder and the encoder of `prost`, on the two requests. -/
def authCodec (body : Bytes) : OtlpCodec Bytes where
  logs := {
    fromSlice := fun _ => none
    decode := fun bytes =>
      if bytes = encodeAuthRequest none body then some (authRequest none body)
      else if bytes = encodeAuthRequest (some "claude-code") body then
        some (authRequest (some "claude-code") body)
      else none
    toVec := fun _ => none
    encodeToVec := fun request =>
      encodeAuthRequest (request.groups.head?.bind fun g => g.resource.bind fun r =>
        r.attributes.head?.bind fun a => match a.value.join with
          | some (.stringValue s) => some s
          | _ => none) body }
  metrics := ⟨fun _ => none, fun _ => none, fun _ => none, fun _ => []⟩

theorem stamp_authRequest (body : Bytes) :
    stamp eventSource (authRequest none body) = some (authRequest (some "claude-code") body) := rfl

theorem annotateAll_authRequest (source : Option String) (body : Bytes) :
    annotateAll (authRequest source body) = none := rfl

/-- The resource of the request at the limit is stamped, and no record gets a cost. -/
theorem enriched_authRequest {body : Bytes} (hbody : body.length = 6291371) :
    enriched (authCodec body) .logs (encodeAuthRequest none body) .protobuf =
      encodeAuthRequest (some "claude-code") body := by
  have hdecode : (authCodec body).logs.decode (encodeAuthRequest none body) =
      some (authRequest none body) := by
    simp [authCodec]
  have hne : encodeAuthRequest (some "claude-code") body ≠ encodeAuthRequest none body := by
    intro heq
    have hlen := congrArg List.length heq
    rw [(length_encodeAuthRequest hbody).1, (length_encodeAuthRequest hbody).2] at hlen
    omega
  have hdecode' : (authCodec body).logs.decode (encodeAuthRequest (some "claude-code") body) =
      some (authRequest (some "claude-code") body) := by
    simp [authCodec, hne]
  have hstamp : enrich (authCodec body) (encodeAuthRequest none body) .protobuf =
      encodeAuthRequest (some "claude-code") body := by
    simp only [enrich, RequestCodec.rewrite, RequestCodec.parse, hdecode, stamp_authRequest,
      RequestCodec.render]
    rfl
  simp only [enriched, hstamp, codexCostEnrich, RequestCodec.rewrite, RequestCodec.parse, hdecode',
    annotateAll_authRequest]

end Otlp

namespace World

/-- A request without anything to add, which is then delivered. -/
def deliveredRequest : List DaemonEvent :=
  [.request ⟨some " LocalHost:17457".toList, some "application/x-protobuf".toList, "/v1/traces",
    [10, 0]⟩, .call (.next 7), .call (.advance 8)]

theorem requests_never_wedge_delivered :
    (init.daemonRun numberedEnv (authCodec []) deliveredRequest).delivered = [0] ∧
    ∀ before, before <+: deliveredRequest →
      let s := (init.daemonRun numberedEnv (authCodec []) before).spool
      (∃ out, drain numberedEnv.digest s.disk.spool s.checkpoint.offset s.checkpoint.spool =
        .ok out) ∧ ∀ now, ∃ p, (s.next numberedEnv now).1 = .ok p := by
  refine ⟨by decide +kernel,
    (requests_never_wedge numberedEnv (authCodec [])).2 deliveredRequest ⟨?_, trivial, trivial, trivial⟩⟩
  intro r hr
  have hadm : admission numberedEnv (authCodec []) ⟨some " LocalHost:17457".toList,
      some "application/x-protobuf".toList, "/v1/traces", [10, 0]⟩ =
      .ok ⟨.traces, [10, 0], .protobuf⟩ := rfl
  obtain rfl := Except.ok.inj (hadm.symm.trans hr)
  intro _
  decide +kernel

/-- A file system, and readers that find logs in a protobuf body. -/
def limitEnv : SpoolEnv := { numberedEnv with codec := .printed (fun _ => none) fun _ => some .logs }

/-- A request of an application. -/
def authHttp (body : Bytes) : HttpRequest where
  host := some "localhost:17457".toList
  contentType := some "application/x-protobuf".toList
  path := "/v1/logs"
  body := encodeAuthRequest none body

/-- What the daemon retains of it. -/
def authRecord (body : Bytes) : Record :=
  ⟨.logs, encodeAuthRequest (some "claude-code") body, .protobuf⟩

section AtTheLimit

variable {body : Bytes} (hbody : body.length = 6291371)
include hbody

theorem admission_authHttp : admission limitEnv (authCodec body) (authHttp body) = .ok (authRecord body) := by
  have hhost : hostIsTrusted (authHttp body).host = true := by
    simp only [authHttp]
    decide
  have htype : contentTypeIsOtlp (authHttp body).contentType = some .protobuf := by
    simp only [authHttp]
    decide
  have hsize : ¬ (authHttp body).body.length > maxBodySize := by
    rw [authHttp, (length_encodeAuthRequest hbody).1]
    omega
  have hbuild : receiveBuild (authHttp body) =
      .ok ⟨"/v1/logs", encodeAuthRequest none body, .protobuf⟩ := by
    simp only [receiveBuild, hhost, htype, if_neg hsize]
    rfl
  have hpath : Signal.fromPath "/v1/logs" = some .logs := by decide
  have hclass : classify limitEnv.codec (encodeAuthRequest none body) .protobuf "/v1/logs" =
      some .logs := by
    simp only [classify, hpath]
    rfl
  simp only [admission, hbuild, hclass, enriched_authRequest hbody]
  rfl

theorem endOf_authRecord : endOf [authRecord body] = 8388644 := by
  have hover : envelopeOverhead .logs .protobuf = 47 := by decide
  have hmax : maxBodySize = 6291408 := by decide
  rw [endOf_singleton, length_encode_line]
  simp only [authRecord, (length_encodeAuthRequest hbody).2, hover, hmax]

end AtTheLimit

section Stuck

variable {env : SpoolEnv} (hcodec : env.codec.Lawful) {r : Record} {rest : List Record}
  (hlarge : r.fits = false)
include hcodec hlarge

/-- A first record that does not fit the reader's window. -/
theorem next_of_large {s : DurableSpool} (hfile : FileHolds s.disk.spool (r :: rest))
    (hoffset : s.checkpoint.offset = 0) (hspool : s.checkpoint.spool = none) (now : ℕ) :
    ∃ err, s.next env now = (.error err, s.pruned now) := by
  have hnames : Names env.digest s.checkpoint.spool s.disk.spool := by
    rw [hspool]
    exact names_none _ _
  obtain ⟨r', rest', err, -, -, hnext⟩ | ⟨hnil, -⟩ | ⟨r', rest', p, hcons, hfits, -⟩ :=
    DurableSpool.next_measured (j := 0) hcodec hfile (Nat.zero_le _) hoffset hnames now
  · exact ⟨err, hnext⟩
  · cases hnil
  · obtain ⟨rfl, -⟩ := List.cons.inj hcons
    rw [hlarge] at hfits
    cases hfits

/-- `next` fails on it however often it is called. -/
theorem next_stuck {ρ : Type} [Inhabited ρ] (codec : OtlpCodec ρ) (nows : List ℕ) {w : World}
    (hfile : FileHolds w.spool.disk.spool (r :: rest)) (hoffset : w.spool.checkpoint.offset = 0)
    (hspool : w.spool.checkpoint.spool = none) (now : ℕ) :
    ∃ err, ((w.daemonRun env codec (nows.map fun n => .call (.next n))).spool.next env now).1 =
      .error err := by
  induction nows generalizing w with
  | nil =>
    obtain ⟨err, hnext⟩ := next_of_large hcodec hlarge hfile hoffset hspool now
    exact ⟨err, congrArg Prod.fst hnext⟩
  | cons n nows ih =>
    obtain ⟨err, hnext⟩ := next_of_large hcodec hlarge hfile hoffset hspool n
    have hstep : w.daemonStep env codec (.call (.next n)) =
        { w with spool := w.spool.pruned n, held := [] } := by
      simp only [daemonStep, step, hnext]
    rw [List.map_cons, daemonRun, hstep]
    exact ih hfile hoffset hspool

end Stuck

/-- A request whose line does not fit the reader's window is answered with success on an empty
spool, and then `next` fails. -/
theorem request_wedges {ρ : Type} [Inhabited ρ] {env : SpoolEnv} (hcodec : env.codec.Lawful)
    (codec : OtlpCodec ρ) {request : HttpRequest} {r : Record}
    (hadm : admission env codec request = .ok r) (hroom : endOf [r] ≤ capacity)
    (hlarge : maxRead < endOf [r]) :
    (handleRequest env codec init.spool request).1 =
      .ok r.format.contentType r.format.emptySuccess ∧
    ∀ (nows : List ℕ) (now : ℕ), ∃ err, ((init.daemonRun env codec
      (.request request :: nows.map fun n => .call (.next n))).spool.next env now).1 =
        .error err := by
  rw [endOf_singleton] at hroom hlarge
  have hfits : r.fits = false := decide_eq_false (by omega)
  have hempty : FileHolds init.spool.disk.spool [] := rfl
  obtain ⟨err, hretain⟩ | ⟨f, hretain, hholds, -⟩ :=
    @DurableSpool.retain_spec env init.spool [] hempty r
  · have hpending : ¬ init.spool.fileSize - init.spool.checkpoint.offset +
        ((encode r.line).length + 1) > capacity := by
      show ¬ 0 - 0 + ((encode r.line).length + 1) > capacity
      omega
    simp only [DurableSpool.retain, if_neg hpending] at hretain
    cases (Prod.mk.inj hretain).1
  · refine ⟨?_, ?_⟩
    · simp only [handleRequest, hadm, retainedResponse, hretain]
    · intro nows now
      have hstep : init.daemonStep env codec (.request request) =
          { init with spool := init.spool.setFile f, retained := [r] } := by
        simp only [daemonStep, hadm, step, hretain]
        rfl
      rw [daemonRun, hstep]
      have hfile : FileHolds (init.spool.setFile f).disk.spool (r :: []) := hholds
      exact next_stuck hcodec hfits codec nows hfile rfl rfl now

/-- The `body` field of a record, with a long text. -/
def longBody : Bytes := lenField 5 (lenField 1 (List.replicate 6291361 97))

theorem length_longBody : longBody.length = 6291371 := by
  have htext : (lenField 1 (List.replicate 6291361 97)).length = 6291366 := by
    rw [length_lenField, List.length_replicate, length_varint_four (by omega) (by omega)]
  rw [longBody, length_lenField, htext, length_varint_four (by omega) (by omega)]

/-- A request of the largest size that is admitted, with one event of a known name: it is
answered with success, its line does not fit the reader's window, and from then on `next`
fails. -/
theorem limit_request_wedges :
    (authHttp longBody).body.length = maxBodySize ∧
    (∃ r, admission limitEnv (authCodec longBody) (authHttp longBody) = .ok r ∧ maxRead < endOf [r]) ∧
    (handleRequest limitEnv (authCodec longBody) init.spool (authHttp longBody)).1 =
      .ok "application/x-protobuf" "" ∧
    ∀ (nows : List ℕ) (now : ℕ), ∃ err, ((init.daemonRun limitEnv (authCodec longBody)
      (.request (authHttp longBody) :: nows.map fun n => .call (.next n))).spool.next
        limitEnv now).1 = .error err := by
  have hadm := admission_authHttp length_longBody
  have hend := endOf_authRecord length_longBody
  have hlarge : maxRead < endOf [authRecord longBody] := by
    rw [hend, maxRead]
    omega
  obtain ⟨hresponse, hstuck⟩ := request_wedges (EnvelopeCodec.lawful_printed _ _) _ hadm
    (by rw [hend, capacity]; omega) hlarge
  exact ⟨(length_encodeAuthRequest length_longBody).1, ⟨_, hadm, hlarge⟩, hresponse, hstuck⟩

end World

end Governance
