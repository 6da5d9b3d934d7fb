import Governance.Spool.Steps

/-!
# The spool is a queue

A consumer that reads with `next`, settles with `advance`, and lets a compaction run only
while it holds nothing, sees a first-in first-out queue: `Level` says at which record of the
file the spool stands, in memory and on disk, and every call moves it as the queue moves.
No assumption about file identities is needed here, since the checkpoint never names a file
other than the one on disk.

The queue stalls on a record whose line is longer than the reader's window, which `retain`
does not refuse (`next_stalls`). `fifo_run` therefore asks that every record fits.
-/

namespace Governance

open Utf8Text ByteLines

/-- The spool stands behind `j` of the records of its file. -/
structure Level (env : SpoolEnv) (s : DurableSpool) (rs : List Record) (j : ℕ) : Prop where
  file : FileHolds s.disk.spool rs
  le : j ≤ rs.length
  offset : s.checkpoint.offset = endOf (rs.take j)
  names : Names env.digest s.checkpoint.spool s.disk.spool
  stored : (s.disk.checkpoint.getD .default).Agrees s.checkpoint

namespace Level

variable {env : SpoolEnv} {s : DurableSpool} {rs : List Record} {j : ℕ}

theorem openAt_empty (env : SpoolEnv) : Level env (.openAt ⟨none, none⟩) [] 0 :=
  ⟨rfl, le_rfl, rfl, names_none _ _, ⟨rfl, rfl, rfl⟩⟩

theorem reopen (h : Level env s rs j) : Level env (.openAt s.disk) rs j := by
  refine ⟨h.file, h.le, h.stored.offset.trans h.offset, ?_, ⟨rfl, rfl, rfl⟩⟩
  show Names env.digest (s.disk.checkpoint.getD .default).spool s.disk.spool
  rw [h.stored.spool]
  exact h.names

theorem append (h : Level env s rs j) {f : SpoolFile} {r : Record}
    (hholds : FileHolds (some f) (rs ++ [r]))
    (hold : ∀ f₀, s.disk.spool = some f₀ → f = f₀.append (recordBytes [r])) :
    Level env (s.setFile f) (rs ++ [r]) j := by
  refine ⟨hholds, ?_, ?_, ?_, h.stored⟩
  · rw [List.length_append]
    exact h.le.trans (Nat.le_add_right _ _)
  · rw [List.take_append_of_le_length h.le]
    exact h.offset
  · intro I hI
    obtain ⟨f₀, hf₀, hsame⟩ := h.names I hI
    exact ⟨f, rfl, by rw [hold f₀ hf₀]; exact Identity.same_append _ hsame _⟩

/-- A read changes what is in memory only. -/
theorem read (h : Level env s rs j) (now : ℕ) :
    Level env (s.read env (s.pruned now).checkpoint) rs j :=
  ⟨h.file, h.le, h.offset, h.names,
    ⟨h.stored.offset, h.stored.spool, h.stored.discardedTotal⟩⟩

/-- A commit moves behind the record, or to the start of an emptied file. -/
theorem commit (h : Level env s rs j) {m boundary : ℕ} (hm : m ≤ rs.length)
    (hboundary : boundary = endOf (rs.take m))
    (hnames : Names env.digest s.pendingIdentity s.disk.spool) (lost now : ℕ) :
    Level env (s.commitPast boundary lost now) rs m ∨
      (m = rs.length ∧ Level env (s.commitPast boundary lost now) [] 0) := by
  by_cases hreclaim : ∃ f, s.disk.spool = some f ∧ reclaimAbove < boundary ∧
      f.bytes.length = boundary
  · obtain ⟨f, hf, habove, hsize⟩ := hreclaim
    have hbytes : f.bytes = recordBytes rs := FileHolds.bytes (hf ▸ h.file)
    refine .inr ⟨?_, ?_⟩
    · apply eq_length_of_endOf hm
      rw [← hboundary, ← hsize, hbytes, endOf]
    · rw [DurableSpool.commitPast_reclaims lost now hf habove hsize]
      exact ⟨rfl, le_rfl, rfl, names_none _ _, ⟨rfl, rfl, rfl⟩⟩
  · refine .inl ?_
    rw [DurableSpool.commitPast_keeps lost now]
    · refine ⟨h.file, hm, ?_, ?_, ⟨rfl, rfl, rfl⟩⟩
      · exact (DurableSpool.committed_offset ..).trans hboundary
      · show Names env.digest (s.committed boundary lost now).spool s.disk.spool
        rw [DurableSpool.committed_spool]
        exact hnames
    · intro f hf habove hsize
      exact hreclaim ⟨f, hf, habove, hsize⟩

/-- A compaction does nothing, or drops the records the spool stands behind. -/
theorem compact (h : Level env s rs j) :
    (s.compactIfStuck env).2 = s ∨ Level env (s.compactIfStuck env).2 (rs.drop j) 0 := by
  obtain hsame | ⟨f, hf, -, -, hnew⟩ := DurableSpool.compact_spec env s
  · exact .inl (by rw [hsame])
  · refine .inr ?_
    have hbytes : f.bytes = recordBytes rs := FileHolds.bytes (hf ▸ h.file)
    rw [hnew]
    refine ⟨?_, Nat.zero_le _, rfl, names_none _ _, ⟨rfl, rfl, rfl⟩⟩
    show recordBytes (rs.drop j) = f.bytes.drop s.checkpoint.offset
    rw [h.offset, hbytes, drop_recordBytes]

end Level

/-! ## Runs of one consumer -/

/-- The spool, the records retained in it and advanced past, and the record in hand. -/
structure Consumer where
  spool : DurableSpool
  retained : List Record
  advanced : List Record
  pending : Option Pending

/-- One call, or a clean restart. -/
inductive QueueOp where
  | retain (r : Record)
  | next (now : ℕ)
  | advance (now : ℕ)
  | compact
  | reopen

namespace Consumer

variable (env : SpoolEnv)

def init : Consumer := ⟨.openAt ⟨none, none⟩, [], [], none⟩

/-- What a call does. `advance` settles the record of the last `next`; a compaction runs only
while none is in hand; a restart forgets the one in hand. -/
def step (c : Consumer) : QueueOp → Consumer
  | .retain r =>
    match c.spool.retain env r with
    | (.ok (), s) => { c with spool := s, retained := c.retained ++ [r] }
    | (.error _, s) => { c with spool := s }
  | .next now =>
    match c.spool.next env now with
    | (.ok (some p), s) => { c with spool := s, pending := some p }
    | (_, s) => { c with spool := s, pending := none }
  | .advance now =>
    match c.pending with
    | none => c
    | some p =>
      { c with spool := c.spool.advance p now, advanced := c.advanced ++ [p.record],
               pending := none }
  | .compact =>
    if c.pending.isSome then c else { c with spool := (c.spool.compactIfStuck env).2 }
  | .reopen => { c with spool := .openAt c.spool.disk, pending := none }

theorem step_retain_ok {c : Consumer} {r : Record} {s : DurableSpool}
    (h : c.spool.retain env r = (.ok (), s)) :
    c.step env (.retain r) = { c with spool := s, retained := c.retained ++ [r] } := by
  rw [step, h]

theorem step_retain_error {c : Consumer} {r : Record} {err : SpoolError} {s : DurableSpool}
    (h : c.spool.retain env r = (.error err, s)) :
    c.step env (.retain r) = { c with spool := s } := by
  rw [step, h]

theorem step_next (c : Consumer) (now : ℕ) : c.step env (.next now) =
    match c.spool.next env now with
    | (.ok (some p), s) => { c with spool := s, pending := some p }
    | (_, s) => { c with spool := s, pending := none } := rfl

theorem step_advance_of_none {c : Consumer} (h : c.pending = none) (now : ℕ) :
    c.step env (.advance now) = c := by
  rw [step, h]

theorem step_advance_of_some {c : Consumer} {p : Pending} (h : c.pending = some p) (now : ℕ) :
    c.step env (.advance now) =
      { c with spool := c.spool.advance p now, advanced := c.advanced ++ [p.record],
               pending := none } := by
  rw [step, h]

theorem step_compact (c : Consumer) : c.step env .compact =
    if c.pending.isSome then c else { c with spool := (c.spool.compactIfStuck env).2 } := rfl

def run : Consumer → List QueueOp → Consumer
  | c, [] => c
  | c, op :: rest => run (c.step env op) rest

/-- The records not yet advanced past. -/
def waiting (c : Consumer) : List Record := c.retained.drop c.advanced.length

/-- The record in hand is the first one waiting, read from the file as it is. -/
structure InHand (c : Consumer) (rs : List Record) (j : ℕ) (p : Pending) : Prop where
  offers : ∃ r rest, rs.drop j = r :: rest ∧ p.record = r
  boundary : p.boundary = endOf (rs.take (j + 1))
  names : Names env.digest c.spool.pendingIdentity c.spool.disk.spool

/-- The file starts at record `k`, and `k + j` records were advanced past. -/
structure QueuedAt (c : Consumer) (k j : ℕ) : Prop where
  le : k ≤ c.retained.length
  level : Level env c.spool (c.retained.drop k) j
  advanced : c.advanced = c.retained.take (k + j)
  none_lost : c.spool.checkpoint.discardedTotal = 0
  pending : ∀ p, c.pending = some p → InHand env c (c.retained.drop k) j p
  good : ∀ r ∈ c.retained, r.fits = true ∧ r.Settled env.codec

def Queued (c : Consumer) : Prop := ∃ k j, QueuedAt env c k j

variable {env} {c : Consumer} {k j : ℕ}

theorem QueuedAt.waiting_eq (h : QueuedAt env c k j) :
    c.waiting = (c.retained.drop k).drop j := by
  have hj := h.level.le
  have hk := h.le
  rw [List.length_drop] at hj
  rw [waiting, h.advanced, List.length_take, List.drop_drop, min_eq_left (by omega)]

theorem queued_init (env : SpoolEnv) : Queued env init :=
  ⟨0, 0, le_rfl, Level.openAt_empty env, rfl, rfl, nofun, nofun⟩

theorem record_of_offers {codec : EnvelopeCodec} {p : Pending} {r : Record}
    (h : Offers codec p r) (hsettled : r.Settled codec) : p.record = r := by
  rw [Pending.record, h.signal hsettled, h.payload, h.format]

/-- What `next` answers, and that it changes nothing but the refusal table and the identity
it has seen. -/
theorem QueuedAt.next_eq (hcodec : env.codec.Lawful) (h : QueuedAt env c k j) (now : ℕ) :
    (c.waiting = [] ∧ c.spool.next env now =
      (.ok none, c.spool.read env (c.spool.pruned now).checkpoint)) ∨
    ∃ r rest p, c.waiting = r :: rest ∧ p.record = r ∧
      p.boundary = endOf ((c.retained.drop k).take (j + 1)) ∧
      c.spool.next env now =
        (.ok (some p), c.spool.read env (c.spool.pruned now).checkpoint) := by
  rw [h.waiting_eq]
  have hgood : ∀ r rest, (c.retained.drop k).drop j = r :: rest →
      r.fits = true ∧ r.Settled env.codec := by
    intro r rest hcons
    have hmem : r ∈ (c.retained.drop k).drop j := by
      rw [hcons]
      exact List.mem_cons_self
    exact h.good r (List.mem_of_mem_drop (List.mem_of_mem_drop hmem))
  obtain ⟨r, rest, err, hcons, hlarge, -⟩ | ⟨hnil, hnext⟩ |
      ⟨r, rest, p, hcons, -, hoffers, hboundary, hnext⟩ :=
    DurableSpool.next_measured hcodec h.level.file h.level.le h.level.offset h.level.names now
  · rw [(hgood r rest hcons).1] at hlarge
    cases hlarge
  · exact .inl ⟨hnil, hnext⟩
  · exact .inr ⟨r, rest, p, hcons, record_of_offers hoffers (hgood r rest hcons).2, hboundary,
      hnext⟩

/-! ## The calls, one by one -/

theorem QueuedAt.retain (h : QueuedAt env c k j) {r : Record}
    (hr : r.fits = true ∧ r.Settled env.codec) : QueuedAt env (c.step env (.retain r)) k j := by
  obtain ⟨err, hretain⟩ | ⟨f, hretain, hholds, hold, -⟩ :=
    @DurableSpool.retain_spec env _ _ h.level.file r
  · rw [step_retain_error env hretain]
    exact h
  · have hdrop : (c.retained ++ [r]).drop k = c.retained.drop k ++ [r] :=
      List.drop_append_of_le_length h.le
    have hlevel : Level env (c.spool.setFile f) ((c.retained ++ [r]).drop k) j := by
      rw [hdrop]
      exact h.level.append hholds hold
    have hj := h.level.le
    have hk := h.le
    rw [List.length_drop] at hj
    rw [step_retain_ok env hretain]
    refine ⟨?_, hlevel, ?_, h.none_lost, ?_, ?_⟩
    · rw [List.length_append]
      exact hk.trans (Nat.le_add_right _ _)
    · show c.advanced = (c.retained ++ [r]).take (k + j)
      rw [List.take_append_of_le_length (by omega)]
      exact h.advanced
    · intro p hp
      obtain ⟨⟨r', rest, hcons, hrecord⟩, hboundary, hnames⟩ := h.pending p hp
      have hlt : j < (c.retained.drop k).length := by
        apply List.length_lt_of_drop_ne_nil
        rw [hcons]
        exact List.cons_ne_nil _ _
      show InHand env _ ((c.retained ++ [r]).drop k) j p
      rw [hdrop]
      refine ⟨⟨r', rest ++ [r], ?_, hrecord⟩, ?_, ?_⟩
      · rw [List.drop_append_of_le_length hlt.le, hcons, List.cons_append]
      · rw [List.take_append_of_le_length hlt]
        exact hboundary
      · intro I hI
        obtain ⟨f₀, hf₀, hsame⟩ := hnames I hI
        exact ⟨f, rfl, by rw [hold f₀ hf₀]; exact Identity.same_append _ hsame _⟩
    · intro r' hr'
      rcases List.mem_append.mp hr' with hr' | hr'
      · exact h.good r' hr'
      · rw [List.mem_singleton.mp hr']
        exact hr

theorem QueuedAt.next (hcodec : env.codec.Lawful) (h : QueuedAt env c k j) (now : ℕ) :
    QueuedAt env (c.step env (.next now)) k j := by
  have hwaiting := h.waiting_eq
  obtain ⟨-, hnext⟩ | ⟨r, rest, p, hcons, hrecord, hboundary, hnext⟩ := h.next_eq hcodec now
  · rw [step_next, hnext]
    exact ⟨h.le, h.level.read now, h.advanced, h.none_lost, nofun, h.good⟩
  · rw [step_next, hnext]
    refine ⟨h.le, h.level.read now, h.advanced, h.none_lost, ?_, h.good⟩
    intro q hq
    obtain rfl := Option.some.inj hq
    exact ⟨⟨r, rest, by rw [← hwaiting, hcons], hrecord⟩, hboundary, names_of _ _⟩

theorem QueuedAt.advance (h : QueuedAt env c k j) (now : ℕ) :
    Queued env (c.step env (.advance now)) := by
  cases hp : c.pending with
  | none =>
    rw [step_advance_of_none env hp]
    exact ⟨k, j, h⟩
  | some p =>
    obtain ⟨⟨r, rest, hcons, hrecord⟩, hboundary, hnames⟩ := h.pending p hp
    have hlt : j < (c.retained.drop k).length := by
      apply List.length_lt_of_drop_ne_nil
      rw [hcons]
      exact List.cons_ne_nil _ _
    have hlost : (c.spool.advance p now).checkpoint.discardedTotal = 0 := by
      rw [DurableSpool.advance, DurableSpool.commitPast_discardedTotal, h.none_lost]
    have hadvanced : c.advanced ++ [p.record] = c.retained.take (k + j + 1) := by
      have hnext : c.retained[k + j]? = some r := by
        rw [List.drop_drop] at hcons
        rw [← List.head?_drop, hcons]
        rfl
      rw [h.advanced, hrecord, List.take_add_one, hnext]
      rfl
    rw [step_advance_of_some env hp]
    obtain hlevel | ⟨hall, hlevel⟩ := h.level.commit hlt hboundary hnames 0 now
    · exact ⟨k, j + 1, h.le, hlevel, hadvanced, hlost, nofun, h.good⟩
    · rw [List.length_drop] at hall
      have hk := h.le
      refine ⟨c.retained.length, 0, le_rfl, ?_, ?_, hlost, nofun, h.good⟩
      · rw [List.drop_length]
        exact hlevel
      · show c.advanced ++ [p.record] = c.retained.take (c.retained.length + 0)
        rw [hadvanced]
        congr 1
        omega

theorem QueuedAt.compact (h : QueuedAt env c k j) : Queued env (c.step env .compact) := by
  rw [step_compact]
  split
  · exact ⟨k, j, h⟩
  · next hnone =>
    have hpending : c.pending = none := by simpa using hnone
    obtain hsame | hlevel := h.level.compact
    · exact ⟨k, j, by rw [hsame]; exact h⟩
    · have hj := h.level.le
      have hk := h.le
      rw [List.length_drop] at hj
      have hlost : (c.spool.compactIfStuck env).2.checkpoint.discardedTotal = 0 := by
        obtain hsame | ⟨f, -, -, -, hnew⟩ := DurableSpool.compact_spec env c.spool
        · rw [hsame]
          exact h.none_lost
        · rw [hnew]
          exact h.none_lost
      refine ⟨k + j, 0, by show k + j ≤ c.retained.length; omega, ?_, h.advanced, hlost, ?_,
        h.good⟩
      · rw [← List.drop_drop]
        exact hlevel
      · intro p hp
        rw [hpending] at hp
        cases hp

theorem QueuedAt.reopen (h : QueuedAt env c k j) : QueuedAt env (c.step env .reopen) k j := by
  refine ⟨h.le, h.level.reopen, h.advanced, ?_, nofun, h.good⟩
  exact h.level.stored.discardedTotal.trans h.none_lost

theorem queued_step (hcodec : env.codec.Lawful) (h : Queued env c) {op : QueueOp}
    (hop : ∀ r, op = .retain r → r.fits = true ∧ r.Settled env.codec) :
    Queued env (c.step env op) := by
  obtain ⟨k, j, h⟩ := h
  cases op with
  | retain r => exact ⟨k, j, h.retain (hop r rfl)⟩
  | next now => exact ⟨k, j, h.next hcodec now⟩
  | advance now => exact h.advance now
  | compact => exact h.compact
  | reopen => exact ⟨k, j, h.reopen⟩

theorem queued_run (hcodec : env.codec.Lawful) (ops : List QueueOp) {c : Consumer}
    (h : Queued env c)
    (hops : ∀ r, QueueOp.retain r ∈ ops → r.fits = true ∧ r.Settled env.codec) :
    Queued env (c.run env ops) := by
  induction ops generalizing c with
  | nil => exact h
  | cons op rest ih =>
    refine ih (queued_step hcodec h ?_) ?_
    · rintro r rfl
      exact hops r List.mem_cons_self
    · intro r hr
      exact hops r (List.mem_cons_of_mem _ hr)

/-- In every run whose records all fit the reader's window, the records advanced past are the
first ones retained, in order; `next` answers the first one waiting; nothing is given up; and
a retain that is refused changes nothing. -/
theorem fifo_run (env : SpoolEnv) (hcodec : env.codec.Lawful) (ops : List QueueOp)
    (hsettled : ∀ r, QueueOp.retain r ∈ ops → r.Settled env.codec)
    (hfits : ∀ r, QueueOp.retain r ∈ ops → r.fits = true) :
    (init.run env ops).advanced <+: (init.run env ops).retained ∧
    (∀ now, match (init.run env ops).waiting with
      | [] => ((init.run env ops).spool.next env now).1 = .ok none
      | r :: _ => ∃ p, ((init.run env ops).spool.next env now).1 = .ok (some p) ∧ p.record = r) ∧
    (init.run env ops).spool.checkpoint.discardedTotal = 0 ∧
    ∀ r err s, (init.run env ops).spool.retain env r = (.error err, s) →
      s = (init.run env ops).spool := by
  obtain ⟨k, j, h⟩ := queued_run hcodec ops (queued_init env) fun r hr => ⟨hfits r hr, hsettled r hr⟩
  refine ⟨?_, ?_, h.none_lost, ?_⟩
  · rw [h.advanced]
    exact List.take_prefix _ _
  · intro now
    obtain ⟨hnil, hnext⟩ | ⟨r, rest, p, hcons, hrecord, -, hnext⟩ := h.next_eq hcodec now
    · simp only [hnil, hnext]
    · simp only [hcons, hnext]
      exact ⟨p, rfl, hrecord⟩
  · intro r err s hretain
    obtain ⟨err', hspec⟩ | ⟨f, hspec, -⟩ := @DurableSpool.retain_spec env _ _ h.level.file r
    · rw [hretain] at hspec
      exact (Prod.mk.inj hspec).2
    · rw [hretain] at hspec
      cases (Prod.mk.inj hspec).1

/-- Two records; the first is delivered, and the daemon restarts. -/
def twoRecords : List QueueOp :=
  [.retain ⟨.metrics, [10, 0], .protobuf⟩, .retain ⟨.traces, [10, 1], .protobuf⟩, .next 7,
    .advance 8, .reopen]

theorem fifo_run_twoRecords :
    (init.run numberedEnv twoRecords).advanced = [⟨.metrics, [10, 0], .protobuf⟩] ∧
    (init.run numberedEnv twoRecords).advanced <+: (init.run numberedEnv twoRecords).retained ∧
    (∀ now, match (init.run numberedEnv twoRecords).waiting with
      | [] => ((init.run numberedEnv twoRecords).spool.next numberedEnv now).1 = .ok none
      | r :: _ => ∃ p, ((init.run numberedEnv twoRecords).spool.next numberedEnv now).1 = .ok (some p) ∧
        p.record = r) ∧
    (init.run numberedEnv twoRecords).spool.checkpoint.discardedTotal = 0 ∧
    ∀ r err s, (init.run numberedEnv twoRecords).spool.retain numberedEnv r = (.error err, s) →
      s = (init.run numberedEnv twoRecords).spool := by
  obtain ⟨hadvanced, hfirst, hsecond⟩ :
      (init.run numberedEnv twoRecords).advanced = [⟨.metrics, [10, 0], .protobuf⟩] ∧
      Record.fits ⟨.metrics, [10, 0], .protobuf⟩ = true ∧
      Record.fits ⟨.traces, [10, 1], .protobuf⟩ = true := by
    decide +kernel
  refine ⟨hadvanced, fifo_run numberedEnv (EnvelopeCodec.lawful_printed _ _) twoRecords ?_ ?_⟩
  · intro r hr
    obtain rfl | rfl : r = ⟨.metrics, [10, 0], .protobuf⟩ ∨ r = ⟨.traces, [10, 1], .protobuf⟩ := by
      simpa [twoRecords] using hr
    · intro hlogs
      cases hlogs
    · intro hlogs
      cases hlogs
  · intro r hr
    obtain rfl | rfl : r = ⟨.metrics, [10, 0], .protobuf⟩ ∨ r = ⟨.traces, [10, 1], .protobuf⟩ := by
      simpa [twoRecords] using hr
    · exact hfirst
    · exact hsecond

/-- A first record that the reader cannot take is retained, and `next` fails on it whenever it
is called. -/
theorem next_fails {env : SpoolEnv} (hcodec : env.codec.Lawful) {r : Record}
    (hroom : endOf [r] ≤ capacity) (hlarge : r.fits = false) :
    (init.run env [.retain r]).retained = [r] ∧
      ∀ now, ∃ err, ((init.run env [.retain r]).spool.next env now).1 = .error err := by
  have hlevel := Level.openAt_empty env
  obtain ⟨err, hretain⟩ | ⟨f, hretain, hholds, hold, -⟩ :=
    @DurableSpool.retain_spec env _ _ hlevel.file r
  · rw [endOf_singleton] at hroom
    simp only [DurableSpool.retain] at hretain
    rw [if_neg (by show ¬ 0 - 0 + ((encode r.line).length + 1) > capacity; omega)] at hretain
    cases (Prod.mk.inj hretain).1
  · have hretain' : init.spool.retain env r = (.ok (), init.spool.setFile f) := hretain
    simp only [run, step, hretain']
    refine ⟨rfl, ?_⟩
    intro now
    have happended := hlevel.append hholds hold
    obtain ⟨r', rest, err, -, -, hnext⟩ | ⟨hnil, -⟩ | ⟨r', rest, p, hcons, hfits, -⟩ :=
      DurableSpool.next_measured hcodec happended.file happended.le happended.offset
        happended.names now
    · exact ⟨err, congrArg Prod.fst hnext⟩
    · cases hnil
    · obtain ⟨rfl, -⟩ := List.cons.inj hcons
      rw [hlarge] at hfits
      cases hfits

/-- The oversize record waits, and `next` never answers it. -/
theorem next_stalls : (init.run numberedEnv [.retain oversize]).retained = [oversize] ∧
    ∀ now, ∃ err, ((init.run numberedEnv [.retain oversize]).spool.next numberedEnv now).1 =
      .error err :=
  next_fails (EnvelopeCodec.lawful_printed _ _) (by rw [endOf_oversize]; decide) fits_oversize

end Consumer

end Governance
