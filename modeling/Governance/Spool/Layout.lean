import Governance.Spool.Durable

/-!
# The records in a spool file

The bytes of a spool file are the lines of some records (`FileHolds`), and a checkpoint that
is measured against that file (`Measured`) stands at the end of one of them. Under these two,
`peekAt_spec` says what a read finds: the next record, nothing, or a record too large for the
reader's window. The other operations only move the records and the offset, so no later proof
looks at bytes again.
-/

namespace Governance

open Utf8Text ByteLines

/-- The bytes of some records. -/
def recordBytes (rs : List Record) : Bytes := lineBytes (rs.map Record.line)

/-- Where some records end. -/
def endOf (rs : List Record) : ℕ := (recordBytes rs).length

@[simp] theorem recordBytes_nil : recordBytes [] = [] := rfl

@[simp] theorem recordBytes_append (rs rs' : List Record) :
    recordBytes (rs ++ rs') = recordBytes rs ++ recordBytes rs' := by
  simp [recordBytes]

@[simp] theorem recordBytes_singleton (r : Record) :
    recordBytes [r] = encode r.line ++ [lineFeed] := by
  simp [recordBytes]

@[simp] theorem endOf_nil : endOf [] = 0 := rfl

@[simp] theorem endOf_append (rs rs' : List Record) : endOf (rs ++ rs') = endOf rs + endOf rs' := by
  simp [endOf]

@[simp] theorem endOf_singleton (r : Record) : endOf [r] = (encode r.line).length + 1 := by
  simp [endOf]

theorem endOf_pos {rs : List Record} (h : rs ≠ []) : 0 < endOf rs := by
  cases rs with
  | nil => exact absurd rfl h
  | cons r rs =>
    rw [← List.singleton_append, endOf_append, endOf_singleton]
    omega

theorem eq_nil_of_recordBytes {rs : List Record} (h : recordBytes rs = []) : rs = [] := by
  by_contra hne
  have hpos := endOf_pos hne
  rw [endOf, h] at hpos
  cases hpos

theorem endOf_take_add_drop (rs : List Record) (j : ℕ) :
    endOf (rs.take j) + endOf (rs.drop j) = endOf rs := by
  rw [← endOf_append, List.take_append_drop]

theorem endOf_take_le (rs : List Record) (j : ℕ) : endOf (rs.take j) ≤ endOf rs := by
  have h := endOf_take_add_drop rs j
  omega

/-- Only the last record ends where all of them do. -/
theorem eq_length_of_endOf {rs : List Record} {j : ℕ} (hj : j ≤ rs.length)
    (h : endOf (rs.take j) = endOf rs) : j = rs.length := by
  have hsum := endOf_take_add_drop rs j
  have hnil : rs.drop j = [] := by
    by_contra hne
    have hpos := endOf_pos hne
    omega
  rw [List.drop_eq_nil_iff] at hnil
  omega

/-- Seeking to the end of some records leaves the others. -/
theorem drop_recordBytes (rs : List Record) (j : ℕ) :
    (recordBytes rs).drop (endOf (rs.take j)) = recordBytes (rs.drop j) := by
  have hsplit : recordBytes rs = recordBytes (rs.take j) ++ recordBytes (rs.drop j) := by
    rw [← recordBytes_append, List.take_append_drop]
  rw [hsplit, endOf, List.drop_left]

/-- As many line feeds stand before a record as records. -/
theorem count_lineFeed (rs : List Record) : (recordBytes rs).count lineFeed = rs.length := by
  induction rs with
  | nil => rfl
  | cons r rs ih =>
    have hline : (encode r.line).count lineFeed = 0 :=
      List.count_eq_zero.mpr (isLine_line r).notMem_encode
    rw [← List.singleton_append, recordBytes_append, List.count_append, ih, recordBytes_singleton,
      List.count_append, hline]
    simp [Nat.add_comm]

theorem take_recordBytes (rs : List Record) (j : ℕ) :
    (recordBytes rs).take (endOf (rs.take j)) = recordBytes (rs.take j) := by
  have hsplit : recordBytes rs = recordBytes (rs.take j) ++ recordBytes (rs.drop j) := by
    rw [← recordBytes_append, List.take_append_drop]
  rw [hsplit, endOf, List.take_left]

/-- Where a record ends, the byte before is a line feed. -/
theorem getElem?_endOf (rs : List Record) (j : ℕ) :
    endOf (rs.take j) = 0 ∨ (recordBytes rs)[endOf (rs.take j) - 1]? = some lineFeed := by
  obtain hnil | ⟨init, r, hconcat⟩ := List.eq_nil_or_concat (rs.take j)
  · exact .inl (by rw [hnil, endOf_nil])
  · have htake : recordBytes (rs.take j) = recordBytes init ++ encode r.line ++ [lineFeed] := by
      rw [hconcat, List.concat_eq_append, recordBytes_append, recordBytes_singleton,
        List.append_assoc]
    have hsplit : recordBytes rs = recordBytes (rs.take j) ++ recordBytes (rs.drop j) := by
      rw [← recordBytes_append, List.take_append_drop]
    refine .inr ?_
    rw [hsplit, endOf, htake, List.length_append, List.length_singleton, Nat.add_sub_cancel,
      List.append_assoc, List.getElem?_append_right (le_refl _), Nat.sub_self]
    rfl

/-- The records a spool file holds; a missing file holds none. -/
def FileHolds (file : Option SpoolFile) (rs : List Record) : Prop :=
  recordBytes rs = (file.map SpoolFile.bytes).getD []

theorem FileHolds.bytes {f : SpoolFile} {rs : List Record} (h : FileHolds (some f) rs) :
    f.bytes = recordBytes rs := by
  simpa [FileHolds] using h.symm

theorem FileHolds.eq_nil {rs : List Record} (h : FileHolds none rs) : rs = [] :=
  eq_nil_of_recordBytes h

/-- An identity, if there is one, names the file as it is. -/
def Names (digest : Bytes → String) (spool : Option Identity) (file : Option SpoolFile) : Prop :=
  ∀ I, spool = some I → ∃ f, file = some f ∧ Identity.same digest I f = true

theorem names_none (digest : Bytes → String) (file : Option SpoolFile) :
    Names digest none file := by
  intro I hI
  cases hI

theorem names_of (digest : Bytes → String) (file : Option SpoolFile) :
    Names digest (file.map (Identity.of digest)) file := by
  intro I hI
  cases file with
  | none => cases hI
  | some f =>
    obtain rfl : Identity.of digest f = I := by simpa using hI
    exact ⟨f, rfl, Identity.same_of digest f⟩

/-- An append leaves the name of a file valid. -/
theorem Names.append {digest : Bytes → String} {spool : Option Identity} {f : SpoolFile}
    (h : Names digest spool (some f)) (more : Bytes) :
    Names digest spool (some (f.append more)) := by
  intro I hI
  obtain ⟨f', hf', hsame⟩ := h I hI
  obtain rfl : f = f' := by simpa using hf'
  exact ⟨_, rfl, Identity.same_append digest hsame more⟩

theorem restart_of_names {digest : Bytes → String} {spool : Option Identity} {f : SpoolFile}
    {offset : ℕ} (h : Names digest spool (some f)) (hle : offset ≤ f.bytes.length) :
    Identity.restart digest spool f offset = none := by
  have hlt : ¬ f.bytes.length < offset := by omega
  cases hs : spool with
  | none => simp [Identity.restart, hlt]
  | some I =>
    obtain ⟨f', hf', hsame⟩ := h I hs
    obtain rfl : f = f' := by simpa using hf'
    simp [Identity.restart, hlt, hsame]

/-- What the reader hands out for a record: its body and format, and its signal unless the
body contradicts it. -/
structure Offers (codec : EnvelopeCodec) (p : Pending) (r : Record) : Prop where
  payload : p.payload = r.payload
  format : p.format = r.format
  signal : r.Settled codec → p.signal = r.signal

/-- Whether the reader's window takes a record whole. -/
def Record.fits (r : Record) : Bool := (encode r.line).length < maxRead

/-- A logs record 32 bytes above the largest body the daemon takes: its line is longer than
the reader's window. -/
def oversize : Record := ⟨.logs, List.replicate 6291440 0, .protobuf⟩

theorem endOf_oversize : endOf [oversize] = 8388636 := by
  have hover : envelopeOverhead .logs .protobuf = 47 := by decide
  rw [endOf_singleton, length_encode_line]
  simp only [oversize, List.length_replicate, hover]

theorem fits_oversize : oversize.fits = false := by
  have hend := endOf_oversize
  rw [endOf_singleton] at hend
  exact decide_eq_false (by rw [maxRead]; omega)

/-- What a read at the end of record `j` finds, for a file that is the one the checkpoint
was measured against. -/
theorem peekAt_spec {env : SpoolEnv} (hcodec : env.codec.Lawful) {s : DurableSpool}
    {rs : List Record} {j : ℕ} (hholds : FileHolds s.disk.spool rs)
    (hnames : Names env.digest s.checkpoint.spool s.disk.spool) (hj : j ≤ rs.length) :
    (rs.drop j = [] ∧ s.peekAt env (endOf (rs.take j)) =
      .ok (.empty, s.disk.spool.map (Identity.of env.digest))) ∨
    ∃ r rest, rs.drop j = r :: rest ∧
      ((r.fits = false ∧ s.peekAt env (endOf (rs.take j)) =
        .error (.recordTooLarge (endOf (rs.take j)))) ∨
      (r.fits = true ∧ ∃ p, Offers env.codec p r ∧ p.boundary = endOf (rs.take (j + 1)) ∧
        s.peekAt env (endOf (rs.take j)) =
          .ok (.decoded p, s.disk.spool.map (Identity.of env.digest)))) := by
  cases hfile : s.disk.spool with
  | none =>
    rw [hfile] at hholds
    obtain rfl := hholds.eq_nil
    exact .inl ⟨by simp, by simp [DurableSpool.peekAt, hfile, drain]⟩
  | some f =>
    rw [hfile] at hholds hnames
    have hbytes := hholds.bytes
    have hlines : ∀ t ∈ rs.map Record.line, IsLine t := by
      intro t ht
      obtain ⟨r, -, rfl⟩ := List.mem_map.mp ht
      exact isLine_line r
    have hle : endOf (rs.take j) ≤ f.bytes.length := by
      rw [hbytes]
      exact endOf_take_le rs j
    have hrestart := restart_of_names hnames hle
    cases hrest : rs.drop j with
    | nil =>
      have hall : rs.take j = rs := List.take_of_length_le (List.drop_eq_nil_iff.mp hrest)
      rw [hall] at hrestart ⊢
      obtain ⟨d, hd, hres, hid, hempty⟩ := drain_end env.digest hbytes hrestart
      refine .inl ⟨rfl, ?_⟩
      have hd' : drain env.digest (some f) (endOf rs) s.checkpoint.spool = .ok d := hd
      simp [DurableSpool.peekAt, hfile, hd', hres, hid, hempty]
    | cons r rest =>
      have hsplit : rs = rs.take j ++ r :: rest := by rw [← hrest, List.take_append_drop]
      have hbytes' : f.bytes =
          lineBytes ((rs.take j).map Record.line ++ r.line :: rest.map Record.line) := by
        rw [hbytes, recordBytes]
        conv_lhs => rw [hsplit]
        rw [List.map_append, List.map_cons]
      have hnext : rs.take (j + 1) = rs.take j ++ [r] := by
        rw [List.take_add, hrest]
        rfl
      have hline : ∀ t ∈ r.line :: rest.map Record.line, IsLine t := by
        intro t ht
        refine hlines t (List.mem_map.mpr ?_)
        obtain rfl | ht := List.mem_cons.mp ht
        · exact ⟨r, by rw [hsplit]; simp, rfl⟩
        · obtain ⟨r', hr', rfl⟩ := List.mem_map.mp ht
          exact ⟨r', by rw [hsplit]; simp [hr'], rfl⟩
      refine .inr ⟨r, rest, rfl, ?_⟩
      cases hfits : r.fits with
      | false =>
        have hlarge : maxRead ≤ (encode r.line).length := by simpa [Record.fits] using hfits
        have hd : drain env.digest (some f) (endOf (rs.take j)) s.checkpoint.spool =
            .error (.recordTooLarge (endOf (rs.take j))) :=
          drain_too_large env.digest hbytes' (isLine_line r) hrestart hlarge
        exact .inl ⟨rfl, by simp [DurableSpool.peekAt, hfile, hd]⟩
      | true =>
        have hsmall : (encode r.line).length < maxRead := by simpa [Record.fits] using hfits
        obtain ⟨d, hd, hres, hid, hhead, hbound⟩ :=
          drain_lines env.digest hbytes' hline hrestart hsmall
        have hd' : drain env.digest (some f) (endOf (rs.take j)) s.checkpoint.spool = .ok d := hd
        obtain ⟨signal, hdec, hsignal⟩ := decodeEnvelope_line hcodec r
        refine .inr ⟨rfl, ⟨signal, r.payload, r.format, Quarantine.key env.digest r.line,
          d.boundary⟩, ⟨rfl, rfl, hsignal⟩, ?_, ?_⟩
        · rw [hbound, hnext, endOf, recordBytes, List.map_append]
          rfl
        · simp [DurableSpool.peekAt, hfile, hd', hres, hid, hhead, hdec]

end Governance
