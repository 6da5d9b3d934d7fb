import Governance.Extproc.Dispatch
import Governance.Lib.Utf8Completable

/-!
# Decoding in chunks

`redact-extproc/src/service/response/mod.rs` and `redact-gateway/src/proxy.rs` each have a
`decode_chunk_with_carry`. A call decodes the carry of the call before it and its chunk as far as
the bytes go. The calls on the chunks of some bytes refuse nothing exactly when the bytes are a text
and the start of a character, wherever the chunks are cut, and the two copies agree.
-/

namespace Governance

open Utf8Text

/-- A `decode_chunk_with_carry`: from a carry and a chunk, the text, or none for an error, and the
carry it leaves. -/
abbrev ChunkDecoder := List UInt8 → List UInt8 → Option Text × List UInt8

/-- The calls on the chunks of a stream: what each returns, and the carry behind the last one. -/
def decodeChunks (decode : ChunkDecoder) (carry : List UInt8) :
    List (List UInt8) → List (Option Text) × List UInt8
  | [] => ([], carry)
  | chunk :: chunks =>
    ((decode carry chunk).1 :: (decodeChunks decode (decode carry chunk).2 chunks).1,
      (decodeChunks decode (decode carry chunk).2 chunks).2)

/-- The gateway's copy. It also says whether the buffer ends inside a codepoint. -/
def gatewayDecoder : ChunkDecoder := fun carry chunk =>
  ((decodeChunkWithCarry carry chunk).1.toOption.map Prod.fst, (decodeChunkWithCarry carry chunk).2)

/-- The calls decode the bytes, wherever they are cut: none fails exactly when the bytes are
completable, nothing is lost, and the first call to fail is the one behind which the bytes are not
completable any more. -/
structure ChunkingInvariant (decode : ChunkDecoder) : Prop where
  succeeds_iff : ∀ chunks : List (List UInt8),
    (∀ answer ∈ (decodeChunks decode [] chunks).1, answer.isSome = true) ↔
      Completable chunks.flatten
  exact_bytes : ∀ chunks : List (List UInt8), Completable chunks.flatten →
    encode (decodeChunks decode [] chunks).1.reduceOption.flatten ++
        (decodeChunks decode [] chunks).2 = chunks.flatten ∧
      (decodeChunks decode [] chunks).2.length ≤ 3
  first_failure : ∀ chunks : List (List UInt8), ¬ Completable chunks.flatten →
    ∃ i < chunks.length, (decodeChunks decode [] chunks).1[i]? = some none ∧
      (∀ j < i, ∃ text, (decodeChunks decode [] chunks).1[j]? = some (some text)) ∧
      (∀ j ≤ i, Completable (chunks.take j).flatten) ∧
      ¬ Completable (chunks.take (i + 1)).flatten

/-- What one call does. -/
structure DecodesChunks (decode : ChunkDecoder) : Prop where
  taken : ∀ {carry chunk : List UInt8}, Completable (carry ++ chunk) →
    ∃ text rest, decode carry chunk = (some text, rest) ∧ carry ++ chunk = encode text ++ rest ∧
      StartOfChar rest
  refused : ∀ {carry chunk : List UInt8}, ¬ Completable (carry ++ chunk) →
    (decode carry chunk).1 = none

theorem decodesChunks_extproc : DecodesChunks Extproc.decodeChunkWithCarry := by
  constructor
  · intro carry chunk h
    obtain ⟨text, rest, hbytes, hcases⟩ := decodeLoop_cases (le_refl (carry ++ chunk).length)
    rcases hcases with ⟨rfl, hloop⟩ | ⟨-, hstart, hloop⟩ | ⟨hinvalid, hloop⟩
    · refine ⟨text, [], ?_, hbytes, startOfChar_nil⟩
      rw [Extproc.decodeChunkWithCarry, fromUtf8, hloop]
    · refine ⟨text, rest, ?_, hbytes, hstart⟩
      rw [Extproc.decodeChunkWithCarry, fromUtf8, hloop]
    · rw [hbytes] at h
      exact absurd h (not_completable_of_invalid hinvalid)
  · intro carry chunk h
    obtain ⟨text, rest, hbytes, hcases⟩ := decodeLoop_cases (le_refl (carry ++ chunk).length)
    rcases hcases with ⟨rfl, hloop⟩ | ⟨-, hstart, hloop⟩ | ⟨hinvalid, hloop⟩
    · exact absurd ⟨text, [], hbytes, startOfChar_nil⟩ h
    · exact absurd ⟨text, rest, hbytes, hstart⟩ h
    · rw [Extproc.decodeChunkWithCarry, fromUtf8, hloop]

/-- The two copies return one text and leave one carry. -/
theorem gatewayDecoder_eq (carry chunk : List UInt8) :
    gatewayDecoder carry chunk = Extproc.decodeChunkWithCarry carry chunk := by
  rw [gatewayDecoder, decodeChunkWithCarry, Extproc.decodeChunkWithCarry]
  cases fromUtf8 (carry ++ chunk) with
  | mk text tail => cases tail <;> rfl

section Run

variable {decode : ChunkDecoder} {carry : List UInt8}

/-- On completable bytes every call returns a text, and texts and carry are the bytes. -/
theorem DecodesChunks.run (h : DecodesChunks decode) (hcarry : StartOfChar carry)
    (chunks : List (List UInt8)) (hbytes : Completable (carry ++ chunks.flatten)) :
    ∃ texts : List Text, (decodeChunks decode carry chunks).1 = texts.map some ∧
      encode texts.flatten ++ (decodeChunks decode carry chunks).2 = carry ++ chunks.flatten ∧
      StartOfChar (decodeChunks decode carry chunks).2 := by
  induction chunks generalizing carry with
  | nil => exact ⟨[], rfl, (List.append_nil carry).symm, hcarry⟩
  | cons chunk chunks ih =>
    rw [List.flatten_cons, ← List.append_assoc] at hbytes
    obtain ⟨text, rest, hcall, hsplit, hrest⟩ :=
      h.taken (hbytes.of_prefix (List.prefix_append _ _))
    rw [hsplit, List.append_assoc, completable_encode_append] at hbytes
    obtain ⟨texts, hanswers, hexact, hlast⟩ := ih hrest hbytes
    rw [decodeChunks, hcall]
    refine ⟨text :: texts, ?_, ?_, hlast⟩
    · rw [hanswers, List.map_cons]
    · rw [List.flatten_cons, List.flatten_cons, encode_append, List.append_assoc, hexact,
        ← List.append_assoc, ← hsplit, List.append_assoc]

/-- On other bytes the first call to fail is the one behind which they are not completable. -/
theorem DecodesChunks.run_fails (h : DecodesChunks decode) (hcarry : StartOfChar carry)
    (chunks : List (List UInt8)) (hbytes : ¬ Completable (carry ++ chunks.flatten)) :
    ∃ i < chunks.length, (decodeChunks decode carry chunks).1[i]? = some none ∧
      (∀ j < i, ∃ text, (decodeChunks decode carry chunks).1[j]? = some (some text)) ∧
      (∀ j ≤ i, Completable (carry ++ (chunks.take j).flatten)) ∧
      ¬ Completable (carry ++ (chunks.take (i + 1)).flatten) := by
  have hbefore : Completable (carry ++ (List.take 0 chunks).flatten) :=
    ⟨[], carry, List.append_nil carry, hcarry⟩
  induction chunks generalizing carry with
  | nil => exact absurd hbefore hbytes
  | cons chunk chunks ih =>
    rw [List.flatten_cons, ← List.append_assoc] at hbytes
    by_cases hchunk : Completable (carry ++ chunk)
    · obtain ⟨text, rest, hcall, hsplit, hrest⟩ := h.taken hchunk
      -- the bytes behind the text decide for all that follows
      have hbehind (more : List UInt8) :
          Completable (carry ++ (chunk ++ more)) ↔ Completable (rest ++ more) := by
        rw [← List.append_assoc, hsplit, List.append_assoc, completable_encode_append]
      rw [List.append_assoc, hbehind] at hbytes
      obtain ⟨i, hi, hfails, htaken, hcompletable, hnot⟩ :=
        ih hrest hbytes ⟨[], rest, List.append_nil rest, hrest⟩
      refine ⟨i + 1, Nat.succ_lt_succ hi, ?_, ?_, ?_, ?_⟩
      · rw [decodeChunks, hcall, List.getElem?_cons_succ]
        exact hfails
      · intro j hj
        rw [decodeChunks, hcall]
        cases j with
        | zero => exact ⟨text, rfl⟩
        | succ j => exact htaken j (by omega)
      · intro j hj
        cases j with
        | zero => exact hbefore
        | succ j =>
          rw [List.take_succ_cons, List.flatten_cons, hbehind]
          exact hcompletable j (by omega)
      · rw [List.take_succ_cons, List.flatten_cons, hbehind]
        exact hnot
    · refine ⟨0, Nat.succ_pos _, ?_, ?_, ?_, ?_⟩
      · rw [decodeChunks, h.refused hchunk]
        rfl
      · intro j hj
        exact absurd hj (Nat.not_lt_zero j)
      · intro j hj
        rw [Nat.le_zero.mp hj]
        exact hbefore
      · rw [List.take_succ_cons, List.take_zero, List.flatten_cons, List.flatten_nil,
          List.append_nil]
        exact hchunk

theorem DecodesChunks.chunkingInvariant (h : DecodesChunks decode) : ChunkingInvariant decode := by
  constructor
  · intro chunks
    constructor
    · intro hall
      by_contra hnot
      obtain ⟨i, -, hfails, -⟩ := h.run_fails startOfChar_nil chunks hnot
      have hsome := hall none (List.mem_of_getElem? hfails)
      cases hsome
    · intro hbytes answer hanswer
      obtain ⟨texts, hanswers, -⟩ := h.run startOfChar_nil chunks hbytes
      rw [hanswers] at hanswer
      obtain ⟨text, -, rfl⟩ := List.mem_map.mp hanswer
      rfl
  · intro chunks hbytes
    obtain ⟨texts, hanswers, hexact, hlast⟩ := h.run startOfChar_nil chunks hbytes
    refine ⟨?_, hlast.length_le⟩
    rw [hanswers, List.reduceOption, List.filterMap_map, Function.id_comp, List.filterMap_some]
    exact hexact
  · intro chunks hbytes
    exact h.run_fails startOfChar_nil chunks hbytes

end Run

/-- Both copies decode the bytes wherever they are cut, and they agree. -/
theorem decodeChunkWithCarry_chunkingInvariant :
    ChunkingInvariant Extproc.decodeChunkWithCarry ∧ ChunkingInvariant gatewayDecoder ∧
      ∀ carry chunk, gatewayDecoder carry chunk = Extproc.decodeChunkWithCarry carry chunk := by
  have hsame : gatewayDecoder = Extproc.decodeChunkWithCarry := by
    funext carry chunk
    exact gatewayDecoder_eq carry chunk
  refine ⟨decodesChunks_extproc.chunkingInvariant, ?_, gatewayDecoder_eq⟩
  rw [hsame]
  exact decodesChunks_extproc.chunkingInvariant

/-- The second character is cut in two. -/
example : decodeChunks Extproc.decodeChunkWithCarry [] [[0x63], [0xC3], [0xA9, 0x21]] =
    ([some ['c'], some [], some ['é', '!']], []) := by decide

end Governance
