import Governance.Lib.Utf8Decode

/-!
# Bytes that more bytes can complete

Bytes are completable when they are an encoded text and a proper start of one more character. The
strict decoder refuses exactly the bytes that are not (`fromUtf8_ok_iff`), so whether it has refused
depends on the bytes alone. What it has decoded already does not matter for what follows
(`completable_encode_append`).
-/

namespace Utf8Text

open String (utf8Len utf8EncodeChar)

/-- The start of a character that lacks its end. It may be empty. -/
def StartOfChar (start : List UInt8) : Prop :=
  ∃ c : Char, start <+: utf8EncodeChar c ∧ start.length < (utf8EncodeChar c).length

/-- An encoded text, and the start of one more character. -/
def Completable (bytes : List UInt8) : Prop :=
  ∃ t start, bytes = encode t ++ start ∧ StartOfChar start

theorem startOfChar_nil : StartOfChar [] := by
  refine ⟨'a', List.nil_prefix, ?_⟩
  exact List.length_pos_of_ne_nil String.utf8EncodeChar_ne_nil

theorem StartOfChar.length_le {start : List UInt8} (h : StartOfChar start) : start.length ≤ 3 := by
  obtain ⟨c, -, hlt⟩ := h
  have hle := (encodedChar c).length_le
  omega

theorem StartOfChar.decodeChar {start : List UInt8} (h : StartOfChar start) :
    decodeChar start = .incomplete := by
  obtain ⟨c, hstart, hlt⟩ := h
  exact decodeChar_start (encodedChar c) hstart hlt

/-! ## The decoder reads encodings only -/

/-- The value of an encoded character determines its bytes. -/
theorem EncodedChar.unique {v : ℕ} {bytes bytes' : List UInt8} (h : EncodedChar v bytes)
    (h' : EncodedChar v bytes') : bytes = bytes' := by
  cases h with
  | one h₀ hv =>
    cases h' with
    | one h₀' hv' => rw [UInt8.toNat_inj.mp (h₀.trans h₀'.symm)]
    | two h₀' h₁' hv' => omega
    | three h₀' h₁' h₂' hv' => omega
    | four h₀' h₁' h₂' h₃' hv' => omega
  | two h₀ h₁ hv =>
    cases h' with
    | one h₀' hv' => omega
    | two h₀' h₁' hv' =>
      rw [UInt8.toNat_inj.mp (h₀.trans h₀'.symm), UInt8.toNat_inj.mp (h₁.trans h₁'.symm)]
    | three h₀' h₁' h₂' hv' => omega
    | four h₀' h₁' h₂' h₃' hv' => omega
  | three h₀ h₁ h₂ hv =>
    cases h' with
    | one h₀' hv' => omega
    | two h₀' h₁' hv' => omega
    | three h₀' h₁' h₂' hv' =>
      rw [UInt8.toNat_inj.mp (h₀.trans h₀'.symm), UInt8.toNat_inj.mp (h₁.trans h₁'.symm),
        UInt8.toNat_inj.mp (h₂.trans h₂'.symm)]
    | four h₀' h₁' h₂' h₃' hv' => omega
  | four h₀ h₁ h₂ h₃ hv =>
    cases h' with
    | one h₀' hv' => omega
    | two h₀' h₁' hv' => omega
    | three h₀' h₁' h₂' hv' => omega
    | four h₀' h₁' h₂' h₃' hv' =>
      rw [UInt8.toNat_inj.mp (h₀.trans h₀'.symm), UInt8.toNat_inj.mp (h₁.trans h₁'.symm),
        UInt8.toNat_inj.mp (h₂.trans h₂'.symm), UInt8.toNat_inj.mp (h₃.trans h₃'.symm)]

theorem EncodedChar.value {v : ℕ} {bytes : List UInt8} (h : EncodedChar v bytes) :
    v ≤ 0x10FFFF ∧ ¬ (0xD800 ≤ v ∧ v ≤ 0xDFFF) := by
  cases h <;> omega

/-- Bytes in the shape of a value are the encoding of its character. -/
theorem EncodedChar.eq_utf8EncodeChar {v : ℕ} {bytes : List UInt8} (h : EncodedChar v bytes) :
    bytes = utf8EncodeChar (Char.ofNat v) := by
  have hvalid : v.isValidChar := by
    obtain ⟨hmax, hsur⟩ := h.value
    by_cases hlow : v < 0xD800
    · exact .inl hlow
    · exact .inr ⟨by omega, by omega⟩
  have hvalue : (Char.ofNat v).toNat = v := by
    rw [Char.ofNat, dif_pos hvalid]
    exact Char.toNat_ofNatAux hvalid
  have henc := encodedChar (Char.ofNat v)
  rw [hvalue] at henc
  exact h.unique henc

theorem isContinuation_iff {b : UInt8} :
    isContinuation b = true ↔ 0x80 ≤ b.toNat ∧ b.toNat ≤ 0xBF := by
  rw [isContinuation, Bool.and_eq_true, decide_eq_true_eq, decide_eq_true_eq]

theorem isSecond_iff {first second : UInt8} :
    isSecond first second = true ↔ 0x80 ≤ second.toNat ∧ second.toNat ≤ 0xBF ∧
      (first.toNat = 0xE0 → 0xA0 ≤ second.toNat) ∧ (first.toNat = 0xF0 → 0x90 ≤ second.toNat) ∧
      (first.toNat = 0xED → second.toNat ≤ 0x9F) ∧
      (first.toNat = 0xF4 → second.toNat ≤ 0x8F) := by
  simp only [isSecond, Bool.and_eq_true, decide_eq_true_eq]
  split_ifs <;> omega

/-- What the decoder reads is the encoding of the character it returns. -/
theorem eq_append_of_decodeChar {bytes rest : List UInt8} {c : Char}
    (h : decodeChar bytes = .char c rest) : bytes = utf8EncodeChar c ++ rest := by
  rw [decodeChar.eq_def] at h
  rcases bytes with _ | ⟨b₀, bs⟩
  · cases h
  · dsimp only at h
    split_ifs at h with h1 h2 h3 h4
    · obtain ⟨rfl, rfl⟩ : Char.ofNat b₀.toNat = c ∧ bs = rest := by simpa using h
      rw [← (EncodedChar.one rfl h1).eq_utf8EncodeChar]
      rfl
    · rcases bs with _ | ⟨b₁, bs⟩
      · cases h
      · dsimp only at h
        split_ifs at h with hc
        obtain ⟨rfl, rfl⟩ := Decoded.char.inj h
        rw [isContinuation_iff] at hc
        rw [← (@EncodedChar.two _ b₀ b₁ _ _ _).eq_utf8EncodeChar]
        · rfl
        all_goals simp only [payload]; omega
    · rcases bs with _ | ⟨b₁, _ | ⟨b₂, bs⟩⟩
      · cases h
      · dsimp only at h
        split_ifs at h
      · dsimp only at h
        split_ifs at h with hs hc
        obtain ⟨rfl, rfl⟩ := Decoded.char.inj h
        rw [isContinuation_iff] at hc
        rw [isSecond_iff] at hs
        rw [← (@EncodedChar.three _ b₀ b₁ b₂ _ _ _ _).eq_utf8EncodeChar]
        · rfl
        all_goals simp only [payload]; omega
    · rcases bs with _ | ⟨b₁, _ | ⟨b₂, _ | ⟨b₃, bs⟩⟩⟩
      · cases h
      · dsimp only at h
        split_ifs at h
      · dsimp only at h
        split_ifs at h
      · dsimp only at h
        split_ifs at h with hs hc hc'
        obtain ⟨rfl, rfl⟩ := Decoded.char.inj h
        rw [isContinuation_iff] at hc hc'
        rw [isSecond_iff] at hs
        rw [← (@EncodedChar.four _ b₀ b₁ b₂ b₃ _ _ _ _ _).eq_utf8EncodeChar]
        · rfl
        all_goals simp only [payload]; omega

/-- A first byte has a second one. -/
theorem exists_isSecond (first : UInt8) : ∃ second : UInt8, isSecond first second = true := by
  by_cases hE : first.toNat = 0xE0
  · exact ⟨0xA0, isSecond_iff.2 ⟨by decide, by decide, fun _ => by decide, by omega, by omega,
      by omega⟩⟩
  · by_cases hF : first.toNat = 0xF0
    · exact ⟨0x90, isSecond_iff.2 ⟨by decide, by decide, by omega, fun _ => by decide, by omega,
        by omega⟩⟩
    · exact ⟨0x80, isSecond_iff.2 ⟨by decide, by decide, by omega, by omega, fun _ => by decide,
        fun _ => by decide⟩⟩

/-- What the decoder waits to complete can be completed. -/
theorem exists_completion {start : List UInt8} (h : decodeChar start = .incomplete) :
    ∃ more, more ≠ [] ∧ ∃ c, decodeChar (start ++ more) = .char c [] := by
  have hlast : isContinuation 0x80 = true := by decide
  rw [decodeChar.eq_def] at h
  match start with
  | [] => exact ⟨[0x61], List.cons_ne_nil _ _, 'a', by decide⟩
  | [b₀] =>
    obtain ⟨b₁, hs⟩ := exists_isSecond b₀
    dsimp only at h
    split_ifs at h with h1 h2 h3 h4
    · refine ⟨[0x80], List.cons_ne_nil _ _, ?_⟩
      rw [List.cons_append, List.nil_append, decodeChar, if_neg h1, if_pos h2, if_pos hlast]
      exact ⟨_, rfl⟩
    · refine ⟨[b₁, 0x80], List.cons_ne_nil _ _, ?_⟩
      rw [List.cons_append, List.nil_append, decodeChar, if_neg h1, if_neg h2, if_pos h3,
        if_pos hs, if_pos hlast]
      exact ⟨_, rfl⟩
    · refine ⟨[b₁, 0x80, 0x80], List.cons_ne_nil _ _, ?_⟩
      rw [List.cons_append, List.nil_append, decodeChar, if_neg h1, if_neg h2, if_neg h3, if_pos h4,
        if_pos hs, if_pos hlast, if_pos hlast]
      exact ⟨_, rfl⟩
  | [b₀, b₁] =>
    dsimp only at h
    split_ifs at h with h1 h2 hc h3 hs h4 hs
    · refine ⟨[0x80], List.cons_ne_nil _ _, ?_⟩
      rw [List.cons_append, List.cons_append, List.nil_append, decodeChar, if_neg h1, if_neg h2,
        if_pos h3, if_pos hs, if_pos hlast]
      exact ⟨_, rfl⟩
    · refine ⟨[0x80, 0x80], List.cons_ne_nil _ _, ?_⟩
      rw [List.cons_append, List.cons_append, List.nil_append, decodeChar, if_neg h1, if_neg h2,
        if_neg h3, if_pos h4, if_pos hs, if_pos hlast, if_pos hlast]
      exact ⟨_, rfl⟩
  | [b₀, b₁, b₂] =>
    dsimp only at h
    split_ifs at h with h1 h2 hc h3 hs hc h4 hs hc
    refine ⟨[0x80], List.cons_ne_nil _ _, ?_⟩
    rw [List.cons_append, List.cons_append, List.cons_append, List.nil_append, decodeChar,
      if_neg h1, if_neg h2, if_neg h3, if_pos h4, if_pos hs, if_pos hc, if_pos hlast]
    exact ⟨_, rfl⟩
  | b₀ :: b₁ :: b₂ :: b₃ :: bs =>
    dsimp only at h
    split_ifs at h

theorem startOfChar_iff {start : List UInt8} :
    StartOfChar start ↔ decodeChar start = .incomplete := by
  constructor
  · exact StartOfChar.decodeChar
  · intro h
    obtain ⟨more, hmore, c, hdec⟩ := exists_completion h
    have hbytes := eq_append_of_decodeChar hdec
    rw [List.append_nil] at hbytes
    refine ⟨c, ⟨more, hbytes⟩, ?_⟩
    have hpos := List.length_pos_of_ne_nil hmore
    rw [← hbytes, List.length_append]
    omega

/-! ## Completable bytes -/

/-- Completable bytes are the starts of encoded texts. -/
theorem completable_iff_prefix {bytes : List UInt8} :
    Completable bytes ↔ ∃ t, bytes <+: encode t := by
  constructor
  · rintro ⟨t, start, rfl, c, ⟨more, hmore⟩, -⟩
    refine ⟨t ++ [c], more, ?_⟩
    rw [encode_append, encode_cons, encode_nil, List.append_nil, List.append_assoc, hmore]
  · rintro ⟨t, h⟩
    obtain ⟨q, rest, hbytes, -, hrest, -⟩ := fromUtf8_isPrefixOf h
    refine ⟨q, rest, hbytes, ?_⟩
    rcases hrest with rfl | hrest
    · exact startOfChar_nil
    · exact startOfChar_iff.2 hrest

theorem Completable.of_prefix {bytes whole : List UInt8} (h : Completable whole)
    (hbytes : bytes <+: whole) : Completable bytes := by
  obtain ⟨t, ht⟩ := completable_iff_prefix.1 h
  exact completable_iff_prefix.2 ⟨t, hbytes.trans ht⟩

/-- What follows a text can be completed or not whatever the text. -/
theorem completable_encode_append {t : Text} {bytes : List UInt8} :
    Completable (encode t ++ bytes) ↔ Completable bytes := by
  constructor
  · induction t with
    | nil => exact id
    | cons c t ih =>
      intro h
      apply ih
      obtain ⟨t', hmore⟩ := completable_iff_prefix.1 h
      rw [encode_cons, List.append_assoc] at hmore
      cases t' with
      | nil =>
        have hnil := List.prefix_nil.mp hmore
        exact absurd (List.append_eq_nil_iff.mp hnil).1 String.utf8EncodeChar_ne_nil
      | cons c' t' =>
        obtain ⟨more, heq⟩ := hmore
        -- both sides decode to their first character
        have hdec := decodeChar_encode c (encode t ++ bytes ++ more)
        rw [← List.append_assoc, heq, encode_cons, decodeChar_encode] at hdec
        obtain ⟨-, hrest⟩ := Decoded.char.inj hdec
        exact completable_iff_prefix.2 ⟨t', more, hrest.symm⟩
  · rintro ⟨t', start, rfl, hstart⟩
    exact ⟨t ++ t', start, by rw [encode_append, List.append_assoc], hstart⟩

/-! ## Where the decoder stops -/

/-- The loop returns a text that starts the bytes, and stops where its tail says. -/
theorem decodeLoop_cases {fuel : ℕ} {bytes : List UInt8} (h : bytes.length ≤ fuel) :
    ∃ t rest, bytes = encode t ++ rest ∧
      ((rest = [] ∧ decodeLoop fuel bytes = (t, .complete)) ∨
        (rest ≠ [] ∧ StartOfChar rest ∧ decodeLoop fuel bytes = (t, .incomplete rest)) ∨
        (decodeChar rest = .invalid ∧ decodeLoop fuel bytes = (t, .invalid))) := by
  induction fuel generalizing bytes with
  | zero =>
    obtain rfl : bytes = [] := List.eq_nil_of_length_eq_zero (by omega)
    exact ⟨[], [], rfl, .inl ⟨rfl, rfl⟩⟩
  | succ fuel ih =>
    cases bytes with
    | nil => exact ⟨[], [], rfl, .inl ⟨rfl, rfl⟩⟩
    | cons b bs =>
      cases hdec : decodeChar (b :: bs) with
      | char c rest =>
        have hbytes := eq_append_of_decodeChar hdec
        have hpos := List.length_pos_of_ne_nil (String.utf8EncodeChar_ne_nil (c := c))
        have hlen : rest.length ≤ fuel := by
          rw [hbytes, List.length_append] at h
          omega
        obtain ⟨t, last, hrest, hcases⟩ := ih hlen
        refine ⟨c :: t, last, by rw [hbytes, hrest, encode_cons, List.append_assoc], ?_⟩
        rcases hcases with ⟨hlast, hloop⟩ | ⟨hlast, hstart, hloop⟩ | ⟨hlast, hloop⟩
        · exact .inl ⟨hlast, by rw [decodeLoop, hdec]; simp only [hloop]⟩
        · exact .inr (.inl ⟨hlast, hstart, by rw [decodeLoop, hdec]; simp only [hloop]⟩)
        · exact .inr (.inr ⟨hlast, by rw [decodeLoop, hdec]; simp only [hloop]⟩)
      | incomplete =>
        refine ⟨[], b :: bs, rfl, .inr (.inl ⟨List.cons_ne_nil _ _, startOfChar_iff.2 hdec, ?_⟩)⟩
        rw [decodeLoop, hdec]
      | invalid =>
        refine ⟨[], b :: bs, rfl, .inr (.inr ⟨hdec, ?_⟩)⟩
        rw [decodeLoop, hdec]

/-- A malformed sequence is not completable, whatever text stands before it. -/
theorem not_completable_of_invalid {t : Text} {rest : List UInt8}
    (h : decodeChar rest = .invalid) : ¬ Completable (encode t ++ rest) := by
  rw [completable_encode_append]
  rintro ⟨t', start, rfl, hstart⟩
  cases t' with
  | nil =>
    rw [encode_nil, List.nil_append, hstart.decodeChar] at h
    cases h
  | cons c t' =>
    rw [encode_cons, List.append_assoc, decodeChar_encode] at h
    cases h

end Utf8Text
