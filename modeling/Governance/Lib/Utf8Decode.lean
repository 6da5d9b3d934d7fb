import Governance.Lib.Utf8Text

/-!
# Decoding UTF-8 that arrives in pieces

`decodeChar` reads one scalar value the way a strict decoder does, with the byte ranges of
the Unicode standard, and tells a sequence that only lacks its end from one nothing can
complete. `fromUtf8` repeats it. A prefix of an encoded text is never malformed
(`fromUtf8_isPrefixOf`): it decodes to a prefix of the text, and at most the start of one
character is left.
-/

namespace Utf8Text

open String (utf8Len utf8EncodeChar)

/-- The UTF-8 encoding of a text. -/
def encode (t : Text) : List UInt8 := t.flatMap utf8EncodeChar

/-- One step of the decoder. -/
inductive Decoded where
  | char (c : Char) (rest : List UInt8)
  | incomplete
  | invalid
  deriving DecidableEq, Repr

/-- Whether a byte continues a sequence. -/
def isContinuation (b : UInt8) : Bool := 0x80 ≤ b.toNat && b.toNat ≤ 0xBF

/-- Whether a byte may follow the first byte of a sequence of three or four: four first
bytes narrow the range, against overlong forms, surrogates and values past the last plane. -/
def isSecond (first second : UInt8) : Bool :=
  let low := if first.toNat = 0xE0 then 0xA0 else if first.toNat = 0xF0 then 0x90 else 0x80
  let high := if first.toNat = 0xED then 0x9F else if first.toNat = 0xF4 then 0x8F else 0xBF
  low ≤ second.toNat && second.toNat ≤ high

/-- The payload of a byte above the marker bits `base`. -/
def payload (b : UInt8) (base : ℕ) : ℕ := b.toNat - base

/-- Reads one scalar value. -/
def decodeChar : List UInt8 → Decoded
  | [] => .incomplete
  | b₀ :: rest =>
    if b₀.toNat < 0x80 then .char (Char.ofNat b₀.toNat) rest
    else if 0xC2 ≤ b₀.toNat ∧ b₀.toNat ≤ 0xDF then
      match rest with
      | [] => .incomplete
      | b₁ :: rest =>
        if isContinuation b₁ then
          .char (Char.ofNat (payload b₀ 0xC0 * 64 + payload b₁ 0x80)) rest
        else .invalid
    else if 0xE0 ≤ b₀.toNat ∧ b₀.toNat ≤ 0xEF then
      match rest with
      | [] => .incomplete
      | b₁ :: rest =>
        if isSecond b₀ b₁ then
          match rest with
          | [] => .incomplete
          | b₂ :: rest =>
            if isContinuation b₂ then
              .char (Char.ofNat
                (payload b₀ 0xE0 * 4096 + payload b₁ 0x80 * 64 + payload b₂ 0x80)) rest
            else .invalid
        else .invalid
    else if 0xF0 ≤ b₀.toNat ∧ b₀.toNat ≤ 0xF4 then
      match rest with
      | [] => .incomplete
      | b₁ :: rest =>
        if isSecond b₀ b₁ then
          match rest with
          | [] => .incomplete
          | b₂ :: rest =>
            if isContinuation b₂ then
              match rest with
              | [] => .incomplete
              | b₃ :: rest =>
                if isContinuation b₃ then
                  .char (Char.ofNat (payload b₀ 0xF0 * 262144 + payload b₁ 0x80 * 4096 +
                    payload b₂ 0x80 * 64 + payload b₃ 0x80)) rest
                else .invalid
            else .invalid
        else .invalid
    else .invalid

/-- How a decoder stops: at the end, before the start of a character that lacks its end, or
before bytes that start none. -/
inductive Tail where
  | complete
  | incomplete (rest : List UInt8)
  | invalid
  deriving DecidableEq, Repr

/-- Reads scalar values until it has to stop. Each takes at least one byte. -/
def decodeLoop : ℕ → List UInt8 → Text × Tail
  | _, [] => ([], .complete)
  | 0, _ :: _ => ([], .invalid)
  | fuel + 1, b :: bs =>
    match decodeChar (b :: bs) with
    | .char c rest => (c :: (decodeLoop fuel rest).1, (decodeLoop fuel rest).2)
    | .incomplete => ([], .incomplete (b :: bs))
    | .invalid => ([], .invalid)

/-- The text before the first byte that cannot be decoded, and why it stopped there. -/
def fromUtf8 (bytes : List UInt8) : Text × Tail := decodeLoop bytes.length bytes

section Encoded

theorem toNat_le (c : Char) : c.toNat ≤ 0x10FFFF ∧ ¬ (0xD800 ≤ c.toNat ∧ c.toNat ≤ 0xDFFF) := by
  have h := c.valid
  rcases h with h | ⟨h1, h2⟩
  · have : c.toNat < 0xD800 := h
    omega
  · have h1' : 0xDFFF < c.toNat := h1
    have h2' : c.toNat < 0x110000 := h2
    omega

/-- The four shapes of an encoded character, with the values of their bytes. -/
inductive EncodedChar (v : ℕ) : List UInt8 → Prop where
  | one {b₀ : UInt8} (h₀ : b₀.toNat = v) (hv : v < 0x80) : EncodedChar v [b₀]
  | two {b₀ b₁ : UInt8} (h₀ : b₀.toNat = v / 64 + 0xC0) (h₁ : b₁.toNat = v % 64 + 0x80)
      (hv : 0x80 ≤ v ∧ v < 0x800) : EncodedChar v [b₀, b₁]
  | three {b₀ b₁ b₂ : UInt8} (h₀ : b₀.toNat = v / 4096 + 0xE0)
      (h₁ : b₁.toNat = v / 64 % 64 + 0x80) (h₂ : b₂.toNat = v % 64 + 0x80)
      (hv : 0x800 ≤ v ∧ v < 0x10000 ∧ ¬ (0xD800 ≤ v ∧ v ≤ 0xDFFF)) :
      EncodedChar v [b₀, b₁, b₂]
  | four {b₀ b₁ b₂ b₃ : UInt8} (h₀ : b₀.toNat = v / 262144 + 0xF0)
      (h₁ : b₁.toNat = v / 4096 % 64 + 0x80) (h₂ : b₂.toNat = v / 64 % 64 + 0x80)
      (h₃ : b₃.toNat = v % 64 + 0x80) (hv : 0x10000 ≤ v ∧ v ≤ 0x10FFFF) :
      EncodedChar v [b₀, b₁, b₂, b₃]

theorem EncodedChar.length_le {v : ℕ} {bytes : List UInt8} (h : EncodedChar v bytes) :
    bytes.length ≤ 4 := by
  cases h <;> simp

theorem toNat_ofNat_of_lt {n : ℕ} (h : n < 256) : (UInt8.ofNat n).toNat = n := by
  simp only [UInt8.toNat_ofNat']
  omega

theorem encodedChar (c : Char) : EncodedChar c.toNat (utf8EncodeChar c) := by
  obtain ⟨hmax, hsur⟩ := toNat_le c
  have hval : c.val.toNat = c.toNat := rfl
  unfold utf8EncodeChar
  simp only [hval]
  split
  · exact .one (toNat_ofNat_of_lt (by omega)) (by omega)
  · split
    · refine .two ?_ (toNat_ofNat_of_lt (by omega)) (by omega)
      rw [toNat_ofNat_of_lt (by omega)]
      omega
    · split
      · refine .three ?_ (toNat_ofNat_of_lt (by omega)) (toNat_ofNat_of_lt (by omega)) (by omega)
        rw [toNat_ofNat_of_lt (by omega)]
        omega
      · refine .four ?_ (toNat_ofNat_of_lt (by omega)) (toNat_ofNat_of_lt (by omega))
          (toNat_ofNat_of_lt (by omega)) (by omega)
        rw [toNat_ofNat_of_lt (by omega)]
        omega

theorem isContinuation_of {b : UInt8} {n : ℕ} (h : b.toNat = n % 64 + 0x80) :
    isContinuation b = true := by
  simp only [isContinuation, Bool.and_eq_true, decide_eq_true_eq]
  omega

theorem isSecond_of {first second : UInt8} (h : 0x80 ≤ second.toNat ∧ second.toNat ≤ 0xBF)
    (hlow : (first.toNat = 0xE0 → 0xA0 ≤ second.toNat) ∧ (first.toNat = 0xF0 → 0x90 ≤ second.toNat))
    (hhigh : (first.toNat = 0xED → second.toNat ≤ 0x9F) ∧
      (first.toNat = 0xF4 → second.toNat ≤ 0x8F)) :
    isSecond first second = true := by
  simp only [isSecond, Bool.and_eq_true, decide_eq_true_eq]
  constructor
  · split_ifs with hE hF
    · exact hlow.1 hE
    · exact hlow.2 hF
    · exact h.1
  · split_ifs with hE hF
    · exact hhigh.1 hE
    · exact hhigh.2 hF
    · exact h.2

/-- An encoded character is read back, whatever follows it. -/
theorem decodeChar_encoded {v : ℕ} {bytes : List UInt8} (h : EncodedChar v bytes)
    (rest : List UInt8) : decodeChar (bytes ++ rest) = .char (Char.ofNat v) rest := by
  cases h with
  | one h₀ hv => simp [decodeChar, h₀, hv]
  | @two b₀ b₁ h₀ h₁ hv =>
    have hc := isContinuation_of h₁
    have hpay : payload b₀ 0xC0 * 64 + payload b₁ 0x80 = v := by
      simp only [payload]
      omega
    simp only [decodeChar, List.cons_append, List.nil_append]
    rw [if_neg (by omega), if_pos (by omega), if_pos hc, hpay]
  | @three b₀ b₁ b₂ h₀ h₁ h₂ hv =>
    have hs : isSecond b₀ b₁ = true := isSecond_of (by omega) (by omega) (by omega)
    have hc := isContinuation_of h₂
    have hpay : payload b₀ 0xE0 * 4096 + payload b₁ 0x80 * 64 + payload b₂ 0x80 = v := by
      simp only [payload]
      omega
    simp only [decodeChar, List.cons_append, List.nil_append]
    rw [if_neg (by omega), if_neg (by omega), if_pos (by omega), if_pos hs, if_pos hc, hpay]
  | @four b₀ b₁ b₂ b₃ h₀ h₁ h₂ h₃ hv =>
    have hs : isSecond b₀ b₁ = true := isSecond_of (by omega) (by omega) (by omega)
    have hc₂ := isContinuation_of h₂
    have hc₃ := isContinuation_of h₃
    have hpay : payload b₀ 0xF0 * 262144 + payload b₁ 0x80 * 4096 + payload b₂ 0x80 * 64 +
        payload b₃ 0x80 = v := by
      simp only [payload]
      omega
    simp only [decodeChar, List.cons_append, List.nil_append]
    rw [if_neg (by omega), if_neg (by omega), if_neg (by omega), if_pos (by omega), if_pos hs,
      if_pos hc₂, if_pos hc₃, hpay]

/-- The start of an encoded character is never taken for malformed. -/
theorem decodeChar_start {v : ℕ} {bytes start : List UInt8} (h : EncodedChar v bytes)
    (hstart : start <+: bytes) (hlt : start.length < bytes.length) :
    decodeChar start = .incomplete := by
  obtain ⟨more, rfl⟩ := hstart
  rcases start with _ | ⟨b₀, _ | ⟨b₁, _ | ⟨b₂, _ | ⟨b₃, start⟩⟩⟩⟩
  · rfl
  · cases h with
    | one h₀ hv => simp at hlt
    | two h₀ h₁ hv =>
      simp only [decodeChar]
      rw [if_neg (by omega), if_pos (by omega)]
    | three h₀ h₁ h₂ hv =>
      simp only [decodeChar]
      rw [if_neg (by omega), if_neg (by omega), if_pos (by omega)]
    | four h₀ h₁ h₂ h₃ hv =>
      simp only [decodeChar]
      rw [if_neg (by omega), if_neg (by omega), if_neg (by omega), if_pos (by omega)]
  · cases h with
    | two h₀ h₁ hv => simp at hlt
    | three h₀ h₁ h₂ hv =>
      have hs : isSecond b₀ b₁ = true := isSecond_of (by omega) (by omega) (by omega)
      simp only [decodeChar]
      rw [if_neg (by omega), if_neg (by omega), if_pos (by omega), if_pos hs]
    | four h₀ h₁ h₂ h₃ hv =>
      have hs : isSecond b₀ b₁ = true := isSecond_of (by omega) (by omega) (by omega)
      simp only [decodeChar]
      rw [if_neg (by omega), if_neg (by omega), if_neg (by omega), if_pos (by omega), if_pos hs]
  · cases h with
    | three h₀ h₁ h₂ hv => simp at hlt
    | four h₀ h₁ h₂ h₃ hv =>
      have hs : isSecond b₀ b₁ = true := isSecond_of (by omega) (by omega) (by omega)
      have hc₂ := isContinuation_of h₂
      simp only [decodeChar]
      rw [if_neg (by omega), if_neg (by omega), if_neg (by omega), if_pos (by omega), if_pos hs,
        if_pos hc₂]
  · have hle := h.length_le
    simp only [List.length_cons] at hlt
    rw [List.length_append, List.length_cons, List.length_cons, List.length_cons,
      List.length_cons] at hle hlt
    omega

theorem decodeChar_encode (c : Char) (rest : List UInt8) :
    decodeChar (utf8EncodeChar c ++ rest) = .char c rest := by
  have h := decodeChar_encoded (encodedChar c) rest
  rwa [Char.ofNat_toNat] at h

end Encoded

@[simp] theorem encode_nil : encode [] = [] := rfl

@[simp] theorem encode_cons (c : Char) (t : Text) :
    encode (c :: t) = utf8EncodeChar c ++ encode t := rfl

@[simp] theorem encode_append (p q : Text) : encode (p ++ q) = encode p ++ encode q := by
  simp [encode]

@[simp] theorem encode_eq_nil {t : Text} : encode t = [] ↔ t = [] := by
  cases t with
  | nil => simp
  | cons c t => simp

/-- What is left of a piece once its characters are read. -/
def Tail.ofRest (rest : List UInt8) : Tail :=
  if rest = [] then .complete else .incomplete rest

/-- What a decoder can leave: nothing, or the start of a character. -/
def Unfinished (rest : List UInt8) : Prop := rest = [] ∨ decodeChar rest = .incomplete

theorem decodeLoop_char {fuel : ℕ} {c : Char} {bytes : List UInt8}
    (hlen : (utf8EncodeChar c ++ bytes).length ≤ fuel + 1) :
    bytes.length ≤ fuel ∧ decodeLoop (fuel + 1) (utf8EncodeChar c ++ bytes) =
      (c :: (decodeLoop fuel bytes).1, (decodeLoop fuel bytes).2) := by
  obtain ⟨b, bs, hb⟩ := List.exists_cons_of_ne_nil String.utf8EncodeChar_ne_nil
  have hdec := decodeChar_encode c bytes
  rw [hb] at hlen hdec ⊢
  rw [List.cons_append] at hlen hdec ⊢
  refine ⟨?_, by rw [decodeLoop, hdec]⟩
  simp only [List.length_cons, List.length_append] at hlen
  omega

/-- A prefix of an encoded text decodes to a prefix of the text; what is left is nothing or
the start of its next character. -/
theorem decodeLoop_isPrefixOf {t : Text} {bytes : List UInt8} (h : bytes <+: encode t) {fuel : ℕ}
    (hfuel : bytes.length ≤ fuel) :
    ∃ q rest, bytes = encode q ++ rest ∧ q <+: t ∧ Unfinished rest ∧
      decodeLoop fuel bytes = (q, Tail.ofRest rest) := by
  induction t generalizing bytes fuel with
  | nil =>
    have hnil : bytes = [] := by simpa using h
    subst hnil
    exact ⟨[], [], rfl, List.prefix_rfl, .inl rfl, by simp [decodeLoop, Tail.ofRest]⟩
  | cons c t ih =>
    rw [encode_cons] at h
    obtain hshort | ⟨more, rfl⟩ : bytes.length < (utf8EncodeChar c).length ∨
        utf8EncodeChar c <+: bytes := by
      by_cases hlt : bytes.length < (utf8EncodeChar c).length
      · exact .inl hlt
      · exact .inr (List.prefix_of_prefix_length_le (List.prefix_append _ _) h (by omega))
    · -- the piece stops inside `c`
      have hpre : bytes <+: utf8EncodeChar c :=
        List.prefix_of_prefix_length_le h (List.prefix_append _ _) (by omega)
      have hdec := decodeChar_start (encodedChar c) hpre hshort
      refine ⟨[], bytes, rfl, List.nil_prefix, .inr hdec, ?_⟩
      cases bytes with
      | nil => simp [decodeLoop, Tail.ofRest]
      | cons b bs =>
        cases fuel with
        | zero => simp at hfuel
        | succ fuel => simp [decodeLoop, hdec, Tail.ofRest]
    · cases fuel with
      | zero => simp [Char.utf8Size_pos c |>.ne'] at hfuel
      | succ fuel =>
        obtain ⟨hlen, hstep⟩ := decodeLoop_char hfuel
        obtain ⟨q, rest, rfl, hq, hrest, hloop⟩ :=
          ih ((List.prefix_append_right_inj _).mp h) hlen
        refine ⟨c :: q, rest, by simp, ?_, hrest, ?_⟩
        · exact List.cons_prefix_cons.mpr ⟨rfl, hq⟩
        · rw [hstep, hloop]

theorem fromUtf8_isPrefixOf {t : Text} {bytes : List UInt8} (h : bytes <+: encode t) :
    ∃ q rest, bytes = encode q ++ rest ∧ q <+: t ∧ Unfinished rest ∧
      fromUtf8 bytes = (q, Tail.ofRest rest) :=
  decodeLoop_isPrefixOf h le_rfl

theorem encode_injective : Function.Injective encode := by
  intro t
  induction t with
  | nil =>
    intro t' h
    exact (encode_eq_nil.1 h.symm).symm
  | cons c t ih =>
    intro t' h
    cases t' with
    | nil => simp at h
    | cons c' t' =>
      -- both sides decode to their first character
      have hdec := decodeChar_encode c (encode t)
      rw [← encode_cons, h, encode_cons, decodeChar_encode] at hdec
      obtain ⟨rfl, hrest⟩ : c' = c ∧ encode t' = encode t := by simpa using hdec
      rw [ih hrest.symm]

/-- An encoded text is not the start of a character. -/
theorem encode_unfinished {t : Text} (h : Unfinished (encode t)) : t = [] := by
  cases t with
  | nil => rfl
  | cons c t =>
    rcases h with h | h
    · simp at h
    · rw [encode_cons, decodeChar_encode] at h
      cases h

/-- An ASCII byte of an encoded character is that character. -/
theorem toNat_eq_of_mem_utf8EncodeChar {c : Char} {b : UInt8} (h : b ∈ utf8EncodeChar c)
    (hb : b.toNat < 0x80) : c.toNat = b.toNat := by
  have henc := encodedChar c
  generalize utf8EncodeChar c = bytes at h henc
  cases henc with
  | one h₀ hv =>
    obtain rfl := List.mem_singleton.mp h
    exact h₀.symm
  | two h₀ h₁ hv =>
    simp only [List.mem_cons, List.not_mem_nil, or_false] at h
    rcases h with rfl | rfl <;> omega
  | three h₀ h₁ h₂ hv =>
    simp only [List.mem_cons, List.not_mem_nil, or_false] at h
    rcases h with rfl | rfl | rfl <;> omega
  | four h₀ h₁ h₂ h₃ hv =>
    simp only [List.mem_cons, List.not_mem_nil, or_false] at h
    rcases h with rfl | rfl | rfl | rfl <;> omega

/-! ## Lossy decoding -/

/-- How many bytes a malformed sequence spoils: its longest start that a character has. -/
def errorLen : List UInt8 → ℕ
  | b₀ :: b₁ :: b₂ :: _ =>
    if 0xE0 ≤ b₀.toNat ∧ b₀.toNat ≤ 0xF4 ∧ isSecond b₀ b₁ then
      if 0xF0 ≤ b₀.toNat ∧ isContinuation b₂ then 3 else 2
    else 1
  | _ => 1

/-- Decodes with a replacement character for each malformed sequence. -/
def lossyLoop : ℕ → List UInt8 → Text
  | _, [] => []
  | 0, _ :: _ => []
  | fuel + 1, b :: bs =>
    match decodeChar (b :: bs) with
    | .char c rest => c :: lossyLoop fuel rest
    | .incomplete => [Char.ofNat 0xFFFD]
    | .invalid => Char.ofNat 0xFFFD :: lossyLoop fuel ((b :: bs).drop (errorLen (b :: bs)))

/-- `String::from_utf8_lossy`. -/
def fromUtf8Lossy (bytes : List UInt8) : Text := lossyLoop bytes.length bytes

theorem lossyLoop_encode {t : Text} {fuel : ℕ} (h : (encode t).length ≤ fuel) :
    lossyLoop fuel (encode t) = t := by
  induction t generalizing fuel with
  | nil => cases fuel <;> rfl
  | cons c t ih =>
    obtain ⟨b, bs, hb⟩ := List.exists_cons_of_ne_nil (String.utf8EncodeChar_ne_nil (c := c))
    have hdec := decodeChar_encode c (encode t)
    rw [encode_cons, hb, List.cons_append] at h ⊢
    rw [hb, List.cons_append] at hdec
    cases fuel with
    | zero => simp at h
    | succ fuel =>
      rw [List.length_cons, List.length_append] at h
      rw [lossyLoop, hdec]
      exact congrArg (c :: ·) (ih (by omega))

@[simp] theorem fromUtf8Lossy_encode (t : Text) : fromUtf8Lossy (encode t) = t :=
  lossyLoop_encode le_rfl

/-! ## Trimming -/

/-- The `White_Space` property. -/
def isWhiteSpace (c : Char) : Bool :=
  let v := c.toNat
  (0x9 ≤ v && v ≤ 0xD) || v = 0x20 || v = 0x85 || v = 0xA0 || v = 0x1680 ||
    (0x2000 ≤ v && v ≤ 0x200A) || v = 0x2028 || v = 0x2029 || v = 0x202F || v = 0x205F || v = 0x3000

/-- `str::trim`. -/
def trim (t : Text) : Text := (t.dropWhile isWhiteSpace).rdropWhile isWhiteSpace

/-- A text that starts and ends with a character that is not white space stays as it is. -/
theorem trim_eq_self {first last : Char} {mid : Text} (hfirst : isWhiteSpace first = false)
    (hlast : isWhiteSpace last = false) : trim (first :: mid ++ [last]) = first :: mid ++ [last] := by
  rw [trim, List.cons_append, List.dropWhile_cons, hfirst]
  simp only [Bool.false_eq_true, if_false]
  rw [← List.cons_append, List.rdropWhile_concat, hlast]
  simp

end Utf8Text
