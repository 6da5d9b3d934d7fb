import Governance.Lib.Utf8Decode

/-!
# Decoding UTF-8 in pieces

A lossy decoder that is fed piece by piece: it replaces malformed sequences and keeps the start of
a character until its end arrives. Its text does not depend on the pieces (`decodeStream_append`),
and what it has decoded stays.
-/

namespace Utf8Text

/-- The replacement character. -/
def replacement : Char := Char.ofNat 0xFFFD

/-- The text of some bytes and the start of a character at their end. -/
def streamLoop : ℕ → List UInt8 → Text × List UInt8
  | _, [] => ([], [])
  | 0, b :: bs => ([], b :: bs)
  | fuel + 1, b :: bs =>
    match decodeChar (b :: bs) with
    | .char c rest => (c :: (streamLoop fuel rest).1, (streamLoop fuel rest).2)
    | .incomplete => ([], b :: bs)
    | .invalid =>
      let rest := (b :: bs).drop (errorLen (b :: bs))
      (replacement :: (streamLoop fuel rest).1, (streamLoop fuel rest).2)

/-- Decodes as far as the bytes go. -/
def decodeStream (bytes : List UInt8) : Text × List UInt8 := streamLoop bytes.length bytes

/-! ## A character and what follows it -/

/-- A character that is complete stays what it is. -/
theorem decodeChar_append_char {a : List UInt8} {c : Char} {rest : List UInt8}
    (h : decodeChar a = .char c rest) (b : List UInt8) :
    decodeChar (a ++ b) = .char c (rest ++ b) ∧ rest.length < a.length := by
  rw [decodeChar.eq_def] at h
  rw [decodeChar.eq_def]
  match a with
  | [] => cases h
  | [b₀] =>
    simp only [List.cons_append, List.nil_append] at h ⊢
    grind
  | [b₀, b₁] =>
    simp only [List.cons_append, List.nil_append] at h ⊢
    grind
  | [b₀, b₁, b₂] =>
    simp only [List.cons_append, List.nil_append] at h ⊢
    grind
  | b₀ :: b₁ :: b₂ :: b₃ :: t =>
    simp only [List.cons_append] at h ⊢
    grind

/-- So does a malformed sequence. -/
theorem decodeChar_append_invalid {a : List UInt8} (h : decodeChar a = .invalid) (b : List UInt8) :
    decodeChar (a ++ b) = .invalid ∧ errorLen (a ++ b) = errorLen a ∧ 0 < errorLen a ∧
      errorLen a ≤ a.length := by
  rw [decodeChar.eq_def] at h
  rw [decodeChar.eq_def, errorLen.eq_def, errorLen.eq_def]
  match a with
  | [] => cases h
  | [b₀] =>
    simp only [List.cons_append, List.nil_append] at h ⊢
    grind
  | [b₀, b₁] =>
    simp only [List.cons_append, List.nil_append] at h ⊢
    grind
  | [b₀, b₁, b₂] =>
    simp only [List.cons_append, List.nil_append] at h ⊢
    grind
  | b₀ :: b₁ :: b₂ :: b₃ :: t =>
    simp only [List.cons_append] at h ⊢
    grind

/-- The start of a character is spoiled by an ASCII byte. -/
theorem decodeChar_incomplete_ascii {a : List UInt8} (ha : a ≠ [])
    (h : decodeChar a = .incomplete) {x : UInt8} (hx : x.toNat < 0x80) (b : List UInt8) :
    decodeChar (a ++ x :: b) = .invalid ∧ errorLen (a ++ x :: b) = a.length := by
  rw [decodeChar.eq_def] at h
  rw [decodeChar.eq_def, errorLen.eq_def]
  match a with
  | [] => exact absurd rfl ha
  | [b₀] =>
    simp only [List.cons_append, List.nil_append] at h ⊢
    grind [isContinuation, isSecond]
  | [b₀, b₁] =>
    simp only [List.cons_append, List.nil_append] at h ⊢
    grind [isContinuation, isSecond]
  | [b₀, b₁, b₂] =>
    simp only [List.cons_append, List.nil_append] at h ⊢
    grind [isContinuation, isSecond]
  | b₀ :: b₁ :: b₂ :: b₃ :: t =>
    simp only [List.cons_append] at h ⊢
    grind [isContinuation, isSecond]

/-! ## The stream -/

/-- Fuel for every byte is enough. -/
theorem streamLoop_eq {fuel fuel' : ℕ} {bytes : List UInt8} (h : bytes.length ≤ fuel)
    (h' : bytes.length ≤ fuel') : streamLoop fuel bytes = streamLoop fuel' bytes := by
  induction fuel generalizing fuel' bytes with
  | zero =>
    obtain rfl : bytes = [] := List.eq_nil_of_length_eq_zero (by omega)
    cases fuel' <;> rfl
  | succ fuel ih =>
    cases bytes with
    | nil => cases fuel' <;> rfl
    | cons b bs =>
      cases fuel' with
      | zero => simp at h'
      | succ fuel' =>
        rw [List.length_cons] at h h'
        rw [streamLoop, streamLoop]
        cases hdec : decodeChar (b :: bs) with
        | char c rest =>
          have hlt := (decodeChar_append_char hdec []).2
          rw [List.length_cons] at hlt
          have hrest : streamLoop fuel rest = streamLoop fuel' rest := ih (by omega) (by omega)
          simp only [hrest]
        | incomplete => rfl
        | invalid =>
          obtain ⟨-, -, hpos, -⟩ := decodeChar_append_invalid hdec []
          have hlt : ((b :: bs).drop (errorLen (b :: bs))).length ≤ bs.length := by
            rw [List.length_drop, List.length_cons]
            omega
          simp only [ih (hlt.trans (by omega)) (hlt.trans (Nat.le_of_succ_le_succ h'))]

theorem decodeStream_char {bytes : List UInt8} {c : Char} {rest : List UInt8}
    (h : decodeChar bytes = .char c rest) :
    decodeStream bytes = (c :: (decodeStream rest).1, (decodeStream rest).2) := by
  cases bytes with
  | nil => cases h
  | cons b bs =>
    have hlt := (decodeChar_append_char h []).2
    rw [List.length_cons] at hlt
    rw [decodeStream, List.length_cons, streamLoop, h]
    simp only
    rw [streamLoop_eq (Nat.le_of_lt_succ hlt) le_rfl]
    rfl

theorem decodeStream_incomplete {bytes : List UInt8} (h : decodeChar bytes = .incomplete) :
    decodeStream bytes = ([], bytes) := by
  cases bytes with
  | nil => rfl
  | cons b bs => rw [decodeStream, List.length_cons, streamLoop, h]

theorem decodeStream_invalid {bytes : List UInt8} (h : decodeChar bytes = .invalid) :
    decodeStream bytes = (replacement :: (decodeStream (bytes.drop (errorLen bytes))).1,
      (decodeStream (bytes.drop (errorLen bytes))).2) := by
  cases bytes with
  | nil => cases h
  | cons b bs =>
    obtain ⟨-, -, hpos, -⟩ := decodeChar_append_invalid h []
    have hlt : ((b :: bs).drop (errorLen (b :: bs))).length ≤ bs.length := by
      rw [List.length_drop, List.length_cons]
      omega
    rw [decodeStream, List.length_cons, streamLoop, h]
    simp only
    rw [streamLoop_eq hlt le_rfl]
    rfl

/-- What is kept is the start of a character, or nothing. -/
theorem decodeChar_kept (bytes : List UInt8) :
    decodeChar (decodeStream bytes).2 = .incomplete := by
  induction hn : bytes.length using Nat.strong_induction_on generalizing bytes with
  | _ n ih =>
    cases hdec : decodeChar bytes with
    | char c rest =>
      rw [decodeStream_char hdec]
      exact ih rest.length (hn ▸ (decodeChar_append_char hdec []).2) rest rfl
    | incomplete => rw [decodeStream_incomplete hdec, hdec]
    | invalid =>
      obtain ⟨-, -, hpos, hle⟩ := decodeChar_append_invalid hdec []
      rw [decodeStream_invalid hdec]
      refine ih _ ?_ (bytes.drop (errorLen bytes)) rfl
      rw [List.length_drop]
      omega

/-- A piece goes on where the bytes before it left off. -/
theorem decodeStream_append (a b : List UInt8) :
    decodeStream (a ++ b) =
      ((decodeStream a).1 ++ (decodeStream ((decodeStream a).2 ++ b)).1,
        (decodeStream ((decodeStream a).2 ++ b)).2) := by
  induction hn : a.length using Nat.strong_induction_on generalizing a with
  | _ n ih =>
    cases hdec : decodeChar a with
    | char c rest =>
      obtain ⟨happend, hlt⟩ := decodeChar_append_char hdec b
      rw [decodeStream_char happend, decodeStream_char hdec, ih rest.length (hn ▸ hlt) rest rfl]
      rfl
    | incomplete => rw [decodeStream_incomplete hdec, List.nil_append]
    | invalid =>
      obtain ⟨happend, herror, hpos, hle⟩ := decodeChar_append_invalid hdec b
      rw [decodeStream_invalid happend, decodeStream_invalid hdec, herror,
        List.drop_append_of_le_length hle, ih _ _ (a.drop (errorLen a)) rfl]
      · rfl
      · rw [List.length_drop]
        omega

theorem decodeStream_encode (t : Text) : decodeStream (encode t) = (t, []) := by
  induction t with
  | nil => rfl
  | cons c t ih => rw [encode_cons, decodeStream_char (decodeChar_encode c (encode t)), ih]

/-- The start of a character that is spoiled by an ASCII byte is replaced. -/
theorem decodeStream_ascii {a : List UInt8} (h : decodeChar a = .incomplete) {x : UInt8}
    (hx : x.toNat < 0x80) (b : List UInt8) :
    decodeStream (a ++ x :: b) = ((if a = [] then [] else [replacement]) ++
      (decodeStream (x :: b)).1, (decodeStream (x :: b)).2) := by
  split
  · next hnil => rw [hnil, List.nil_append, List.nil_append]
  · next hne =>
    obtain ⟨hinvalid, herror⟩ := decodeChar_incomplete_ascii hne h hx b
    rw [decodeStream_invalid hinvalid, herror, List.drop_left]
    rfl

end Utf8Text
