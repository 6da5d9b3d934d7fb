import Governance.Lib.Literals

/-!
# Base64

The standard alphabet with padding. Three bytes become four characters, so the length of an
encoding depends on the length of its input alone (`length_base64`), and every character of
it is printable ASCII other than the quote and the backslash (`mem_base64`). `decodeBase64`
reads an encoding back (`decodeBase64_base64`).
-/

namespace Base64

/-- The alphabet. -/
def alphabet : List Char :=
  "ABCDEFGHIJKLMNOPQRSTUVWXYZabcdefghijklmnopqrstuvwxyz0123456789+/".toList

/-- The character of a sextet. -/
def sextet (n : ℕ) : Char := alphabet.getD (n % 64) 'A'

/-- The encoding, with `=` for the bytes that are missing at its end. -/
def base64 : List UInt8 → List Char
  | [] => []
  | [a] => [sextet (a.toNat / 4), sextet (a.toNat % 4 * 16), '=', '=']
  | [a, b] =>
    [sextet (a.toNat / 4), sextet (a.toNat % 4 * 16 + b.toNat / 16), sextet (b.toNat % 16 * 4), '=']
  | a :: b :: c :: rest =>
    sextet (a.toNat / 4) :: sextet (a.toNat % 4 * 16 + b.toNat / 16) ::
      sextet (b.toNat % 16 * 4 + c.toNat / 64) :: sextet (c.toNat % 64) :: base64 rest

theorem base64_cons (a b c : UInt8) (rest : List UInt8) : base64 (a :: b :: c :: rest) =
    sextet (a.toNat / 4) :: sextet (a.toNat % 4 * 16 + b.toNat / 16) ::
      sextet (b.toNat % 16 * 4 + c.toNat / 64) :: sextet (c.toNat % 64) :: base64 rest := rfl

theorem length_base64 (bs : List UInt8) : (base64 bs).length = 4 * ((bs.length + 2) / 3) := by
  induction bs using base64.induct with
  | case1 => rfl
  | case2 a => simp [base64]
  | case3 a b => simp [base64]
  | case4 a b c rest ih =>
    simp only [base64_cons, List.length_cons, ih]
    omega

theorem length_alphabet : alphabet.length = 64 := Literals.length_toList rfl

theorem nodup_alphabet : alphabet.Nodup :=
  Literals.nodup_toList (List.Nodup.of_map Char.toNat (by decide +kernel))

theorem sextet_mem (n : ℕ) : sextet n ∈ alphabet := by
  have hlen : n % 64 < alphabet.length := by
    rw [length_alphabet]
    exact Nat.mod_lt n (by decide)
  rw [sextet, List.getD_eq_getElem _ _ hlen]
  exact List.getElem_mem hlen

theorem mem_base64 {bs : List UInt8} {ch : Char} (h : ch ∈ base64 bs) : ch ∈ '=' :: alphabet := by
  induction bs using base64.induct with
  | case1 => cases h
  | case2 a =>
    simp only [base64, List.mem_cons, List.not_mem_nil, or_false] at h
    rcases h with h | h | h | h
    all_goals simp [h, sextet_mem]
  | case3 a b =>
    simp only [base64, List.mem_cons, List.not_mem_nil, or_false] at h
    rcases h with h | h | h | h
    all_goals simp [h, sextet_mem]
  | case4 a b c rest ih =>
    simp only [base64_cons, List.mem_cons] at h
    rcases h with rfl | rfl | rfl | rfl | h
    · exact List.mem_cons_of_mem _ (sextet_mem _)
    · exact List.mem_cons_of_mem _ (sextet_mem _)
    · exact List.mem_cons_of_mem _ (sextet_mem _)
    · exact List.mem_cons_of_mem _ (sextet_mem _)
    · exact ih h

/-! ## Decoding -/

/-- The sextet of a character. -/
def sextetValue (ch : Char) : Option ℕ := alphabet.findIdx? (· = ch)

/-- The decoding of canonical text: the padding stands at the end and the bits it cuts off
are zero. -/
def decodeBase64 : List Char → Option (List UInt8)
  | [] => some []
  | p :: q :: r :: s :: rest =>
    (sextetValue p).bind fun a => (sextetValue q).bind fun b =>
      if r = '=' then
        if s = '=' ∧ rest = [] ∧ b % 16 = 0 then some [.ofNat (a * 4 + b / 16)] else none
      else (sextetValue r).bind fun c =>
        if s = '=' then
          if rest = [] ∧ c % 4 = 0 then
            some [.ofNat (a * 4 + b / 16), .ofNat (b % 16 * 16 + c / 4)] else none
        else (sextetValue s).bind fun d => (decodeBase64 rest).map fun bs =>
          .ofNat (a * 4 + b / 16) :: .ofNat (b % 16 * 16 + c / 4) :: .ofNat (c % 4 * 64 + d) :: bs
  | _ => none

theorem sextetValue_sextet {n : ℕ} (h : n < 64) : sextetValue (sextet n) = some n := by
  have hlen : n < alphabet.length := by rwa [length_alphabet]
  have hsextet : sextet n = alphabet[n] := by
    rw [sextet, Nat.mod_eq_of_lt h, List.getD_eq_getElem _ _ hlen]
  rw [sextetValue, hsextet, List.findIdx?_eq_some_iff_getElem]
  refine ⟨hlen, decide_eq_true rfl, fun j hj => ?_⟩
  have hjlen : j < alphabet.length := hj.trans hlen
  have hne : alphabet[j] ≠ alphabet[n] := fun heq =>
    hj.ne (nodup_alphabet.getElem_inj_iff.mp heq)
  simpa using hne

theorem sextet_ne_pad (n : ℕ) : sextet n ≠ '=' := by
  intro h
  have hmem := sextet_mem n
  rw [h] at hmem
  exact Literals.notMem_toList (by decide) hmem

theorem decodeBase64_base64 (bs : List UInt8) : decodeBase64 (base64 bs) = some bs := by
  induction bs using base64.induct with
  | case1 => rfl
  | case2 a =>
    have ha := a.toNat_lt
    simp only [base64, decodeBase64]
    rw [sextetValue_sextet (by omega), sextetValue_sextet (by omega)]
    simp only [Option.bind_some, if_true, true_and]
    rw [if_pos (by omega), show a.toNat / 4 * 4 + a.toNat % 4 * 16 / 16 = a.toNat by omega,
      UInt8.ofNat_toNat]
  | case3 a b =>
    have ha := a.toNat_lt
    have hb := b.toNat_lt
    simp only [base64, decodeBase64]
    rw [sextetValue_sextet (by omega), sextetValue_sextet (by omega),
      sextetValue_sextet (n := b.toNat % 16 * 4) (by omega)]
    simp only [Option.bind_some, if_neg (sextet_ne_pad _), if_true, true_and]
    rw [if_pos (by omega), show a.toNat / 4 * 4 + (a.toNat % 4 * 16 + b.toNat / 16) / 16 = a.toNat
        by omega,
      show (a.toNat % 4 * 16 + b.toNat / 16) % 16 * 16 + b.toNat % 16 * 4 / 4 = b.toNat by omega,
      UInt8.ofNat_toNat, UInt8.ofNat_toNat]
  | case4 a b c rest ih =>
    have ha := a.toNat_lt
    have hb := b.toNat_lt
    have hc := c.toNat_lt
    simp only [base64, decodeBase64]
    rw [sextetValue_sextet (by omega), sextetValue_sextet (by omega),
      sextetValue_sextet (n := b.toNat % 16 * 4 + c.toNat / 64) (by omega),
      sextetValue_sextet (n := c.toNat % 64) (by omega), ih]
    simp only [Option.bind_some, if_neg (sextet_ne_pad _), Option.map_some]
    rw [show a.toNat / 4 * 4 + (a.toNat % 4 * 16 + b.toNat / 16) / 16 = a.toNat by omega,
      show (a.toNat % 4 * 16 + b.toNat / 16) % 16 * 16 +
        (b.toNat % 16 * 4 + c.toNat / 64) / 4 = b.toNat by omega,
      show (b.toNat % 16 * 4 + c.toNat / 64) % 4 * 64 + c.toNat % 64 = c.toNat by omega,
      UInt8.ofNat_toNat, UInt8.ofNat_toNat, UInt8.ofNat_toNat]

end Base64
