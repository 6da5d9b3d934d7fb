import Governance.Lib.Utf8Decode
import Governance.Lib.Cutting
import Governance.Lib.Outcome

/-!
# Lists of pairs with percent-coded values

`key=value,key=value`, read the way its consumers read it: cut at the commas, each piece cut at its
first equals sign, and the escapes of the value decoded. A percent sign that two hexadecimal digits
do not follow stands for itself; a value that is no UTF-8 then is an error.

A reader never gets back more than was written (`length_percentDecode_le`), so what has to come
back out of a text leaves no room in it for anything else: `joinPairs_readsBack` derives from this
alone that no value has a comma or an escape in it.
-/

namespace PercentCoding

open Utf8Text

/-! ## Escapes -/

def hexDigit (c : Char) : Option ℕ :=
  if '0' ≤ c ∧ c ≤ '9' then some (c.toNat - '0'.toNat)
  else if 'a' ≤ c ∧ c ≤ 'f' then some (c.toNat - 'a'.toNat + 10)
  else if 'A' ≤ c ∧ c ≤ 'F' then some (c.toNat - 'A'.toNat + 10)
  else none

/-- The number of some digits, in a base up to sixteen. -/
def number (base : ℕ) (digits : Text) : Option ℕ :=
  digits.foldlM (fun n c => (hexDigit c).bind fun d =>
    if d < base then some (base * n + d) else none) 0

/-- The byte of an escape. -/
def escape (c c₁ c₂ : Char) : Option UInt8 :=
  if c = '%' then
    match hexDigit c₁, hexDigit c₂ with
    | some high, some low => some (UInt8.ofNat (16 * high + low))
    | _, _ => none
  else none

def percentDecode : Text → List UInt8
  | c :: c₁ :: c₂ :: rest =>
    match escape c c₁ c₂ with
    | some b => b :: percentDecode rest
    | none => String.utf8EncodeChar c ++ percentDecode (c₁ :: c₂ :: rest)
  | t => encode t

/-- A percent sign with two hexadecimal digits behind it. -/
def HasEscape (t : Text) : Prop :=
  ∃ c c₁ c₂, [c, c₁, c₂] <:+: t ∧ (escape c c₁ c₂).isSome

theorem HasEscape.length_le {t : Text} (h : HasEscape t) : 3 ≤ t.length := by
  obtain ⟨c, c₁, c₂, hinfix, -⟩ := h
  exact hinfix.length_le

theorem hasEscape_cons {c c₁ c₂ : Char} {rest : Text} (h : escape c c₁ c₂ = none) :
    HasEscape (c :: c₁ :: c₂ :: rest) ↔ HasEscape (c₁ :: c₂ :: rest) := by
  constructor
  · rintro ⟨d, d₁, d₂, hinfix, hescape⟩
    rcases List.infix_cons_iff.mp hinfix with hprefix | hinfix
    · obtain ⟨rfl, rfl, rfl⟩ : d = c ∧ d₁ = c₁ ∧ d₂ = c₂ := by simpa using hprefix
      rw [h] at hescape
      cases hescape
    · exact ⟨d, d₁, d₂, hinfix, hescape⟩
  · rintro ⟨d, d₁, d₂, hinfix, hescape⟩
    exact ⟨d, d₁, d₂, List.infix_cons hinfix, hescape⟩

theorem percentDecode_of_not_hasEscape {t : Text} (h : ¬ HasEscape t) :
    percentDecode t = encode t := by
  induction t using percentDecode.induct with
  | case1 c c₁ c₂ rest b hb ih =>
    exact absurd ⟨c, c₁, c₂, ⟨[], rest, rfl⟩, by rw [hb]; rfl⟩ h
  | case2 c c₁ c₂ rest hnone ih =>
    rw [hasEscape_cons hnone] at h
    rw [percentDecode, hnone, encode_cons, ih h]
  | case3 t ht =>
    rw [percentDecode]
    exact ht

theorem one_le_length_encodeChar (c : Char) : 1 ≤ (String.utf8EncodeChar c).length := by
  rw [String.length_utf8EncodeChar]
  exact c.utf8Size_pos

theorem length_percentDecode_le (t : Text) : (percentDecode t).length ≤ (encode t).length := by
  induction t using percentDecode.induct with
  | case1 c c₁ c₂ rest b hb ih =>
    have hc := one_le_length_encodeChar c
    simp only [percentDecode, hb, encode_cons, List.length_append, List.length_cons]
    omega
  | case2 c c₁ c₂ rest hnone ih =>
    simp only [percentDecode, hnone, encode_cons, List.length_append] at ih ⊢
    omega
  | case3 t ht =>
    rw [percentDecode]
    exact ht

/-- An escape is longer than its byte. -/
theorem length_percentDecode_lt {t : Text} (h : HasEscape t) :
    (percentDecode t).length < (encode t).length := by
  induction t using percentDecode.induct with
  | case1 c c₁ c₂ rest b hb ih =>
    have hc := one_le_length_encodeChar c
    have hc₁ := one_le_length_encodeChar c₁
    have hrest := length_percentDecode_le rest
    simp only [percentDecode, hb, encode_cons, List.length_append, List.length_cons]
    omega
  | case2 c c₁ c₂ rest hnone ih =>
    have hlt := ih ((hasEscape_cons hnone).1 h)
    simp only [percentDecode, hnone, encode_cons, List.length_append] at hlt ⊢
    omega
  | case3 t ht =>
    have hlen := h.length_le
    obtain _ | ⟨c, _ | ⟨c₁, _ | ⟨c₂, rest⟩⟩⟩ := t
    · simp at hlen
    · simp at hlen
    · simp at hlen
    · exact absurd rfl (ht c c₁ c₂ rest)

/-! ## Values -/

/-- The text of some bytes, if they are UTF-8. -/
def textOf (bytes : List UInt8) : Option Text :=
  if encode (fromUtf8Lossy bytes) = bytes then some (fromUtf8Lossy bytes) else none

theorem textOf_eq_some {bytes : List UInt8} {t : Text} : textOf bytes = some t ↔ encode t = bytes := by
  constructor
  · intro h
    rw [textOf] at h
    split at h
    · next heq =>
      rw [← Option.some.inj h]
      exact heq
    · cases h
  · rintro rfl
    rw [textOf, fromUtf8Lossy_encode, if_pos rfl]

def decodeValue (value : Text) : Option Text := textOf (percentDecode value)

/-- A value comes back if it has no escape, and only then. -/
theorem decodeValue_eq_self {value : Text} : decodeValue value = some value ↔ ¬ HasEscape value := by
  rw [decodeValue, textOf_eq_some]
  constructor
  · intro heq hescape
    have hlt := length_percentDecode_lt hescape
    rw [heq] at hlt
    exact lt_irrefl _ hlt
  · intro h
    exact (percentDecode_of_not_hasEscape h).symm

/-! ## Pairs -/

/-- A piece, cut at its first equals sign. -/
def decodePair (piece : Text) : Option (Text × Text) :=
  match piece.dropWhile (· ≠ '=') with
  | [] => none
  | _ :: value => (decodeValue value).map (piece.takeWhile (· ≠ '='), ·)

/-- The pairs of a text. One that cannot be read spoils all of them. -/
def decodePairs (text : Text) : Option (List (Text × Text)) :=
  if text = [] then some [] else (text.splitOn ',').mapM decodePair

/-- What some pairs map a key to: the last of its values. -/
def asMap (pairs : List (Text × Text)) (key : Text) : Option Text := pairs.reverse.lookup key

def writePair (p : Text × Text) : Text := p.1 ++ '=' :: p.2

/-- The pairs as they are written, with no escapes. -/
def joinPairs (pairs : List (Text × Text)) : Text := [','].intercalate (pairs.map writePair)

/-- What a written pair takes in a text, with the comma behind it. -/
def room (p : Text × Text) : ℕ := (encode (writePair p)).length + 1

theorem decodePair_writePair {p : Text × Text} (hkey : '=' ∉ p.1) :
    decodePair (writePair p) = (decodeValue p.2).map (p.1, ·) := by
  have hall : ∀ c ∈ p.1, decide (c ≠ '=') = true := by
    intro c hc
    exact decide_eq_true fun heq => hkey (heq ▸ hc)
  have hdrop : (writePair p).dropWhile (fun c => decide (c ≠ '=')) = '=' :: p.2 := by
    rw [writePair, List.dropWhile_append_of_pos hall]
    rfl
  have htake : (writePair p).takeWhile (fun c => decide (c ≠ '=')) = p.1 := by
    rw [writePair, List.takeWhile_append_of_pos hall]
    simp
  simp only [decodePair, hdrop, htake]

/-- What can be read was written, with a value that may have escapes. -/
theorem decodePair_eq_some {piece : Text} {p : Text × Text} (h : decodePair piece = some p) :
    ∃ value, piece = writePair (p.1, value) ∧ decodeValue value = some p.2 := by
  have hcut := List.takeWhile_append_dropWhile (p := fun c => decide (c ≠ '=')) (l := piece)
  rw [decodePair] at h
  split at h
  · cases h
  · next c value hdrop =>
    obtain ⟨decoded, hdecoded, rfl⟩ := Option.map_eq_some_iff.mp h
    obtain rfl : c = '=' := by
      have hhead := List.head?_dropWhile_not (fun c => decide (c ≠ '=')) piece
      rw [hdrop] at hhead
      simpa using hhead
    rw [hdrop] at hcut
    exact ⟨value, hcut.symm, hdecoded⟩

theorem room_decodePair_le {piece : Text} {p : Text × Text} (h : decodePair piece = some p) :
    room p ≤ (encode piece).length + 1 := by
  obtain ⟨value, rfl, hdecoded⟩ := decodePair_eq_some h
  have hlen := length_percentDecode_le value
  rw [← textOf_eq_some.1 hdecoded] at hlen
  simp only [room, writePair, encode_append, encode_cons, List.length_append]
  omega

/-- Pieces and the commas behind them, all but the last. -/
theorem length_encode_intercalate {texts : List Text} (h : texts ≠ []) :
    (encode ([','].intercalate texts)).length + 1 =
      (texts.map fun t => (encode t).length + 1).sum := by
  induction texts with
  | nil => exact absurd rfl h
  | cons t texts ih =>
    cases texts with
    | nil => simp [List.intercalate]
    | cons t' texts =>
      have hrest := ih (List.cons_ne_nil _ _)
      have hcomma : (encode [',']).length = 1 := by decide
      rw [List.intercalate_cons_cons, List.map_cons, List.sum_cons, ← hrest, encode_append,
        encode_append, List.length_append, List.length_append, hcomma]
      omega

/-- A sum over a part is smaller by what is left out. -/
theorem sum_add_length_le_of_sublist {α : Type*} {f : α → ℕ} (hf : ∀ a, 1 ≤ f a) {l l' : List α}
    (h : l.Sublist l') : (l.map f).sum + l'.length ≤ (l'.map f).sum + l.length := by
  induction h with
  | slnil => exact le_rfl
  | cons a _ ih =>
    have ha := hf a
    simp only [List.map_cons, List.sum_cons, List.length_cons]
    omega
  | cons_cons a _ ih =>
    simp only [List.map_cons, List.sum_cons, List.length_cons]
    omega

/-- What can be read out of some pieces has room in them. -/
theorem sum_room_le {pieces : List Text} {pairs : List (Text × Text)}
    (h : List.Forall₂ (fun piece p => decodePair piece = some p) pieces pairs) :
    (pairs.map room).sum ≤ (pieces.map fun t => (encode t).length + 1).sum := by
  induction h with
  | nil => exact le_rfl
  | cons hpair _ ih =>
    have hroom := room_decodePair_le hpair
    simp only [List.map_cons, List.sum_cons]
    omega

/-- A key that occurs once is mapped to its value. -/
theorem asMap_eq_some {pairs : List (Text × Text)} (hkeys : (pairs.map Prod.fst).Nodup)
    {p : Text × Text} (hp : p ∈ pairs) : asMap pairs p.1 = some p.2 := by
  have hrev : (pairs.reverse.map Prod.fst).Nodup := by
    rw [List.map_reverse]
    exact List.nodup_reverse.mpr hkeys
  obtain ⟨front, back, hsplit⟩ := List.append_of_mem (List.mem_reverse.mpr hp)
  refine List.lookup_eq_some_iff.mpr ⟨front, back, hsplit, ?_⟩
  intro q hq
  rw [hsplit, List.map_append, List.map_cons] at hrev
  have hne := (List.nodup_append.mp hrev).2.2 q.1 (List.mem_map_of_mem hq) p.1 List.mem_cons_self
  simpa using Ne.symm hne

theorem mem_of_asMap {pairs : List (Text × Text)} {p : Text × Text}
    (h : asMap pairs p.1 = some p.2) : p ∈ pairs := by
  obtain ⟨front, back, hsplit, -⟩ := List.lookup_eq_some_iff.mp h
  apply List.mem_reverse.mp
  rw [hsplit]
  exact List.mem_append_right _ List.mem_cons_self

theorem eq_of_key {pairs : List (Text × Text)} (hkeys : (pairs.map Prod.fst).Nodup)
    {p q : Text × Text} (hp : p ∈ pairs) (hq : q ∈ pairs) (hkey : p.1 = q.1) : p = q := by
  have hvalue := asMap_eq_some hkeys hp
  rw [hkey, asMap_eq_some hkeys hq] at hvalue
  exact Prod.ext hkey (Option.some.inj hvalue).symm

section Joined

variable {pairs : List (Text × Text)}

theorem splitOn_joinPairs (hne : pairs ≠ []) :
    (joinPairs pairs).splitOn ',' = pairs.flatMap fun p => (writePair p).splitOn ',' := by
  rw [joinPairs, Cutting.splitOn_intercalate _ (by simpa using hne), List.flatMap_map]

theorem joinPairs_ne_nil (hne : pairs ≠ []) : joinPairs pairs ≠ [] := by
  intro hnil
  obtain ⟨p, rest, rfl⟩ := List.exists_cons_of_ne_nil hne
  have hlen : (encode (joinPairs (p :: rest))).length + 1 = _ :=
    length_encode_intercalate (by simp)
  rw [hnil] at hlen
  simp only [writePair, encode_nil, List.length_nil, List.map_cons, List.sum_cons, encode_append,
    encode_cons, List.length_append] at hlen
  have hequals := one_le_length_encodeChar '='
  omega

/-- What reads back as the pairs that were written is those pairs, in some order, and nothing
else. -/
theorem perm_of_readsBack (hne : pairs ≠ []) (hkeys : (pairs.map Prod.fst).Nodup)
    {decoded : List (Text × Text)}
    (hdecoded : List.Forall₂ (fun piece p => decodePair piece = some p)
      ((joinPairs pairs).splitOn ',') decoded)
    (hsame : asMap decoded = asMap pairs) : decoded.Perm pairs := by
  have hsub : pairs ⊆ decoded := by
    intro p hp
    apply mem_of_asMap
    rw [hsame]
    exact asMap_eq_some hkeys hp
  obtain ⟨part, hpart, hin⟩ := List.subperm_of_subset (List.Nodup.of_map _ hkeys) hsub
  have hsum := sum_add_length_le_of_sublist (f := room) (fun p => Nat.le_add_left _ _) hin
  have hroom := sum_room_le hdecoded
  have hwritten : (encode (joinPairs pairs)).length + 1 = (pairs.map room).sum := by
    rw [joinPairs, length_encode_intercalate (by simpa using hne), List.map_map]
    rfl
  have hpieces := length_encode_intercalate (List.splitOn_ne_nil ',' (joinPairs pairs))
  rw [List.intercalate_splitOn] at hpieces
  have hpartsum : (part.map room).sum = (pairs.map room).sum := (hpart.map room).sum_eq
  have hlen : decoded.length ≤ part.length := by omega
  rw [← hin.eq_of_length_le hlen]
  exact hpart

/-- What was written reads back if no value has a comma or an escape in it, and only then. -/
theorem joinPairs_readsBack (hne : pairs ≠ []) (hkeys : (pairs.map Prod.fst).Nodup)
    (hplain : ∀ p ∈ pairs, ',' ∉ p.1 ∧ '=' ∉ p.1) :
    (decodePairs (joinPairs pairs)).map asMap = some (asMap pairs) ↔
      ∀ p ∈ pairs, ',' ∉ p.2 ∧ ¬ HasEscape p.2 := by
  have hdecode : decodePairs (joinPairs pairs) = ((joinPairs pairs).splitOn ',').mapM decodePair :=
    if_neg (joinPairs_ne_nil hne)
  have hpieces (h : ∀ p ∈ pairs, ',' ∉ writePair p) :
      (joinPairs pairs).splitOn ',' = pairs.map writePair := by
    rw [splitOn_joinPairs hne, ← List.flatMap_singleton' (pairs.map writePair), List.flatMap_map]
    apply List.flatMap_congr
    intro p hp
    exact List.splitOn_eq_singleton (h p hp)
  constructor
  · intro hback
    rw [hdecode] at hback
    obtain ⟨decoded, hmapM, hsame⟩ := Option.map_eq_some_iff.mp hback
    rw [Option.mapM_eq_some_iff] at hmapM
    have hperm := perm_of_readsBack hne hkeys hmapM hsame
    -- there is one piece for each pair, so no pair is cut
    have hcomma : ∀ p ∈ pairs, ',' ∉ writePair p := by
      intro p hp hmem
      have hlen := hmapM.length_eq
      rw [splitOn_joinPairs hne, List.length_flatMap, hperm.length_eq] at hlen
      have hone := sum_add_length_le_of_sublist
        (f := fun p => ((writePair p).splitOn ',').length)
        (fun p => List.length_pos_iff.mpr (List.splitOn_ne_nil _ _))
        (List.singleton_sublist.mpr hp)
      obtain ⟨front, back, hcut, -⟩ := List.eq_append_cons_of_mem hmem
      have htwo : 2 ≤ ((writePair p).splitOn ',').length := by
        have hfront := List.length_pos_iff.mpr (List.splitOn_ne_nil ',' front)
        have hbackward := List.length_pos_iff.mpr (List.splitOn_ne_nil ',' back)
        rw [hcut, List.splitOn_append_cons_self, List.length_append]
        omega
      simp only [List.map_cons, List.map_nil, List.sum_cons, List.sum_nil, List.length_cons,
        List.length_nil] at hone
      omega
    intro p hp
    refine ⟨fun hmem => hcomma p hp (List.mem_append_right _ (List.mem_cons_of_mem _ hmem)), ?_⟩
    rw [hpieces hcomma, List.forall₂_map_left_iff] at hmapM
    obtain ⟨q, hq, hpair⟩ := hmapM.exists_mem hp
    rw [decodePair_writePair (hplain p hp).2] at hpair
    obtain ⟨value, hvalue, rfl⟩ := Option.map_eq_some_iff.mp hpair
    have heq := eq_of_key hkeys hp (hperm.subset hq) rfl
    rw [← decodeValue_eq_self, hvalue]
    exact congrArg (some ·.2) heq.symm
  · intro h
    have hcomma : ∀ p ∈ pairs, ',' ∉ writePair p := by
      intro p hp hmem
      rcases List.mem_append.mp hmem with hmem | hmem
      · exact (hplain p hp).1 hmem
      · rcases List.mem_cons.mp hmem with heq | hmem
        · exact absurd heq (by decide)
        · exact (h p hp).1 hmem
    have hmapM : (pairs.map writePair).mapM decodePair = some pairs := by
      rw [Option.mapM_eq_some_iff, List.forall₂_map_left_iff, List.forall₂_same]
      intro p hp
      rw [decodePair_writePair (hplain p hp).2, decodeValue_eq_self.2 (h p hp).2]
      rfl
    rw [hdecode, hpieces hcomma, hmapM]
    rfl

end Joined

end PercentCoding
