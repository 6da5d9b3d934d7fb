import Governance.Ide.Sse

/-!
# `JSON.parse`

The values that JSON text stands for in JavaScript. A text is cut into tokens and the tokens are
read by recursive descent; what a number is stays a parameter. The last section is about text that
breaks off and goes on with an event of another stream: no such text is JSON.
-/

namespace Governance

open Sse

/-- A value that `JSON.parse` makes. An object keeps the order of its text, and a key that comes
again takes the later value. -/
inductive Js (N : Type) where
  | null
  | bool (b : Bool)
  | num (n : N)
  | str (s : JsString)
  | arr (items : List (Js N))
  | obj (fields : List (JsString × Js N))

namespace JsonParse

/-- The unit of an ASCII character. -/
def unit (c : Char) : UInt16 := c.toNat.toUInt16

def quote : UInt16 := 0x22

def backslash : UInt16 := 0x5C

def openBrace : UInt16 := 0x7B

def closeBrace : UInt16 := 0x7D

inductive Token where
  | punct (u : UInt16)
  | str (s : JsString)
  | num (literal : JsString)
  | bool (b : Bool)
  | null

/-! ## Tokens -/

def isSpace (u : UInt16) : Bool := u = 0x20 || u = 0x9 || u = 0xA || u = 0xD

def isPunct (u : UInt16) : Bool :=
  u = openBrace || u = closeBrace || u = unit '[' || u = unit ']' || u = unit ':' || u = unit ','

def isDigit (u : UInt16) : Bool := unit '0' ≤ u && u ≤ unit '9'

def isLower (u : UInt16) : Bool := unit 'a' ≤ u && u ≤ unit 'z'

/-- The units a numeral is made of. -/
def isNumeralUnit (u : UInt16) : Bool :=
  isDigit u || u = unit '-' || u = unit '+' || u = unit '.' || u = unit 'e' || u = unit 'E'

def hexDigit (u : UInt16) : Option ℕ :=
  if isDigit u then some (u.toNat - 0x30)
  else if unit 'a' ≤ u && u ≤ unit 'f' then some (u.toNat - 0x61 + 10)
  else if unit 'A' ≤ u && u ≤ unit 'F' then some (u.toNat - 0x41 + 10)
  else none

/-- What a backslash and this unit stand for. -/
def escape (u : UInt16) : Option UInt16 :=
  if u = quote || u = backslash || u = unit '/' then some u
  else if u = unit 'b' then some 0x8
  else if u = unit 'f' then some 0xC
  else if u = unit 'n' then some 0xA
  else if u = unit 'r' then some 0xD
  else if u = unit 't' then some 0x9
  else none

/-- Where the reading of a string stands: `hex` waits for more digits of an escape. -/
inductive StringState where
  | plain
  | escape
  | hex (left value : ℕ)

def keep (u : UInt16) : Option (JsString × JsString) → Option (JsString × JsString) :=
  Option.map fun p => (u :: p.1, p.2)

/-- The rest of a string token, and what follows its closing quote. -/
def lexString : StringState → JsString → Option (JsString × JsString)
  | _, [] => none
  | .plain, u :: rest =>
    if u = quote then some ([], rest)
    else if u = backslash then lexString .escape rest
    else if u < 0x20 then none
    else keep u (lexString .plain rest)
  | .escape, u :: rest =>
    if u = unit 'u' then lexString (.hex 4 0) rest
    else match JsonParse.escape u with
      | none => none
      | some v => keep v (lexString .plain rest)
  | .hex left value, u :: rest =>
    match hexDigit u with
    | none => none
    | some d =>
      if left ≤ 1 then keep (value * 16 + d).toUInt16 (lexString .plain rest)
      else lexString (.hex (left - 1) (value * 16 + d)) rest

def isExponent : JsString → Bool
  | [] => true
  | u :: rest =>
    (u = unit 'e' || u = unit 'E') &&
      match rest with
      | [] => false
      | v :: rest =>
        let digits := if v = unit '-' || v = unit '+' then rest else v :: rest
        !digits.isEmpty && digits.all isDigit

def isFraction : JsString → Bool
  | [] => true
  | u :: rest =>
    if u = unit '.' then
      match rest with
      | [] => false
      | v :: rest => isDigit v && isExponent (rest.dropWhile isDigit)
    else isExponent (u :: rest)

/-- The numerals without a sign. -/
def isUnsigned : JsString → Bool
  | [] => false
  | u :: rest =>
    if u = unit '0' then isFraction rest else isDigit u && isFraction (rest.dropWhile isDigit)

def isNumeral : JsString → Bool
  | [] => false
  | u :: rest => if u = unit '-' then isUnsigned rest else isUnsigned (u :: rest)

def wordToken (w : JsString) : Option Token :=
  if w = ofText "true".toList then some (.bool true)
  else if w = ofText "false".toList then some (.bool false)
  else if w = ofText "null".toList then some .null
  else none

/-- The first token of a text. A run of letters or of units of numerals is taken whole: nothing in
JSON lets two of them touch. -/
def lexToken : JsString → Option (Token × JsString)
  | [] => none
  | u :: rest =>
    if isPunct u then some (.punct u, rest)
    else if u = quote then (lexString .plain rest).map fun p => (.str p.1, p.2)
    else if isNumeralUnit u then
      let literal := (u :: rest).takeWhile isNumeralUnit
      if isNumeral literal then some (.num literal, (u :: rest).dropWhile isNumeralUnit) else none
    else (wordToken ((u :: rest).takeWhile isLower)).map fun t =>
      (t, (u :: rest).dropWhile isLower)

def lexLoop : ℕ → JsString → Option (List Token)
  | 0, _ => none
  | fuel + 1, s =>
    match s.dropWhile isSpace with
    | [] => some []
    | u :: rest =>
      match lexToken (u :: rest) with
      | none => none
      | some (t, rest) => (lexLoop fuel rest).map (t :: ·)

def lex (s : JsString) : Option (List Token) := lexLoop (s.length + 1) s

/-! ## Values -/

section

variable {N : Type}

/-- A field of an object. -/
def setField (fields : List (JsString × Js N)) (field : JsString × Js N) : List (JsString × Js N) :=
  if fields.any (·.1 = field.1) then
    fields.map fun f => if f.1 = field.1 then field else f
  else fields ++ [field]

variable (number : JsString → N)

mutual

def readValue : ℕ → List Token → Option (Js N × List Token)
  | 0, _ => none
  | _ + 1, [] => none
  | fuel + 1, t :: rest =>
    match t with
    | .null => some (.null, rest)
    | .bool b => some (.bool b, rest)
    | .num literal => some (.num (number literal), rest)
    | .str s => some (.str s, rest)
    | .punct u =>
      if u = unit '[' then
        match rest with
        | .punct v :: after =>
          if v = unit ']' then some (.arr [], after)
          else (readItems fuel rest).map fun p => (.arr p.1, p.2)
        | _ => (readItems fuel rest).map fun p => (.arr p.1, p.2)
      else if u = openBrace then
        match rest with
        | .punct v :: after => if v = closeBrace then some (.obj [], after) else none
        | _ => (readFields fuel rest).map fun p => (.obj (p.1.foldl setField []), p.2)
      else none

/-- The items up to a `]`. -/
def readItems : ℕ → List Token → Option (List (Js N) × List Token)
  | 0, _ => none
  | fuel + 1, tokens =>
    match readValue fuel tokens with
    | some (v, .punct u :: rest) =>
      if u = unit ',' then (readItems fuel rest).map fun p => (v :: p.1, p.2)
      else if u = unit ']' then some ([v], rest)
      else none
    | _ => none

/-- The fields up to a brace. -/
def readFields : ℕ → List Token → Option (List (JsString × Js N) × List Token)
  | fuel + 1, .str key :: .punct c :: tokens =>
    if c = unit ':' then
      match readValue fuel tokens with
      | some (v, .punct u :: rest) =>
        if u = unit ',' then (readFields fuel rest).map fun p => ((key, v) :: p.1, p.2)
        else if u = closeBrace then some ([(key, v)], rest)
        else none
      | _ => none
    else none
  | _, _ => none

end

/-- `JSON.parse`. No call goes on without a token but the one for the next item or value. -/
def parse (s : JsString) : Option (Js N) :=
  match lex s with
  | none => none
  | some tokens =>
    match readValue number (2 * tokens.length + 1) tokens with
    | some (v, []) => some v
    | _ => none

end

/-! ## Text that breaks off -/

/-- How an event that reports an error goes on behind its field name. -/
def marker : JsString := ofText "data: \x7b\"e".toList

theorem marker_eq : marker = [unit 'd', unit 'a', unit 't', unit 'a', unit ':', unit ' ', openBrace,
    quote, unit 'e'] := by decide

theorem marker_plain : ∀ u ∈ marker.take 7, u ≠ quote ∧ u ≠ backslash ∧ ¬ u < 0x20 := by
  have hall : ((marker.take 7).all fun u => u ≠ quote ∧ u ≠ backslash ∧ ¬ u < 0x20) = true := by
    decide
  simpa only [List.all_eq_true, decide_eq_true_eq] using hall

theorem keep_eq_some {u : UInt16} {o : Option (JsString × JsString)} {s rest : JsString}
    (h : keep u o = some (s, rest)) : ∃ t, o = some (t, rest) := by
  obtain ⟨⟨t, rest'⟩, ht, heq⟩ := Option.map_eq_some_iff.mp h
  obtain ⟨-, rfl⟩ := Prod.mk.inj heq
  exact ⟨t, ht⟩

/-- Units that stand for themselves up to a quote. -/
theorem lexString_quote {p : JsString} (hp : ∀ u ∈ p, u ≠ quote ∧ u ≠ backslash ∧ ¬ u < 0x20)
    (rest : JsString) : lexString .plain (p ++ quote :: rest) = some (p, rest) := by
  induction p with
  | nil => rw [List.nil_append, lexString, if_pos rfl]
  | cons u p ih =>
    obtain ⟨⟨hquote, hbackslash, hcontrol⟩, hp⟩ := List.forall_mem_cons.mp hp
    rw [List.cons_append, lexString, if_neg hquote, if_neg hbackslash, if_neg hcontrol, ih hp]
    rfl

/-- A string that is open in front of the marker is closed by its quote. -/
theorem lexString_marker {state : StringState} {x s rest : JsString}
    (h : lexString state (marker ++ x) = some (s, rest)) : rest = unit 'e' :: x := by
  have hmarker : marker ++ x = unit 'd' :: unit 'a' :: unit 't' ::
      ([unit 'a', unit ':', unit ' ', openBrace] ++ quote :: unit 'e' :: x) := by
    rw [marker_eq]
    rfl
  have hplain (p : JsString) (hp : p <:+ marker.take 7) :
      lexString .plain (p ++ quote :: unit 'e' :: x) = some (p, unit 'e' :: x) :=
    lexString_quote (fun u hu => marker_plain u (hp.subset hu)) _
  have hhex (left value : ℕ) (u : UInt16) (t : JsString) : lexString (.hex left value) (u :: t) =
      match hexDigit u with
      | none => none
      | some d =>
        if left ≤ 1 then keep (value * 16 + d).toUInt16 (lexString .plain t)
        else lexString (.hex (left - 1) (value * 16 + d)) t := by rw [lexString]
  rw [hmarker] at h
  cases state with
  | plain =>
    have hclosed := hplain [unit 'd', unit 'a', unit 't', unit 'a', unit ':', unit ' ', openBrace]
      (by rw [marker_eq]; exact List.suffix_refl _)
    exact (Prod.mk.inj (Option.some.inj (hclosed.symm.trans h))).2.symm
  | escape =>
    rw [lexString, if_neg (by decide), (by decide : escape (unit 'd') = none)] at h
    cases h
  | hex left value =>
    -- The word of the marker begins with two digits, and no more.
    rw [hhex, (by decide : hexDigit (unit 'd') = some 13)] at h
    simp only at h
    split at h
    · obtain ⟨t, ht⟩ := keep_eq_some h
      have hclosed := hplain [unit 'a', unit 't', unit 'a', unit ':', unit ' ', openBrace]
        (by rw [marker_eq]; exact ⟨[unit 'd'], rfl⟩)
      exact (Prod.mk.inj (Option.some.inj (hclosed.symm.trans ht))).2.symm
    · rw [hhex, (by decide : hexDigit (unit 'a') = some 10)] at h
      simp only at h
      split at h
      · obtain ⟨t, ht⟩ := keep_eq_some h
        have hclosed := hplain [unit 't', unit 'a', unit ':', unit ' ', openBrace]
          (by rw [marker_eq]; exact ⟨[unit 'd', unit 'a'], rfl⟩)
        exact (Prod.mk.inj (Option.some.inj (hclosed.symm.trans ht))).2.symm
      · rw [hhex, (by decide : hexDigit (unit 't') = none)] at h
        cases h

/-- A string that begins before the marker ends before it, or at its quote. -/
theorem lexString_behind {state : StringState} {r x s rest : JsString}
    (h : lexString state (r ++ marker ++ x) = some (s, rest)) :
    (∃ r', rest = r' ++ marker ++ x) ∨ rest = unit 'e' :: x := by
  induction r generalizing state s with
  | nil => exact .inr (lexString_marker h)
  | cons u r ih =>
    rw [List.cons_append, List.cons_append] at h
    cases state with
    | plain =>
      rw [lexString] at h
      split_ifs at h
      · exact .inl ⟨r, (Prod.mk.inj (Option.some.inj h)).2.symm⟩
      · exact ih h
      · obtain ⟨t, ht⟩ := keep_eq_some h
        exact ih ht
    | escape =>
      rw [lexString] at h
      split_ifs at h
      · exact ih h
      · split at h
        · cases h
        · obtain ⟨t, ht⟩ := keep_eq_some h
          exact ih ht
    | hex left value =>
      rw [lexString] at h
      split at h
      · cases h
      · split_ifs at h
        · obtain ⟨t, ht⟩ := keep_eq_some h
          exact ih ht
        · exact ih h

/-- Dropping stops at the marker at the latest. -/
theorem dropWhile_marker {p : UInt16 → Bool} (hp : p (unit 'd') = false) (r x : JsString) :
    (r ++ marker ++ x).dropWhile p = r.dropWhile p ++ marker ++ x := by
  have hmarker : (marker ++ x).dropWhile p = marker ++ x := by
    rw [marker_eq, List.cons_append, List.dropWhile_cons_of_neg (by rw [hp]; exact Bool.false_ne_true)]
  rw [List.append_assoc, List.dropWhile_append, hmarker, ← List.append_assoc]
  split
  · next hempty => rw [List.isEmpty_iff.mp hempty, List.nil_append]
  · rfl

/-- No word ends in the word of the marker. -/
theorem wordToken_marker (w : JsString) : wordToken (w ++ marker.take 4) = none := by
  have hsuffix : marker.take 4 <:+ w ++ marker.take 4 := List.suffix_append _ _
  unfold wordToken
  split_ifs with htrue hfalse hnull
  · exact absurd (htrue ▸ hsuffix) (by decide)
  · exact absurd (hfalse ▸ hsuffix) (by decide)
  · exact absurd (hnull ▸ hsuffix) (by decide)
  · rfl

/-- The run of letters at the start ends before the marker, or with its word. -/
theorem lower_marker (r x : JsString) :
    (r ++ marker ++ x).takeWhile isLower = r ++ marker.take 4 ∨
      ∃ r', (r ++ marker ++ x).dropWhile isLower = r' ++ marker ++ x := by
  have hword : (marker ++ x).takeWhile isLower = marker.take 4 := by
    rw [marker_eq]
    rfl
  rw [List.append_assoc]
  cases hdrop : r.dropWhile isLower with
  | nil =>
    refine .inl ?_
    rw [List.takeWhile_append_of_pos (List.dropWhile_eq_nil_iff.mp hdrop), hword]
  | cons u r' =>
    refine .inr ⟨u :: r', ?_⟩
    rw [List.dropWhile_append, hdrop, List.isEmpty_cons, if_neg Bool.false_ne_true,
      List.append_assoc]

/-- A token that begins before the marker ends before it, or at its quote. -/
theorem lexToken_behind {r x rest : JsString} {t : Token}
    (h : lexToken (r ++ marker ++ x) = some (t, rest)) :
    (∃ r', rest = r' ++ marker ++ x) ∨ rest = unit 'e' :: x := by
  cases r with
  | nil =>
    rw [List.nil_append, marker_eq] at h
    cases h
  | cons u r =>
    have hnumeral := dropWhile_marker (by decide : isNumeralUnit (unit 'd') = false) (u :: r) x
    have hlower := lower_marker (u :: r) x
    rw [List.cons_append, List.cons_append] at h hnumeral hlower
    rw [lexToken] at h
    split_ifs at h with hpunct hquote hnumber
    · exact .inl ⟨r, (Prod.mk.inj (Option.some.inj h)).2.symm⟩
    · obtain ⟨⟨s, rest'⟩, hs, heq⟩ := Option.map_eq_some_iff.mp h
      obtain ⟨-, rfl⟩ := Prod.mk.inj heq
      exact lexString_behind hs
    · simp only [Option.ite_none_right_eq_some] at h
      rw [hnumeral] at h
      exact .inl ⟨_, (Prod.mk.inj (Option.some.inj h.2)).2.symm⟩
    · rcases hlower with hword | ⟨r', hrest⟩
      · rw [hword, ← List.cons_append, wordToken_marker] at h
        cases h
      · obtain ⟨word, -, heq⟩ := Option.map_eq_some_iff.mp h
        rw [hrest] at heq
        exact .inl ⟨r', (Prod.mk.inj heq).2.symm⟩

/-- No token begins as the marker goes on behind its quote. -/
theorem lexLoop_e (fuel : ℕ) (x : JsString) : lexLoop fuel (unit 'e' :: x) = none := by
  cases fuel with
  | zero => rfl
  | succ fuel =>
    have hliteral : (unit 'e' :: x).takeWhile isNumeralUnit = unit 'e' :: x.takeWhile isNumeralUnit :=
      List.takeWhile_cons_of_pos (by decide)
    have hnumeral (digits : JsString) : isNumeral (unit 'e' :: digits) = false := by
      rw [isNumeral, if_neg (by decide), isUnsigned, if_neg (by decide),
        (by decide : isDigit (unit 'e') = false), Bool.false_and]
    have htoken : lexToken (unit 'e' :: x) = none := by
      rw [lexToken, if_neg (by decide), if_neg (by decide), if_pos (by decide)]
      simp only [hliteral, hnumeral, Bool.false_eq_true, if_false]
    rw [lexLoop, List.dropWhile_cons_of_neg (by decide)]
    simp only [htoken]

/-- Text that breaks off and goes on with the marker has no tokens. -/
theorem lexLoop_marker (fuel : ℕ) (r x : JsString) : lexLoop fuel (r ++ marker ++ x) = none := by
  induction fuel generalizing r with
  | zero => rfl
  | succ fuel ih =>
    rw [lexLoop, dropWhile_marker (by decide)]
    obtain ⟨u, s, hs⟩ : ∃ u s, r.dropWhile isSpace ++ marker ++ x = u :: s :=
      List.exists_cons_of_ne_nil (by simp [marker_eq])
    rw [hs]
    simp only
    cases htoken : lexToken (u :: s) with
    | none => rfl
    | some p =>
      obtain ⟨t, rest⟩ := p
      rcases lexToken_behind (hs ▸ htoken) with ⟨r', rfl⟩ | rfl
      · simp only [ih, Option.map_none]
      · simp only [lexLoop_e, Option.map_none]

/-- Text that breaks off and goes on with the marker is no JSON. -/
theorem parse_marker {N : Type} (number : JsString → N) (r x : JsString) :
    parse number (r ++ marker ++ x) = none := by
  rw [parse, lex, lexLoop_marker]

end JsonParse

end Governance
