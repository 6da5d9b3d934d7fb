import Governance.Lib.PercentCoding

/-!
# Strings in an XML document

An array of strings as an XML reader takes it from a document: the line ends are made line feeds,
the text is cut at the tags and the references in it are resolved. A text whose five characters of
markup are written as references comes back if and only if it has no carriage return and no
character that XML has no place for (`readArray_arrayText_iff`).
-/

namespace XmlText

open Utf8Text (Text)

/-! ## Reading -/

/-- The characters a document can have. -/
def isXmlChar (c : Char) : Bool :=
  c = '\t' ∨ c = '\n' ∨ c = '\r' ∨ (0x20 ≤ c.toNat ∧ c.toNat ≠ 0xFFFE ∧ c.toNat ≠ 0xFFFF)

/-- Every line end becomes a line feed. -/
def normalizeLines : Text → Text
  | '\r' :: '\n' :: t => '\n' :: normalizeLines t
  | c :: t => (if c = '\r' then '\n' else c) :: normalizeLines t
  | [] => []

/-- What a reference stands for. -/
def resolve (name : Text) : Option Char :=
  if name = "amp".toList then some '&'
  else if name = "lt".toList then some '<'
  else if name = "gt".toList then some '>'
  else if name = "quot".toList then some '"'
  else if name = "apos".toList then some '\''
  else
    let code := match name with
      | '#' :: 'x' :: digits => PercentCoding.number 16 digits
      | '#' :: digits => PercentCoding.number 10 digits
      | _ => none
    (code.map Char.ofNat).filter isXmlChar

inductive Token where
  | data (t : Text)
  | tag (name : Text)
  deriving DecidableEq

/-- What is being read. -/
inductive Mode where
  | data (t : Text)
  | reference (t name : Text)
  | tag (name : Text)

structure Reader where
  tokens : List Token
  mode : Mode

def step (r : Reader) (c : Char) : Option Reader :=
  if isXmlChar c = false then none
  else match r.mode with
  | .data t =>
    if c = '<' then some ⟨r.tokens ++ [.data t], .tag []⟩
    else if c = '&' then some ⟨r.tokens, .reference t []⟩
    else some ⟨r.tokens, .data (t ++ [c])⟩
  | .reference t name =>
    if c = ';' then (resolve name).map fun d => ⟨r.tokens, .data (t ++ [d])⟩
    else some ⟨r.tokens, .reference t (name ++ [c])⟩
  | .tag name =>
    if c = '>' then some ⟨r.tokens ++ [.tag name], .data []⟩
    else some ⟨r.tokens, .tag (name ++ [c])⟩

def finish (r : Reader) : Option (List Token) :=
  match r.mode with
  | .data t => some (r.tokens ++ [.data t])
  | _ => none

def arrayName : Text := ['a', 'r', 'r', 'a', 'y']

def stringName : Text := ['s', 't', 'r', 'i', 'n', 'g']

def isSpace (c : Char) : Bool := c = ' ' ∨ c = '\t' ∨ c = '\n' ∨ c = '\r'

/-- The strings of an array, up to its end. -/
def strings : List Token → Option (List Text)
  | [.tag close, .data []] => if close = '/' :: arrayName then some [] else none
  | .tag start :: .data t :: .tag close :: tokens =>
    if start = stringName ∧ close = '/' :: stringName then (strings tokens).map (t :: ·)
    else none
  | .data t :: tokens => if t.all isSpace then strings tokens else none
  | _ => none

/-- The strings of an `<array>`. -/
def array : List Token → Option (List Text)
  | .data [] :: .tag name :: tokens => if name = arrayName then strings tokens else none
  | _ => none

def readArray (text : Text) : Option (List Text) :=
  (((normalizeLines text).foldlM step ⟨[], .data []⟩).bind finish).bind array

/-! ## Writing -/

/-- A character of a text, with the markup written as references. -/
def spell (c : Char) : Text :=
  if c = '&' then "&amp;".toList
  else if c = '<' then "&lt;".toList
  else if c = '>' then "&gt;".toList
  else if c = '"' then "&quot;".toList
  else if c = '\'' then "&apos;".toList
  else [c]

def tagText (name : Text) : Text := '<' :: (name ++ ['>'])

/-- A new line and an indentation. -/
def indent (n : ℕ) : Text := '\n' :: List.replicate n ' '

/-- One string of an array, on a line of its own. -/
def itemText (t : Text) : Text :=
  indent 4 ++ (tagText stringName ++ (t.flatMap spell ++ tagText ('/' :: stringName)))

/-- An array of strings. -/
def arrayText (items : List Text) : Text :=
  tagText arrayName ++ (items.flatMap itemText ++ (indent 2 ++ tagText ('/' :: arrayName)))

/-! ## Line ends -/

theorem normalizeLines_cons {c : Char} (hc : c ≠ '\r') (t : Text) :
    normalizeLines (c :: t) = c :: normalizeLines t := by
  rw [normalizeLines, if_neg hc]
  rintro u rfl
  contradiction

theorem normalizeLines_return {t : Text} (ht : t.head? ≠ some '\n') :
    normalizeLines ('\r' :: t) = '\n' :: normalizeLines t := by
  rw [normalizeLines, if_pos rfl]
  rintro u - rfl
  exact ht rfl

theorem normalizeLines_append {t : Text} (h : '\r' ∉ t) (rest : Text) :
    normalizeLines (t ++ rest) = t ++ normalizeLines rest := by
  induction t with
  | nil => rfl
  | cons c t ih =>
    rw [List.mem_cons, not_or] at h
    rw [List.cons_append, normalizeLines_cons (Ne.symm h.1), ih h.2, List.cons_append]

theorem notMem_normalizeLines (t : Text) : '\r' ∉ normalizeLines t := by
  induction t using normalizeLines.induct with
  | case1 t ih => simpa [normalizeLines] using ih
  | case2 c t hnot ih =>
    rw [normalizeLines]
    · split_ifs with hc
      · simpa using ih
      · simpa [Ne.symm hc] using ih
    · exact hnot
  | case3 => simp [normalizeLines]

theorem normalizeLines_eq_self_iff {t : Text} : normalizeLines t = t ↔ '\r' ∉ t := by
  constructor
  · intro h
    rw [← h]
    exact notMem_normalizeLines t
  · intro h
    simpa [normalizeLines] using normalizeLines_append h []

theorem notMem_spell {c : Char} (hc : c ≠ '\r') : '\r' ∉ spell c := by
  unfold spell
  split_ifs
  all_goals simp [Ne.symm hc]

/-- A written text begins with a line feed only if the text does. -/
theorem head?_spelled {t rest : Text} (ht : t.head? ≠ some '\n') :
    (t.flatMap spell ++ '<' :: rest).head? ≠ some '\n' := by
  cases t with
  | nil => simp
  | cons c t =>
    have hc : c ≠ '\n' := by simpa using ht
    rw [List.flatMap_cons, spell]
    split_ifs
    all_goals simp [hc]

theorem normalizeLines_spelled (t rest : Text) :
    normalizeLines (t.flatMap spell ++ '<' :: rest) =
      (normalizeLines t).flatMap spell ++ normalizeLines ('<' :: rest) := by
  induction t using normalizeLines.induct with
  | case1 t ih =>
    have hr : spell '\r' = ['\r'] := by decide
    have hn : spell '\n' = ['\n'] := by decide
    rw [List.flatMap_cons, List.flatMap_cons, hr, hn, List.append_assoc, List.append_assoc,
      List.singleton_append, List.singleton_append, normalizeLines, ih, normalizeLines,
      List.flatMap_cons, hn]
    rfl
  | case2 c t hnot ih =>
    by_cases hc : c = '\r'
    · subst hc
      have hr : spell '\r' = ['\r'] := by decide
      have hn : spell '\n' = ['\n'] := by decide
      have ht : t.head? ≠ some '\n' := by
        intro hhead
        obtain ⟨u, rfl⟩ : ∃ u, t = '\n' :: u := by
          cases t with
          | nil => cases hhead
          | cons d u => exact ⟨u, by rw [Option.some.inj hhead]⟩
        exact hnot u rfl rfl
      rw [List.flatMap_cons, hr, List.append_assoc, List.singleton_append,
        normalizeLines_return (head?_spelled ht), ih, normalizeLines_return ht, List.flatMap_cons,
        hn, List.append_assoc, List.singleton_append]
    · rw [List.flatMap_cons, List.append_assoc, normalizeLines_append (notMem_spell hc), ih,
        normalizeLines_cons hc, List.flatMap_cons, List.append_assoc]
  | case3 => rfl

/-- A name of a tag. -/
def IsName (name : Text) : Prop := ∀ c ∈ name, isXmlChar c = true ∧ c ≠ '\r' ∧ c ≠ '>'

theorem isName_arrayName : IsName arrayName := by simp [IsName, arrayName, isXmlChar]

theorem isName_stringName : IsName stringName := by simp [IsName, stringName, isXmlChar]

theorem IsName.close {name : Text} (h : IsName name) : IsName ('/' :: name) :=
  List.forall_mem_cons.2 ⟨by simp [isXmlChar], h⟩

theorem normalizeLines_tagText {name : Text} (h : IsName name) (rest : Text) :
    normalizeLines (tagText name ++ rest) = tagText name ++ normalizeLines rest := by
  refine normalizeLines_append ?_ rest
  have hname : '\r' ∉ name := fun hmem => (h '\r' hmem).2.1 rfl
  simp [tagText, hname]

theorem normalizeLines_indent (n : ℕ) (rest : Text) :
    normalizeLines (indent n ++ rest) = indent n ++ normalizeLines rest :=
  normalizeLines_append (by simp [indent, List.mem_replicate]) rest

theorem normalizeLines_itemText (t rest : Text) :
    normalizeLines (itemText t ++ rest) = itemText (normalizeLines t) ++ normalizeLines rest := by
  have hspelled : normalizeLines (t.flatMap spell ++ (tagText ('/' :: stringName) ++ rest)) =
      (normalizeLines t).flatMap spell ++
        normalizeLines (tagText ('/' :: stringName) ++ rest) :=
    normalizeLines_spelled t _
  rw [itemText, List.append_assoc, List.append_assoc, List.append_assoc, normalizeLines_indent,
    normalizeLines_tagText isName_stringName, hspelled,
    normalizeLines_tagText isName_stringName.close, itemText, List.append_assoc, List.append_assoc,
    List.append_assoc]

theorem normalizeLines_items (items : List Text) (rest : Text) :
    normalizeLines (items.flatMap itemText ++ rest) =
      (items.map normalizeLines).flatMap itemText ++ normalizeLines rest := by
  induction items with
  | nil => rfl
  | cons t items ih =>
    rw [List.flatMap_cons, List.append_assoc, normalizeLines_itemText, ih, List.map_cons,
      List.flatMap_cons, List.append_assoc]

theorem normalizeLines_arrayText (items : List Text) :
    normalizeLines (arrayText items) = arrayText (items.map normalizeLines) := by
  have hclose := normalizeLines_tagText isName_arrayName.close []
  rw [List.append_nil, normalizeLines, List.append_nil] at hclose
  rw [arrayText, normalizeLines_tagText isName_arrayName, normalizeLines_items,
    normalizeLines_indent, hclose, arrayText]

/-! ## Tokens -/

theorem step_isXmlChar {r r' : Reader} {c : Char} (h : step r c = some r') :
    isXmlChar c = true := by
  rw [step] at h
  by_cases hc : isXmlChar c = false
  · rw [if_pos hc] at h
    cases h
  · simpa using hc

/-- What is read has only characters of XML. -/
theorem isXmlChar_of_run {r r' : Reader} {text : Text} (h : text.foldlM step r = some r') :
    ∀ c ∈ text, isXmlChar c = true := by
  induction text generalizing r with
  | nil => simp
  | cons c text ih =>
    rw [List.foldlM_cons] at h
    obtain ⟨next, hstep, hrest⟩ := Option.bind_eq_some_iff.mp h
    exact List.forall_mem_cons.2 ⟨step_isXmlChar hstep, ih hrest⟩

/-- A written character is read as itself. -/
theorem run_spell {c : Char} (hc : isXmlChar c = true) (tokens : List Token) (t : Text) :
    (spell c).foldlM step ⟨tokens, .data t⟩ = some ⟨tokens, .data (t ++ [c])⟩ := by
  rw [spell]
  split_ifs with hamp hlt
  · subst hamp
    rfl
  · subst hlt
    rfl
  · subst_vars
    rfl
  · subst_vars
    rfl
  · subst_vars
    rfl
  · simp [step, hc, hamp, hlt]

theorem run_spelled {t : Text} (h : ∀ c ∈ t, isXmlChar c = true) (tokens : List Token)
    (before : Text) :
    (t.flatMap spell).foldlM step ⟨tokens, .data before⟩ = some ⟨tokens, .data (before ++ t)⟩ := by
  induction t generalizing before with
  | nil => simp
  | cons c t ih =>
    rw [List.flatMap_cons, List.foldlM_append, run_spell (h c List.mem_cons_self),
      Option.bind_eq_bind, Option.bind_some, ih fun d hd => h d (List.mem_cons_of_mem c hd),
      List.append_assoc, List.singleton_append]

theorem run_name {name : Text} (h : IsName name) (tokens : List Token) (before : Text) :
    name.foldlM step ⟨tokens, .tag before⟩ = some ⟨tokens, .tag (before ++ name)⟩ := by
  induction name generalizing before with
  | nil => simp
  | cons c name ih =>
    obtain ⟨hxml, -, hclose⟩ := h c List.mem_cons_self
    rw [List.foldlM_cons, step, if_neg (by simp [hxml])]
    simp only [if_neg hclose]
    rw [Option.bind_eq_bind, Option.bind_some, ih fun d hd => h d (List.mem_cons_of_mem c hd),
      List.append_assoc, List.singleton_append]

/-- A tag ends the data ahead of it. -/
theorem run_tagText {name : Text} (h : IsName name) (tokens : List Token) (t : Text) :
    (tagText name).foldlM step ⟨tokens, .data t⟩ =
      some ⟨tokens ++ [Token.data t, Token.tag name], .data []⟩ := by
  have hopen : step ⟨tokens, .data t⟩ '<' = some ⟨tokens ++ [Token.data t], .tag []⟩ := by
    simp [step, isXmlChar]
  have hclose : step ⟨tokens ++ [Token.data t], .tag name⟩ '>' =
      some ⟨tokens ++ [Token.data t] ++ [Token.tag name], .data []⟩ := by
    simp [step, isXmlChar]
  rw [tagText, List.foldlM_cons, hopen, Option.bind_eq_bind, Option.bind_some, List.foldlM_append,
    run_name h, Option.bind_eq_bind, Option.bind_some, List.nil_append, List.foldlM_cons, hclose]
  simp

theorem run_indent (n : ℕ) (tokens : List Token) :
    (indent n).foldlM step ⟨tokens, .data []⟩ = some ⟨tokens, .data (indent n)⟩ := by
  have hspell : ∀ c ∈ indent n, spell c = [c] := by
    intro c hc
    rcases List.mem_cons.mp hc with rfl | hc
    · decide
    · rw [List.eq_of_mem_replicate hc]
      decide
  have hplain : indent n = (indent n).flatMap spell := by
    rw [List.flatMap_congr hspell, List.flatMap_singleton']
  have hrun := run_spelled (t := indent n) (by simp [indent, isXmlChar]) tokens []
  rwa [← hplain, List.nil_append] at hrun

/-- The tokens of one string. -/
def itemTokens (t : Text) : List Token :=
  [.data (indent 4), .tag stringName, .data t, .tag ('/' :: stringName)]

theorem run_itemText {t : Text} (h : ∀ c ∈ t, isXmlChar c = true) (tokens : List Token) :
    (itemText t).foldlM step ⟨tokens, .data []⟩ = some ⟨tokens ++ itemTokens t, .data []⟩ := by
  rw [itemText, List.foldlM_append, run_indent, Option.bind_eq_bind, Option.bind_some,
    List.foldlM_append, run_tagText isName_stringName, Option.bind_eq_bind, Option.bind_some,
    List.foldlM_append, run_spelled h, Option.bind_eq_bind, Option.bind_some,
    run_tagText isName_stringName.close, itemTokens]
  simp only [List.append_assoc, List.cons_append, List.nil_append]

theorem run_items {items : List Text} (h : ∀ t ∈ items, ∀ c ∈ t, isXmlChar c = true)
    (tokens : List Token) :
    (items.flatMap itemText).foldlM step ⟨tokens, .data []⟩ =
      some ⟨tokens ++ items.flatMap itemTokens, .data []⟩ := by
  induction items generalizing tokens with
  | nil => simp
  | cons t items ih =>
    rw [List.flatMap_cons, List.foldlM_append, run_itemText (h t List.mem_cons_self),
      Option.bind_eq_bind, Option.bind_some, ih fun t' ht' => h t' (List.mem_cons_of_mem t ht'),
      List.flatMap_cons, List.append_assoc]

theorem all_isSpace_indent (n : ℕ) : (indent n).all isSpace = true := by
  simp [indent, isSpace]

theorem strings_items (items : List Text) (tokens : List Token) :
    strings (items.flatMap itemTokens ++ tokens) = (strings tokens).map (items ++ ·) := by
  induction items with
  | nil => simp
  | cons t items ih =>
    rw [List.flatMap_cons, itemTokens]
    simp only [List.cons_append, List.nil_append, strings, all_isSpace_indent, if_true, and_self,
      ih, Option.map_map, Function.comp_def]

/-- An array whose characters have all a place in XML is read as the strings it was written from,
but for their line ends. -/
theorem readArray_arrayText {items : List Text}
    (h : ∀ t ∈ items, ∀ c ∈ normalizeLines t, isXmlChar c = true) :
    readArray (arrayText items) = some (items.map normalizeLines) := by
  have hitems : ∀ t ∈ items.map normalizeLines, ∀ c ∈ t, isXmlChar c = true := by
    intro t ht
    obtain ⟨u, hu, rfl⟩ := List.mem_map.mp ht
    exact h u hu
  have hend : strings [.data (indent 2), .tag ('/' :: arrayName), .data []] = some [] := by
    simp [strings, all_isSpace_indent]
  rw [readArray, normalizeLines_arrayText, arrayText, List.foldlM_append,
    run_tagText isName_arrayName, Option.bind_eq_bind, Option.bind_some, List.foldlM_append,
    run_items hitems, Option.bind_eq_bind, Option.bind_some, List.foldlM_append, run_indent,
    Option.bind_eq_bind, Option.bind_some, run_tagText isName_arrayName.close, Option.bind_some,
    finish, Option.bind_some]
  simp only [List.append_assoc, List.cons_append, List.nil_append, array, if_true, strings_items,
    hend, Option.map_some, List.append_nil]

/-- An array is read back if and only if every character of it has a place in XML and none is a
carriage return. -/
theorem readArray_arrayText_iff (items : List Text) :
    readArray (arrayText items) = some items ↔
      ∀ t ∈ items, ∀ c ∈ t, isXmlChar c = true ∧ c ≠ '\r' := by
  constructor
  · intro h
    obtain ⟨tokens, hrun, -⟩ := Option.bind_eq_some_iff.mp h
    obtain ⟨r, hrun, -⟩ := Option.bind_eq_some_iff.mp hrun
    rw [normalizeLines_arrayText] at hrun
    have hall := isXmlChar_of_run hrun
    have hitems : ∀ t ∈ items, ∀ c ∈ normalizeLines t, isXmlChar c = true := by
      intro t ht c hc
      by_contra hnot
      -- a character that is no markup is written as it is
      have hspell : spell c = [c] := by
        rw [spell, if_neg, if_neg, if_neg, if_neg, if_neg]
        all_goals
          rintro rfl
          exact hnot (by decide)
      have hmem : c ∈ spell c := by
        rw [hspell]
        exact List.mem_singleton_self c
      refine hnot (hall c ?_)
      have hitem : c ∈ itemText (normalizeLines t) :=
        List.mem_append_right _ (List.mem_append_right _ (List.mem_append_left _
          (List.mem_flatMap.mpr ⟨c, hc, hmem⟩)))
      exact List.mem_append_right _ (List.mem_append_left _
        (List.mem_flatMap.mpr ⟨normalizeLines t, List.mem_map_of_mem ht, hitem⟩))
    rw [readArray_arrayText hitems] at h
    have hsame : ∀ t ∈ items, normalizeLines t = t :=
      (List.map_eq_map_iff.mp ((Option.some.inj h).trans (List.map_id items).symm))
    intro t ht c hc
    have hline := normalizeLines_eq_self_iff.1 (hsame t ht)
    refine ⟨hitems t ht c ((hsame t ht).symm ▸ hc), ?_⟩
    rintro rfl
    exact hline hc
  · intro h
    have hsame : ∀ t ∈ items, normalizeLines t = t := by
      intro t ht
      exact normalizeLines_eq_self_iff.2 fun hc => (h t ht _ hc).2 rfl
    rw [readArray_arrayText fun t ht c hc => (h t ht c (hsame t ht ▸ hc)).1,
      List.map_congr_left hsame, List.map_id']

end XmlText
