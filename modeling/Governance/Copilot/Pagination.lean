import Governance.Copilot.Report
import Governance.Lib.LinkHeader

/-!
# The pages of the seat listing

`governance-copilot/src/seats.rs`: `fetch_seats` follows the `Link` header from page to page, and
`next_link_url` takes the next target from a header by cutting it at every comma and semicolon.
Which target that is, for every header of the grammar of RFC 8288.
-/

namespace Governance

open Utf8Text Cutting LinkHeader ByteLines

namespace Seats

/-! ## `next_link_url` -/

/-- `rel="next"`. -/
def relNext : Text := "rel=\"next\"".toList

/-- `strip_prefix('<')` and `strip_suffix('>')`. -/
def stripBrackets : Text → Option Text
  | [] => none
  | c :: rest => if c = '<' ∧ rest.getLast? = some '>' then some rest.dropLast else none

/-- One entry of `next_link_url`. -/
def entryUrl (entry : Text) : Option Text :=
  match (entry.splitOn ';').map trim with
  | [] => none
  | bracketed :: segments =>
    if segments.any fun s => eqIgnoreAsciiCase s relNext then stripBrackets bracketed else none

/-- `next_link_url`. -/
def nextLinkUrl (header : Text) : Option Text := (header.splitOn ',').findSome? entryUrl

/-! ## What is taken from a link-value -/

/-- The parameter is written exactly `rel="next"`, up to the case of its letters. -/
def isPlainNext (p : LinkParam) : Bool := eqIgnoreAsciiCase p.text relNext

/-- The target that stands before the first semicolon of a text. -/
def opening (t : Text) : Option Text := ((t.splitOn ';').head?.map trim).bind stripBrackets

/-- What stands behind the last comma of a text. -/
def behindLastComma (t : Text) : Text := ((t.splitOn ',').getLast?).getD []

/-- The parameters of a link-value as the cut at the commas leaves them. A parameter with a comma
in its value ends an entry, and what its value has behind the last comma begins the next. -/
def readParams : Option Text → Bool → List LinkParam → Option Text
  | target, found, [] => if found then target else none
  | target, found, p :: params =>
    if ',' ∈ p.text then
      (if found then target else none).or (readParams (opening (behindLastComma p.text)) false params)
    else readParams target (found || isPlainNext p) params

/-- The target that is taken from a link-value: its own, when it has neither a comma nor a
semicolon and a parameter `rel="next"` comes before any comma; or a text between angle brackets
inside a quoted string. -/
def readLink (l : LinkValue) : Option Text :=
  readParams (if ',' ∈ l.target.text ∨ ';' ∈ l.target.text then none else some l.target.text) false
    (l.params.map fun p => p.2.1)

/-- The target that is taken from a header. -/
def readHeader (header : Header) : Option Text :=
  header.findSome? fun e => e.link.bind readLink

/-! ## Segments -/

theorem count_trim {t : Text} {c : Char} (hc : isWhiteSpace c = false) :
    (trim t).count c = t.count c := by
  have hdrop (t : Text) : (t.dropWhile isWhiteSpace).count c = t.count c := by
    induction t with
    | nil => rfl
    | cons x t ih =>
      rw [List.dropWhile_cons]
      split
      · next hx =>
        rw [ih, List.count_cons_of_ne]
        rintro rfl
        simp [hc] at hx
      · rfl
  rw [trim, List.rdropWhile, List.count_reverse, hdrop, List.count_reverse, hdrop]

/-- Lower case touches letters only. -/
theorem count_map_toLower {t : Text} {c : Char} (hc : ∀ d : Char, d.toLower = c ↔ d = c) :
    (t.map Char.toLower).count c = t.count c := by
  rw [List.count_eq_countP, List.countP_map, List.count_eq_countP]
  congr 1
  funext d
  simp [hc d]

/-- A character that is no letter, and comes before the small ones, is the lower case of itself
only. -/
theorem toLower_eq_iff {c : Char} (hsmall : c.toNat < 97) (hbig : c.toNat < 65 ∨ 90 < c.toNat)
    (d : Char) : d.toLower = c ↔ d = c := by
  unfold Char.toLower
  split
  · next h =>
    have hrange : 65 ≤ d.toNat ∧ d.toNat ≤ 90 := by
      simpa [UInt32.le_iff_toNat_le] using h
    constructor
    · rintro rfl
      have hval : (d.val + ('a'.val - 'A'.val)).toNat = d.toNat + 32 := by
        rw [UInt32.toNat_add]
        have hsub : ('a'.val - 'A'.val).toNat = 32 := by decide
        have hd : d.val.toNat = d.toNat := rfl
        rw [hsub, hd]
        exact Nat.mod_eq_of_lt (by omega)
      exact absurd hsmall (by change ¬ (d.val + ('a'.val - 'A'.val)).toNat < 97; omega)
    · rintro rfl
      omega
  · rfl

/-- A segment that reads `rel="next"` has two quotes and no backslash. -/
theorem count_of_isNext {s : Text} (h : eqIgnoreAsciiCase (trim s) relNext = true) :
    s.count dquote = 2 ∧ backslash ∉ s := by
  have heq : (trim s).map Char.toLower = relNext.map Char.toLower := of_decide_eq_true h
  constructor
  · rw [← count_trim (by decide), ← count_map_toLower (toLower_eq_iff (by decide) (by decide)), heq]
    decide
  · rw [← List.count_eq_zero, ← count_trim (by decide),
      ← count_map_toLower (toLower_eq_iff (by decide) (by decide)), heq]
    decide

/-- A segment reads `rel="next"`. -/
def isNextSegment (s : Text) : Bool := eqIgnoreAsciiCase (trim s) relNext

/-- A segment behind the first semicolon of a text reads `rel="next"`. -/
def foundIn (t : Text) : Bool := (t.splitOn ';').tail.any isNextSegment

theorem entryUrl_eq (t : Text) : entryUrl t = if foundIn t then opening t else none := by
  obtain ⟨first, rest, h⟩ := List.exists_cons_of_ne_nil (List.splitOn_ne_nil ';' t)
  simp only [entryUrl, foundIn, opening, h, List.map_cons, List.tail_cons, List.any_map,
    List.head?_cons, Option.map_some, Option.bind_some]
  rfl

/-- A text without such a segment yields nothing. -/
theorem foundIn_eq_false {t : Text} (h : ∀ s ∈ t.splitOn ';', isNextSegment s = false) :
    foundIn t = false := by
  rw [foundIn, List.any_eq_false]
  intro s hs
  simp [h s (List.mem_of_mem_tail hs)]

theorem entryUrl_eq_none {t : Text} (h : ∀ s ∈ t.splitOn ';', isNextSegment s = false) :
    entryUrl t = none := by
  rw [entryUrl_eq, foundIn_eq_false h]
  rfl

/-- What comes behind a semicolon adds segments and leaves the first one. -/
theorem opening_append (t x : Text) : opening (t ++ ';' :: x) = opening t := by
  obtain ⟨first, rest, h⟩ := List.exists_cons_of_ne_nil (List.splitOn_ne_nil ';' t)
  rw [opening, opening, List.splitOn_append_cons_self, h]
  rfl

theorem foundIn_append (t x : Text) :
    foundIn (t ++ ';' :: x) = (foundIn t || (x.splitOn ';').any isNextSegment) := by
  obtain ⟨first, rest, h⟩ := List.exists_cons_of_ne_nil (List.splitOn_ne_nil ';' t)
  rw [foundIn, foundIn, List.splitOn_append_cons_self, h, List.cons_append, List.tail_cons,
    List.tail_cons, List.any_append]

/-! ## Pieces that yield nothing -/

/-- A segment with at most one quote that is not escaped does not read `rel="next"`. -/
theorem isNextSegment_eq_false (front : Text) {c : Text} (back : Text) (hc : Escaped c)
    (hone : (front ++ back).count dquote ≤ 1) : isNextSegment (front ++ c ++ back) = false := by
  by_contra hnext
  obtain ⟨htwo, hno⟩ := count_of_isNext (by simpa [isNextSegment] using hnext)
  have hplain : dquote ∉ c := hc.dquote_notMem fun hmem => hno (by simp [hmem])
  rw [List.count_append, List.count_append, List.count_eq_zero.mpr hplain] at htwo
  rw [List.count_append] at hone
  omega

theorem isNextSegment_of_escaped {s : Text} (h : Escaped s) : isNextSegment s = false := by
  simpa using isNextSegment_eq_false [] [] h (by simp)

/-- The segments of a part of a quoted string. -/
theorem segments_of_escaped {c : Text} (hc : Escaped c) :
    ∀ s ∈ c.splitOn ';', isNextSegment s = false :=
  fun s hs => isNextSegment_of_escaped (hc.splitOn (by decide) s hs)

/-- A text without quotes is a case of an escaped one. -/
theorem escaped_of_notMem {t : Text} (h : dquote ∉ t) : Escaped t := by
  rintro front back rfl
  simp at h

theorem count_dquote_of_plain {t : Text} (h : ∀ c ∈ t, isPlain c = true) : t.count dquote = 0 :=
  List.count_eq_zero.mpr fun hmem => absurd (h _ hmem) (by decide)

/-- The segments of the end of a quoted string, with its closing quote. -/
theorem segments_of_closing {c : Text} (hc : Escaped c) (b : Blank) :
    ∀ s ∈ (c ++ dquote :: b.text).splitOn ';', isNextSegment s = false := by
  have hclose : (dquote :: b.text).count dquote ≤ 1 := by
    rw [List.count_cons_self, count_dquote_of_plain b.plain]
  have hsep : ';' ∉ dquote :: b.text := by
    rw [List.mem_cons, not_or]
    exact ⟨by decide, fun h => absurd (b.plain _ h) (by decide)⟩
  by_cases hsemi : ';' ∈ c
  · -- All segments but the last are parts of the string; the last has the closing quote.
    obtain ⟨front, last, rfl, hlast⟩ := exists_last_cut hsemi
    obtain ⟨hescFront, hescLast⟩ := hc.cut (by decide)
    intro s hs
    rw [List.append_assoc, List.cons_append, List.splitOn_append_cons_self,
      List.splitOn_eq_singleton (List.not_mem_append hlast hsep), List.mem_append,
      List.mem_singleton] at hs
    rcases hs with hs | rfl
    · exact segments_of_escaped hescFront s hs
    · simpa using isNextSegment_eq_false [] (dquote :: b.text) hescLast hclose
  · intro s hs
    rw [List.splitOn_eq_singleton (List.not_mem_append hsemi hsep), List.mem_singleton] at hs
    subst hs
    simpa using isNextSegment_eq_false [] (dquote :: b.text) hc hclose

/-- The segments of a quoted string that is cut off, from the start of its parameter. -/
theorem segments_of_opening {front c : Text} (hfront : ∀ x ∈ front, isPlain x = true)
    (hc : Escaped c) : ∀ s ∈ (front ++ dquote :: c).splitOn ';', isNextSegment s = false := by
  obtain ⟨first, rest, hsplit⟩ := List.exists_cons_of_ne_nil (List.splitOn_ne_nil ';' c)
  have hesc : ∀ s ∈ first :: rest, Escaped s := hsplit ▸ hc.splitOn (by decide)
  have hsep : ';' ∉ front ++ [dquote] :=
    List.not_mem_append (fun h => absurd (hfront _ h) (by decide)) (by decide)
  have hone : ((front ++ [dquote]) ++ []).count dquote ≤ 1 := by
    rw [List.append_nil, List.count_append, count_dquote_of_plain hfront]
    decide
  rw [← List.singleton_append, ← List.append_assoc, splitOn_append_of_notMem hsep hsplit]
  refine List.forall_mem_cons.mpr ⟨?_, fun s hs => ?_⟩
  · simpa using isNextSegment_eq_false (front ++ [dquote]) [] (hesc first List.mem_cons_self) hone
  · exact isNextSegment_of_escaped (hesc s (List.mem_cons_of_mem _ hs))

/-- A text that yields nothing in any piece. -/
theorem findSome?_entryUrl_eq_none {pieces : List Text} (h : ∀ t ∈ pieces, Escaped t) :
    pieces.findSome? entryUrl = none :=
  List.findSome?_eq_none_iff.mpr fun t ht => entryUrl_eq_none (segments_of_escaped (h t ht))

/-! ## A parameter -/

/-- The text of a parameter that holds a separator, cut at the last one in its quoted string. -/
theorem cut_param {a : Char} (ha : isPlain a = false) (hq : a ≠ dquote) (hb : a ≠ backslash)
    {p : LinkParam} (h : a ∈ p.text) : ∃ head front last,
      p.text = head ++ dquote :: front ++ a :: last ++ [dquote] ∧ a ∉ last ∧
        (∀ c ∈ head, isPlain c = true) ∧ Escaped front ∧ Escaped last := by
  rcases p.text_shape with hplain | ⟨head, content, heq, hhead, hcontent⟩
  · exact absurd (hplain a h) (by simp [ha])
  · have hmem : a ∈ content := by
      rw [heq] at h
      simp only [List.append_assoc, List.cons_append, List.mem_append, List.mem_cons,
        List.not_mem_nil, or_false, hq, false_or] at h
      exact h.resolve_left fun hin => absurd (hhead a hin) (by simp [ha])
    obtain ⟨front, last, rfl, hlast⟩ := exists_last_cut hmem
    obtain ⟨hfront, hback⟩ := hcontent.cut hb
    exact ⟨head, front, last, by simp [heq], hlast, hhead, hfront, hback⟩

/-- A parameter with a semicolon in its value does not read `rel="next"`. -/
theorem isPlainNext_of_semicolon {p : LinkParam} (h : ';' ∈ p.text) : isPlainNext p = false := by
  by_contra hnext
  have heq : p.text.map Char.toLower = relNext.map Char.toLower :=
    of_decide_eq_true (Bool.eq_true_of_not_eq_false hnext)
  refine absurd h (List.count_eq_zero.mp ?_)
  rw [← count_map_toLower (toLower_eq_iff (by decide) (by decide)), heq]
  decide

/-- A parameter with the white space around it reads `rel="next"` as a whole or nowhere. -/
theorem any_segments_param (b b' : Blank) (p : LinkParam) :
    ((b.text ++ p.text ++ b'.text).splitOn ';').any isNextSegment = isPlainNext p := by
  have hblank (b : Blank) : ';' ∉ b.text := fun h => absurd (b.plain _ h) (by decide)
  by_cases hsemi : ';' ∈ p.text
  · rw [isPlainNext_of_semicolon hsemi, List.any_eq_false]
    obtain ⟨head, front, last, heq, -, hhead, hfront, hlast⟩ :=
      cut_param (by decide) (by decide) (by decide) hsemi
    have htext : b.text ++ p.text ++ b'.text =
        ((b.text ++ head) ++ dquote :: front) ++ ';' :: (last ++ dquote :: b'.text) := by
      simp [heq]
    have hplain : ∀ c ∈ b.text ++ head, isPlain c = true :=
      List.forall_mem_append.mpr ⟨b.plain, hhead⟩
    intro s hs
    rw [htext, List.splitOn_append_cons_self, List.mem_append] at hs
    rcases hs with hs | hs
    · simp [segments_of_opening hplain hfront s hs]
    · simp [segments_of_closing hlast b' s hs]
  · rw [List.splitOn_eq_singleton (List.not_mem_append (List.not_mem_append (hblank b) hsemi)
      (hblank b')), List.any_cons, List.any_nil, Bool.or_false, isNextSegment, LinkParam.trim_text]
    rfl

/-- Blanks behind a closing quote do not change what a text opens with. -/
theorem opening_closing (c : Text) (b : Blank) :
    opening (c ++ dquote :: b.text) = opening (c ++ [dquote]) := by
  by_cases hsemi : ';' ∈ c
  · obtain ⟨front, back, rfl, -⟩ := List.eq_append_cons_of_mem hsemi
    rw [List.append_assoc, List.append_assoc, List.cons_append, List.cons_append, opening_append,
      opening_append]
  · have hblank : ';' ∉ b.text := fun h => absurd (b.plain _ h) (by decide)
    have hsep : ';' ∉ c ++ dquote :: b.text :=
      List.not_mem_append hsemi (by simp [hblank, show (';' : Char) ≠ dquote by decide])
    have hsep' : ';' ∉ c ++ [dquote] := List.not_mem_append hsemi (by decide)
    have hnil := trim_closing c ⟨[], by simp⟩
    rw [opening, opening, List.splitOn_eq_singleton hsep, List.splitOn_eq_singleton hsep',
      List.head?_cons, List.head?_cons, Option.map_some, Option.map_some, trim_closing, hnil]

/-- What a text yields does not depend on a quoted string that is cut off behind it. -/
theorem entryUrl_opening (t : Text) {front c : Text} (hfront : ∀ x ∈ front, isPlain x = true)
    (hc : Escaped c) :
    entryUrl (t ++ ';' :: (front ++ dquote :: c)) = if foundIn t then opening t else none := by
  have hnone : ((front ++ dquote :: c).splitOn ';').any isNextSegment = false := by
    rw [List.any_eq_false]
    intro s hs
    simp [segments_of_opening hfront hc s hs]
  rw [entryUrl_eq, foundIn_append, opening_append, hnone, Bool.or_false]

/-! ## A link-value -/

/-- The pieces of parameters behind a text without a comma. The induction carries what the text
so far opens with and whether one of its segments reads `rel="next"`. -/
theorem findSome?_params (params : List (Blank × LinkParam × Blank)) {t : Text} (ht : ',' ∉ t) :
    ((t ++ paramsText params).splitOn ',').findSome? entryUrl =
      readParams (opening t) (foundIn t) (params.map fun p => p.2.1) := by
  have hblank (b : Blank) : ',' ∉ b.text := fun h => absurd (b.plain _ h) (by decide)
  induction params generalizing t with
  | nil =>
    rw [paramsText, List.flatMap_nil, List.append_nil, List.splitOn_eq_singleton ht,
      List.findSome?_singleton, entryUrl_eq]
    rfl
  | cons param params ih =>
    obtain ⟨b, p, b'⟩ := param
    rw [List.map_cons, readParams]
    by_cases hcomma : ',' ∈ p.text
    · rw [if_pos hcomma]
      obtain ⟨head, front, last, heq, hlast, hhead, hfront, hback⟩ :=
        cut_param (by decide) (by decide) (by decide) hcomma
      -- The comma ends the entry of the text, inside the string that the parameter opens.
      obtain ⟨first, rest, hsplit⟩ := List.exists_cons_of_ne_nil (List.splitOn_ne_nil ',' front)
      have hesc : ∀ s ∈ first :: rest, Escaped s := hsplit ▸ hfront.splitOn (by decide)
      have hplain : ∀ c ∈ b.text ++ head, isPlain c = true :=
        List.forall_mem_append.mpr ⟨b.plain, hhead⟩
      have hbefore : ',' ∉ t ++ ';' :: (b.text ++ head ++ [dquote]) := by
        refine List.not_mem_append ht fun hmem => ?_
        rcases List.mem_cons.mp hmem with hsemi | hmem
        · exact absurd hsemi (by decide)
        · rcases List.mem_append.mp hmem with hin | hquote
          · exact absurd (hplain _ hin) (by decide)
          · exact absurd hquote (by decide)
      have htext : t ++ paramsText ((b, p, b') :: params) =
          ((t ++ ';' :: (b.text ++ head ++ [dquote])) ++ front) ++
            ',' :: ((last ++ dquote :: b'.text) ++ paramsText params) := by
        simp [paramsText, heq]
      have hclosing : ',' ∉ last ++ dquote :: b'.text :=
        List.not_mem_append hlast (by simp [hblank b', show (',' : Char) ≠ dquote by decide])
      have hbehind : behindLastComma p.text = last ++ [dquote] := by
        rw [behindLastComma, heq, List.append_assoc, List.cons_append,
          List.splitOn_append_cons_self, List.splitOn_eq_singleton (List.not_mem_append hlast
            (by decide)), List.getLast?_concat, Option.getD_some]
      have hopen : t ++ ';' :: (b.text ++ head ++ [dquote]) ++ first =
          t ++ ';' :: ((b.text ++ head) ++ dquote :: first) := by simp
      rw [htext, List.splitOn_append_cons_self, splitOn_append_of_notMem hbefore hsplit,
        List.findSome?_append, List.findSome?_cons, hopen,
        entryUrl_opening t hplain (hesc first List.mem_cons_self),
        findSome?_entryUrl_eq_none fun s hs => hesc s (List.mem_cons_of_mem _ hs), ih hclosing,
        foundIn_eq_false (segments_of_closing hback b'), opening_closing, hbehind]
      cases (if foundIn t then opening t else none) <;> rfl
    · rw [if_neg hcomma]
      have htext : t ++ paramsText ((b, p, b') :: params) =
          (t ++ ';' :: (b.text ++ p.text ++ b'.text)) ++ paramsText params := by
        simp [paramsText]
      have hnext : ',' ∉ t ++ ';' :: (b.text ++ p.text ++ b'.text) := by
        refine List.not_mem_append ht fun hmem => ?_
        rcases List.mem_cons.mp hmem with hsemi | hmem
        · exact absurd hsemi (by decide)
        · exact List.not_mem_append (List.not_mem_append (hblank b) hcomma) (hblank b') hmem
      rw [htext, ih hnext, opening_append, foundIn_append, any_segments_param]

/-- A text without quotes has no segment `rel="next"`. -/
theorem foundIn_of_dquote_notMem {t : Text} (h : dquote ∉ t) : foundIn t = false :=
  foundIn_eq_false (segments_of_escaped (escaped_of_notMem h))

theorem stripBrackets_eq_none {t : Text} (h : '<' ∉ t ∨ '>' ∉ t) : stripBrackets t = none := by
  cases t with
  | nil => rfl
  | cons c rest =>
    rw [stripBrackets, if_neg]
    rintro ⟨rfl, hlast⟩
    have hmem := List.mem_of_getLast? hlast
    simp [hmem] at h

/-- A text opens with a target only if its first segment has both brackets. -/
theorem opening_eq_none {t : Text} (h : '<' ∉ t ∨ ∃ front back, t = front ++ ';' :: back ∧
    ';' ∉ front ∧ '>' ∉ front) : opening t = none := by
  rcases h with hno | ⟨front, back, rfl, hsep, hno⟩
  · obtain ⟨first, rest, hsplit⟩ := List.exists_cons_of_ne_nil (List.splitOn_ne_nil ';' t)
    have hfirst : '<' ∉ first := notMem_of_splitOn hno first (hsplit ▸ List.mem_cons_self)
    rw [opening, hsplit]
    exact stripBrackets_eq_none (.inl fun hmem => hfirst (mem_of_mem_trim hmem))
  · rw [opening_append, opening, List.splitOn_eq_singleton hsep]
    exact stripBrackets_eq_none (.inr fun hmem => hno (mem_of_mem_trim hmem))

theorem dquote_notMem_target (u : UriReference) : dquote ∉ u.text :=
  fun h => absurd (u.chars _ h) (by decide)

theorem dquote_notMem_blank (b : Blank) : dquote ∉ b.text := fun h => absurd (b.plain _ h) (by decide)

/-- The start of a link-value, before its parameters. -/
def linkStart (b : Blank) (l : LinkValue) : Text :=
  b.text ++ '<' :: (l.target.text ++ '>' :: l.afterTarget.text)

theorem dquote_notMem_linkStart (b : Blank) (l : LinkValue) : dquote ∉ linkStart b l := by
  simp [linkStart, dquote_notMem_blank, dquote_notMem_target, show dquote ≠ '<' by decide,
    show dquote ≠ '>' by decide]

/-- The start of a link-value gives the target when that is in one piece. -/
theorem opening_linkStart (b : Blank) (l : LinkValue) :
    opening (linkStart b l) = if ';' ∈ l.target.text then none else some l.target.text := by
  have hblank (b : Blank) : ';' ∉ b.text := fun h => absurd (b.plain _ h) (by decide)
  split
  · next hsemi =>
    -- The first segment ends inside the brackets.
    obtain ⟨front, back, heq, hfront⟩ := List.eq_append_cons_of_mem hsemi
    have hclose (x : Char) (hx : x ∈ front) : isUriChar x = true :=
      l.target.chars x (by simp [heq, hx])
    refine opening_eq_none (.inr ⟨b.text ++ '<' :: front, back ++ '>' :: l.afterTarget.text,
      by simp [linkStart, heq], ?_, ?_⟩)
    · simp [hblank, hfront, show (';' : Char) ≠ '<' by decide]
    · intro hmem
      rcases List.mem_append.mp hmem with hin | hin
      · exact absurd (b.blank _ hin) (by decide)
      · rcases List.mem_cons.mp hin with h | h
        · exact absurd h (by decide)
        · exact absurd (hclose _ h) (by decide)
  · next hsemi =>
    have hsep : ';' ∉ linkStart b l := by
      simp [linkStart, hblank, hsemi, show (';' : Char) ≠ '<' by decide,
        show (';' : Char) ≠ '>' by decide]
    have htext : linkStart b l = b.text ++ '<' :: (l.target.text ++ ['>']) ++ l.afterTarget.text := by
      simp [linkStart]
    have htrim : trim (linkStart b l) = '<' :: (l.target.text ++ ['>']) := by
      rw [htext]
      have hends : '<' :: (l.target.text ++ ['>']) = ('<' :: l.target.text) ++ ['>'] := rfl
      exact trim_blank b l.afterTarget (by decide) (by decide) hends
    rw [opening, List.splitOn_eq_singleton hsep, List.head?_cons, Option.map_some, htrim,
      Option.bind_some, stripBrackets, if_pos ⟨rfl, List.getLast?_concat⟩, List.dropLast_concat]

/-- What a link-value yields, with the white space before it. -/
theorem findSome?_linkValue (b : Blank) (l : LinkValue) :
    ((b.text ++ l.text).splitOn ',').findSome? entryUrl = readLink l := by
  have hblank (b : Blank) : ',' ∉ b.text := fun h => absurd (b.plain _ h) (by decide)
  have htext : b.text ++ l.text = linkStart b l ++ paramsText l.params := by
    simp [LinkValue.text, linkStart]
  rw [htext, readLink]
  by_cases hcomma : ',' ∈ l.target.text
  · -- The cut inside the brackets leaves two texts that open with nothing.
    obtain ⟨front, last, heq, hlast⟩ := exists_last_cut hcomma
    have hstart : linkStart b l =
        (b.text ++ '<' :: front) ++ ',' :: (last ++ '>' :: l.afterTarget.text) := by
      simp [linkStart, heq]
    have hquote : dquote ∉ b.text ++ '<' :: front ∧ dquote ∉ last ++ '>' :: l.afterTarget.text := by
      have h := dquote_notMem_linkStart b l
      rw [hstart, List.mem_append, List.mem_cons, not_or, not_or] at h
      exact ⟨h.1, h.2.2⟩
    have hnone : opening (last ++ '>' :: l.afterTarget.text) = none := by
      refine opening_eq_none (.inl fun hmem => ?_)
      rcases List.mem_append.mp hmem with hin | hin
      · exact absurd (l.target.chars '<' (by simp [heq, hin])) (by decide)
      · rcases List.mem_cons.mp hin with h | h
        · exact absurd h (by decide)
        · exact absurd (l.afterTarget.blank _ h) (by decide)
    have hback : ',' ∉ last ++ '>' :: l.afterTarget.text := by
      simp [hlast, hblank, show (',' : Char) ≠ '>' by decide]
    rw [hstart, List.append_assoc, List.cons_append, List.splitOn_append_cons_self,
      List.findSome?_append, findSome?_entryUrl_eq_none fun s hs =>
        escaped_of_notMem (notMem_of_splitOn hquote.1 s hs), findSome?_params _ hback, hnone,
      foundIn_of_dquote_notMem hquote.2, if_pos (.inl hcomma)]
    rfl
  · have hstart : ',' ∉ linkStart b l := by
      simp [linkStart, hblank, hcomma, show (',' : Char) ≠ '<' by decide,
        show (',' : Char) ≠ '>' by decide]
    rw [findSome?_params _ hstart, opening_linkStart,
      foundIn_of_dquote_notMem (dquote_notMem_linkStart b l)]
    simp only [hcomma, false_or]

theorem findSome?_element (e : Element) :
    (e.text.splitOn ',').findSome? entryUrl = e.link.bind readLink := by
  obtain ⟨b, link⟩ := e
  cases link with
  | some l => exact findSome?_linkValue b l
  | none =>
    refine findSome?_entryUrl_eq_none fun s hs => escaped_of_notMem (notMem_of_splitOn ?_ s hs)
    simpa [Element.text] using dquote_notMem_blank b

/-- What `next_link_url` takes from a well-formed header. -/
theorem nextLinkUrl_text (header : Header) : nextLinkUrl header.text = readHeader header := by
  rw [nextLinkUrl, Header.text, readHeader]
  by_cases hnil : header = []
  · subst hnil
    rfl
  · rw [splitOn_intercalate _ (by simpa using hnil), findSome?_flatMap, List.findSome?_map]
    congr 1
    funext e
    exact findSome?_element e

end Seats

end Governance
