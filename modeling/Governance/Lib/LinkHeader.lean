import Governance.Lib.Cutting
import Governance.Lib.Utf8Decode

/-!
# Web links in a header

The `Link` header of RFC 8288 as a syntax tree: link-values with a target between angle brackets
and parameters, whose values are tokens or quoted strings, in a list separated by commas. `text`
writes a tree out, and `nextTargets` is what it means: the targets whose first `rel` parameter
lists the relation `next`.

A text that is cut at its commas and semicolons without regard to brackets and quotes falls into
pieces of the tree's parts. The second half says what such pieces can hold: of a quoted string
only quotes behind a backslash (`Escaped`).
-/

namespace LinkHeader

open Utf8Text Cutting

/-! ## Characters -/

/-- `"`. -/
def dquote : Char := Char.ofNat 0x22

/-- The backslash. -/
def backslash : Char := Char.ofNat 0x5C

/-- Space and tab. -/
def isBlank (c : Char) : Bool := c = ' ' || c = '\t'

def isVchar (c : Char) : Bool := 0x21 ≤ c.toNat && c.toNat ≤ 0x7E

/-- A byte outside ASCII. -/
def isObsText (c : Char) : Bool := 0x80 ≤ c.toNat && c.toNat ≤ 0xFF

/-- The characters of a URI reference: all visible ones but those that RFC 3986 leaves out, which
are the quote, the angle brackets, the backslash, `^`, the grave accent, the braces and `|`. -/
def isUriChar (c : Char) : Bool :=
  isVchar c && !([0x22, 0x3C, 0x3E, 0x5C, 0x5E, 0x60, 0x7B, 0x7C, 0x7D].contains c.toNat)

/-- The characters of a token: all visible ones but the delimiters, which are the quote, the
backslash and `(),/:;<=>?@[]` with the braces. -/
def isTokenChar (c : Char) : Bool :=
  isVchar c && !([0x22, 0x28, 0x29, 0x2C, 0x2F, 0x3A, 0x3B, 0x3C, 0x3D, 0x3E, 0x3F, 0x40, 0x5B,
    0x5C, 0x5D, 0x7B, 0x7D].contains c.toNat)

/-- What may follow a backslash in a quoted string. -/
def isQuotable (c : Char) : Bool := isBlank c || isVchar c || isObsText c

/-- What may stand in a quoted string by itself. -/
def isQdText (c : Char) : Bool := isQuotable c && c ≠ dquote && c ≠ backslash

/-! ## The tree -/

/-- Optional white space. -/
structure Blank where
  text : Text
  blank : ∀ c ∈ text, isBlank c = true

structure Token where
  text : Text
  nonempty : text ≠ []
  chars : ∀ c ∈ text, isTokenChar c = true

structure UriReference where
  text : Text
  chars : ∀ c ∈ text, isUriChar c = true

/-- A character of a quoted string, by itself or behind a backslash. -/
inductive QuotedUnit where
  | plain (c : Char) (h : isQdText c = true)
  | pair (c : Char) (h : isQuotable c = true)

namespace QuotedUnit

def text : QuotedUnit → Text
  | .plain c _ => [c]
  | .pair c _ => [backslash, c]

def value : QuotedUnit → Char
  | .plain c _ => c
  | .pair c _ => c

end QuotedUnit

inductive ParamValue where
  | token (t : Token)
  | quoted (units : List QuotedUnit)

namespace ParamValue

def text : ParamValue → Text
  | .token t => t.text
  | .quoted units => dquote :: units.flatMap QuotedUnit.text ++ [dquote]

def value : ParamValue → Text
  | .token t => t.text
  | .quoted units => units.map QuotedUnit.value

end ParamValue

/-- A parameter: its name, and its value with the white space around the equals sign. -/
structure LinkParam where
  name : Token
  assigned : Option (Blank × Blank × ParamValue)

def LinkParam.text (p : LinkParam) : Text :=
  p.name.text ++
    match p.assigned with
    | none => []
    | some (before, after, v) => before.text ++ '=' :: after.text ++ v.text

/-- A link-value, with the white space before and behind each parameter. -/
structure LinkValue where
  target : UriReference
  afterTarget : Blank
  params : List (Blank × LinkParam × Blank)

/-- The parameters of a link-value, each behind its semicolon. -/
def paramsText (params : List (Blank × LinkParam × Blank)) : Text :=
  params.flatMap fun p => ';' :: p.1.text ++ p.2.1.text ++ p.2.2.text

def LinkValue.text (l : LinkValue) : Text :=
  '<' :: l.target.text ++ '>' :: l.afterTarget.text ++ paramsText l.params

/-- An element of the list; a list may have empty elements. -/
structure Element where
  before : Blank
  link : Option LinkValue

def Element.text (e : Element) : Text :=
  e.before.text ++ (e.link.map LinkValue.text).getD []

/-- The elements of a header. -/
abbrev Header := List Element

def Header.text (header : Header) : Text := [','].intercalate (header.map Element.text)

/-! ## The meaning -/

/-- `eq_ignore_ascii_case`. -/
def eqIgnoreAsciiCase (a b : Text) : Bool := a.map Char.toLower = b.map Char.toLower

/-- The relation types that a `rel` parameter lists. -/
def LinkParam.relationTypes (p : LinkParam) : List Text :=
  match p.assigned with
  | none => []
  | some (_, _, v) => (v.value.splitOnP isBlank).filter fun t => t ≠ []

/-- The first `rel` parameter counts, and only that. -/
def LinkValue.isNext (l : LinkValue) : Bool :=
  ((l.params.map fun p => p.2.1).find? fun p => eqIgnoreAsciiCase p.name.text "rel".toList).any
    fun p => p.relationTypes.any fun t => eqIgnoreAsciiCase t "next".toList

/-- The targets with the relation `next`, in their order. -/
def Header.nextTargets (header : Header) : List Text :=
  ((header.filterMap Element.link).filter LinkValue.isNext).map fun l => l.target.text

/-! ## The pieces of the parts -/

/-- Every quote stands behind a backslash. -/
def Escaped (t : Text) : Prop :=
  ∀ front back, t = front ++ dquote :: back → front.getLast? = some backslash

theorem Escaped.nil : Escaped [] := by
  intro front back h
  simp at h

theorem Escaped.cons {c : Char} {t : Text} (h : Escaped t) (hc : c ≠ dquote) :
    Escaped (c :: t) := by
  intro front back heq
  cases front with
  | nil => exact absurd (List.cons.inj heq).1 hc
  | cons x front =>
    have hlast := h front back (List.cons.inj heq).2
    rw [List.getLast?_cons, hlast, Option.getD_some]

theorem Escaped.pair {c : Char} {t : Text} (h : Escaped t) : Escaped (backslash :: c :: t) := by
  intro front back heq
  match front with
  | [] => exact absurd (List.cons.inj heq).1 (by decide)
  | [x] =>
    rw [(List.cons.inj heq).1]
    rfl
  | x :: y :: front =>
    have hlast := h front back (List.cons.inj (List.cons.inj heq).2).2
    rw [List.getLast?_cons_cons, List.getLast?_cons, hlast, Option.getD_some]

/-- A quoted string has no other quotes inside. -/
theorem escaped_units (units : List QuotedUnit) : Escaped (units.flatMap QuotedUnit.text) := by
  induction units with
  | nil => exact Escaped.nil
  | cons u units ih =>
    rw [List.flatMap_cons]
    cases u with
    | plain c h =>
      refine ih.cons ?_
      rintro rfl
      simp [isQdText] at h
    | pair c h => exact ih.pair

/-- A cut anywhere but behind a backslash leaves both sides escaped. -/
theorem Escaped.cut {a : Char} (ha : a ≠ backslash) {front back : Text}
    (h : Escaped (front ++ a :: back)) : Escaped front ∧ Escaped back := by
  constructor
  · rintro f b rfl
    exact h f (b ++ a :: back) (by simp)
  · rintro f b rfl
    have hlast := h (front ++ a :: f) b (by simp)
    rw [List.getLast?_append, List.getLast?_cons] at hlast
    cases hf : f.getLast? with
    | none =>
      rw [hf] at hlast
      exact absurd (Option.some.inj hlast) ha
    | some c =>
      rw [hf] at hlast
      exact hlast

theorem Escaped.splitOn {a : Char} (ha : a ≠ backslash) {t : Text} (h : Escaped t) :
    ∀ piece ∈ t.splitOn a, Escaped piece :=
  forall_mem_splitOn (P := Escaped) (fun _ _ => Escaped.cut ha) h

/-- Without a backslash there is no quote. -/
theorem Escaped.dquote_notMem {t : Text} (h : Escaped t) (hno : backslash ∉ t) : dquote ∉ t := by
  intro hq
  obtain ⟨front, back, rfl⟩ := List.append_of_mem hq
  exact hno (List.mem_append_left _ (List.mem_of_getLast? (h front back rfl)))

/-- A character that is neither a separator nor part of a quoted string. -/
def isPlain (c : Char) : Bool := c ≠ ',' && c ≠ ';' && c ≠ dquote && c ≠ backslash

theorem Token.plain (t : Token) : ∀ c ∈ t.text, isPlain c = true := by
  intro c hc
  have htoken := t.chars c hc
  unfold isPlain
  simp only [Bool.and_eq_true, decide_eq_true_eq]
  refine ⟨⟨⟨?_, ?_⟩, ?_⟩, ?_⟩ <;>
  · rintro rfl
    revert htoken
    decide

theorem Blank.plain (b : Blank) : ∀ c ∈ b.text, isPlain c = true := by
  intro c hc
  have hblank := b.blank c hc
  simp only [isBlank, Bool.or_eq_true, decide_eq_true_eq] at hblank
  rcases hblank with rfl | rfl <;> decide

/-- A parameter is plain, or it is plain up to a quoted string at its end. -/
theorem LinkParam.text_shape (p : LinkParam) :
    (∀ c ∈ p.text, isPlain c = true) ∨
      ∃ head content, p.text = head ++ dquote :: content ++ [dquote] ∧
        (∀ c ∈ head, isPlain c = true) ∧ Escaped content := by
  obtain ⟨name, assigned⟩ := p
  cases assigned with
  | none => exact .inl (by simpa [LinkParam.text] using name.plain)
  | some value =>
    obtain ⟨before, after, v⟩ := value
    have hhead : ∀ c ∈ name.text ++ (before.text ++ '=' :: after.text), isPlain c = true := by
      simp only [List.forall_mem_append, List.forall_mem_cons]
      exact ⟨name.plain, before.plain, by decide, after.plain⟩
    cases v with
    | token t =>
      refine .inl fun c hc => ?_
      have htext : LinkParam.text ⟨name, some (before, after, .token t)⟩ =
          name.text ++ (before.text ++ '=' :: after.text) ++ t.text := by
        simp [LinkParam.text, ParamValue.text]
      rw [htext, List.mem_append] at hc
      exact hc.elim (hhead c) (t.plain c)
    | quoted units =>
      refine .inr ⟨name.text ++ (before.text ++ '=' :: after.text),
        units.flatMap QuotedUnit.text, ?_, hhead, escaped_units units⟩
      simp [LinkParam.text, ParamValue.text]

theorem isWhiteSpace_of_isBlank {c : Char} (h : isBlank c = true) : isWhiteSpace c = true := by
  simp only [isBlank, Bool.or_eq_true, decide_eq_true_eq] at h
  rcases h with rfl | rfl <;> decide

theorem isWhiteSpace_of_isVchar {c : Char} (h : isVchar c = true) : isWhiteSpace c = false := by
  simp only [isVchar, Bool.and_eq_true, decide_eq_true_eq] at h
  simp only [isWhiteSpace, Bool.or_eq_false_iff, Bool.and_eq_false_iff, decide_eq_false_iff_not]
  omega

theorem Blank.isWhiteSpace (b : Blank) : ∀ c ∈ b.text, Utf8Text.isWhiteSpace c = true :=
  fun c hc => isWhiteSpace_of_isBlank (b.blank c hc)

/-- White space around a text whose ends are none is trimmed. -/
theorem trim_blank (b b' : Blank) {first last : Char} {front back : Text}
    (hfirst : Utf8Text.isWhiteSpace first = false) (hlast : Utf8Text.isWhiteSpace last = false)
    (heq : first :: back = front ++ [last]) :
    trim (b.text ++ first :: back ++ b'.text) = first :: back := by
  rw [trim, List.append_assoc, List.dropWhile_append_of_pos b.isWhiteSpace, List.cons_append,
    List.dropWhile_cons_of_neg (by simp [hfirst]), ← List.cons_append, heq, List.rdropWhile,
    List.reverse_append, List.dropWhile_append_of_pos, List.reverse_concat,
    List.dropWhile_cons_of_neg (by simp [hlast]), ← List.reverse_concat, List.reverse_reverse]
  intro c hc
  exact b'.isWhiteSpace c (List.mem_reverse.mp hc)

theorem isVchar_of_isTokenChar {c : Char} (h : isTokenChar c = true) : isVchar c = true := by
  unfold isTokenChar at h
  exact (Bool.and_eq_true _ _ ▸ h).1

/-- A token ends with a visible character. -/
theorem Token.exists_last (t : Token) : ∃ front last, t.text = front ++ [last] ∧
    isVchar last = true := by
  rcases List.eq_nil_or_concat t.text with hnil | ⟨front, last, hlast⟩
  · exact absurd hnil t.nonempty
  · rw [List.concat_eq_append] at hlast
    exact ⟨front, last, hlast, isVchar_of_isTokenChar (t.chars last (by simp [hlast]))⟩

theorem LinkParam.exists_last (p : LinkParam) : ∃ front last, p.text = front ++ [last] ∧
    isVchar last = true := by
  obtain ⟨name, assigned⟩ := p
  cases assigned with
  | none => simpa [LinkParam.text] using name.exists_last
  | some value =>
    obtain ⟨before, after, v⟩ := value
    cases v with
    | token t =>
      obtain ⟨front, last, ht, hlast⟩ := t.exists_last
      refine ⟨name.text ++ (before.text ++ '=' :: after.text) ++ front, last, ?_, hlast⟩
      simp [LinkParam.text, ParamValue.text, ht]
    | quoted units =>
      refine ⟨name.text ++ (before.text ++ '=' :: after.text) ++
        dquote :: units.flatMap QuotedUnit.text, dquote, ?_, by decide⟩
      simp [LinkParam.text, ParamValue.text]

/-- A parameter is what is left of it and the white space around it. -/
theorem LinkParam.trim_text (p : LinkParam) (b b' : Blank) :
    trim (b.text ++ p.text ++ b'.text) = p.text := by
  obtain ⟨front, last, hlast, hvisible⟩ := p.exists_last
  obtain ⟨first, rest, hname⟩ := List.exists_cons_of_ne_nil p.name.nonempty
  obtain ⟨back, hback⟩ : ∃ back, p.text = first :: back := by
    rw [LinkParam.text, hname]
    exact ⟨_, rfl⟩
  have hfirst : isVchar first = true :=
    isVchar_of_isTokenChar (p.name.chars first (by simp [hname]))
  rw [hback] at hlast ⊢
  exact trim_blank b b' (isWhiteSpace_of_isVchar hfirst) (isWhiteSpace_of_isVchar hvisible) hlast

/-- What is left of a closing quote and the white space behind it. -/
theorem trim_closing (c : Text) (b : Blank) :
    trim (c ++ dquote :: b.text) = c.dropWhile Utf8Text.isWhiteSpace ++ [dquote] := by
  have hdrop : (c ++ dquote :: b.text).dropWhile Utf8Text.isWhiteSpace =
      c.dropWhile Utf8Text.isWhiteSpace ++ dquote :: b.text := by
    induction c with
    | nil => exact List.dropWhile_cons_of_neg (by decide)
    | cons x c ih =>
      rw [List.cons_append, List.dropWhile_cons, List.dropWhile_cons, ih]
      split <;> rfl
  rw [trim, hdrop, List.rdropWhile, List.reverse_append, List.reverse_cons, List.append_assoc,
    List.dropWhile_append_of_pos, List.singleton_append, List.dropWhile_cons_of_neg (by decide)]
  · simp
  · intro x hx
    exact b.isWhiteSpace x (List.mem_reverse.mp hx)

theorem mem_of_mem_trim {t : Text} {c : Char} (h : c ∈ trim t) : c ∈ t := by
  rw [trim, List.rdropWhile, List.mem_reverse] at h
  exact (List.dropWhile_suffix _).subset (List.mem_reverse.mp ((List.dropWhile_suffix _).subset h))

end LinkHeader
