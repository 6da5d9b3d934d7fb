import Governance.Lib.QuotedWords

/-!
# Words of a shell

The rules by which a POSIX shell and fish cut a line into words. A line with an operator, an
expansion or a pattern outside of quotes is more than a list of words and is not read.
-/

namespace ShellWords

open Utf8Text (Text)
open QuotedWords

/-! ## POSIX -/

def posixEscape : Quote → Text → Escape
  | .bare, [c] => .text (if c = '\n' then [] else [c])
  | .double, [c] =>
    if c = '$' ∨ c = '`' ∨ c = '"' ∨ c = '\\' then .text [c]
    else if c = '\n' then .text []
    else .text ['\\', c]
  | _, _ => .bad

/-- The shell of POSIX. Between single quotes a backslash stands for itself. -/
def posix : Rules where
  isBlank c := c = ' ' ∨ c = '\t'
  isSpecial
    | .bare, c => c ∈ ['|', '&', ';', '<', '>', '(', ')', '$', '`', '*', '?', '[', '\n']
    | .single, _ => false
    | .double, c => c = '$' ∨ c = '`'
  isSpecialFirst c := c = '#' ∨ c = '~'
  escapes q := q ≠ .single
  escape := posixEscape

theorem posix_frugal : Frugal posix where
  bare seen t h := by
    change posixEscape .bare seen = .text t at h
    unfold posixEscape at h
    split at h
    · rename_i c
      obtain rfl := Escape.text.inj h
      split <;> simp
    · rename_i heq
      cases heq
    · cases h
  quoted q seen t h := by
    change posixEscape q seen = .text t at h
    unfold posixEscape at h
    split at h
    · obtain rfl := Escape.text.inj h
      split <;> simp
    · split_ifs at h <;> obtain rfl := Escape.text.inj h <;> simp
    · cases h

/-- Words with blanks between them are read as they are by a shell if and only if they are plain. -/
theorem posix_read_intercalate_iff (words : List Text) :
    read posix ([' '].intercalate words) = some words ↔ ∀ w ∈ words, Plain posix w :=
  read_intercalate_self_iff rfl posix_frugal words

/-- The characters that a shell can take for more than themselves. -/
def posixMarks : List Char :=
  ['\\', '\'', '"', ' ', '\t', '\n', '|', '&', ';', '<', '>', '(', ')', '$', '`', '*', '?', '[',
    '#', '~']

theorem plain_of_notMem_posixMarks {word : Text} (hne : word ≠ [])
    (h : ∀ c ∈ word, c ∉ posixMarks) : Plain posix word := by
  simp only [posixMarks, List.mem_cons, List.not_mem_nil, not_or] at h
  refine ⟨hne, fun c hc => ?_, fun c hc => ?_⟩
  · have hsafe := h c hc
    have hmark : ¬ (Quote.ofMark c).isSome := by
      unfold Quote.ofMark
      split <;> simp_all
    simp_all [Ordinary, IsQuoting, posix]
  · have hsafe := h c (List.mem_of_mem_head? hc)
    simp_all [posix]

theorem plain_literal {l : List Char} (hne : l ≠ [])
    (h : l.all (fun c => c ∉ posixMarks) = true) : Plain posix (String.ofList l).toList := by
  rw [String.toList_ofList]
  refine plain_of_notMem_posixMarks hne fun c hc => ?_
  exact of_decide_eq_true (List.all_eq_true.mp h c hc)

/-- A word of letters, digits and hyphens needs no quotes. -/
theorem plain_posix {word : Text} (hne : word ≠ [])
    (h : ∀ c ∈ word, c.isAlphanum = true ∨ c = '-') : Plain posix word := by
  have hmarks : ∀ d ∈ posixMarks, d.isAlphanum = false ∧ d ≠ '-' := by simp [posixMarks]
  refine plain_of_notMem_posixMarks hne fun c hc hmem => ?_
  rcases h c hc with halpha | hhyphen
  · rw [(hmarks c hmem).1] at halpha
    cases halpha
  · exact (hmarks c hmem).2 hhyphen

/-- A single quote within single quotes: they are closed, it is escaped, they are opened. -/
def posixSpell (c : Char) : Text := if c = '\'' then "'\\''".toList else [c]

theorem spells_posix_single : Spells posix .single posixSpell ([·]) := by
  intro words word c
  rw [posixSpell]
  by_cases hc : c = '\''
  · subst hc
    simp [step, stepQuoted, stepBare, stepEscape, posix, posixEscape, Quote.ofMark, Reader.append]
  · have hmark : Quote.ofMark c ≠ some .single := mt Quote.ofMark_eq_single_iff.1 hc
    simp [step, stepQuoted, posix, hc, hmark, Reader.append]

/-! ## fish -/

def fishEscape : Quote → Text → Escape
  | .bare, [c] => if c.isAlphanum then .bad else .text (if c = '\n' then [] else [c])
  | .single, [c] => .text (if c = '\'' ∨ c = '\\' then [c] else ['\\', c])
  | .double, [c] =>
    if c = '$' ∨ c = '"' ∨ c = '\\' then .text [c]
    else if c = '\n' then .text []
    else .text ['\\', c]
  | _, _ => .bad

/-- fish. Between single quotes a backslash takes the meaning from a quote and from a backslash. -/
def fish : Rules where
  isBlank c := c = ' ' ∨ c = '\t'
  isSpecial
    | .bare, c =>
      c ∈ ['|', '&', ';', '<', '>', '(', ')', '$', '*', '?', '[', ']', '\x7b', '\x7d', '\n']
    | .single, _ => false
    | .double, c => c = '$' ∨ c = '('
  isSpecialFirst c := c = '#' ∨ c = '~' ∨ c = '%'
  escapes _ := true
  escape := fishEscape

def fishSpell (c : Char) : Text :=
  if c = '\\' then "\\\\".toList else if c = '\'' then "\\'".toList else [c]

theorem spells_fish_single : Spells fish .single fishSpell ([·]) := by
  intro words word c
  rw [fishSpell]
  by_cases hslash : c = '\\'
  · subst hslash
    simp [step, stepEscape, fish, fishEscape, Reader.append]
  · by_cases hc : c = '\''
    · subst hc
      simp [step, stepEscape, fish, fishEscape, Reader.append]
    · have hmark : Quote.ofMark c ≠ some .single := mt Quote.ofMark_eq_single_iff.1 hc
      simp [step, stepQuoted, fish, hslash, hc, hmark, Reader.append]

end ShellWords
