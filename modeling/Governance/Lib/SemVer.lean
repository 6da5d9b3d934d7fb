import Mathlib.Data.List.Basic
import Mathlib.Data.Nat.Basic
import Mathlib.Order.Basic

/-!
# Semantic Versions

A version is its three release numbers, the identifiers of its pre-release and those of its build.
`Higher` is the order of precedence: of two versions of one release the one without a pre-release is
higher, then the first identifiers that differ decide, then the number of them; a build counts for
nothing. `PaddedLt` is the order on lists of numbers that reads a missing number as 0.
-/

namespace SemVer

def isIdentifierChar (c : Char) : Bool := c.isAlphanum || c == '-'

/-- An identifier of a pre-release. -/
inductive Identifier where
  | numeric (n : ℕ)
  | alphanumeric (t : List Char) (nonempty : t ≠ [])
      (chars : ∀ c ∈ t, isIdentifierChar c = true) (some_nondigit : ∃ c ∈ t, c.isDigit = false)

def Identifier.text : Identifier → List Char
  | .numeric n => Nat.toDigits 10 n
  | .alphanumeric t _ _ _ => t

/-- A version. It has a pre-release or a build where the list of identifiers is not empty. -/
structure Version where
  major : ℕ
  minor : ℕ
  patch : ℕ
  pre : List Identifier
  build : List (List Char)
  build_nonempty : ∀ t ∈ build, t ≠ []
  build_chars : ∀ t ∈ build, ∀ c ∈ t, isIdentifierChar c = true

def joined (sep : Char) (parts : List (List Char)) : List Char :=
  match parts with
  | [] => []
  | parts => sep :: ['.'].intercalate parts

/-- A version as it is written. -/
def Version.text (v : Version) : List Char :=
  ['.'].intercalate [Nat.toDigits 10 v.major, Nat.toDigits 10 v.minor, Nat.toDigits 10 v.patch] ++
    (joined '-' (v.pre.map Identifier.text) ++ joined '+' v.build)

/-! ## Precedence -/

/-- The first numbers that differ decide, and a missing number is 0. -/
def PaddedLt (l l' : List ℕ) : Prop :=
  ∃ i, (∀ j < i, l.getD j 0 = l'.getD j 0) ∧ l.getD i 0 < l'.getD i 0

def Version.release (v : Version) : List ℕ := [v.major, v.minor, v.patch]

theorem PaddedLt.irrefl (l : List ℕ) : ¬ PaddedLt l l := by
  rintro ⟨i, -, hlt⟩
  exact lt_irrefl _ hlt

theorem PaddedLt.trans {l l' l'' : List ℕ} (h : PaddedLt l l') (h' : PaddedLt l' l'') :
    PaddedLt l l'' := by
  obtain ⟨i, hsame, hlt⟩ := h
  obtain ⟨k, hsame', hlt'⟩ := h'
  rcases lt_trichotomy i k with hik | rfl | hki
  · refine ⟨i, fun j hj => (hsame j hj).trans (hsame' j (hj.trans hik)), ?_⟩
    rw [← hsame' i hik]
    exact hlt
  · exact ⟨i, fun j hj => (hsame j hj).trans (hsame' j hj), hlt.trans hlt'⟩
  · refine ⟨k, fun j hj => (hsame j (hj.trans hki)).trans (hsame' j hj), ?_⟩
    rw [hsame k hki]
    exact hlt'

theorem isIdentifierChar_of_isDigit {c : Char} (h : c.isDigit = true) :
    isIdentifierChar c = true := by
  simp [isIdentifierChar, Char.isAlphanum, h]

theorem isDigit_of_mem_toDigits {n : ℕ} {c : Char} (h : c ∈ Nat.toDigits 10 n) :
    c.isDigit = true := Nat.isDigit_of_mem_toDigits (by decide) (by decide) h

theorem isIdentifierChar_of_mem_text {i : Identifier} {c : Char} (h : c ∈ i.text) :
    isIdentifierChar c = true := by
  cases i with
  | numeric n => exact isIdentifierChar_of_isDigit (isDigit_of_mem_toDigits h)
  | alphanumeric t _ chars _ => exact chars c h

end SemVer
