import Governance.Lib.SemVer
import Governance.Otel.Enrich

/-!
# The order of self-updates

`update/mod.rs`: `is_newer` compares the numbers in two version strings, one after the other, with 0
for what is no number and for what is missing. That is a strict order on strings, so updates cannot
go round. On Semantic Versions it looks at the numbers of pre-releases and builds as if they were
release numbers: the pre-release `1.0.0-rc.1` is newer than `1.0.0`.
-/

namespace Governance

open Utf8Text SemVer

namespace Update

/-- `str::trim_start_matches`, of a text. -/
def trimStartMatches (pat : Text) : ℕ → Text → Text
  | 0, t => t
  | fuel + 1, t => if pat <+: t then trimStartMatches pat fuel (t.drop pat.length) else t

/-- `normalise_version`. -/
def normaliseVersion (tag : Text) : Text :=
  (trimStartMatches "governance-auth-".toList tag.length tag).dropWhile (· == 'v')

/-- The separators of `parts`. -/
def isSeparator (c : Char) : Bool := c == '.' || c == '-' || c == '+'

/-- `parts` of `is_newer`. -/
def parts (v : Text) : List ℕ :=
  (v.splitOnP isSeparator).map fun p => (Otlp.parseU64 (String.ofList p)).getD 0

/-- The loop of `is_newer`, with as many turns left. -/
def newerFrom (a b : List ℕ) : ℕ → ℕ → Bool
  | 0, _ => false
  | turns + 1, i =>
    let x := a.getD i 0
    let y := b.getD i 0
    if x ≠ y then x > y else newerFrom a b turns (i + 1)

/-- `is_newer`. -/
def isNewer (candidate current : Text) : Bool :=
  let a := parts candidate
  let b := parts current
  newerFrom a b (max a.length b.length) 0

/-- The comparison of `run`. -/
def Newer (candidate current : Text) : Prop :=
  isNewer (normaliseVersion candidate) (normaliseVersion current) = true

/-! ## The order -/

theorem newerFrom_iff {a b : List ℕ} {turns i : ℕ} :
    newerFrom a b turns i = true ↔
      ∃ k, i ≤ k ∧ k < i + turns ∧ (∀ j, i ≤ j → j < k → b.getD j 0 = a.getD j 0) ∧
        b.getD k 0 < a.getD k 0 := by
  induction turns generalizing i with
  | zero =>
    constructor
    · intro h
      cases h
    · rintro ⟨k, hle, hlt, -⟩
      omega
  | succ turns ih =>
    rw [newerFrom]
    by_cases hxy : a.getD i 0 = b.getD i 0
    · simp only [hxy, ne_eq, not_true_eq_false, if_false, ih]
      constructor
      · rintro ⟨k, hle, hlt, hsame, hk⟩
        refine ⟨k, by omega, by omega, ?_, hk⟩
        intro j hj hjk
        rcases Nat.eq_or_lt_of_le hj with rfl | hj
        · exact hxy.symm
        · exact hsame j hj hjk
      · rintro ⟨k, hle, hlt, hsame, hk⟩
        have hne : i ≠ k := by
          rintro rfl
          omega
        exact ⟨k, by omega, by omega, fun j hj hjk => hsame j (by omega) hjk, hk⟩
    · simp only [ne_eq, hxy, not_false_eq_true, if_true, decide_eq_true_eq]
      constructor
      · intro hgt
        exact ⟨i, le_rfl, by omega, fun j hj hjk => by omega, hgt⟩
      · rintro ⟨k, hle, hlt, hsame, hk⟩
        rcases Nat.eq_or_lt_of_le hle with rfl | hik
        · exact hk
        · exact absurd (hsame i le_rfl hik).symm hxy

/-- `is_newer` compares the numbers of both, padded with zeros. -/
theorem isNewer_iff {candidate current : Text} :
    isNewer candidate current = true ↔ PaddedLt (parts current) (parts candidate) := by
  rw [isNewer, newerFrom_iff]
  constructor
  · rintro ⟨k, -, -, hsame, hk⟩
    exact ⟨k, fun j hj => hsame j (Nat.zero_le j) hj, hk⟩
  · rintro ⟨k, hsame, hk⟩
    refine ⟨k, Nat.zero_le k, ?_, fun j _ hj => hsame j hj, hk⟩
    -- behind the last number of both there is nothing but zeros
    by_contra hlen
    rw [List.getD_eq_default _ _ (by omega), List.getD_eq_default _ _ (by omega)] at hk
    exact lt_irrefl _ hk

/-! ## The numbers of a written version -/

theorem Newer.trans {s t u : Text} (h : Newer s t) (h' : Newer t u) : Newer s u :=
  isNewer_iff.2 (PaddedLt.trans (isNewer_iff.1 h') (isNewer_iff.1 h))

end Update

end Governance
