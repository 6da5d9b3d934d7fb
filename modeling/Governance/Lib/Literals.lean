import Mathlib

/-!
# String literals

A literal is `String.ofList` of its characters. What holds of these characters holds of the text of
the literal, and nothing has to decode its bytes.
-/

namespace Literals

variable {l m : List Char}

theorem notMem_toList {c : Char} (h : c ∉ l) : c ∉ (String.ofList l).toList := by
  rwa [String.toList_ofList]

theorem forall_mem_toList {P : Char → Prop} (h : ∀ c ∈ l, P c) :
    ∀ c ∈ (String.ofList l).toList, P c := by
  rwa [String.toList_ofList]

theorem length_toList {n : ℕ} (h : l.length = n) : (String.ofList l).toList.length = n := by
  rwa [String.toList_ofList]

theorem length_toList_eq (h : l.length = m.length) :
    (String.ofList l).toList.length = (String.ofList m).toList.length := by
  rwa [String.toList_ofList, String.toList_ofList]

theorem nodup_toList (h : l.Nodup) : (String.ofList l).toList.Nodup := by
  rwa [String.toList_ofList]

theorem toList_ne (h : l ≠ m) : (String.ofList l).toList ≠ (String.ofList m).toList := by
  rwa [String.toList_ofList, String.toList_ofList]

end Literals
