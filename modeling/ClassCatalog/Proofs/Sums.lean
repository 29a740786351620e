import Mathlib.Algebra.GroupWithZero.Nat
import Mathlib.Algebra.Order.BigOperators.Group.List
import Mathlib.Algebra.Order.Group.Nat

/-! Sums over lists that are spelled out element by element, and the lengths of such spellings. -/

namespace ClassCatalog

variable {ι κ β : Type} {spell : ι → List β} {xs : List ι}

theorem sum_map_flatMap (measure : κ → Nat) (f : ι → List κ) (xs : List ι) :
    ((xs.flatMap f).map measure).sum = (xs.map fun x => ((f x).map measure).sum).sum := by
  rw [List.map_flatMap, List.flatMap_def, List.sum_flatten, List.map_map]
  rfl

theorem length_le_length_flatMap (h : ∀ x ∈ xs, 0 < (spell x).length) :
    xs.length ≤ (xs.flatMap spell).length := by
  have hsum := List.length_le_sum_of_one_le (xs.map fun x => (spell x).length)
    (List.forall_mem_map.2 h)
  rwa [List.length_map, ← List.length_flatMap] at hsum

theorem length_flatMap_le {most : Nat} (h : ∀ x ∈ xs, (spell x).length ≤ most) :
    (xs.flatMap spell).length ≤ xs.length * most := by
  have hsum := List.sum_le_card_nsmul (xs.map fun x => (spell x).length) most
    (List.forall_mem_map.2 h)
  rwa [List.length_map, ← List.length_flatMap, Nat.nsmul_eq_mul] at hsum

theorem length_le_of_mem_flatMap {x : ι} (h : x ∈ xs) :
    (spell x).length ≤ (xs.flatMap spell).length := by
  rw [List.length_flatMap]
  exact List.le_sum_of_mem (List.mem_map_of_mem h)

end ClassCatalog
