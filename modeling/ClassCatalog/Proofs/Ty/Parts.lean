import ClassCatalog.Ty
import ClassCatalog.Proofs.Sums

/-! The direct parts of a type, and its size and depth in terms of them. -/

namespace ClassCatalog

namespace Ty

variable {ν : Type}

/-- The types that a type is directly made of, in the order in which archives refer to them. -/
def parts : Ty ν → List (Ty ν)
  | array _ c => [c]
  | parameterized _ as => as
  | inner o _ as => o :: as
  | typeParameter _ _ bs => bs
  | bounded _ b => [b]
  | primitive _ | void | named _ | typeVariable _ | unresolved _ | wildcard _ => []

theorem listNodes_eq_sum (ts : List (Ty ν)) : listNodes ts = (ts.map nodes).sum := by
  induction ts with
  | nil => rfl
  | cons t ts ih => rw [listNodes, ih, List.map_cons, List.sum_cons]

theorem nodes_eq (t : Ty ν) : t.nodes = 1 + (t.parts.map nodes).sum := by
  cases t <;> simp [nodes, parts, listNodes_eq_sum, Nat.add_assoc]

theorem nodes_lt_of_mem_parts {t p : Ty ν} (h : p ∈ t.parts) : p.nodes < t.nodes := by
  have hle := List.le_sum_of_mem (List.mem_map_of_mem (f := nodes) h)
  rw [nodes_eq t]
  omega

theorem listDepth_le_iff (ts : List (Ty ν)) (d : Nat) :
    listDepth ts ≤ d ↔ ∀ t ∈ ts, t.depth ≤ d := by
  induction ts with
  | nil => simp [listDepth]
  | cons t ts ih => rw [listDepth, Nat.max_le, ih, List.forall_mem_cons]

theorem depth_eq (t : Ty ν) : t.depth = 1 + listDepth t.parts := by
  cases t <;> simp [depth, parts, listDepth]

theorem depth_le_iff (t : Ty ν) {d : Nat} (hd : 1 ≤ d) :
    t.depth ≤ d ↔ ∀ p ∈ t.parts, p.depth + 1 ≤ d := by
  have hlist := listDepth_le_iff t.parts (d - 1)
  rw [depth_eq]
  constructor
  · intro h p hp
    have hpart := hlist.1 (by omega) p hp
    omega
  · intro h
    have hparts := hlist.2 fun p hp => Nat.le_sub_one_of_lt (h p hp)
    omega

theorem depth_le_of_mem_parts {t p : Ty ν} {d : Nat} (h : t.depth ≤ d) (hp : p ∈ t.parts) :
    p.depth ≤ d := by
  have hparts : listDepth t.parts ≤ d := by
    rw [depth_eq] at h
    omega
  exact (listDepth_le_iff t.parts d).1 hparts p hp

theorem foldl_depth_eq (ts : List (Ty ν)) {d : Nat} (hd : 1 ≤ d) :
    ts.foldl (fun d t => max d (t.depth + 1)) d = max d (1 + listDepth ts) := by
  induction ts generalizing d with
  | nil =>
    rw [List.foldl_nil, listDepth]
    omega
  | cons t ts ih =>
    rw [List.foldl_cons, ih (Nat.le_trans hd (Nat.le_max_left ..)), listDepth]
    omega

end Ty

end ClassCatalog
