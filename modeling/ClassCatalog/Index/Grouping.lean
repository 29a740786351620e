import Std.Data.TreeMap
import ClassCatalog.Index.Reach

/-! Values grouped under keys, each group in the order of the list it comes from. -/

namespace ClassCatalog

abbrev Grouping (β : Type) := Std.TreeMap String (List β)

namespace Grouping

variable {β : Type}

def add (pair : String × β) (g : Grouping β) : Grouping β :=
  g.alter pair.1 fun group => some (pair.2 :: group.getD [])

def ofPairs (pairs : List (String × β)) : Grouping β := pairs.foldr add ∅

def group (g : Grouping β) (key : String) : List β := (g.get? key).getD []

def steps (g : Grouping String) : Steps String where
  next := g.group
  finite := by
    refine ⟨g.toList.flatMap (·.2), fun key value hvalue => ?_⟩
    rw [group] at hvalue
    cases hget : g.get? key with
    | none =>
      rw [hget] at hvalue
      exact absurd hvalue List.not_mem_nil
    | some values =>
      rw [hget] at hvalue
      refine List.mem_flatMap.2 ⟨(key, values), ?_, hvalue⟩
      exact Std.TreeMap.mem_toList_iff_getElem?_eq_some.2 hget

end Grouping

end ClassCatalog
