import Std.Data.TreeMap
import ClassCatalog.ClassDecl
import ClassCatalog.Index.Error

/-! Classes under their names, in the order of the names. -/

namespace ClassCatalog

structure ClassTable where
  map : Std.TreeMap String (ClassDecl String)
  keyed : ∀ (name : String) (c : ClassDecl String), map[name]? = some c → c.name = name

namespace ClassTable

def empty : ClassTable where
  map := ∅
  keyed := by simp

def size (t : ClassTable) : Nat := t.map.size

def find? (t : ClassTable) (name : String) : Option (ClassDecl String) := t.map[name]?

def contains (t : ClassTable) (name : String) : Bool := t.map.contains name

def classes (t : ClassTable) : List (ClassDecl String) := t.map.values

def insert (t : ClassTable) (c : ClassDecl String) : Except IndexError ClassTable :=
  if t.contains c.name then .error (.duplicateClass c.name)
  else .ok
    { map := t.map.insert c.name c
      keyed := by
        intro name d h
        rw [Std.TreeMap.getElem?_insert] at h
        split at h
        · next he =>
          cases h
          exact Std.LawfulEqCmp.eq_of_compare he
        · exact t.keyed name d h }

def insertAll (t : ClassTable) (cs : List (ClassDecl String)) : Except IndexError ClassTable :=
  cs.foldlM insert t

end ClassTable

end ClassCatalog
