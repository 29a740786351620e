import ClassCatalog.Archive.Item
import ClassCatalog.Index

/-! Writing an index as an archive. What a version cannot hold is left out. -/

namespace ClassCatalog.Archive

variable {ν : Type}

/-- A class as it is written: its head and one record for each annotation. -/
structure ClassRecord (ν : Type) where
  head : List (Item ν)
  annotations : List (List (Item ν))

namespace ClassRecord

def ofClass (v : Version) (c : ClassDecl ν) : ClassRecord ν where
  head := headItems v c
  annotations := (c.annotations.filter v.holds).map useItems

def items (r : ClassRecord ν) : List (Item ν) := r.head ++ r.annotations.flatten

variable [DecidableEq ν] [Hashable ν]

def recordBytes (s : Symbols ν) (items : List (Item ν)) : List UInt8 :=
  let bytes := Item.encodeAll s items
  Varint.encode bytes.length ++ bytes

def bytes (s : Symbols ν) (r : ClassRecord ν) : List UInt8 :=
  Item.encodeAll s r.head ++ Varint.encode r.annotations.length
    ++ r.annotations.flatMap (recordBytes s)

end ClassRecord

section Encode

variable [DecidableEq ν] [Hashable ν]

def symbolsOf (records : List (ClassRecord ν)) : Symbols ν :=
  (records.flatMap ClassRecord.items).foldl Item.addTo .empty

def encodeClasses (text : ν → String) (v : Version) (cs : List (ClassDecl ν)) : List UInt8 :=
  let records := cs.map (ClassRecord.ofClass v)
  let symbols := symbolsOf records
  magic ++ [UInt8.ofNat v.number] ++ symbols.bytes text
    ++ Varint.encode records.length ++ records.flatMap (ClassRecord.bytes symbols)

end Encode

def writeClasses (v : Version) (cs : List (ClassDecl String)) : List UInt8 := encodeClasses id v cs

def write (v : Version) (i : Index) : List UInt8 := writeClasses v i.classes

end ClassCatalog.Archive
