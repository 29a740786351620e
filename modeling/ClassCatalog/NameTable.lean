import ClassCatalog.Name
import ClassCatalog.Numbering
import ClassCatalog.Text.Split

/-! The table that gives texts their handles. Texts are spread over sixteen shards by a hash of
their last bytes; within a shard they are numbered as they come. -/

namespace ClassCatalog

structure NameTable where
  shards : Vector (Numbering String) 16

namespace NameTable

/-- Class names share long beginnings, so the last twelve bytes decide. -/
def shardOf (text : String) : Fin 16 :=
  let bytes := text.toUTF8.data.toList
  let tail := bytes.drop (bytes.length - 12)
  let hash : UInt32 := tail.foldl (fun hash byte => hash * 31 + byte.toUInt32) 0
  ⟨hash.toNat % 16, Nat.mod_lt _ (by decide)⟩

def find? (t : NameTable) (text : String) : Option Name :=
  (t.shards[shardOf text].slot? text).map (Name.mk (shardOf text))

def text? (t : NameTable) (n : Name) : Option String := t.shards[n.shard].value? n.slot

def text (t : NameTable) (n : Name) : String := (t.text? n).getD ""

/-- Interning does not fail here. Packed handles have room for `2 ^ 28` texts of a shard, and the
error of a shard that would grow beyond is left out. -/
def intern (text : String) (t : NameTable) : Name × NameTable :=
  let shard := shardOf text
  let (slot, numbering) := t.shards[shard].number text
  (⟨shard, slot⟩, ⟨t.shards.set shard numbering⟩)

/-- Interns a text that the caller gives away: one that the table has is only found. -/
def internOwned (text : String) (t : NameTable) : Name × NameTable :=
  match t.find? text with
  | some n => (n, t)
  | none => t.intern text

def size (t : NameTable) : Nat := t.shards.toList.foldl (fun n shard => n + shard.size) 0

def isEmpty (t : NameTable) : Bool := t.size ≤ 1

def wellKnown : List String :=
  ["java.lang.Object", "java.lang.Record", "java.lang.Enum", "java.lang.String", "java.lang.Class",
    "java.lang.annotation.Annotation", "<init>", "<clinit>", "value"]

def empty : NameTable := ⟨Vector.replicate 16 Numbering.empty⟩

/-- A fresh table holds the empty text, whose handle is `Name.empty`, and the well-known ones. -/
def fresh : NameTable := ("" :: wellKnown).foldl (fun t text => (t.intern text).2) empty

def localName (t : NameTable) (n : Name) : String := Text.afterLast '.' (t.text n)

def packageOf (t : NameTable) (n : Name) : Option String := Text.beforeLast? '.' (t.text n)

end NameTable

end ClassCatalog
