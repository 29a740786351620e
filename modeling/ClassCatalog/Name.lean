/-! Handles of interned names. -/

namespace ClassCatalog

/-- Stands for one text of a name table: the shard that holds the text and its slot there. -/
structure Name where
  shard : Fin 16
  slot : Nat
  deriving DecidableEq, Hashable, Repr

namespace Name

def empty : Name := ⟨0, 0⟩

def isEmpty (n : Name) : Bool := n == empty

/-- Four bits of shard above twenty-eight bits of slot. -/
def packed (n : Name) : UInt32 := UInt32.ofNat (n.shard.val * 0x10000000 + n.slot)

def ofPacked (bits : UInt32) : Name where
  shard := ⟨bits.toNat / 0x10000000 % 16, Nat.mod_lt _ (by decide)⟩
  slot := bits.toNat % 0x10000000

/-- Handles are ordered by their packed form, which follows interning and not text. -/
instance : Ord Name := ⟨fun a b => compare a.packed b.packed⟩

def describe (n : Name) : String :=
  "Name(" ++ toString n.shard.val ++ ":" ++ toString n.slot ++ ")"

theorem ofPacked_packed (n : Name) (h : n.slot < 0x10000000) : ofPacked n.packed = n := by
  obtain ⟨⟨shard, hs⟩, slot⟩ := n
  have hlt : shard * 0x10000000 + slot < UInt32.size := by
    simp only at h
    show shard * 0x10000000 + slot < 0x100000000
    omega
  have hnat : (UInt32.ofNat (shard * 0x10000000 + slot)).toNat = shard * 0x10000000 + slot :=
    UInt32.toNat_ofNat_of_lt' hlt
  simp only at h
  simp only [ofPacked, packed, hnat, Name.mk.injEq]
  constructor
  · apply Fin.ext
    show (shard * 0x10000000 + slot) / 0x10000000 % 16 = shard
    omega
  · omega

end Name

end ClassCatalog
