import ClassCatalog.Proofs.ClassFile.Container
import ClassCatalog.Proofs.ClassFile.SignatureFile

/-! Numbers are read back from their bytes, and the constant pool of a container holds each entry
under the number that is counted for it. -/

namespace ClassCatalog.ClassFile

open PoolEntry (At Spells NamesClass widths)

theorem length_bigEndianBytes (width n : Nat) : (bigEndianBytes width n).length = width := by
  induction width generalizing n with
  | zero => rfl
  | succ width ih => rw [bigEndianBytes, List.length_append, ih, List.length_singleton]

theorem bigEndian_concat (bytes : List UInt8) (b : UInt8) :
    bigEndian (bytes ++ [b]) = bigEndian bytes * 256 + b.toNat := by
  simp only [bigEndian, List.foldl_append, List.foldl_cons, List.foldl_nil]

theorem bigEndian_bigEndianBytes {width n : Nat} (h : n < Nat.pow 256 width) :
    bigEndian (bigEndianBytes width n) = n := by
  induction width generalizing n with
  | zero =>
    obtain rfl : n = 0 := Nat.lt_one_iff.1 h
    rfl
  | succ width ih =>
    have hpow : Nat.pow 256 (width + 1) = Nat.pow 256 width * 256 := rfl
    have hlow : (UInt8.ofNat (n % 256)).toNat = n % 256 :=
      UInt8.toNat_ofNat_of_lt (Nat.mod_lt n (by decide))
    rw [bigEndianBytes, bigEndian_concat, ih (by omega), hlow]
    omega

namespace Reader

variable {α β : Type}

def Takes (p : Reader α) (bytes : List UInt8) (a : α) : Prop :=
  ∀ rest offset, p.run ⟨bytes ++ rest, offset⟩ = .ok (a, ⟨rest, offset + bytes.length⟩)

theorem takes_pure (a : α) : Takes (pure a) [] a := fun _ _ => rfl

namespace Takes

theorem bind {p : Reader α} {k : α → Reader β} {front back : List UInt8} {a : α} {b : β}
    (hp : p.Takes front a) (hk : (k a).Takes back b) : (p >>= k).Takes (front ++ back) b := by
  intro rest offset
  rw [List.append_assoc, run_bind_of_ok (hp (back ++ rest) offset), hk, List.length_append,
    Nat.add_assoc]

theorem bind_last {p : Reader α} {k : α → Reader β} {bytes : List UInt8} {a : α} {b : β}
    (hp : p.Takes bytes a) (hk : (k a).Takes [] b) : (p >>= k).Takes bytes b := by
  have h := hp.bind hk
  rwa [List.append_nil] at h

theorem lift_bind {e : Except DecodeError α} {k : α → Reader β} {bytes : List UInt8} {a : α}
    {b : β} (he : e = .ok a) (hk : (k a).Takes bytes b) :
    (liftM e >>= k : Reader β).Takes bytes b := by
  rw [he]
  exact hk

theorem mapped {p : Reader α} {bytes : List UInt8} {a : α} (f : α → β) (h : p.Takes bytes a) :
    (f <$> p).Takes bytes (f a) := by
  rw [← bind_pure_comp]
  exact h.bind_last (takes_pure (f a))

end Takes

theorem takes_bytes (front : List UInt8) : (bytes front.length).Takes front front :=
  run_bytes front

theorem takes_number (width : Nat) {n : Nat} (h : n < Nat.pow 256 width) :
    (bigEndian <$> bytes width : Reader Nat).Takes (bigEndianBytes width n) n := by
  have hbytes := (takes_bytes (bigEndianBytes width n)).mapped bigEndian
  rwa [bigEndian_bigEndianBytes h, length_bigEndianBytes] at hbytes

theorem takes_u1 (b : UInt8) : u1.Takes [b] b.toNat := by
  have hvalue : bigEndian [b] = b.toNat := by simp [bigEndian]
  have hbytes := (takes_bytes [b]).mapped bigEndian
  rwa [hvalue] at hbytes

theorem takes_u2 (w : UInt16) : u2.Takes (wordBytes w) w.toNat := takes_number 2 w.toNat_lt

theorem takes_word (w : UInt16) : word.Takes (wordBytes w) w := by
  have hword := (takes_u2 w).mapped UInt16.ofNat
  rwa [UInt16.ofNat_toNat] at hword

end Reader

namespace PoolEntry

open Reader

def slots (e : PoolEntry) : List (Option Constant) :=
  if e.constant.isWide then [some e.constant, none] else [some e.constant]

theorem width_eq (e : PoolEntry) : e.width = if e.constant.isWide then 2 else 1 := by
  cases e <;> rfl

theorem width_pos (e : PoolEntry) : 0 < e.width := by
  cases e <;> exact Nat.succ_pos _

theorem widths_cons (e : PoolEntry) (entries : List PoolEntry) :
    widths (e :: entries) = e.width + widths entries := List.sum_cons

theorem length_le_widths (entries : List PoolEntry) : entries.length ≤ widths entries := by
  induction entries with
  | nil => exact Nat.le_refl 0
  | cons e entries ih =>
    have hpos := e.width_pos
    rw [widths_cons, List.length_cons]
    omega

theorem length_slots (e : PoolEntry) : e.slots.length = e.width := by
  cases e <;> rfl

theorem length_flatMap_slots (entries : List PoolEntry) :
    (entries.flatMap slots).length = widths entries := by
  induction entries with
  | nil => rfl
  | cons e entries ih => rw [List.flatMap_cons, List.length_append, length_slots, ih, widths_cons]

theorem takes_readLink (kind : LinkKind) {payload : List UInt8}
    (h : payload.length = kind.payloadSize) :
    (Constant.readLink kind.payloadSize kind).Takes payload (.link kind) := by
  have hbytes := takes_bytes payload
  rw [h] at hbytes
  exact (hbytes.bind_last (takes_pure ())).bind_last (takes_pure (Constant.link kind))

theorem takes_read (e : PoolEntry) (index : Nat) :
    (Constant.read index).Takes e.bytes e.constant := by
  cases e with
  | utf8 text fits =>
    refine (takes_u1 1).bind ((takes_number 2 fits).bind ?_)
    exact (takes_bytes text).bind_last (takes_pure _)
  | integer value =>
    have hvalue : Int32.ofNat value.toUInt32.toNat = value := by
      rw [← UInt32.toInt32_ofNat', UInt32.ofNat_toNat, Int32.toInt32_toUInt32]
    refine (takes_u1 3).bind ((takes_number 4 value.toUInt32.toNat_lt).bind_last ?_)
    rw [hvalue]
    exact takes_pure _
  | float value =>
    refine (takes_u1 4).bind ((takes_number 4 value.bits.toNat_lt).bind_last ?_)
    rw [UInt32.ofNat_toNat]
    exact takes_pure _
  | long value =>
    have hvalue : Int64.ofNat value.toUInt64.toNat = value := by
      rw [← UInt64.toInt64_ofNat', UInt64.ofNat_toNat, Int64.toInt64_toUInt64]
    refine (takes_u1 5).bind ((takes_number 8 value.toUInt64.toNat_lt).bind_last ?_)
    rw [hvalue]
    exact takes_pure _
  | double value =>
    refine (takes_u1 6).bind ((takes_number 8 value.bits.toNat_lt).bind_last ?_)
    rw [UInt64.ofNat_toNat]
    exact takes_pure _
  | classRef name => exact (takes_u1 7).bind ((takes_u2 name).bind_last (takes_pure _))
  | nameAndType name descriptor =>
    exact (takes_u1 12).bind ((takes_u2 name).bind ((takes_u2 descriptor).bind_last (takes_pure _)))
  | link kind payload fits =>
    have hlink := takes_readLink kind fits
    cases kind <;> exact (takes_u1 _).bind hlink

theorem run_readFrom {entries : List PoolEntry} {count fuel : Nat}
    (slots : Array (Option Constant)) (hcount : slots.size + widths entries ≤ count)
    (hfuel : entries.length ≤ fuel) (rest : List UInt8) (offset : Nat) :
    (ConstantPool.readFrom count fuel slots).run ⟨entries.flatMap bytes ++ rest, offset⟩
      = (ConstantPool.readFrom count (fuel - entries.length)
          ⟨slots.toList ++ entries.flatMap PoolEntry.slots⟩).run
        ⟨rest, offset + (entries.flatMap bytes).length⟩ := by
  induction entries generalizing slots fuel offset with
  | nil => simp
  | cons e entries ih =>
    have hpos := e.width_pos
    rw [widths_cons] at hcount
    cases fuel with
    | zero => exact absurd hfuel (Nat.not_succ_le_zero _)
    | succ fuel =>
      have hread := e.takes_read slots.size (entries.flatMap bytes ++ rest) offset
      rw [ConstantPool.readFrom, if_pos (by omega), List.flatMap_cons, List.append_assoc,
        run_bind_of_ok hread, List.length_append, ← Nat.add_assoc, List.length_cons,
        Nat.add_sub_add_right]
      cases hwide : e.constant.isWide with
      | false =>
        have hwidth : e.width = 1 := by rw [width_eq, hwide]; rfl
        have hlist : slots.toList ++ (e :: entries).flatMap PoolEntry.slots
            = (slots.push (some e.constant)).toList ++ entries.flatMap PoolEntry.slots := by
          simp [PoolEntry.slots, hwide]
        rw [hlist]
        exact ih _ (by rw [Array.size_push]; omega) (Nat.le_of_succ_le_succ hfuel) _
      | true =>
        have hwidth : e.width = 2 := by rw [width_eq, hwide]; rfl
        have hlist : slots.toList ++ (e :: entries).flatMap PoolEntry.slots
            = ((slots.push (some e.constant)).push none).toList
              ++ entries.flatMap PoolEntry.slots := by
          simp [PoolEntry.slots, hwide]
        rw [hlist, if_pos rfl, if_pos (by omega)]
        exact ih _ (by rw [Array.size_push, Array.size_push]; omega)
          (Nat.le_of_succ_le_succ hfuel) _

theorem takes_readFrom {entries : List PoolEntry} {count fuel : Nat}
    (slots : Array (Option Constant)) (hcount : slots.size + widths entries = count)
    (hfuel : entries.length ≤ fuel) :
    (ConstantPool.readFrom count fuel slots).Takes (entries.flatMap bytes)
      ⟨slots.toList ++ entries.flatMap PoolEntry.slots⟩ := by
  intro rest offset
  rw [run_readFrom slots (Nat.le_of_eq hcount) hfuel]
  -- The numbers are taken, however much fuel is left.
  cases fuel - entries.length with
  | zero => rfl
  | succ fuel =>
    have hsize : (Array.mk (slots.toList ++ entries.flatMap PoolEntry.slots)).size = count := by
      rw [List.size_toArray, List.length_append, length_flatMap_slots, Array.length_toList, hcount]
    rw [ConstantPool.readFrom, hsize, if_neg (Nat.lt_irrefl count)]
    rfl

def pool (entries : List PoolEntry) : ConstantPool := ⟨⟨none :: entries.flatMap slots⟩⟩

theorem takes_pool {entries : List PoolEntry} (h : widths entries < UInt16.size - 1) :
    ConstantPool.read.Takes
      (bigEndianBytes 2 (1 + widths entries) ++ entries.flatMap bytes) (pool entries) := by
  have hcount : 1 + widths entries < Nat.pow 256 2 := by
    have hsize : UInt16.size - 1 + 1 = Nat.pow 256 2 := by decide
    omega
  have hlength := length_le_widths entries
  refine (takes_number 2 hcount).bind ?_
  exact (takes_readFrom #[none] rfl (by omega)).bind_last (takes_pure _)

theorem head_slots (e : PoolEntry) (k : Nat) (c : Constant) :
    e.slots[k]? = some (some c) ↔ k = 0 ∧ e.constant = c := by
  unfold slots
  split
  · match k with
    | 0 | 1 | k + 2 => simp
  · match k with
    | 0 | k + 1 => simp

theorem getElem?_slots_iff (entries : List PoolEntry) (k : Nat) (c : Constant) :
    (entries.flatMap slots)[k]? = some (some c)
      ↔ ∃ front e back, entries = front ++ e :: back ∧ k = widths front ∧ e.constant = c := by
  constructor
  · intro h
    induction entries generalizing k with
    | nil => simp at h
    | cons e entries ih =>
      rw [List.flatMap_cons, List.getElem?_append] at h
      split at h
      · obtain ⟨rfl, hc⟩ := (e.head_slots k c).1 h
        exact ⟨[], e, entries, rfl, rfl, hc⟩
      · next hk =>
        obtain ⟨front, e', back, rfl, hwidths, hc⟩ := ih _ h
        refine ⟨e :: front, e', back, rfl, ?_, hc⟩
        rw [length_slots] at hk hwidths
        rw [widths_cons]
        omega
  · rintro ⟨front, e, back, rfl, rfl, hc⟩
    rw [List.flatMap_append, List.flatMap_cons, ← length_flatMap_slots front,
      List.getElem?_append_right (Nat.le_refl _), Nat.sub_self, List.getElem?_append_left]
    · exact (e.head_slots 0 c).2 ⟨rfl, hc⟩
    · rw [length_slots]
      exact e.width_pos

theorem get_pool_iff (entries : List PoolEntry) (index : Nat) (c : Constant) :
    (pool entries).get index = .ok c ↔ ∃ e, At entries index e ∧ e.constant = c := by
  have hget : (pool entries).get index = .ok c
      ↔ (none :: entries.flatMap slots)[index]? = some (some c) := by
    unfold ConstantPool.get
    have hslots : (pool entries).slots[index]? = (none :: entries.flatMap slots)[index]? :=
      List.getElem?_toArray
    rw [hslots]
    split
    · next e he => rw [he]; simp
    · next hne =>
      constructor
      · exact nofun
      · exact fun h => absurd h (hne c)
  rw [hget]
  cases index with
  | zero =>
    constructor
    · exact nofun
    · rintro ⟨_, ⟨front, _, _, hindex⟩, _⟩
      omega
  | succ k =>
    rw [List.getElem?_cons_succ, getElem?_slots_iff]
    constructor
    · rintro ⟨front, e, back, hentries, rfl, hc⟩
      exact ⟨e, ⟨front, back, hentries, Nat.add_comm _ _⟩, hc⟩
    · rintro ⟨e, ⟨front, back, hentries, hindex⟩, hc⟩
      exact ⟨front, e, back, hentries, by omega, hc⟩

variable {entries : List PoolEntry} {index : Nat} {text : String}

theorem Spells.utf8 (h : Spells entries index text) : (pool entries).utf8 index = .ok text := by
  obtain ⟨bytes, fits, hat, htext⟩ := h
  exact utf8_of_get ((get_pool_iff _ _ _).2 ⟨_, hat, rfl⟩) htext

theorem NamesClass.className (h : NamesClass entries index text) :
    (pool entries).className index = .ok text := by
  obtain ⟨name, hat, hspells⟩ := h
  have hget : (pool entries).get index = .ok (.classRef name.toNat) :=
    (get_pool_iff _ _ _).2 ⟨_, hat, rfl⟩
  rw [ConstantPool.className, hget]
  exact hspells.utf8

theorem Spells.unique {other : String} (h : Spells entries index text)
    (h' : Spells entries index other) : text = other :=
  Except.ok.inj (h.utf8.symm.trans h'.utf8)

theorem NamesClass.unique {other : String} (h : NamesClass entries index text)
    (h' : NamesClass entries index other) : text = other :=
  Except.ok.inj (h.className.symm.trans h'.className)

end PoolEntry

end ClassCatalog.ClassFile
