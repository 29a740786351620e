import ClassCatalog.Archive.Read
import ClassCatalog.Proofs.Archive.TypeRecords

/-! Items that were written are read back, one after another, once the tables are known. -/

namespace ClassCatalog.Archive

namespace Item

def nodes (i : Item String) : Nat := ReadTables.optionNodes i.ty?

def totalNodes (items : List (Item String)) : Nat := (items.map nodes).sum

theorem totalNodes_append (xs ys : List (Item String)) :
    totalNodes (xs ++ ys) = totalNodes xs + totalNodes ys := by
  rw [totalNodes, List.map_append, List.sum_append_nat]
  rfl

theorem totalNodes_flatMap {ι : Type} (items : ι → List (Item String)) (xs : List ι) :
    totalNodes (xs.flatMap items) = (xs.map fun x => totalNodes (items x)).sum :=
  sum_map_flatMap nodes items xs

theorem encodeAll_append (s : Symbols String) (xs ys : List (Item String)) :
    encodeAll s (xs ++ ys) = encodeAll s xs ++ encodeAll s ys := List.flatMap_append

theorem encodeAll_flatMap {ι : Type} (s : Symbols String) (items : ι → List (Item String))
    (xs : List ι) :
    encodeAll s (xs.flatMap items) = xs.flatMap fun x => encodeAll s (items x) :=
  List.flatMap_assoc

def isSolid : Item String → Bool
  | raw bytes => !bytes.isEmpty
  | _ => true

theorem length_encode_pos {s : Symbols String} {i : Item String} (h : i.isSolid = true) :
    0 < (encode s i).length := by
  cases i with
  | raw bytes =>
    apply List.length_pos_iff.2
    simpa [isSolid, encode] using h
  | name _ | name? _ | type _ | type? _ => exact Varint.length_encode_pos _

theorem length_encodeAll_pos {s : Symbols String} {i : Item String} (h : i.isSolid = true)
    (items : List (Item String)) :
    0 < (encodeAll s (i :: items)).length := by
  have hi := length_encode_pos (s := s) h
  rw [encodeAll, List.flatMap_cons, List.length_append]
  omega

structure Found (tables : ReadTables) (s : Symbols String) (i : Item String) : Prop where
  name : ∀ text ∈ i.text?, tables.FindsName s text
  type : ∀ ty ∈ i.ty?, tables.FindsType s ty

end Item

variable {tables : ReadTables} {s : Symbols String} {α β ι : Type}

/-- `p` reads items back as `a`, and pays for the types that they refer to. -/
def Restores (tables : ReadTables) (s : Symbols String) (p : Metered α)
    (items : List (Item String)) (a : α) :
    Prop :=
  (∀ i ∈ items, i.Found tables s) →
    Metered.Reads p (Item.encodeAll s items) (Item.totalNodes items) True a

namespace Restores

theorem pure (a : α) : Restores tables s (Pure.pure a) [] a := fun _ => Metered.Reads.pure a

theorem bind {p : Metered α} {f : α → Metered β} {xs ys : List (Item String)} {a : α} {b : β}
    (hp : Restores tables s p xs a) (hf : Restores tables s (f a) ys b) :
    Restores tables s (p >>= f) (xs ++ ys) b := by
  intro h
  have hxs := hp fun i hi => h i (List.mem_append_left ys hi)
  have hys := hf fun i hi => h i (List.mem_append_right xs hi)
  exact (hxs.bind hys).congr (Item.encodeAll_append s xs ys).symm
    (Item.totalNodes_append xs ys).symm (by simp)

theorem cons {p : Metered α} {f : α → Metered β} {i : Item String} {items : List (Item String)}
    {a : α} {b : β}
    (hp : Restores tables s p [i] a) (hf : Restores tables s (f a) items b) :
    Restores tables s (p >>= f) (i :: items) b := hp.bind hf

theorem map {p : Metered α} {items : List (Item String)} {a : α} (f : α → β)
    (h : Restores tables s p items a) : Restores tables s (do return f (← p)) items (f a) :=
  fun hfound => (h hfound).map f

theorem map_back {p : Metered α} {items : List (Item String)} {a : α} {b : β}
    (h : Restores tables s p items a)
    (f : α → β) (hf : f a = b) : Restores tables s (do return f (← p)) items b := by
  rw [← hf]
  exact h.map f

theorem raw {p : Scanner α} {bytes : List UInt8} {a : α} (h : p.Takes bytes a) :
    Restores tables s (liftM p) [.raw bytes] a :=
  fun _ => (Metered.Reads.lift h).congr (List.append_nil bytes).symm rfl .rfl

theorem name (text : String) : Restores tables s (liftM tables.name) [.name text] text := by
  intro hfound
  have h := ReadTables.takes_name ((hfound _ List.mem_cons_self).name text rfl)
  exact (Metered.Reads.lift h).congr (List.append_nil _).symm rfl .rfl

theorem name? (text : Option String) :
    Restores tables s (liftM tables.name?) [.name? text] text := by
  intro hfound
  have h := ReadTables.takes_name? (hfound _ List.mem_cons_self).name
  exact (Metered.Reads.lift h).congr (List.append_nil _).symm rfl .rfl

theorem type (ty : Ty String) : Restores tables s tables.type [.type ty] ty := by
  intro hfound
  have h := ReadTables.reads_type ((hfound _ List.mem_cons_self).type ty rfl)
  exact h.congr (List.append_nil _).symm (Nat.add_zero _).symm .rfl

theorem type? (ty : Option (Ty String)) : Restores tables s tables.type? [.type? ty] ty := by
  intro hfound
  have h := ReadTables.reads_type? (hfound _ List.mem_cons_self).type
  exact h.congr (List.append_nil _).symm (Nat.add_zero _).symm .rfl

theorem counted {item : Metered α} (items : ι → List (Item String)) (value : ι → α) (xs : List ι)
    (hpos : ∀ x ∈ xs, 0 < (Item.encodeAll s (items x)).length)
    (h : ∀ x ∈ xs, Restores tables s item (items x) (value x)) :
    Restores tables s (Archive.counted item) (Item.counted items xs) (xs.map value) := by
  intro hfound
  have hitems : ∀ x ∈ xs, Metered.Reads item (Item.encodeAll s (items x))
      (Item.totalNodes (items x)) True (value x) := by
    intro x hx
    refine h x hx fun i hi => hfound i (List.mem_cons_of_mem _ ?_)
    exact List.mem_flatMap.2 ⟨x, hx, hi⟩
  have hread := Metered.Reads.counted _ _ _ value xs hpos hitems
  refine hread.congr ?_ ?_ (by simp)
  · rw [← Item.encodeAll_flatMap]
    rfl
  · rw [← Item.totalNodes_flatMap]
    exact (Nat.zero_add _).symm

theorem count {f : Nat → Metered β} {n : Nat} {items : List (Item String)} {b : β}
    (hn : n ≤ (Item.encodeAll s items).length) (hf : Restores tables s (f n) items b) :
    Restores tables s (liftM Scanner.count >>= f) (.number n :: items) b := by
  intro hfound
  have hitems := hf fun i hi => hfound i (List.mem_cons_of_mem _ hi)
  exact (Metered.Reads.count_bind hn hitems).congr rfl (Nat.zero_add _).symm .rfl

theorem typeList (ts : List (Ty String)) :
    Restores tables s tables.typeList (Item.types ts) ts := by
  have h : Restores tables s tables.typeList (Item.types ts) (ts.map id) :=
    counted (fun t => [.type t]) id ts (fun t _ => Item.length_encodeAll_pos rfl [])
      fun t _ => type t
  rwa [List.map_id] at h

theorem byte (b : UInt8) : Restores tables s (liftM Scanner.byte) [.byte b] b :=
  raw (Scanner.takes_byte b)

theorem bool (b : Bool) : Restores tables s (liftM Scanner.bool) [.bool b] b :=
  raw (Scanner.takes_bool b)

theorem number {n limit : Nat} (hn : n < limit) (hlimit : limit ≤ UInt64.size) :
    Restores tables s (liftM (Scanner.varintBelow limit)) [.number n] n :=
  raw (Scanner.takes_varintBelow hn hlimit)

theorem flags (f : AccessFlags) : Restores tables s readFlags [.flags f] f := by
  refine map_back (number f.bits.toNat_lt (by decide)) _ ?_
  rw [UInt16.ofNat_toNat]

end Restores

theorem Zigzag.encode_lt {z : Int} (hl : Int64.minValue.toInt ≤ z) (hg : z ≤ Int64.maxValue.toInt) :
    encode z < UInt64.size := by
  have hleast : Int64.minValue.toInt = -9223372036854775808 := by decide
  have hgreatest : Int64.maxValue.toInt = 9223372036854775807 := by decide
  show encode z < 18446744073709551616
  cases z with
  | ofNat n =>
    rw [encode]
    simp only [Int.ofNat_eq_natCast] at hg
    omega
  | negSucc n =>
    rw [encode]
    rw [Int.negSucc_eq] at hl
    omega

end ClassCatalog.Archive
