import Mathlib.Algebra.Group.Nat.Defs
import Mathlib.Data.List.Dedup
import ClassCatalog.NameTable
import ClassCatalog.Proofs.Numbering

/-! A name table only ever grows: a handle keeps its text, and a text keeps its handle. -/

namespace ClassCatalog.NameTable

variable {t u w : NameTable}

def Extends (t u : NameTable) : Prop := ∀ n text, t.text? n = some text → u.text? n = some text

theorem Extends.refl (t : NameTable) : t.Extends t := fun _ _ h => h

theorem Extends.trans (h : t.Extends u) (h' : u.Extends w) : t.Extends w :=
  fun n text hn => h' n text (h n text hn)

theorem text?_intern_of_eq (t : NameTable) {text : String} {n : Name}
    (h : n.shard = shardOf text) :
    (t.intern text).2.text? n = (t.shards[n.shard].add text).value? n.slot := by
  obtain ⟨shard, slot⟩ := n
  obtain rfl : shard = shardOf text := h
  simp [intern, text?, Numbering.number]

theorem text?_intern_of_ne (t : NameTable) {text : String} {n : Name}
    (h : n.shard ≠ shardOf text) : (t.intern text).2.text? n = t.text? n := by
  have hne : (shardOf text).val ≠ n.shard.val := fun heq => h (Fin.ext heq).symm
  simp [intern, text?, Vector.getElem_set_ne, hne]

theorem extends_intern (t : NameTable) (text : String) : t.Extends (t.intern text).2 := by
  intro n other hn
  by_cases h : n.shard = shardOf text
  · rw [t.text?_intern_of_eq h]
    exact Numbering.extends_add _ _ n.slot other hn
  · rwa [t.text?_intern_of_ne h]

theorem text?_intern_self (t : NameTable) (text : String) :
    (t.intern text).2.text? (t.intern text).1 = some text := by
  have hshard : (t.intern text).1.shard = shardOf text := rfl
  rw [t.text?_intern_of_eq hshard]
  exact (Numbering.slot?_eq_some_iff _ _ _).1 (Numbering.slot?_add_self _ text)

theorem internOwned_eq_intern (t : NameTable) (text : String) :
    t.internOwned text = t.intern text := by
  unfold internOwned
  cases hfind : t.find? text with
  | none => rfl
  | some n =>
    rw [find?, Option.map_eq_some_iff] at hfind
    obtain ⟨slot, hslot, rfl⟩ := hfind
    have hset : t.shards.set (shardOf text) t.shards[shardOf text] = t.shards :=
      Vector.set_getElem_self _
    simp only [intern, Numbering.number, hslot, Option.getD_some, Numbering.add_of_slot? hslot]
    rw [hset]

/-- Every text is in the shard that its hash gives it. -/
def Sharded (t : NameTable) : Prop := ∀ n text, t.text? n = some text → n.shard = shardOf text

theorem sharded_empty : empty.Sharded := by
  intro n text h
  simp [text?, empty, Numbering.value?, Numbering.empty] at h

theorem Sharded.intern (h : t.Sharded) (text : String) : (t.intern text).2.Sharded := by
  intro n other hn
  by_cases hshard : n.shard = shardOf text
  · rw [t.text?_intern_of_eq hshard] at hn
    rcases Numbering.value?_add_cases hn with hold | ⟨_, rfl⟩
    · exact h n other hold
    · exact hshard
  · rw [t.text?_intern_of_ne hshard] at hn
    exact h n other hn

def enter (t : NameTable) (texts : List String) : NameTable :=
  texts.foldl (fun t text => (t.intern text).2) t

theorem fresh_eq_enter : fresh = empty.enter ("" :: wellKnown) := rfl

theorem enter_cons (t : NameTable) (text : String) (xs : List String) :
    t.enter (text :: xs) = (t.intern text).2.enter xs :=
  rfl

theorem enter_append (t : NameTable) (xs ys : List String) :
    t.enter (xs ++ ys) = (t.enter xs).enter ys :=
  List.foldl_append

theorem extends_enter (t : NameTable) (xs : List String) : t.Extends (t.enter xs) := by
  induction xs generalizing t with
  | nil => exact .refl t
  | cons text xs ih => exact (t.extends_intern text).trans (ih _)

theorem Sharded.enter (h : t.Sharded) (xs : List String) : (t.enter xs).Sharded := by
  induction xs generalizing t with
  | nil => exact h
  | cons text xs ih => exact ih (h.intern text)

theorem Sharded.eq_of_text? (h : t.Sharded) {n m : Name} {text : String}
    (hn : t.text? n = some text) (hm : t.text? m = some text) : n = m := by
  have hshard : n.shard = m.shard := (h n text hn).trans (h m text hm).symm
  obtain ⟨shard, slot⟩ := n
  obtain ⟨shard', slot'⟩ := m
  obtain rfl : shard = shard' := hshard
  have hslot := (Numbering.slot?_eq_some_iff _ _ _).2 hn
  have hslot' := (Numbering.slot?_eq_some_iff _ _ _).2 hm
  have heq : some slot = some slot' := hslot.symm.trans hslot'
  rw [Option.some.inj heq]

theorem text?_fresh_empty : fresh.text? Name.empty = some "" := by
  have hslot : (Numbering.empty : Numbering String).slot? "" = none := Std.HashMap.getElem?_empty
  have hname : (empty.intern "").1 = Name.empty := by
    have hshard : shardOf "" = 0 := by decide
    simp only [intern, Numbering.number, empty, Fin.getElem_fin, Vector.getElem_replicate, hslot,
      hshard]
    rfl
  have hself := empty.text?_intern_self ""
  rw [hname] at hself
  rw [fresh_eq_enter, enter_cons]
  exact extends_enter _ wellKnown Name.empty "" hself

def texts (t : NameTable) : List String := t.shards.toList.flatMap fun shard => shard.values.toList

theorem mem_texts_iff {text : String} : text ∈ t.texts ↔ ∃ n, t.text? n = some text := by
  rw [texts, List.mem_flatMap]
  constructor
  · rintro ⟨shard, hshard, htext⟩
    obtain ⟨i, hi, rfl⟩ := List.mem_iff_getElem.1 hshard
    obtain ⟨slot, hslot⟩ := List.mem_iff_getElem?.1 htext
    refine ⟨⟨⟨i, by simpa using hi⟩, slot⟩, ?_⟩
    simpa [text?, Numbering.value?] using hslot
  · rintro ⟨n, hn⟩
    refine ⟨t.shards[n.shard], ?_, ?_⟩
    · simp
    · exact Array.mem_toList_iff.2 (Array.mem_of_getElem? hn)

theorem size_eq_length (t : NameTable) : t.size = t.texts.length := by
  have hfold : ∀ (shards : List (Numbering String)) (n : Nat),
      shards.foldl (fun n shard => n + shard.size) n
        = n + (shards.flatMap fun shard => shard.values.toList).length := by
    intro shards
    induction shards with
    | nil => exact fun _ => rfl
    | cons shard shards ih =>
      intro n
      rw [List.foldl_cons, ih, List.flatMap_cons, List.length_append, Array.length_toList,
        Nat.add_assoc]
      rfl
  rw [size, hfold, Nat.zero_add, texts]

theorem Sharded.nodup_texts (h : t.Sharded) : t.texts.Nodup := by
  refine List.nodup_flatMap.2 ⟨fun shard _ => shard.nodup_values, ?_⟩
  rw [List.pairwise_iff_getElem]
  intro i j hi hj hij text htext htext'
  have hbound : i < 16 ∧ j < 16 := by simpa using And.intro hi hj
  obtain ⟨slot, hslot⟩ := List.mem_iff_getElem?.1 htext
  obtain ⟨slot', hslot'⟩ := List.mem_iff_getElem?.1 htext'
  have hfound := h ⟨⟨i, hbound.1⟩, slot⟩ text (by simpa [text?, Numbering.value?] using hslot)
  have hfound' := h ⟨⟨j, hbound.2⟩, slot'⟩ text (by simpa [text?, Numbering.value?] using hslot')
  have heq : i = j := congrArg Fin.val (hfound.trans hfound'.symm)
  exact absurd heq (Nat.ne_of_lt hij)

theorem mem_texts_intern {text other : String} :
    other ∈ (t.intern text).2.texts ↔ other ∈ t.texts ∨ other = text := by
  rw [mem_texts_iff, mem_texts_iff]
  constructor
  · rintro ⟨n, hn⟩
    by_cases hshard : n.shard = shardOf text
    · rw [t.text?_intern_of_eq hshard] at hn
      rcases Numbering.value?_add_cases hn with hold | ⟨_, rfl⟩
      · exact .inl ⟨n, hold⟩
      · exact .inr rfl
    · rw [t.text?_intern_of_ne hshard] at hn
      exact .inl ⟨n, hn⟩
  · rintro (⟨n, hn⟩ | rfl)
    · exact ⟨n, t.extends_intern text n other hn⟩
    · exact ⟨_, t.text?_intern_self other⟩

theorem mem_texts_enter {xs : List String} {text : String} :
    text ∈ (t.enter xs).texts ↔ text ∈ t.texts ∨ text ∈ xs := by
  induction xs generalizing t with
  | nil => simp [NameTable.enter]
  | cons other xs ih =>
    rw [enter_cons, ih, mem_texts_intern, List.mem_cons, or_assoc]

theorem size_enter_empty (xs : List String) : (empty.enter xs).size = xs.dedup.length := by
  have hnodup := (sharded_empty.enter xs).nodup_texts
  have hnone : ∀ text, text ∉ empty.texts := by
    intro text htext
    obtain ⟨n, hn⟩ := mem_texts_iff.1 htext
    simp [text?, empty, Numbering.value?, Numbering.empty] at hn
  rw [size_eq_length]
  refine ((List.perm_ext_iff_of_nodup hnodup xs.nodup_dedup).2 fun text => ?_).length_eq
  rw [mem_texts_enter, List.mem_dedup]
  exact or_iff_right (hnone text)

/-- No shard has more texts than packed handles have slots for, so none has ever been full. -/
def Fits (t : NameTable) : Prop := ∀ shard : Fin 16, t.shards[shard].size ≤ 2 ^ 28

theorem Fits.ofPacked_packed (h : t.Fits) {n : Name} {text : String}
    (hn : t.text? n = some text) : Name.ofPacked n.packed = n :=
  n.ofPacked_packed (Nat.lt_of_lt_of_le (Numbering.lt_size_of_value? hn) (h n.shard))

theorem Fits.packed_eq_iff (h : t.Fits) (hsharded : t.Sharded)
    {n m : Name} {text other : String} (hn : t.text? n = some text) (hm : t.text? m = some other) :
    n.packed = m.packed ↔ text = other := by
  constructor
  · intro heq
    have hname : n = m := by rw [← h.ofPacked_packed hn, heq, h.ofPacked_packed hm]
    rw [hname, hm] at hn
    exact (Option.some.inj hn).symm
  · rintro rfl
    rw [hsharded.eq_of_text? hn hm]

theorem fits_of_size_le (h : t.size ≤ 2 ^ 28) : t.Fits := by
  intro shard
  have hmem : t.shards[shard].values.toList
      ∈ t.shards.toList.map fun shard => shard.values.toList :=
    List.mem_map_of_mem (by simp)
  have hlength := (List.sublist_flatten_of_mem hmem).length_le
  rw [t.size_eq_length] at h
  exact Nat.le_trans hlength h

structure Entry (t : NameTable) where
  name : Name
  text : String
  shard : name.shard = shardOf text
  found : t.text? name = some text

namespace Entry

theorem text_name (e : t.Entry) : t.text e.name = e.text := by
  rw [NameTable.text, e.found, Option.getD_some]

theorem name_injective : Function.Injective (Entry.name : t.Entry → Name) := by
  rintro ⟨n, text, hn, hfound⟩ ⟨m, text', hm, hfound'⟩ (rfl : n = m)
  obtain rfl : text = text' := Option.some.inj (hfound.symm.trans hfound')
  rfl

theorem text_injective : Function.Injective (Entry.text : t.Entry → String) := by
  intro e e' (h : e.text = e'.text)
  apply name_injective
  have hslot := (Numbering.slot?_eq_some_iff _ _ _).2 e.found
  have hslot' := (Numbering.slot?_eq_some_iff _ _ _).2 e'.found
  obtain ⟨⟨shard, slot⟩, text, hshard, hfound⟩ := e
  obtain ⟨⟨shard', slot'⟩, text', hshard', hfound'⟩ := e'
  obtain rfl : text = text' := h
  obtain rfl : shard = shard' := hshard.trans hshard'.symm
  have heq : some slot = some slot' := hslot.symm.trans hslot'
  exact congrArg (Name.mk shard) (Option.some.inj heq)

instance : DecidableEq t.Entry := fun a b =>
  decidable_of_iff (a.name = b.name) ⟨fun h => name_injective h, fun h => congrArg _ h⟩

instance : Hashable t.Entry := ⟨fun e => hash e.name⟩

end Entry

end ClassCatalog.NameTable
