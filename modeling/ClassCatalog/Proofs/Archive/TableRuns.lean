import ClassCatalog.Proofs.Archive.OnePass

/-! What any calls leave in the tables of an archive. -/

namespace ClassCatalog.Archive

namespace Symbols

def after (calls : List (Symbol String)) : Symbols String :=
  (calls.map Symbol.item).foldl Item.addTo .empty

def slotOf (s : Symbols String) : Symbol String → Nat
  | .name n => s.names.slot n
  | .type t => s.types.slot t

def Holds (s : Symbols String) (k : Nat) : Symbol String → Prop
  | .name n => s.names.value? k = some n
  | .type t => s.types.value? k = some t

variable {s u : Symbols String}

theorem holds_slotOf {c : Symbol String} (h : c.item.In s) : s.Holds (s.slotOf c) c := by
  cases c with
  | name n =>
    obtain ⟨k, hk⟩ := h.name n rfl
    rwa [slotOf, Holds, Numbering.slot_of_value? hk]
  | type t =>
    obtain ⟨k, hk⟩ := h.type t rfl
    rwa [slotOf, Holds, Numbering.slot_of_value? hk]

theorem slotOf_of_extends (h : s.Extends u) {c : Symbol String} (hc : c.item.In s) :
    u.slotOf c = s.slotOf c := by
  cases c with
  | name n => exact slot_name_of_extends h (hc.name n rfl)
  | type t => exact slot_type_of_extends h (hc.type t rfl)

end Symbols

namespace Encoder

variable {e : Encoder String} {s : Symbols String}

theorem Represents.run_slotOf (h : e.Represents s) (hs : s.Closed fun _ => True)
    (c : Symbol String) :
    ∃ e', (slotOf c).run e = ((c.item.addTo s).slotOf c, e')
      ∧ e'.Represents (c.item.addTo s) := by
  cases c with
  | name n => exact h.run_name hs n
  | type t => exact h.run_enter hs (h.run_parts hs t)

theorem Represents.run_calls (h : e.Represents s) (hs : s.Closed fun _ => True)
    (calls : List (Symbol String)) :
    ∃ e', (calls.mapM slotOf).run e
        = (calls.map ((calls.map Symbol.item).foldl Item.addTo s).slotOf, e')
      ∧ e'.Represents ((calls.map Symbol.item).foldl Item.addTo s) := by
  induction calls generalizing e s with
  | nil => exact ⟨e, rfl, h⟩
  | cons c calls ih =>
    obtain ⟨hclosed, _, hin⟩ := Item.addTo_spec (fun _ _ _ _ => trivial) hs c.item
      fun _ _ => trivial
    have hext := (Item.foldl_addTo_spec (fun _ _ _ _ => trivial) hclosed (calls.map Symbol.item)
      fun _ _ _ _ => trivial).2.1
    obtain ⟨e₁, hc, h₁⟩ := h.run_slotOf hs c
    obtain ⟨e₂, hcalls, h₂⟩ := ih h₁ hclosed
    refine ⟨e₂, ?_, h₂⟩
    rw [List.mapM_cons, run_bind_of_run hc, run_bind_of_run hcalls, List.map_cons, List.map_cons,
      List.foldl_cons, Symbols.slotOf_of_extends hext hin]
    rfl

end Encoder

namespace Symbols

theorem closed_after (calls : List (Symbol String)) : (after calls).Closed fun _ => True :=
  (Item.foldl_addTo_spec (fun _ _ _ _ => trivial) closed_empty _ fun _ _ _ _ => trivial).1

theorem in_after {calls : List (Symbol String)} {c : Symbol String} (h : c ∈ calls) :
    c.item.In (after calls) :=
  (Item.foldl_addTo_spec (fun _ _ _ _ => trivial) closed_empty _ fun _ _ _ _ => trivial).2.2
    c.item (List.mem_map_of_mem h)

theorem extends_after (calls later : List (Symbol String)) :
    (after calls).Extends (after (calls ++ later)) := by
  rw [after, after, List.map_append, List.foldl_append]
  exact (Item.foldl_addTo_spec (fun _ _ _ _ => trivial) (closed_after calls) _
    fun _ _ _ _ => trivial).2.1

end Symbols

namespace Encoder

theorem answers_fst (calls : List (Symbol String)) :
    (answers calls).1 = calls.map (Symbols.after calls).slotOf := by
  obtain ⟨e, hrun, _⟩ := represents_empty.run_calls Symbols.closed_empty calls
  rw [answers, hrun]
  rfl

theorem represents_answers (calls : List (Symbol String)) :
    (answers calls).2.Represents (Symbols.after calls) := by
  obtain ⟨e, hrun, h⟩ := represents_empty.run_calls Symbols.closed_empty calls
  rw [answers, hrun]
  exact h

theorem answers_prefix (calls later : List (Symbol String)) :
    (answers calls).1 <+: (answers (calls ++ later)).1
      ∧ (answers calls).2.names.values.toList
        <+: (answers (calls ++ later)).2.names.values.toList
      ∧ (answers calls).2.records.toList <+: (answers (calls ++ later)).2.records.toList := by
  have hext := Symbols.extends_after calls later
  refine ⟨?_, ?_, ?_⟩
  · have hslots : calls.map (Symbols.after (calls ++ later)).slotOf
        = calls.map (Symbols.after calls).slotOf :=
      List.map_congr_left fun c hc => Symbols.slotOf_of_extends hext (Symbols.in_after hc)
    rw [answers_fst, answers_fst, List.map_append, hslots]
    exact List.prefix_append _ _
  · rw [(represents_answers calls).names, (represents_answers (calls ++ later)).names]
    exact hext.names.isPrefix
  · rw [(represents_answers calls).records, (represents_answers (calls ++ later)).records,
      ← (Symbols.closed_after calls).map_typeRecord_of_extends hext]
    exact hext.types.isPrefix.map _

theorem typeSlots_after {calls : List (Symbol String)} (later : List (Symbol String))
    {t : Ty String} {k : Nat} (h : (answers calls).2.typeSlots[t]? = some k) :
    (answers (calls ++ later)).2.typeSlots[t]? = some k := by
  rw [(represents_answers calls).typeSlots] at h
  rw [(represents_answers (calls ++ later)).typeSlots]
  exact (Symbols.extends_after calls later).types.slot? h

variable {s : Symbols String}

theorem reads_record_at {k : Nat} {t : Ty String} (hs : s.Closed fun _ => True)
    (hnames : s.names.size < UInt64.size) (htypes : s.types.size < UInt64.size)
    (hk : s.types.value? k = some t) :
    Metered.Reads
      (TypeEntry.read ⟨s.names.values, ((s.types.values.toList.take k).map .ofTy).toArray⟩)
      (s.typeRecord t) (t.parts.map Ty.nodes).sum (t.depth ≤ maxTypeDepth) (.ofTy t) := by
  have hlt := Numbering.lt_size_of_value? hk
  have hlength : (s.types.values.toList.take k).length = k := by
    rw [List.length_take, Array.length_toList]
    exact Nat.min_eq_left (Nat.le_of_lt hlt)
  refine TypeEntry.reads_record (fun label hl => ?_) fun p hp => ?_
  · exact ReadTables.findsName_of_hasName rfl hnames (hs.name k t hk label hl)
  · obtain ⟨j, hj, hjp⟩ := hs.parts k t hk p hp
    exact ReadTables.findsType_of_lt (List.take_append_drop k _).symm htypes hjp (by omega)

/-- Whatever symbols are asked for, each gets the slot that holds it. No name and no type stands in
two slots, and what has a slot keeps it when more is asked for. The record of a type refers only to
slots before its own, so that reading the records in order gives back the type of every slot,
unless one is deeper than the limit or the budget does not pay for them all. -/
theorem tables_exact (calls : List (Symbol String)) :
    let s := Symbols.after calls
    let e := (answers calls).2
    ((answers calls).1 = calls.map s.slotOf ∧ e.Represents s)
      ∧ (e.names.values.toList.Nodup ∧ List.Forall₂ s.Holds (answers calls).1 calls)
      ∧ (∀ k l t u, s.types.value? k = some t → s.types.value? l = some u → (t = u ↔ k = l))
      ∧ (∀ later : List (Symbol String),
        (answers calls).1 <+: (answers (calls ++ later)).1
          ∧ e.names.values.toList <+: (answers (calls ++ later)).2.names.values.toList
          ∧ e.records.toList <+: (answers (calls ++ later)).2.records.toList
          ∧ ∀ (t : Ty String) (k : Nat), e.typeSlots[t]? = some k →
            (answers (calls ++ later)).2.typeSlots[t]? = some k)
      ∧ (s.names.size < UInt64.size → s.types.size < UInt64.size →
        (∀ k t, s.types.value? k = some t → (∀ p ∈ t.parts, s.types.slot p < k)
          ∧ ∃ record, e.records[k]? = some record
            ∧ Metered.Reads (TypeEntry.read
                ⟨e.names.values, ((s.types.values.toList.take k).map .ofTy).toArray⟩)
              record (t.parts.map Ty.nodes).sum (t.depth ≤ maxTypeDepth) (.ofTy t))
        ∧ Metered.Reads (ReadTables.readTypes e.records.size ⟨e.names.values, #[]⟩)
          e.records.toList.flatten s.tableNodes
          (∀ t ∈ s.types.values.toList, t.depth ≤ maxTypeDepth) s.readTables) := by
  intro s e
  have hclosed : s.Closed fun _ => True := Symbols.closed_after calls
  have hrep : e.Represents s := represents_answers calls
  refine ⟨⟨answers_fst calls, hrep⟩, ⟨?_, ?_⟩, ?_, ?_, ?_⟩
  · exact Numbering.nodup_values _
  · rw [answers_fst, List.forall₂_map_left_iff, List.forall₂_same]
    exact fun c hc => Symbols.holds_slotOf (Symbols.in_after hc)
  · intro k l t u hk hl
    constructor
    · rintro rfl
      rw [← Numbering.slot_of_value? hk, Numbering.slot_of_value? hl]
    · rintro rfl
      exact Option.some.inj (hk.symm.trans hl)
  · intro later
    obtain ⟨hslots, hnames, hrecords⟩ := answers_prefix calls later
    exact ⟨hslots, hnames, hrecords, fun t k h => typeSlots_after later h⟩
  · intro hnames htypes
    rw [hrep.names]
    refine ⟨fun k t hk => ⟨fun p hp => ?_, _, ?_, reads_record_at hclosed hnames htypes hk⟩, ?_⟩
    · obtain ⟨j, hj, hjp⟩ := hclosed.parts k t hk p hp
      rwa [Numbering.slot_of_value? hjp]
    · rw [← Array.getElem?_toList, hrep.records, List.getElem?_map, Array.getElem?_toList]
      exact congrArg _ hk
    · have hread := ReadTables.reads_readTypes hclosed hnames htypes [] _ rfl
      rwa [Array.length_toList, ← Numbering.size, ← hrep.size_eq, List.flatMap_def,
        ← hrep.records] at hread

def arrayCalls : List (Symbol String) := [.type (.array 1 (.named "A"))]

theorem tables_arrayCalls : (Symbols.after arrayCalls).names.values = #["A"]
    ∧ (Symbols.after arrayCalls).types.values = #[.named "A", .array 1 (.named "A")] := by
  have hnone : ∀ t, (Symbols.empty : Symbols String).types.slot? t = none := fun t =>
    Numbering.slot?_eq_none (by simp [Symbols.empty, Numbering.empty])
  have hsymbols : Symbols.after arrayCalls = ⟨Numbering.empty.add "A",
      (Numbering.empty.add (.named "A")).add (.array 1 (.named "A"))⟩ := by
    show Symbols.enter _ (Symbols.enter _ (Symbols.addName "A")) Symbols.empty = _
    rw [Symbols.enter, hnone, Symbols.enter, hnone]
    rfl
  have hcomponent : ((Numbering.empty : Numbering (Ty String)).add (.named "A")).values
      = #[.named "A"] := Numbering.values_add_of_new (hnone _)
  rw [hsymbols]
  constructor
  · exact Numbering.values_add_of_new (Numbering.slot?_eq_none (by simp [Numbering.empty]))
  · rw [Numbering.values_add_of_new (Numbering.slot?_eq_none (by simp [hcomponent])), hcomponent]
    rfl

theorem tables_exact_arrayCalls :
    ((Symbols.after arrayCalls).names.size < UInt64.size
        ∧ (Symbols.after arrayCalls).types.size < UInt64.size)
      ∧ ((Symbols.after arrayCalls).types.value? 0 = some (.named "A")
        ∧ (Symbols.after arrayCalls).types.value? 1 = some (.array 1 (.named "A")))
      ∧ ((answers arrayCalls).2.typeSlots[Ty.named "A"]? = some 0
        ∧ (answers (arrayCalls ++ [.name "B"])).2.typeSlots[Ty.named "A"]? = some 0)
      ∧ ∃ record, (answers arrayCalls).2.records[1]? = some record
        ∧ Metered.Reads
          (TypeEntry.read ⟨(answers arrayCalls).2.names.values, #[.ofTy (.named "A")]⟩)
          record 1 (Ty.depth (.array 1 (.named "A")) ≤ maxTypeDepth)
          (.ofTy (.array 1 (.named "A"))) := by
  obtain ⟨hnamesValues, htypesValues⟩ := tables_arrayCalls
  have hnames : (Symbols.after arrayCalls).names.size < UInt64.size := by
    rw [Numbering.size, hnamesValues]
    decide
  have htypes : (Symbols.after arrayCalls).types.size < UInt64.size := by
    rw [Numbering.size, htypesValues]
    decide
  have hcomponent : (Symbols.after arrayCalls).types.value? 0 = some (.named "A") := by
    rw [Numbering.value?, htypesValues]
    rfl
  have harray : (Symbols.after arrayCalls).types.value? 1 = some (.array 1 (.named "A")) := by
    rw [Numbering.value?, htypesValues]
    rfl
  obtain ⟨⟨-, hrep⟩, -, -, hlater, htables⟩ := tables_exact arrayCalls
  have hslot : (answers arrayCalls).2.typeSlots[Ty.named "A"]? = some 0 := by
    rw [hrep.typeSlots]
    exact (Numbering.slot?_eq_some_iff _ _ _).2 hcomponent
  obtain ⟨-, record, hrecord, hreads⟩ := (htables hnames htypes).1 1 _ harray
  rw [htypesValues] at hreads
  exact ⟨⟨hnames, htypes⟩, ⟨hcomponent, harray⟩, ⟨hslot, (hlater [.name "B"]).2.2.2 _ _ hslot⟩,
    record, hrecord, hreads⟩

end Encoder

end ClassCatalog.Archive
