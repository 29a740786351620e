import ClassCatalog.Archive.Write
import ClassCatalog.Proofs.Numbering
import ClassCatalog.Proofs.Rename

/-! An archive does not depend on what stands for a name. When other things take the place of the
names, one for one, the same questions have the same answers while the tables are filled, so every
name and every type gets the slot it had. -/

namespace ClassCatalog

variable {α β : Type} {f : α → β}

namespace Ty

mutual

theorem eq_of_rename_eq (hf : Function.Injective f) {a b : Ty α}
    (h : a.rename f = b.rename f) : a = b := by
  cases a with
  | primitive | void | wildcard => cases b <;> simp_all
  | named n | typeVariable n | unresolved n => cases b <;> simp_all [hf.eq_iff]
  | array d c =>
    cases b with
    | array e k =>
      simp only [rename_array, array.injEq] at h
      rw [h.1, eq_of_rename_eq hf h.2]
    | _ => simp at h
  | parameterized n as =>
    cases b with
    | parameterized m bs =>
      simp only [rename_parameterized, parameterized.injEq] at h
      rw [hf h.1, eq_of_map_rename_eq hf h.2]
    | _ => simp at h
  | inner o n as =>
    cases b with
    | inner p m bs =>
      simp only [rename_inner, inner.injEq] at h
      rw [eq_of_rename_eq hf h.1, hf h.2.1, eq_of_map_rename_eq hf h.2.2]
    | _ => simp at h
  | typeParameter n i as =>
    cases b with
    | typeParameter m j bs =>
      simp only [rename_typeParameter, typeParameter.injEq] at h
      rw [hf h.1, h.2.1, eq_of_map_rename_eq hf h.2.2]
    | _ => simp at h
  | bounded e c =>
    cases b with
    | bounded e' k =>
      simp only [rename_bounded, bounded.injEq] at h
      rw [h.1, eq_of_rename_eq hf h.2]
    | _ => simp at h

theorem eq_of_map_rename_eq (hf : Function.Injective f) {as bs : List (Ty α)}
    (h : as.map (rename f) = bs.map (rename f)) : as = bs := by
  cases as with
  | nil =>
    cases bs with
    | nil => rfl
    | cons => simp at h
  | cons a as =>
    cases bs with
    | nil => simp at h
    | cons b bs =>
      simp only [List.map_cons, List.cons.injEq] at h
      rw [eq_of_rename_eq hf h.1, eq_of_map_rename_eq hf h.2]

end

theorem rename_injective (hf : Function.Injective f) : Function.Injective (rename f) :=
  fun _ _ => eq_of_rename_eq hf

theorem kind_rename (t : Ty α) : (t.rename f).kind = t.kind := by
  cases t with
  | parameterized | inner | typeParameter => simp [kind]
  | _ => rfl

end Ty

namespace Numbering

variable [BEq α] [Hashable α] [BEq β] [Hashable β]

/-- `u` has the values of `t` under `f`, in the same slots. -/
def Follows (f : α → β) (t : Numbering α) (u : Numbering β) : Prop := u.values = t.values.map f

variable {t : Numbering α} {u : Numbering β}

theorem Follows.size_eq (h : t.Follows f u) : u.size = t.size := by
  rw [size, size, h, Array.size_map]

theorem Follows.slot?_eq (h : t.Follows f u) (hf : Function.Injective f) (a : α) :
    u.slot? (f a) = t.slot? a := by
  ext n
  rw [slot?_eq_some_iff, slot?_eq_some_iff, value?, value?, h, Array.getElem?_map,
    Option.map_eq_some_iff]
  constructor
  · rintro ⟨b, hb, heq⟩
    rwa [← hf heq]
  · exact fun ha => ⟨a, ha, rfl⟩

theorem Follows.slot_eq (h : t.Follows f u) (hf : Function.Injective f) (a : α) :
    u.slot (f a) = t.slot a := by
  rw [slot, slot, h.slot?_eq hf]

theorem Follows.add [LawfulBEq α] [LawfulBEq β] (h : t.Follows f u) (hf : Function.Injective f)
    (a : α) : (t.add a).Follows f (u.add (f a)) := by
  -- As `f` is one to one, a value is new on one side exactly if it is on the other.
  have hslot := h.slot?_eq hf a
  cases hold : t.slot? a with
  | some n => rwa [add_of_slot? hold, add_of_slot? (hslot.trans hold)]
  | none =>
    rw [Follows, values_add_of_new hold, values_add_of_new (hslot.trans hold), h, Array.map_push]

end Numbering

namespace Archive

namespace Symbols

variable [DecidableEq α] [Hashable α] [DecidableEq β] [Hashable β]

structure Follows (f : α → β) (s : Symbols α) (u : Symbols β) : Prop where
  names : s.names.Follows f u.names
  types : s.types.Follows (Ty.rename f) u.types

variable {s : Symbols α} {u : Symbols β}

theorem follows_empty : (empty : Symbols α).Follows f (empty : Symbols β) :=
  ⟨Array.map_empty.symm, Array.map_empty.symm⟩

theorem Follows.addName (hf : Function.Injective f) (h : s.Follows f u) (n : α) :
    (s.addName n).Follows f (u.addName (f n)) :=
  ⟨h.names.add hf n, h.types⟩

theorem Follows.enter (hf : Function.Injective f) (h : s.Follows f u) (t : Ty α)
    {p : Symbols α → Symbols α} {q : Symbols β → Symbols β} (hparts : (p s).Follows f (q u)) :
    (enter t p s).Follows f (enter (t.rename f) q u) := by
  -- Whether the type is known has the same answer on both sides.
  rw [Symbols.enter, Symbols.enter, h.types.slot?_eq (Ty.rename_injective hf)]
  split
  · exact h
  · exact ⟨hparts.names, hparts.types.add (Ty.rename_injective hf) t⟩

mutual

theorem Follows.addType (hf : Function.Injective f) {s : Symbols α} {u : Symbols β}
    (h : s.Follows f u) (t : Ty α) : (addType t s).Follows f (addType (t.rename f) u) := by
  cases t with
  | primitive | void | wildcard => exact h.enter hf _ h
  | named n | typeVariable n | unresolved n => exact h.enter hf _ (h.addName hf n)
  | array d c => exact h.enter hf (.array d c) (h.addType hf c)
  | bounded e b => exact h.enter hf (.bounded e b) (h.addType hf b)
  | parameterized n as =>
    rw [Ty.rename_parameterized]
    have henter := h.enter hf (.parameterized n as) (p := Symbols.addTypes as ∘ Symbols.addName n)
      (q := Symbols.addTypes _ ∘ Symbols.addName _) ((h.addName hf n).addTypes hf as)
    rwa [Ty.rename_parameterized] at henter
  | typeParameter n i bs =>
    rw [Ty.rename_typeParameter]
    have henter := h.enter hf (.typeParameter n i bs) (p := Symbols.addTypes bs ∘ Symbols.addName n)
      (q := Symbols.addTypes _ ∘ Symbols.addName _) ((h.addName hf n).addTypes hf bs)
    rwa [Ty.rename_typeParameter] at henter
  | inner o n as =>
    rw [Ty.rename_inner]
    have henter := h.enter hf (.inner o n as)
      (p := Symbols.addTypes as ∘ Symbols.addType o ∘ Symbols.addName n)
      (q := Symbols.addTypes _ ∘ Symbols.addType _ ∘ Symbols.addName _)
      (((h.addName hf n).addType hf o).addTypes hf as)
    rwa [Ty.rename_inner] at henter

theorem Follows.addTypes (hf : Function.Injective f) {s : Symbols α} {u : Symbols β}
    (h : s.Follows f u) (ts : List (Ty α)) :
    (addTypes ts s).Follows f (addTypes (ts.map (Ty.rename f)) u) := by
  cases ts with
  | nil => exact h
  | cons t ts => exact (h.addType hf t).addTypes hf ts

end

section

variable (hf : Function.Injective f)

include hf

theorem Follows.typeBytes_eq (h : s.Follows f u) (t : Ty α) :
    u.typeBytes (t.rename f) = s.typeBytes t := by
  rw [typeBytes, typeBytes, h.types.slot_eq (Ty.rename_injective hf)]

theorem Follows.nameBytes_eq (h : s.Follows f u) (n : α) :
    u.nameBytes (f n) = s.nameBytes n := by
  rw [nameBytes, nameBytes, h.names.slot_eq hf]

theorem Follows.typesBytes_eq (h : s.Follows f u) (ts : List (Ty α)) :
    u.typesBytes (ts.map (Ty.rename f)) = s.typesBytes ts := by
  simp only [typesBytes, List.length_map, List.flatMap_map, h.typeBytes_eq hf]

theorem Follows.typeBytes?_eq (h : s.Follows f u) (t : Option (Ty α)) :
    u.typeBytes? (t.map (Ty.rename f)) = s.typeBytes? t := by
  have hslot : ∀ t, u.types.slot (Ty.rename f t) = s.types.slot t :=
    h.types.slot_eq (Ty.rename_injective hf)
  simp only [typeBytes?, Option.map_map, Function.comp_def, hslot]

theorem Follows.nameBytes?_eq (h : s.Follows f u) (n : Option α) :
    u.nameBytes? (n.map f) = s.nameBytes? n := by
  simp only [nameBytes?, Option.map_map, Function.comp_def, h.names.slot_eq hf]

theorem Follows.typeRecord_eq (h : s.Follows f u) (t : Ty α) :
    u.typeRecord (t.rename f) = s.typeRecord t := by
  have hname := h.nameBytes_eq hf
  have hnone := h.typeBytes?_eq hf none
  have hsome := fun t => h.typeBytes?_eq hf (some t)
  simp only [Option.map_none, Option.map_some] at hnone hsome
  rw [typeRecord, typeRecord, Ty.kind_rename]
  congr 1
  cases t <;> simp [partBytes, hname, hnone, hsome, h.typeBytes_eq hf, h.typesBytes_eq hf]

theorem Follows.bytes_eq (h : s.Follows f u) (text : β → String) :
    u.bytes text = s.bytes (text ∘ f) := by
  have hnames : u.names.values.toList = s.names.values.toList.map f := by
    rw [h.names, Array.toList_map]
  have htypes : u.types.values.toList = s.types.values.toList.map (Ty.rename f) := by
    rw [h.types, Array.toList_map]
  simp only [bytes, h.names.size_eq, h.types.size_eq, hnames, htypes, List.flatMap_map,
    h.typeRecord_eq hf, Function.comp]

end

end Symbols

namespace Item

def rename (f : α → β) : Item α → Item β
  | raw bytes => raw bytes
  | name n => name (f n)
  | name? n => name? (n.map f)
  | type t => type (t.rename f)
  | type? t => type? (t.map (Ty.rename f))

section

variable [DecidableEq α] [Hashable α] [DecidableEq β] [Hashable β] {s : Symbols α} {u : Symbols β}
  (hf : Function.Injective f)

include hf

theorem follows_addTo (h : s.Follows f u) (i : Item α) :
    (i.addTo s).Follows f ((i.rename f).addTo u) := by
  match i with
  | raw _ | name? none | type? none => exact h
  | name n | name? (some n) => exact h.addName hf n
  | type t | type? (some t) => exact h.addType hf t

theorem follows_foldl (h : s.Follows f u) (items : List (Item α)) :
    (items.foldl addTo s).Follows f ((items.map (rename f)).foldl addTo u) := by
  induction items generalizing s u with
  | nil => exact h
  | cons i items ih => exact ih (follows_addTo hf h i)

theorem encode_rename (h : s.Follows f u) (i : Item α) : (i.rename f).encode u = i.encode s := by
  cases i with
  | raw bytes => rfl
  | name n => exact h.nameBytes_eq hf n
  | name? n => exact h.nameBytes?_eq hf n
  | type t => exact h.typeBytes_eq hf t
  | type? t => exact h.typeBytes?_eq hf t

theorem encodeAll_rename (h : s.Follows f u) (items : List (Item α)) :
    encodeAll u (items.map (rename f)) = encodeAll s items := by
  simp only [encodeAll, List.flatMap_map, encode_rename hf h]

end

theorem counted_map {γ δ : Type} {g : γ → δ} {p : γ → List (Item α)} {q : δ → List (Item β)}
    (h : ∀ a, q (g a) = (p a).map (rename f)) (as : List γ) :
    counted q (as.map g) = (counted p as).map (rename f) := by
  simp only [counted, List.length_map, List.flatMap_map, h, List.map_cons, List.map_flatMap]
  rfl

theorem types_map (ts : List (Ty α)) :
    types (ts.map (Ty.rename f)) = (types ts).map (rename f) :=
  counted_map (p := fun t => [type t]) (q := fun t => [type t]) (fun _ => rfl) ts

end Item

theorem tag_rename (v : Value α) : (v.rename f).tag = v.tag := by
  cases v with
  | nested n visible members => rw [Value.rename_nested]; rfl
  | array elements => rw [Value.rename_array]; rfl
  | _ => rfl

mutual

theorem valueParts_rename (v : Value α) :
    valueParts (v.rename f) = (valueParts v).map (Item.rename f) := by
  cases v with
  | nested n visible members =>
    rw [Value.rename_nested, valueParts, valueParts, membersParts_map members, List.length_map]
    rfl
  | array elements =>
    rw [Value.rename_array, valueParts, valueParts, elementsParts_map elements, List.length_map]
    rfl
  | _ => rfl

theorem membersParts_map (members : List (α × Value α)) :
    membersParts (members.map (Value.renameMember f))
      = (membersParts members).map (Item.rename f) := by
  match members with
  | [] => rfl
  | (n, v) :: members =>
    simp only [List.map_cons, Value.renameMember, membersParts, tag_rename, valueParts_rename v,
      membersParts_map members, List.map_append]
    rfl

theorem elementsParts_map (elements : List (Value α)) :
    elementsParts (elements.map (Value.rename f))
      = (elementsParts elements).map (Item.rename f) := by
  match elements with
  | [] => rfl
  | v :: elements =>
    simp only [List.map_cons, elementsParts, tag_rename, valueParts_rename v,
      elementsParts_map elements, List.map_append]
    rfl

end

theorem valueItems_rename (v : Value α) :
    valueItems (v.rename f) = (valueItems v).map (Item.rename f) := by
  rw [valueItems, valueItems, valueParts_rename, tag_rename]
  rfl

theorem membersItems_map (members : List (α × Value α)) :
    membersItems (members.map (Value.renameMember f))
      = (membersItems members).map (Item.rename f) := by
  rw [membersItems, membersItems, membersParts_map, List.length_map]
  rfl

theorem declarationItems_rename (d : DeclRef α) :
    declarationItems (d.rename f) = (declarationItems d).map (Item.rename f) := by
  cases d <;> rfl

theorem useParts_rename (u : TypeUse) :
    useParts (ν := β) u = (useParts (ν := α) u).map (Item.rename f) := by
  cases u <;> rfl

theorem typeTargetItems_rename (t : TypeTarget α) :
    typeTargetItems ⟨t.enclosing.rename f, t.use, t.path, t.ty.rename f⟩
      = (typeTargetItems t).map (Item.rename f) := by
  have hpath : Item.counted stepItems t.path
      = (Item.counted (ν := α) stepItems t.path).map (Item.rename f) := by
    have hcounted := Item.counted_map (f := f) (g := id) (p := stepItems) (q := stepItems)
      (fun _ => rfl) t.path
    rwa [List.map_id] at hcounted
  simp only [typeTargetItems, declarationItems_rename, useParts_rename (f := f), hpath,
    List.map_append, List.map_cons]
  rfl

theorem targetItems_map (t : Option (Target α)) :
    targetItems (t.map (Target.rename f)) = (targetItems t).map (Item.rename f) := by
  match t with
  | none => rfl
  | some (.declaration d) => exact declarationItems_rename d
  | some (.parameter ..) => rfl
  | some (.typeUse t) => exact congrArg (Item.code 4 :: ·) (typeTargetItems_rename t)

theorem useItems_rename (a : AnnotationUse α) :
    useItems (a.rename f) = (useItems a).map (Item.rename f) := by
  rw [AnnotationUse.rename_eq, useItems, useItems, targetItems_map, membersItems_map,
    List.map_append, List.map_append]
  rfl

theorem holds_rename (v : Version) (a : AnnotationUse α) : v.holds (a.rename f) = v.holds a := by
  rw [AnnotationUse.rename_eq, Version.holds, Version.holds]
  match a.target with
  | none => rfl
  | some (.declaration d) => cases d <;> rfl
  | some (.parameter ..) => rfl
  | some (.typeUse ⟨enclosing, _, _, _⟩) => cases enclosing <;> rfl

theorem methodDetails_rename (m : MethodDecl α) :
    methodDetails (m.rename f) = (methodDetails m).map (Item.rename f) := by
  have hnames := Item.counted_map (f := f) (g := Option.map f) (p := fun n => [Item.name? n])
    (q := fun n => [Item.name? n]) (fun _ => rfl) m.parameterNames
  rw [MethodDecl.rename_eq, methodDetails, methodDetails, hnames, List.map_append]
  cases m.default with
  | none => rfl
  | some v =>
    simp only [Option.map_some, valueItems_rename, List.map_cons]
    rfl

theorem methodItems_rename (v : Version) (m : MethodDecl α) :
    methodItems v (m.rename f) = (methodItems v m).map (Item.rename f) := by
  have hdetails : (if v.hasDetails then methodDetails (m.rename f) else [])
      = (if v.hasDetails then methodDetails m else []).map (Item.rename f) := by
    split
    · exact methodDetails_rename m
    · rfl
  rw [methodItems, methodItems, hdetails, MethodDecl.rename_eq]
  simp only [Item.types_map, List.map_append]
  rfl

theorem nestingItems_rename (n : Nesting α) :
    nestingItems (n.rename f) = (nestingItems n).map (Item.rename f) := by
  rw [Nesting.rename_eq, nestingItems, nestingItems, List.map_append]
  cases n.enclosingMethod <;> rfl

theorem headItems_rename (v : Version) (c : ClassDecl α) :
    headItems v (c.rename f) = (headItems v c).map (Item.rename f) := by
  have hcomponents : (if v.hasComponents then
        Item.counted componentItems (c.components.map (ComponentDecl.rename f)) else [])
      = (if v.hasComponents then Item.counted componentItems c.components else []).map
        (Item.rename f) := by
    split
    · exact Item.counted_map (p := componentItems) (q := componentItems) (fun _ => rfl) _
    · rfl
  have hnesting : (if v.hasDetails then
        nestingItems (c.nesting.rename f) ++ [Item.bool c.hasNoArgsConstructor] else [])
      = (if v.hasDetails then nestingItems c.nesting ++ [Item.bool c.hasNoArgsConstructor]
        else []).map (Item.rename f) := by
    split
    · rw [nestingItems_rename, List.map_append]
      rfl
    · rfl
  have hfields := Item.counted_map (f := f) (g := FieldDecl.rename f) (p := fieldItems)
    (q := fieldItems) (fun _ => rfl) c.fields
  have hmethods := Item.counted_map (methodItems_rename (f := f) v) c.methods
  rw [ClassDecl.rename_eq]
  simp only [headItems, Item.types_map, hfields, hmethods, hcomponents, hnesting, List.map_append]
  rfl

namespace ClassRecord

def rename (f : α → β) (r : ClassRecord α) : ClassRecord β where
  head := r.head.map (Item.rename f)
  annotations := r.annotations.map (List.map (Item.rename f))

theorem ofClass_rename (v : Version) (c : ClassDecl α) :
    ofClass v (c.rename f) = (ofClass v c).rename f := by
  have hannotations : (c.rename f).annotations = c.annotations.map (AnnotationUse.rename f) := by
    rw [ClassDecl.rename_eq]
  simp only [ofClass, rename, headItems_rename, hannotations, List.filter_map, List.map_map,
    Function.comp_def, holds_rename, useItems_rename]

theorem items_rename (r : ClassRecord α) :
    (r.rename f).items = r.items.map (Item.rename f) := by
  rw [items, items, rename, List.map_append, List.map_flatten]

variable [DecidableEq α] [Hashable α] [DecidableEq β] [Hashable β] {s : Symbols α} {u : Symbols β}

theorem bytes_rename (hf : Function.Injective f) (h : s.Follows f u) (r : ClassRecord α) :
    (r.rename f).bytes u = r.bytes s := by
  have hrecord : ∀ items, recordBytes u (items.map (Item.rename f)) = recordBytes s items :=
    fun items => by rw [recordBytes, recordBytes, Item.encodeAll_rename hf h]
  simp only [bytes, rename, hrecord, Item.encodeAll_rename hf h, List.length_map,
    List.flatMap_map]

end ClassRecord

section Encode

variable [DecidableEq α] [Hashable α] [DecidableEq β] [Hashable β]

theorem follows_symbolsOf (hf : Function.Injective f) (records : List (ClassRecord α)) :
    (symbolsOf records).Follows f (symbolsOf (records.map (ClassRecord.rename f))) := by
  have hitems : (records.map (ClassRecord.rename f)).flatMap ClassRecord.items
      = (records.flatMap ClassRecord.items).map (Item.rename f) := by
    simp only [List.flatMap_map, ClassRecord.items_rename, List.map_flatMap]
  rw [symbolsOf, symbolsOf, hitems]
  exact Item.follows_foldl hf Symbols.follows_empty _

theorem encodeClasses_rename (hf : Function.Injective f) (text : β → String) (v : Version)
    (cs : List (ClassDecl α)) :
    encodeClasses text v (cs.map (ClassDecl.rename f)) = encodeClasses (text ∘ f) v cs := by
  have hrecords : (cs.map (ClassDecl.rename f)).map (ClassRecord.ofClass v)
      = (cs.map (ClassRecord.ofClass v)).map (ClassRecord.rename f) := by
    simp only [List.map_map, Function.comp_def, ClassRecord.ofClass_rename]
  have hfollows := follows_symbolsOf hf (cs.map (ClassRecord.ofClass v))
  simp only [encodeClasses, hrecords, List.length_map, List.flatMap_map, hfollows.bytes_eq hf,
    ClassRecord.bytes_rename hf hfollows]

end Encode

end Archive

end ClassCatalog
