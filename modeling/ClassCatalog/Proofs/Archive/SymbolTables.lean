import ClassCatalog.Archive.Write
import ClassCatalog.Proofs.Numbering
import ClassCatalog.Proofs.Ty.Parts

/-! The symbol tables of a written archive. They only grow; every type in them comes after its
parts, and its name is in the table of names; and every symbol of every record is in them. -/

namespace ClassCatalog.Archive

namespace Symbols

def HasName (s : Symbols String) (name : String) : Prop := ∃ k, s.names.value? k = some name

def HasType (s : Symbols String) (t : Ty String) : Prop := ∃ k, s.types.value? k = some t

structure Extends (s u : Symbols String) : Prop where
  names : s.names.Extends u.names
  types : s.types.Extends u.types

theorem Extends.refl (s : Symbols String) : s.Extends s := ⟨.refl _, .refl _⟩

theorem Extends.trans {s u w : Symbols String} (h : s.Extends u) (h' : u.Extends w) : s.Extends w :=
  ⟨h.names.trans h'.names, h.types.trans h'.types⟩

theorem HasName.mono {s u : Symbols String} {name : String} (h : s.HasName name)
    (hu : s.Extends u) : u.HasName name := by
  obtain ⟨k, hk⟩ := h
  exact ⟨k, hu.names k name hk⟩

theorem HasType.mono {s u : Symbols String} {t : Ty String} (h : s.HasType t) (hu : s.Extends u) :
    u.HasType t := by
  obtain ⟨k, hk⟩ := h
  exact ⟨k, hu.types k t hk⟩

/-- All types in the table have the property `P`, and what their records refer to is there. -/
structure Closed (P : Ty String → Prop) (s : Symbols String) : Prop where
  holds : ∀ n t, s.types.value? n = some t → P t
  name : ∀ n t, s.types.value? n = some t → ∀ label ∈ t.name?, s.HasName label
  parts : ∀ n t, s.types.value? n = some t →
    ∀ p ∈ t.parts, ∃ k, k < n ∧ s.types.value? k = some p

/-- `u` has grown out of `s` and has the types `ts`. -/
structure Added (P : Ty String → Prop) (s u : Symbols String) (ts : List (Ty String)) : Prop where
  closed : u.Closed P
  extend : s.Extends u
  has : ∀ t ∈ ts, u.HasType t

variable {P : Ty String → Prop}

theorem closed_empty : (empty : Symbols String).Closed P := by
  have hnone : ∀ n t, (empty : Symbols String).types.value? n ≠ some t := by
    intro n t h
    cases h
  exact ⟨fun n t h => absurd h (hnone n t), fun n t h => absurd h (hnone n t),
    fun n t h => absurd h (hnone n t)⟩

theorem extends_addName (name : String) (s : Symbols String) : s.Extends (s.addName name) :=
  ⟨Numbering.extends_add _ _, .refl _⟩

theorem hasName_addName (name : String) (s : Symbols String) : (s.addName name).HasName name :=
  ⟨_, (Numbering.slot?_eq_some_iff _ _ _).1 (Numbering.slot?_add_self s.names name)⟩

theorem Closed.addName {s : Symbols String} (h : s.Closed P) (name : String) :
    (s.addName name).Closed P :=
  ⟨h.holds, fun n t ht label hl => (h.name n t ht label hl).mono (extends_addName name s), h.parts⟩

theorem Closed.addType_of_parts {s : Symbols String} (h : s.Closed P) {t : Ty String} (ht : P t)
    (hname : ∀ label ∈ t.name?, s.HasName label) (hparts : ∀ p ∈ t.parts, s.HasType p) :
    Added P s { s with types := s.types.add t } [t] := by
  have hext : s.types.Extends (s.types.add t) := Numbering.extends_add _ _
  refine ⟨⟨?_, ?_, ?_⟩, ⟨.refl _, hext⟩, ?_⟩
  · intro n u hu
    rcases Numbering.value?_add_cases hu with hold | ⟨_, rfl⟩
    · exact h.holds n u hold
    · exact ht
  · intro n u hu
    rcases Numbering.value?_add_cases hu with hold | ⟨_, rfl⟩
    · exact h.name n u hold
    · exact hname
  · intro n u hu p hp
    rcases Numbering.value?_add_cases hu with hold | ⟨rfl, rfl⟩
    · obtain ⟨k, hlt, hk⟩ := h.parts n u hold p hp
      exact ⟨k, hlt, hext k p hk⟩
    · obtain ⟨k, hk⟩ := hparts p hp
      exact ⟨k, Numbering.lt_size_of_value? hk, hext k p hk⟩
  · intro u hu
    obtain rfl : u = t := List.mem_singleton.1 hu
    exact ⟨_, (Numbering.slot?_eq_some_iff _ _ _).1 (Numbering.slot?_add_self s.types u)⟩

theorem added_enter {s : Symbols String} {t : Ty String}
    {parts : Symbols String → Symbols String} (hs : s.Closed P) (ht : P t)
    (hparts : Added P s (parts s) t.parts)
    (hname : ∀ label ∈ t.name?, (parts s).HasName label) :
    Added P s (enter t parts s) [t] := by
  rw [enter]
  split
  · next n hn =>
    refine ⟨hs, .refl s, fun u hu => ?_⟩
    obtain rfl : u = t := List.mem_singleton.1 hu
    exact ⟨n, (Numbering.slot?_eq_some_iff _ _ _).1 hn⟩
  · obtain ⟨hclosed, hext, hhas⟩ := hparts.closed.addType_of_parts ht hname hparts.has
    exact ⟨hclosed, hparts.extend.trans hext, hhas⟩

theorem added_nil {s : Symbols String} (hs : s.Closed P) : Added P s s [] :=
  ⟨hs, .refl s, by simp⟩

theorem added_addName {s : Symbols String} (hs : s.Closed P) (name : String) :
    Added P s (s.addName name) [] :=
  ⟨hs.addName name, extends_addName name s, by simp⟩

theorem Added.trans {s u w : Symbols String} {ts ts' : List (Ty String)} (h : Added P s u ts)
    (h' : Added P u w ts') : Added P s w (ts ++ ts') := by
  refine ⟨h'.closed, h.extend.trans h'.extend, fun t ht => ?_⟩
  rcases List.mem_append.1 ht with hmem | hmem
  · exact (h.has t hmem).mono h'.extend
  · exact h'.has t hmem

mutual

theorem added_addType (hP : ∀ t, P t → ∀ p ∈ t.parts, P p) {s : Symbols String} (hs : s.Closed P)
    (t : Ty String) (ht : P t) : Added P s (addType t s) [t] := by
  cases t with
  | primitive p => exact added_enter hs ht (added_nil hs) (by simp [Ty.name?])
  | void => exact added_enter hs ht (added_nil hs) (by simp [Ty.name?])
  | wildcard e => exact added_enter hs ht (added_nil hs) (by simp [Ty.name?])
  | named n =>
    exact added_enter hs ht (added_addName hs n) (by simp [Ty.name?, hasName_addName])
  | typeVariable n =>
    exact added_enter hs ht (added_addName hs n) (by simp [Ty.name?, hasName_addName])
  | unresolved n =>
    exact added_enter hs ht (added_addName hs n) (by simp [Ty.name?, hasName_addName])
  | array d c =>
    have hc : P c := hP _ ht c (by simp [Ty.parts])
    exact added_enter hs ht (added_addType hP hs c hc) (by simp [Ty.name?])
  | bounded e b =>
    have hb : P b := hP _ ht b (by simp [Ty.parts])
    exact added_enter hs ht (added_addType hP hs b hb) (by simp [Ty.name?])
  | parameterized n as =>
    have hname := added_addName hs n
    have has := added_addTypes hP hname.closed as (hP _ ht)
    exact added_enter hs ht (hname.trans has)
      (by simpa [Ty.name?] using (hasName_addName n s).mono has.extend)
  | typeParameter n i bs =>
    have hname := added_addName hs n
    have hbs := added_addTypes hP hname.closed bs (hP _ ht)
    exact added_enter hs ht (hname.trans hbs)
      (by simpa [Ty.name?] using (hasName_addName n s).mono hbs.extend)
  | inner o n as =>
    have hname := added_addName hs n
    have ho := added_addType hP hname.closed o (hP _ ht o (by simp [Ty.parts]))
    have has := added_addTypes hP ho.closed as fun a ha => hP _ ht a (by simp [Ty.parts, ha])
    exact added_enter hs ht ((hname.trans ho).trans has)
      (by simpa [Ty.name?] using (hasName_addName n s).mono (ho.extend.trans has.extend))

theorem added_addTypes (hP : ∀ t, P t → ∀ p ∈ t.parts, P p) {s : Symbols String} (hs : s.Closed P)
    (ts : List (Ty String)) (hts : ∀ t ∈ ts, P t) : Added P s (addTypes ts s) ts := by
  cases ts with
  | nil => exact added_nil hs
  | cons t ts =>
    have ht := added_addType hP hs t (hts t List.mem_cons_self)
    exact ht.trans (added_addTypes hP ht.closed ts fun u hu => hts u (List.mem_cons_of_mem t hu))

end

end Symbols

namespace Item

def text? : Item String → Option String
  | name text => some text
  | name? text => text
  | raw _ | type _ | type? _ => none

def ty? : Item String → Option (Ty String)
  | type ty => some ty
  | type? ty => ty
  | raw _ | name _ | name? _ => none

structure In (s : Symbols String) (i : Item String) : Prop where
  name : ∀ text ∈ i.text?, s.HasName text
  type : ∀ ty ∈ i.ty?, s.HasType ty

theorem In.mono {s u : Symbols String} {i : Item String} (h : i.In s) (hu : s.Extends u) : i.In u :=
  ⟨fun text ht => (h.name text ht).mono hu, fun ty ht => (h.type ty ht).mono hu⟩

variable {P : Ty String → Prop} (hP : ∀ t, P t → ∀ p ∈ t.parts, P p)

include hP

theorem addTo_spec {s : Symbols String} (hs : s.Closed P) (i : Item String)
    (hi : ∀ t ∈ i.ty?, P t) :
    (addTo s i).Closed P ∧ s.Extends (addTo s i) ∧ i.In (addTo s i) := by
  match i with
  | raw _ | name? none | type? none =>
    exact ⟨hs, .refl s, by simp [text?], by simp [ty?]⟩
  | name text | name? (some text) =>
    exact ⟨hs.addName text, Symbols.extends_addName text s,
      by simp [text?, addTo, Symbols.hasName_addName], by simp [ty?]⟩
  | type ty | type? (some ty) =>
    have h := Symbols.added_addType hP hs ty (hi ty rfl)
    exact ⟨h.closed, h.extend, by simp [text?], by simpa [ty?, addTo] using h.has⟩

theorem foldl_addTo_spec {s : Symbols String} (hs : s.Closed P) (items : List (Item String))
    (hi : ∀ i ∈ items, ∀ t ∈ i.ty?, P t) :
    (items.foldl addTo s).Closed P ∧ s.Extends (items.foldl addTo s)
      ∧ ∀ i ∈ items, i.In (items.foldl addTo s) := by
  induction items generalizing s with
  | nil => exact ⟨hs, .refl s, by simp⟩
  | cons i items ih =>
    obtain ⟨hclosed, hext, hin⟩ := addTo_spec hP hs i (hi i List.mem_cons_self)
    obtain ⟨hclosed', hext', hin'⟩ := ih hclosed fun j hj => hi j (List.mem_cons_of_mem i hj)
    refine ⟨hclosed', hext.trans hext', fun j hj => ?_⟩
    rcases List.mem_cons.1 hj with rfl | hmem
    · exact hin.mono hext'
    · exact hin' j hmem

end Item

def AllTypes (P : Ty String → Prop) (records : List (ClassRecord String)) : Prop :=
  ∀ i ∈ records.flatMap ClassRecord.items, ∀ t ∈ i.ty?, P t

theorem closed_symbolsOf {P : Ty String → Prop} (hP : ∀ t, P t → ∀ p ∈ t.parts, P p)
    {records : List (ClassRecord String)} (h : AllTypes P records) : (symbolsOf records).Closed P :=
  (Item.foldl_addTo_spec hP Symbols.closed_empty _ h).1

theorem in_symbolsOf {records : List (ClassRecord String)} {r : ClassRecord String}
    (hr : r ∈ records) {i : Item String} (hi : i ∈ r.items) : i.In (symbolsOf records) := by
  have h := Item.foldl_addTo_spec (P := fun _ => True) (fun _ _ _ _ => trivial)
    Symbols.closed_empty (records.flatMap ClassRecord.items) fun _ _ _ _ => trivial
  exact h.2.2 i (List.mem_flatMap.2 ⟨r, hr, hi⟩)

end ClassCatalog.Archive
