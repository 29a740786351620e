import ClassCatalog.Proofs.Archive.TypeRecords

/-! The tables of an archive filled in one pass. A symbol is answered with its slot at once, and of
a type only its record is kept, which is made when the type is first seen: by then its parts have
slots, though making them has filled the same tables further. These are the slots and records of
the tables that are filled first and written afterwards. -/

namespace ClassCatalog.Archive

inductive Symbol (ν : Type) where
  | name (n : ν)
  | type (t : Ty ν)

namespace Symbol

variable {ν : Type}

def item : Symbol ν → Item ν
  | name n => .name n
  | type t => .type t

end Symbol

structure Encoder (ν : Type) [DecidableEq ν] [Hashable ν] where
  names : Numbering ν
  typeSlots : Std.HashMap (Ty ν) Nat
  records : Array (List UInt8)

namespace Encoder

section Definitions

variable {ν : Type} [DecidableEq ν] [Hashable ν]

def empty : Encoder ν := ⟨.empty, ∅, #[]⟩

def name (n : ν) : StateM (Encoder ν) Nat := modifyGet fun e =>
  let (slot, names) := e.names.number n
  (slot, { e with names := names })

def push (t : Ty ν) (bytes : List UInt8) (e : Encoder ν) : Nat × Encoder ν :=
  (e.records.size,
    { e with
      typeSlots := e.typeSlots.insert t e.records.size
      records := e.records.push (UInt8.ofNat t.kind.code :: bytes) })

def enter (t : Ty ν) (parts : StateM (Encoder ν) (List UInt8)) : StateM (Encoder ν) Nat := do
  match (← get).typeSlots[t]? with
  | some slot => return slot
  | none => modifyGet (push t (← parts))

mutual

def parts : Ty ν → StateM (Encoder ν) (List UInt8)
  | .primitive p => return [UInt8.ofNat p.code]
  | .void => return []
  | .named n | .typeVariable n | .unresolved n => return Varint.encode (← name n)
  | .array d c => return Varint.encode (← enter c (parts c)) ++ [d]
  | .parameterized n as => do
    let name ← name n
    let arguments ← references as
    return Varint.encode name ++ Symbols.optionalBytes none
      ++ (Varint.encode as.length ++ arguments)
  | .inner o n as => do
    let name ← name n
    let owner ← enter o (parts o)
    let arguments ← references as
    return Varint.encode name ++ Symbols.optionalBytes (some owner)
      ++ (Varint.encode as.length ++ arguments)
  | .typeParameter n i bs => do
    let name ← name n
    let bounds ← references bs
    return Varint.encode name ++ [boolByte i] ++ (Varint.encode bs.length ++ bounds)
  | .wildcard e => return [boolByte e] ++ Symbols.optionalBytes none
  | .bounded e b => return [boolByte e] ++ Symbols.optionalBytes (some (← enter b (parts b)))

def references : List (Ty ν) → StateM (Encoder ν) (List UInt8)
  | [] => return []
  | t :: ts => do
    let slot ← enter t (parts t)
    return Varint.encode slot ++ (← references ts)

end

def slotOf : Symbol ν → StateM (Encoder ν) Nat
  | .name n => name n
  | .type t => enter t (parts t)

def answers (calls : List (Symbol ν)) : List Nat × Encoder ν := (calls.mapM slotOf).run empty

end Definitions

end Encoder

namespace Symbols

variable {s u : Symbols String}

theorem slot_name_of_extends (h : s.Extends u) {n : String} (hn : s.HasName n) :
    u.names.slot n = s.names.slot n := by
  obtain ⟨k, hk⟩ := hn
  rw [Numbering.slot_of_value? hk, Numbering.slot_of_value? (h.names k n hk)]

theorem slot_type_of_extends (h : s.Extends u) {t : Ty String} (ht : s.HasType t) :
    u.types.slot t = s.types.slot t := by
  obtain ⟨k, hk⟩ := ht
  rw [Numbering.slot_of_value? hk, Numbering.slot_of_value? (h.types k t hk)]

theorem typesBytes_of_extends (h : s.Extends u) {ts : List (Ty String)}
    (hts : ∀ t ∈ ts, s.HasType t) : u.typesBytes ts = s.typesBytes ts := by
  have hrefs : ts.flatMap u.typeBytes = ts.flatMap s.typeBytes :=
    List.flatMap_congr fun t ht => congrArg Varint.encode (slot_type_of_extends h (hts t ht))
  rw [typesBytes, typesBytes, hrefs]

theorem partBytes_of_extends (h : s.Extends u) {t : Ty String}
    (hname : ∀ label ∈ t.name?, s.HasName label) (hparts : ∀ p ∈ t.parts, s.HasType p) :
    u.partBytes t = s.partBytes t := by
  have hlabel : ∀ label ∈ t.name?, u.nameBytes label = s.nameBytes label := fun label hl =>
    congrArg Varint.encode (slot_name_of_extends h (hname label hl))
  have hslot : ∀ p ∈ t.parts, u.types.slot p = s.types.slot p := fun p hp =>
    slot_type_of_extends h (hparts p hp)
  cases t with
  | primitive | void | wildcard => rfl
  | named n | typeVariable n | unresolved n => exact hlabel n rfl
  | array d c => simp [partBytes, typeBytes, hslot c (by simp [Ty.parts])]
  | bounded e b => simp [partBytes, typeBytes?, hslot b (by simp [Ty.parts])]
  | parameterized n as | typeParameter n i as =>
    have has : u.typesBytes as = s.typesBytes as := typesBytes_of_extends h hparts
    simp [partBytes, typeBytes?, hlabel n rfl, has]
  | inner o n as =>
    have has := typesBytes_of_extends h fun p hp => hparts p (List.mem_cons_of_mem o hp)
    simp [partBytes, typeBytes?, hlabel n rfl, has, hslot o List.mem_cons_self]

theorem typeRecord_of_extends (h : s.Extends u) {t : Ty String}
    (hname : ∀ label ∈ t.name?, s.HasName label) (hparts : ∀ p ∈ t.parts, s.HasType p) :
    u.typeRecord t = s.typeRecord t :=
  congrArg _ (partBytes_of_extends h hname hparts)

theorem Closed.map_typeRecord_of_extends (hs : s.Closed fun _ => True) (h : s.Extends u) :
    s.types.values.toList.map u.typeRecord = s.types.values.toList.map s.typeRecord := by
  refine List.map_congr_left fun t ht => ?_
  obtain ⟨k, hk⟩ := Array.mem_iff_getElem?.1 (Array.mem_toList_iff.1 ht)
  refine typeRecord_of_extends h (hs.name k t hk) fun p hp => ?_
  obtain ⟨j, _, hj⟩ := hs.parts k t hk p hp
  exact ⟨j, hj⟩

def addParts {ν : Type} [DecidableEq ν] [Hashable ν] : Ty ν → Symbols ν → Symbols ν
  | .primitive _ | .void | .wildcard _ => id
  | .named n | .typeVariable n | .unresolved n => addName n
  | .array _ c | .bounded _ c => addType c
  | .parameterized n as | .typeParameter n _ as => addTypes as ∘ addName n
  | .inner o n as => addTypes as ∘ addType o ∘ addName n

theorem addType_eq_enter (t : Ty String) : addType t = enter t (addParts t) := by
  cases t <;> rfl

theorem added_addParts {P : Ty String → Prop} (hP : ∀ t, P t → ∀ p ∈ t.parts, P p)
    (hs : s.Closed P) {t : Ty String} (ht : ∀ p ∈ t.parts, P p) :
    Added P s (addParts t s) t.parts ∧ ∀ label ∈ t.name?, (addParts t s).HasName label := by
  cases t with
  | primitive | void | wildcard => exact ⟨added_nil hs, by simp [Ty.name?]⟩
  | named n | typeVariable n | unresolved n =>
    exact ⟨added_addName hs n, by simp [Ty.name?, addParts, hasName_addName]⟩
  | array d c | bounded e c =>
    exact ⟨added_addType hP hs c (ht c (by simp [Ty.parts])), by simp [Ty.name?]⟩
  | parameterized n as | typeParameter n i as =>
    have hname := added_addName hs n
    have has := added_addTypes hP hname.closed as ht
    have hlabel := (hasName_addName n s).mono has.extend
    exact ⟨hname.trans has, by simpa [Ty.name?, addParts] using hlabel⟩
  | inner o n as =>
    have hname := added_addName hs n
    have ho := added_addType hP hname.closed o (ht o (by simp [Ty.parts]))
    have has := added_addTypes hP ho.closed as fun a ha => ht a (by simp [Ty.parts, ha])
    exact ⟨(hname.trans ho).trans has,
      by simpa [Ty.name?, addParts] using (hasName_addName n s).mono (ho.extend.trans has.extend)⟩

/-- A new type is still new when its parts are in the tables, as those are smaller. -/
theorem not_hasType_addParts (hs : s.Closed fun _ => True) {t : Ty String}
    (hnew : ¬ s.HasType t) : ¬ (addParts t s).HasType t := by
  have hP : ∀ p, s.HasType p ∨ p.nodes < t.nodes →
      ∀ q ∈ p.parts, s.HasType q ∨ q.nodes < t.nodes := by
    rintro p (⟨k, hk⟩ | hlt) q hq
    · obtain ⟨j, _, hj⟩ := hs.parts k p hk q hq
      exact .inl ⟨j, hj⟩
    · exact .inr (Nat.lt_trans (Ty.nodes_lt_of_mem_parts hq) hlt)
  have hclosed : s.Closed fun p => s.HasType p ∨ p.nodes < t.nodes :=
    ⟨fun n p hp => .inl ⟨n, hp⟩, hs.name, hs.parts⟩
  have hadded := (added_addParts hP hclosed fun p hp => .inr (Ty.nodes_lt_of_mem_parts hp)).1
  rintro ⟨k, hk⟩
  rcases hadded.closed.holds k t hk with hold | hlt
  · exact hnew hold
  · exact Nat.lt_irrefl _ hlt

end Symbols

namespace Encoder

/-- The encoder has the slots of the tables, and their records. -/
structure Represents (e : Encoder String) (s : Symbols String) : Prop where
  names : e.names = s.names
  typeSlots : ∀ t, e.typeSlots[t]? = s.types.slot? t
  records : e.records.toList = s.types.values.toList.map s.typeRecord

variable {e : Encoder String} {s : Symbols String}

theorem represents_empty : (empty : Encoder String).Represents .empty := by
  refine ⟨rfl, fun t => ?_, rfl⟩
  rw [empty, Std.HashMap.getElem?_empty]
  exact (Numbering.slot?_eq_none (by simp [Symbols.empty, Numbering.empty])).symm

theorem Represents.size_eq (h : e.Represents s) : e.records.size = s.types.size := by
  rw [← Array.length_toList, h.records, List.length_map, Array.length_toList, Numbering.size]

theorem Represents.run_name (h : e.Represents s) (hs : s.Closed fun _ => True) (n : String) :
    ∃ e', (name n).run e = ((s.addName n).names.slot n, e') ∧ e'.Represents (s.addName n) := by
  have hslot : (s.addName n).names.slot n = (e.names.slot? n).getD e.names.size := by
    rw [Numbering.slot, Symbols.addName, Numbering.slot?_add_self, Option.getD_some, h.names]
  refine ⟨{ e with names := e.names.add n }, by rw [hslot]; rfl, ?_, h.typeSlots, ?_⟩
  · rw [h.names]
    rfl
  · rw [h.records]
    exact (hs.map_typeRecord_of_extends (Symbols.extends_addName n s)).symm

theorem run_bind_of_run {σ α β : Type} {p : StateM σ α} {f : α → StateM σ β} {x x' : σ} {a : α}
    (h : p.run x = (a, x')) : (p >>= f).run x = (f a).run x' := by
  rw [StateT.run_bind, h]
  rfl

theorem enter_run (t : Ty String) (p : StateM (Encoder String) (List UInt8))
    (e : Encoder String) :
    (enter t p).run e = match e.typeSlots[t]? with
      | some slot => (slot, e)
      | none => push t (p.run e).1 (p.run e).2 := by
  have hrun : (enter t p).run e = (match e.typeSlots[t]? with
      | some slot => (return slot : StateM (Encoder String) Nat)
      | none => do modifyGet (push t (← p))).run e := rfl
  rw [hrun]
  split <;> rfl

theorem Represents.pushed (h : e.Represents s) (hs : s.Closed fun _ => True) {t : Ty String}
    (hname : ∀ label ∈ t.name?, s.HasName label) (hparts : ∀ p ∈ t.parts, s.HasType p)
    (hnew : s.types.slot? t = none) :
    (push t (s.partBytes t) e).2.Represents { s with types := s.types.add t } := by
  have hext : s.Extends { s with types := s.types.add t } :=
    ⟨.refl _, Numbering.extends_add _ _⟩
  refine ⟨h.names, fun u => ?_, ?_⟩
  · rw [Numbering.slot?_add_of_new hnew, ← h.typeSlots, ← h.size_eq]
    exact Std.HashMap.getElem?_insert
  · have hrecord := Symbols.typeRecord_of_extends hext hname hparts
    rw [Numbering.values_add_of_new hnew, Array.toList_push, List.map_append, List.map_singleton,
      hrecord, hs.map_typeRecord_of_extends hext, ← h.records]
    exact Array.toList_push

theorem Represents.run_enter (h : e.Represents s) (hs : s.Closed fun _ => True) {t : Ty String}
    (hparts : ∃ e', (parts t).run e = ((Symbols.addParts t s).partBytes t, e')
      ∧ e'.Represents (Symbols.addParts t s)) :
    ∃ e', (enter t (parts t)).run e = ((Symbols.addType t s).types.slot t, e')
      ∧ e'.Represents (Symbols.addType t s) := by
  rw [enter_run, h.typeSlots, Symbols.addType_eq_enter, Symbols.enter]
  cases hslot : s.types.slot? t with
  | some n => exact ⟨e, by simp only [Numbering.slot, hslot, Option.getD_some], h⟩
  | none =>
    obtain ⟨e', hrun, h'⟩ := hparts
    have hadded := Symbols.added_addParts (fun _ _ _ _ => trivial) hs (t := t)
      fun _ _ => trivial
    have hnew : (Symbols.addParts t s).types.slot? t = none := by
      refine Numbering.slot?_eq_none fun hmem => ?_
      refine Symbols.not_hasType_addParts hs ?_ (Array.mem_iff_getElem?.1 hmem)
      rintro ⟨k, hk⟩
      rw [(Numbering.slot?_eq_some_iff _ _ _).2 hk] at hslot
      cases hslot
    have hsize : ((Symbols.addParts t s).types.add t).slot t = e'.records.size := by
      rw [Numbering.slot, Numbering.slot?_add_self, hnew, h'.size_eq]
      rfl
    refine ⟨_, ?_, h'.pushed hadded.1.closed hadded.2 hadded.1.has hnew⟩
    simp only [hrun, hsize]
    rfl

theorem added_entered (hs : s.Closed fun _ => True) (t : Ty String) :
    Symbols.Added (fun _ => True) s (Symbols.addType t s) [t] :=
  Symbols.added_addType (fun _ _ _ _ => trivial) hs t trivial

theorem added_entered_all (hs : s.Closed fun _ => True) (ts : List (Ty String)) :
    Symbols.Added (fun _ => True) s (Symbols.addTypes ts s) ts :=
  Symbols.added_addTypes (fun _ _ _ _ => trivial) hs ts fun _ _ => trivial

mutual

theorem Represents.run_parts {e : Encoder String} {s : Symbols String} (h : e.Represents s)
    (hs : s.Closed fun _ => True) (t : Ty String) :
    ∃ e', (parts t).run e = ((Symbols.addParts t s).partBytes t, e')
      ∧ e'.Represents (Symbols.addParts t s) := by
  cases t with
  | primitive | void | wildcard => exact ⟨e, by rw [parts]; rfl, h⟩
  | named n | typeVariable n | unresolved n =>
    obtain ⟨e₁, hname, h₁⟩ := h.run_name hs n
    refine ⟨e₁, ?_, h₁⟩
    rw [parts, run_bind_of_run hname]
    rfl
  | array d c | bounded _ c =>
    obtain ⟨e₁, hc, h₁⟩ := h.run_enter hs (h.run_parts hs c)
    refine ⟨e₁, ?_, h₁⟩
    rw [parts, run_bind_of_run hc]
    rfl
  | parameterized n as | typeParameter n i as =>
    have hext := (added_entered_all (hs.addName n) as).extend
    have hslot := Symbols.slot_name_of_extends hext (Symbols.hasName_addName n s)
    obtain ⟨e₁, hname, h₁⟩ := h.run_name hs n
    obtain ⟨e₂, has, h₂⟩ := h₁.run_references (hs.addName n) as
    refine ⟨e₂, ?_, h₂⟩
    rw [parts, run_bind_of_run hname, run_bind_of_run has, ← hslot]
    rfl
  | inner o n as =>
    have ho := added_entered (hs.addName n) o
    have hext := (added_entered_all ho.closed as).extend
    have hslot := Symbols.slot_name_of_extends (ho.extend.trans hext)
      (Symbols.hasName_addName n s)
    have howner := Symbols.slot_type_of_extends hext (ho.has o List.mem_cons_self)
    obtain ⟨e₁, hname, h₁⟩ := h.run_name hs n
    obtain ⟨e₂, howner', h₂⟩ := h₁.run_enter (hs.addName n) (h₁.run_parts (hs.addName n) o)
    obtain ⟨e₃, has, h₃⟩ := h₂.run_references ho.closed as
    refine ⟨e₃, ?_, h₃⟩
    rw [parts, run_bind_of_run hname, run_bind_of_run howner', run_bind_of_run has, ← hslot,
      ← howner]
    rfl

theorem Represents.run_references {e : Encoder String} {s : Symbols String} (h : e.Represents s)
    (hs : s.Closed fun _ => True) (ts : List (Ty String)) :
    ∃ e', (references ts).run e = (ts.flatMap (Symbols.addTypes ts s).typeBytes, e')
      ∧ e'.Represents (Symbols.addTypes ts s) := by
  cases ts with
  | nil => exact ⟨e, by rw [references]; rfl, h⟩
  | cons t ts =>
    have ht := added_entered hs t
    have hext := (added_entered_all ht.closed ts).extend
    have hslot := Symbols.slot_type_of_extends hext (ht.has t List.mem_cons_self)
    obtain ⟨e₁, hrun, h₁⟩ := h.run_enter hs (h.run_parts hs t)
    obtain ⟨e₂, hruns, h₂⟩ := h₁.run_references ht.closed ts
    refine ⟨e₂, ?_, h₂⟩
    rw [references, run_bind_of_run hrun, run_bind_of_run hruns, ← hslot]
    rfl

end

end Encoder

end ClassCatalog.Archive
