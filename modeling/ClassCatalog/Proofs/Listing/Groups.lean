import Mathlib.Data.List.Nodup
import ClassCatalog.Listing

/-! The annotations of a class as a listing goes through them: declaration by declaration, and under
each part by part, every one of them once. -/

namespace ClassCatalog

/-- A target belongs to the declaration that it is, or else to the one that it lies in. -/
inductive Target.BelongsTo {ν : Type} : Target ν → DeclRef ν → Prop where
  | itself (d : DeclRef ν) : BelongsTo (.declaration d) d
  | parameter (owner : ν) (method : UInt32) (position : UInt16) :
    BelongsTo (.parameter owner method position) (.method owner method)
  | typeUse (u : TypeTarget ν) : BelongsTo (.typeUse u) u.enclosing

theorem Target.belongsTo_iff {ν : Type} {t : Target ν} {d : DeclRef ν} :
    t.BelongsTo d ↔ t.belongsTo = d := by
  constructor
  · intro h
    cases h <;> rfl
  · rintro rfl
    cases t with
    | declaration d => exact .itself d
    | parameter owner method position => exact .parameter owner method position
    | typeUse u => exact .typeUse u

/-- What of a declaration is annotated. -/
inductive Part where
  | itself
  | type
  | parameter (position : Nat)
  deriving DecidableEq

def Target.part {ν : Type} : Target ν → Part
  | declaration _ => .itself
  | typeUse _ => .type
  | parameter _ _ position => .parameter position.toNat

def AnnotationUse.spot? {ν : Type} (a : AnnotationUse ν) : Option (DeclRef ν × Part) :=
  a.target.map fun t => (t.belongsTo, t.part)

namespace ClassDecl

variable (c : ClassDecl String)

def declarations : List (DeclRef String) :=
  c.ref :: (c.fields.map c.fieldRef ++ c.components.map c.componentRef
    ++ (List.range c.methods.length).map c.methodRef)

def parts : DeclRef String → List Part
  | .method _ index =>
    .itself :: .type :: (c.methods[index.toNat]?.elim [] (·.positions.map .parameter))
  | _ => [.itself, .type]

def group (d : DeclRef String) (p : Part) : List (AnnotationUse String) :=
  c.annotations.filter (·.spot? = some (d, p))

def listed (d : DeclRef String) : List (AnnotationUse String) := (c.parts d).flatMap (c.group d)

def Holds : Target String → Prop
  | .declaration d => d ∈ c.declarations
  | .parameter owner method position => owner = c.name
    ∧ ∃ m, c.methods[method.toNat]? = some m ∧ position.toNat < m.parameters.length
  | .typeUse u => u.enclosing ∈ c.declarations

/-- No two fields have the same name, no two components, and the methods can be told apart by
their positions; every annotation stands on something in the class. -/
structure Listable : Prop where
  fields : (c.fields.map (·.name)).Nodup
  components : (c.components.map (·.name)).Nodup
  methods : c.methods.length ≤ UInt32.size
  targets : ∀ a ∈ c.annotations, ∃ t, a.target = some t ∧ c.Holds t

end ClassDecl

section Groups

variable {α κ : Type} [DecidableEq κ]

theorem flatMap_filter_perm (key : α → κ) {keys : List κ} (hkeys : keys.Nodup) {as : List α}
    (h : ∀ a ∈ as, key a ∈ keys) : (keys.flatMap fun k => as.filter (key · = k)).Perm as := by
  induction keys generalizing as with
  | nil =>
    have hnone : as = [] := List.eq_nil_iff_forall_not_mem.2 fun a ha => List.not_mem_nil (h a ha)
    rw [hnone]
    exact List.Perm.refl _
  | cons k keys ih =>
    obtain ⟨hk, hkeys⟩ := List.nodup_cons.1 hkeys
    have hothers : ∀ a ∈ as.filter (fun a => ! decide (key a = k)), key a ∈ keys := by
      intro a ha
      obtain ⟨hmem, hne⟩ := List.mem_filter.1 ha
      exact (List.mem_cons.1 (h a hmem)).resolve_left (by simpa using hne)
    have hsame : ∀ j ∈ keys, (as.filter fun a => ! decide (key a = k)).filter (key · = j)
        = as.filter (key · = j) := by
      intro j hj
      rw [List.filter_filter]
      refine List.filter_congr fun a _ => ?_
      by_cases ha : key a = j
      · have hne : ¬ j = k := fun heq => hk (heq ▸ hj)
        simp [ha, hne]
      · simp [ha]
    have hrest := ih hkeys hothers
    rw [List.flatMap_congr hsame] at hrest
    rw [List.flatMap_cons]
    exact (hrest.append_left _).trans (List.filter_append_perm _ as)

end Groups

namespace ClassDecl

variable {c : ClassDecl String}

theorem itself_mem_parts (d : DeclRef String) : .itself ∈ c.parts d := by
  cases d <;> exact List.mem_cons_self

theorem type_mem_parts (d : DeclRef String) : .type ∈ c.parts d := by
  cases d <;> exact List.mem_cons_of_mem _ List.mem_cons_self

theorem methodRef_mem_declarations {index : UInt32} (h : index.toNat < c.methods.length) :
    .method c.name index ∈ c.declarations := by
  refine List.mem_cons_of_mem _ (List.mem_append_right _ (List.mem_map.2 ?_))
  refine ⟨index.toNat, List.mem_range.2 h, ?_⟩
  rw [methodRef, UInt32.ofNat_toNat]

theorem Holds.spot_mem {t : Target String} (h : c.Holds t) :
    t.belongsTo ∈ c.declarations ∧ t.part ∈ c.parts t.belongsTo := by
  cases t with
  | declaration d => exact ⟨h, itself_mem_parts d⟩
  | typeUse u => exact ⟨h, type_mem_parts u.enclosing⟩
  | parameter owner method position =>
    obtain ⟨rfl, m, hm, hposition⟩ := h
    refine ⟨methodRef_mem_declarations (List.getElem?_eq_some_iff.1 hm).1, ?_⟩
    refine List.mem_cons_of_mem _ (List.mem_cons_of_mem _ ?_)
    rw [hm]
    refine List.mem_map_of_mem (List.mem_range.2 ?_)
    have hsize : position.toNat < UInt16.size := position.toNat_lt
    omega

theorem nodup_parts (d : DeclRef String) : (c.parts d).Nodup := by
  cases d with
  | method owner index =>
    have hpositions : (c.methods[index.toNat]?.elim [] (·.positions.map Part.parameter)).Nodup := by
      cases c.methods[index.toNat]? with
      | none => exact List.nodup_nil
      | some m => exact List.nodup_range.map fun _ _ h => Part.parameter.inj h
    have hfirst : ∀ p ∈ c.methods[index.toNat]?.elim [] (·.positions.map Part.parameter),
        p ≠ .itself ∧ p ≠ .type := by
      cases c.methods[index.toNat]? with
      | none => exact nofun
      | some m => exact List.forall_mem_map.2 fun _ _ => ⟨nofun, nofun⟩
    refine List.nodup_cons.2 ⟨?_, List.nodup_cons.2 ⟨fun h => (hfirst _ h).2 rfl, hpositions⟩⟩
    intro h
    rcases List.mem_cons.1 h with heq | hmem
    · cases heq
    · exact (hfirst _ hmem).1 rfl
  | _ => exact (by decide : [Part.itself, .type].Nodup)

theorem Listable.nodup_declarations (h : c.Listable) : c.declarations.Nodup := by
  have hfields : (c.fields.map c.fieldRef).Nodup := by
    have hnames := h.fields.map (f := DeclRef.field c.name) fun _ _ h => (DeclRef.field.inj h).2
    rwa [List.map_map] at hnames
  have hcomponents : (c.components.map c.componentRef).Nodup := by
    have hnames := h.components.map (f := DeclRef.component c.name)
      fun _ _ h => (DeclRef.component.inj h).2
    rwa [List.map_map] at hnames
  have hmethods : ((List.range c.methods.length).map c.methodRef).Nodup := by
    refine List.Nodup.map_on (fun i hi j hj heq => ?_) List.nodup_range
    rw [List.mem_range] at hi hj
    exact (DeclRef.method_ofNat_inj (Nat.lt_of_lt_of_le hi h.methods)
      (Nat.lt_of_lt_of_le hj h.methods)).1 heq
  rw [declarations, List.nodup_cons, List.nodup_append, List.nodup_append]
  refine ⟨?_, ⟨hfields, hcomponents, ?_⟩, hmethods, ?_⟩
  · simp [ref, fieldRef, componentRef, methodRef]
  · simp [fieldRef, componentRef]
  · intro d hd e he
    obtain ⟨index, _, rfl⟩ := List.mem_map.1 he
    rcases List.mem_append.1 hd with hfield | hcomponent
    · obtain ⟨f, _, rfl⟩ := List.mem_map.1 hfield
      exact nofun
    · obtain ⟨k, _, rfl⟩ := List.mem_map.1 hcomponent
      exact nofun

theorem Listable.groups_perm (h : c.Listable) :
    (c.declarations.flatMap c.listed).Perm c.annotations := by
  have hkeys : (c.declarations.flatMap fun d => (c.parts d).map fun p => some (d, p)).Nodup := by
    rw [List.nodup_flatMap]
    refine ⟨fun d _ => (nodup_parts d).map fun _ _ h => (Prod.mk.inj (Option.some.inj h)).2, ?_⟩
    refine h.nodup_declarations.imp fun hne => ?_
    simp [Function.onFun, List.disjoint_left, hne.symm]
  have hcover : ∀ a ∈ c.annotations,
      a.spot? ∈ c.declarations.flatMap fun d => (c.parts d).map fun p => some (d, p) := by
    intro a ha
    obtain ⟨t, htarget, hholds⟩ := h.targets a ha
    obtain ⟨hdeclaration, hpart⟩ := hholds.spot_mem
    refine List.mem_flatMap.2 ⟨t.belongsTo, hdeclaration, List.mem_map.2 ⟨t.part, hpart, ?_⟩⟩
    rw [AnnotationUse.spot?, htarget]
    rfl
  have hperm := flatMap_filter_perm AnnotationUse.spot? hkeys hcover
  simp only [List.flatMap_assoc, List.flatMap_map] at hperm
  exact hperm

end ClassDecl

namespace Listing

variable {c : ClassDecl String}

def Place.ofTarget : Target String → Place
  | .declaration _ => .declared
  | .typeUse u => .typeUse u
  | .parameter _ _ position => .parameter position.toNat

def Entry.StandsIn (d : DeclRef String) (e : Entry) : Prop :=
  ∃ t, e.use.target = some t ∧ t.BelongsTo d ∧ e.place = .ofTarget t

theorem lt_size_of_mem_positions {m : MethodDecl String} {position : Nat}
    (h : position ∈ m.positions) : position < UInt16.size :=
  (Nat.lt_min.1 (List.mem_range.1 h)).2

theorem uses_declaredOn (d : DeclRef String) : c.declaredOn d = c.group d .itself := by
  refine List.filter_congr fun a _ => ?_
  rw [decide_eq_decide, AnnotationUse.spot?]
  cases a.target with
  | none => exact ⟨nofun, nofun⟩
  | some t =>
    cases t with
    | declaration e => simp [Target.belongsTo, Target.part]
    | _ => simp [Target.part]

theorem uses_typeUses (d : DeclRef String) :
    (c.annotations.filterMap (typeUseIn? d)).map (·.use) = c.group d .type := by
  have hone : ∀ a : AnnotationUse String, (typeUseIn? d a).map (·.use)
      = Option.guard (fun a => decide (a.spot? = some (d, .type))) a := by
    rintro ⟨name, visible, target, members⟩
    unfold typeUseIn? Option.guard AnnotationUse.spot?
    cases target with
    | none => rfl
    | some t =>
      cases t with
      | typeUse u => by_cases hu : u.enclosing = d <;> simp [Target.belongsTo, Target.part, hu]
      | _ => simp [Target.part]
  rw [List.map_filterMap, funext hone, List.filterMap_eq_filter]
  rfl

theorem uses_entriesOf (d : DeclRef String) :
    (entriesOf c d).map (·.use) = c.group d .itself ++ c.group d .type := by
  rw [entriesOf, List.map_append, uses_typeUses, List.map_map, ← uses_declaredOn]
  congr 1
  exact List.map_id _

theorem annotationsOn_parameterTarget (index : Nat) {position : Nat}
    (h : position < UInt16.size) :
    c.annotationsOn (c.parameterTarget index position)
      = c.group (c.methodRef index) (.parameter position) := by
  have hposition (p : UInt16) : p.toNat = position ↔ p = UInt16.ofNat position := by
    rw [← UInt16.toNat_inj, UInt16.toNat_ofNat_of_lt' h]
  refine List.filter_congr fun a _ => ?_
  rw [decide_eq_decide]
  unfold AnnotationUse.spot?
  cases a.target with
  | none => exact ⟨nofun, nofun⟩
  | some t =>
    cases t with
    | parameter owner method p =>
      simp [Target.belongsTo, Target.part, ClassDecl.parameterTarget, ClassDecl.methodRef,
        hposition, and_assoc]
    | _ => simp [Target.part, ClassDecl.parameterTarget]

theorem uses_parameterEntries (m : MethodDecl String) (index : Nat) :
    (parameterEntries c m index).map (·.use)
      = (m.positions.map Part.parameter).flatMap (c.group (c.methodRef index)) := by
  rw [parameterEntries, List.map_flatMap, List.flatMap_map]
  refine List.flatMap_congr fun position hposition => ?_
  have hsize := lt_size_of_mem_positions hposition
  rw [List.map_map, ← annotationsOn_parameterTarget index hsize]
  exact List.map_id _

/-- A section shows the groups of its declaration, one after the other. -/
def Section.ShowsGroups (c : ClassDecl String) (s : Section) : Prop :=
  s.entries.map (·.use) = c.listed s.subject

theorem showsGroups_methodSection (m : MethodDecl String) {index : Nat}
    (hm : c.methods[index]? = some m) (hindex : index < UInt32.size) :
    (methodSection c m index).ShowsGroups c := by
  have hparts : c.parts (c.methodRef index)
      = .itself :: .type :: m.positions.map .parameter := by
    rw [ClassDecl.methodRef, ClassDecl.parts, UInt32.toNat_ofNat_of_lt' hindex, hm]
    rfl
  show (entriesOf c _ ++ parameterEntries c m index).map (·.use) = _
  rw [List.map_append, uses_entriesOf, uses_parameterEntries]
  show _ = c.listed (c.methodRef index)
  rw [ClassDecl.listed, hparts, List.flatMap_cons, List.flatMap_cons, List.append_assoc]

theorem showsGroups_of_simple {s : Section} (hentries : s.entries = entriesOf c s.subject)
    (hparts : c.parts s.subject = [.itself, .type]) : s.ShowsGroups c := by
  rw [Section.ShowsGroups, ClassDecl.listed, hentries, hparts, uses_entriesOf, List.flatMap_cons,
    List.flatMap_cons, List.flatMap_nil, List.append_nil]

theorem sections_cases {s : Section} (hs : s ∈ sections c) :
    (s.entries = entriesOf c s.subject ∧ c.parts s.subject = [.itself, .type])
      ∨ ∃ m index, c.methods[index]? = some m ∧ s = methodSection c m index := by
  rcases List.mem_cons.1 hs with rfl | hmember
  · exact .inl ⟨rfl, rfl⟩
  rcases List.mem_append.1 hmember with hvariable | hmethod
  · rcases List.mem_append.1 hvariable with hfield | hcomponent
    · obtain ⟨f, _, rfl⟩ := List.mem_map.1 hfield
      exact .inl ⟨rfl, rfl⟩
    · obtain ⟨k, _, rfl⟩ := List.mem_map.1 hcomponent
      exact .inl ⟨rfl, rfl⟩
  · obtain ⟨⟨m, index⟩, hm, rfl⟩ := List.mem_map.1 hmethod
    exact .inr ⟨m, index, List.mk_mem_zipIdx_iff_getElem?.1 hm, rfl⟩

theorem showsGroups_sections (h : c.methods.length ≤ UInt32.size) :
    ∀ s ∈ sections c, s.ShowsGroups c := by
  intro s hs
  rcases sections_cases hs with ⟨hentries, hparts⟩ | ⟨m, index, hm, rfl⟩
  · exact showsGroups_of_simple hentries hparts
  · have hindex := (List.getElem?_eq_some_iff.1 hm).1
    exact showsGroups_methodSection m hm (Nat.lt_of_lt_of_le hindex h)

theorem subjects_sections (c : ClassDecl String) :
    (sections c).map (·.subject) = c.declarations := by
  rw [sections, List.map_cons, List.map_append, List.map_append, List.map_map, List.map_map,
    List.map_map, ClassDecl.declarations, List.range_eq_range',
    ← List.zipIdx_map_snd 0 c.methods, List.map_map]
  rfl

theorem uses_sections_perm (h : c.Listable) :
    (((sections c).flatMap (·.entries)).map (·.use)).Perm c.annotations := by
  have hgroups : ((sections c).flatMap (·.entries)).map (·.use)
      = c.declarations.flatMap c.listed := by
    rw [← subjects_sections, List.flatMap_map, List.map_flatMap]
    exact List.flatMap_congr (showsGroups_sections h.methods)
  rw [hgroups]
  exact h.groups_perm

theorem standsIn_entriesOf (d : DeclRef String) : ∀ e ∈ entriesOf c d, e.StandsIn d := by
  intro e he
  rcases List.mem_append.1 he with hdeclared | htype
  · obtain ⟨a, ha, rfl⟩ := List.mem_map.1 hdeclared
    have htarget := of_decide_eq_true (List.mem_filter.1 ha).2
    exact ⟨_, htarget, .itself d, rfl⟩
  · obtain ⟨a, _, hentry⟩ := List.mem_filterMap.1 htype
    unfold typeUseIn? at hentry
    split at hentry
    · next u htarget =>
      split at hentry
      · next hu =>
        cases hentry
        exact ⟨_, htarget, hu ▸ .typeUse u, rfl⟩
      · cases hentry
    · cases hentry

theorem standsIn_parameterEntries (m : MethodDecl String) (index : Nat) :
    ∀ e ∈ parameterEntries c m index, e.StandsIn (c.methodRef index) := by
  intro e he
  obtain ⟨position, hposition, hentry⟩ := List.mem_flatMap.1 he
  obtain ⟨a, ha, rfl⟩ := List.mem_map.1 hentry
  have htarget := of_decide_eq_true (List.mem_filter.1 ha).2
  have hsize := lt_size_of_mem_positions hposition
  refine ⟨_, htarget, .parameter _ _ _, ?_⟩
  rw [ClassDecl.parameterTarget, Place.ofTarget, UInt16.toNat_ofNat_of_lt' hsize]

theorem standsIn_sections : ∀ s ∈ sections c, ∀ e ∈ s.entries, e.StandsIn s.subject := by
  intro s hs
  rcases sections_cases hs with ⟨hentries, _⟩ | ⟨m, index, _, rfl⟩
  · rw [hentries]
    exact standsIn_entriesOf _
  · exact List.forall_mem_append.2 ⟨standsIn_entriesOf _, standsIn_parameterEntries m index⟩

theorem exists_belongsTo_of_listed {d : DeclRef String} {a : AnnotationUse String}
    (h : a ∈ c.listed d) : ∃ t, a.target = some t ∧ t.BelongsTo d := by
  obtain ⟨p, _, hgroup⟩ := List.mem_flatMap.1 h
  have hspot := of_decide_eq_true (List.mem_filter.1 hgroup).2
  obtain ⟨t, htarget, hkey⟩ := Option.map_eq_some_iff.1 hspot
  exact ⟨t, htarget, Target.belongsTo_iff.2 (Prod.mk.inj hkey).1⟩

end Listing

end ClassCatalog
