import ClassCatalog.Proofs.Archive.Records
import ClassCatalog.Proofs.ClassFile.Types

/-! The annotations of a decoded class stand on the class itself or on something in it, and their
values nest only so deep. So an archive can hold the class. -/

namespace ClassCatalog.ClassFile

namespace ElementValue

variable {pool : ConstantPool}

theorem yields_body {element : Reader (Value String)} {levels : Nat}
    (h : Yields element (·.depth ≤ levels)) :
    Yields (body pool element) fun r => Value.membersDepth r.2 ≤ levels := by
  refine Yields.after fun _ => Yields.after fun _ => Yields.after fun name => ?_
  have hmember : Yields (do
      let member ← pool.utf8 (← Reader.u2)
      return (member, ← element)) fun m : String × Value String => m.2.depth ≤ levels := by
    refine Yields.after fun _ => Yields.after fun member => ?_
    exact h.bind fun v hv => Yields.pure hv
  refine (Reader.yields_counted hmember).bind fun members hmembers => Yields.pure ?_
  exact (Value.membersDepth_le_iff _ _).2 hmembers

theorem yields_read (pool : ConstantPool) (visible : Bool) (levels : Nat) :
    Yields (read pool visible levels) (·.depth ≤ levels) := by
  induction levels with
  | zero => exact Yields.fail _
  | succ levels ih =>
    have hflat : 1 ≤ levels + 1 := Nat.succ_le_succ (Nat.zero_le levels)
    refine Yields.after fun tag => ?_
    split
    iterate 9 exact Yields.after fun _ => Yields.after fun _ => Yields.pure hflat
    · refine Yields.after fun _ => Yields.after fun _ => Yields.after fun _ => ?_
      exact Yields.after fun _ => Yields.after fun _ => Yields.pure hflat
    · exact Yields.after fun _ => Yields.after fun _ => Yields.after fun _ => Yields.pure hflat
    · refine (yields_body ih).bind fun r hr => Yields.pure ?_
      rw [Value.depth]
      omega
    · refine (Reader.yields_counted ih).bind fun elements helements => Yields.pure ?_
      have hdepth := (Value.elementsDepth_le_iff _ _).2 helements
      rw [Value.depth]
      omega
    · exact Yields.fail _

end ElementValue

/-- A shallow annotation on the declaration `d` or on a parameter of it. -/
structure AnnotationUse.StandsOn (d : DeclRef String) (a : AnnotationUse String) : Prop where
  target : ∃ t, a.target = some t ∧ t.belongsTo = d ∧ ∀ u, t ≠ .typeUse u
  members : Value.membersDepth a.members ≤ Archive.maxValueDepth

namespace Annotations

theorem yields_readOne (pool : ConstantPool) (visible : Bool) :
    Yields (readOne pool visible) fun a =>
      Value.membersDepth a.members ≤ Archive.maxValueDepth := by
  refine (ElementValue.yields_body (ElementValue.yields_read pool visible _)).bind fun r hr => ?_
  exact Yields.pure (Nat.le_trans hr (by decide))

theorem yields_read (pool : ConstantPool) {target : Target String}
    (htarget : ∀ u, target ≠ .typeUse u) (visible : Bool) :
    Yields (read pool target visible) fun as =>
      ∀ a ∈ as, AnnotationUse.StandsOn target.belongsTo a := by
  refine Reader.yields_counted ((yields_readOne pool visible).bind fun a ha => Yields.pure ?_)
  exact ⟨⟨target, rfl, rfl, htarget⟩, ha⟩

theorem yields_readTables (pool : ConstantPool) (owner : String) (method : UInt32)
    (visible : Bool) (n position : Nat) :
    Yields (readTables pool owner method visible n position) fun as =>
      ∀ a ∈ as, AnnotationUse.StandsOn (.method owner method) a := by
  induction n generalizing position with
  | zero => exact Yields.pure (by simp)
  | succ n ih =>
    refine (yields_read pool (fun _ h => by cases h) visible).bind fun here hhere => ?_
    refine (ih (position + 1)).bind fun rest hrest => Yields.pure ?_
    exact List.forall_mem_append.2 ⟨hhere, hrest⟩

theorem yields_readParameters (pool : ConstantPool) (owner : String) (method : UInt32)
    (arity : Nat) (visible : Bool) :
    Yields (readParameters pool owner method arity visible) fun as =>
      ∀ a ∈ as, AnnotationUse.StandsOn (.method owner method) a :=
  Yields.after fun _ => yields_readTables pool owner method visible _ _

end Annotations

theorem TypeEntry.yields_readMany (pool : ConstantPool) (visible : Bool) (n : Nat) :
    Yields (readMany pool visible n) fun entries =>
      ∀ e ∈ entries, Value.membersDepth e.body.members ≤ Archive.maxValueDepth := by
  induction n with
  | zero => exact Yields.pure (by simp)
  | succ n ih =>
    refine Yields.after fun location => ?_
    cases location with
    | unknown => exact Yields.pure (by simp)
    | code => exact Yields.after fun _ => Yields.after fun _ => ih
    | declared use =>
      refine Yields.after fun path => ?_
      refine (Annotations.yields_readOne pool visible).bind fun body hbody => ?_
      refine ih.bind fun rest hrest => ?_
      cases path with
      | none => exact Yields.pure hrest
      | some path => exact Yields.pure (List.forall_mem_cons.2 ⟨hbody, hrest⟩)

theorem TypeEntry.yields_read (pool : ConstantPool) (visible : Bool) :
    Yields (TypeEntry.read pool visible) fun entries =>
      ∀ e ∈ entries, Value.membersDepth e.body.members ≤ Archive.maxValueDepth :=
  Yields.after fun n => yields_readMany pool visible n

structure PendingTypeUse.StandsOn (d : DeclRef String) (u : PendingTypeUse String) : Prop where
  enclosing : u.enclosing = d
  members : Value.membersDepth u.entry.body.members ≤ Archive.maxValueDepth

structure Decoded.StandsOn {α : Type} (d : DeclRef String) (r : Decoded α) : Prop where
  annotations : ∀ a ∈ r.annotations, AnnotationUse.StandsOn d a
  typeUses : ∀ u ∈ r.typeUses, u.StandsOn d

namespace Context

variable (ctx : Context)

theorem gives_readBoth {α : Type} {P : α → Prop} (attributes : Attributes) (kind : String)
    {p : Bool → Reader (List α)} (h : ∀ visible, Yields (p visible) fun as => ∀ a ∈ as, P a) :
    Gives (ctx.readBoth attributes kind p) fun as => ∀ a ∈ as, P a := by
  refine (Attributes.gives_readList (h true)).bind fun visible hvisible => ?_
  split
  · refine (Attributes.gives_readList (h false)).bind fun invisible hinvisible => Gives.ok ?_
    exact List.forall_mem_append.2 ⟨hvisible, hinvisible⟩
  · exact Gives.ok hvisible

theorem gives_declaredOn (attributes : Attributes) (d : DeclRef String) :
    Gives (ctx.declaredOn attributes d) fun as => ∀ a ∈ as, AnnotationUse.StandsOn d a :=
  ctx.gives_readBoth attributes _ (Annotations.yields_read ctx.pool (fun _ => nofun))

theorem gives_typeUsesIn (attributes : Attributes) (d : DeclRef String) :
    Gives (ctx.typeUsesIn attributes d) fun us => ∀ u ∈ us, u.StandsOn d := by
  have hentries := ctx.gives_readBoth attributes "TypeAnnotations" (TypeEntry.yields_read ctx.pool)
  refine hentries.bind fun entries he => Gives.ok ?_
  exact List.forall_mem_map.2 fun e hmem => ⟨rfl, he e hmem⟩

theorem gives_field_standsOn (m : MemberLayout) :
    Gives (ctx.field m) fun r => r.StandsOn (.field ctx.name r.decl.name) := by
  refine (Gives.any _).bind fun ty _ => ?_
  refine (ctx.gives_declaredOn m.attributes _).bind fun annotations ha => ?_
  exact (ctx.gives_typeUsesIn m.attributes _).bind fun typeUses hu => Gives.ok ⟨ha, hu⟩

theorem yields_component_standsOn :
    Yields ctx.component fun r => r.StandsOn (.component ctx.name r.decl.name) := by
  refine Yields.after fun _ => Yields.after fun name => Yields.after fun _ => ?_
  refine Yields.after fun descriptor => Yields.after fun attributes => Yields.after fun ty => ?_
  refine (Yields.lift (ctx.gives_declaredOn attributes _)).bind fun annotations ha => ?_
  refine (Yields.lift (ctx.gives_typeUsesIn attributes _)).bind fun typeUses hu => ?_
  exact Yields.pure ⟨ha, hu⟩

structure ReadsMethod (index : Nat) (m : MemberLayout) (r : Decoded (MethodDraft String)) :
    Prop where
  standsOn : r.StandsOn (.method ctx.name (UInt32.ofNat index))
  default : ∀ v ∈ r.decl.default, v.depth ≤ Archive.maxValueDepth
  signature : r.decl.hasSignature = m.attributes.signature.isSome

theorem gives_method_standsOn (index : Nat) (m : MemberLayout) :
    Gives (ctx.method index m) (ctx.ReadsMethod index m) := by
  have hdefault : Gives ((m.attributes.body? "AnnotationDefault").mapM
      (ElementValue.readDefault ctx.pool).value) fun d =>
        ∀ v ∈ d, v.depth ≤ Archive.maxValueDepth :=
    Gives.optionMapM fun body _ =>
      Reader.gives_value (ElementValue.yields_read ctx.pool true Nested.elementValue.limit) body
  refine (Gives.any _).bind fun _ _ => (Gives.any _).bind fun _ _ => ?_
  refine (Gives.any _).bind fun types _ => hdefault.bind fun default hd => ?_
  refine (Gives.any _).bind fun _ _ => ?_
  refine (ctx.gives_declaredOn m.attributes _).bind fun declared hdeclared => ?_
  have hparameters := ctx.gives_readBoth m.attributes "ParameterAnnotations"
    (Annotations.yields_readParameters ctx.pool ctx.name (UInt32.ofNat index)
      types.parameters.length)
  refine hparameters.bind fun onParameters honParameters => ?_
  refine (ctx.gives_typeUsesIn m.attributes _).bind fun typeUses hu => Gives.ok ?_
  exact ⟨⟨List.forall_mem_append.2 ⟨hdeclared, honParameters⟩, hu⟩, hd, rfl⟩

end Context

def DeclRef.IsIn (c : ClassDecl String) : DeclRef String → Prop
  | .type name => name = c.name
  | .field owner name => owner = c.name ∧ ∃ f ∈ c.fields, f.name = name
  | .method owner index => owner = c.name ∧ index.toNat < c.methods.length
  | .component owner name => owner = c.name ∧ ∃ k ∈ c.components, k.name = name

theorem DeclRef.IsIn.declaringClass {c : ClassDecl String} {d : DeclRef String}
    (h : DeclRef.IsIn c d) : d.declaringClass = c.name := by
  cases d with
  | type name => exact h
  | field owner name => exact h.1
  | method owner index => exact h.1
  | component owner name => exact h.1

theorem Draft.map_name_fields (d : Draft String) (init : String) :
    (d.decl init).fields.map (·.name) = d.fields.map (·.name) := List.map_map

theorem Draft.map_name_components (d : Draft String) (init : String) :
    (d.decl init).components.map (·.name) = d.components.map (·.name) := List.map_map

theorem Draft.length_methods (d : Draft String) (init : String) :
    (d.decl init).methods.length = d.methods.length := List.length_map _

/-- What a draft says of its annotations and of the methods of its layout. -/
structure Draft.Stands (layout : Layout) (d : Draft String) : Prop where
  methods : d.methods.length = layout.methods.length
  signatures : ∀ (i : Nat) (m : MethodDraft String), d.methods[i]? = some m →
    ∃ l, layout.methods[i]? = some l ∧ m.hasSignature = l.attributes.signature.isSome
  annotations : ∀ a ∈ d.annotations,
    ∃ ref, DeclRef.IsIn (d.decl MethodDecl.constructorName) ref ∧ AnnotationUse.StandsOn ref a
  typeUses : ∀ u ∈ d.typeUses,
    ∃ ref, DeclRef.IsIn (d.decl MethodDecl.constructorName) ref ∧ u.StandsOn ref
  defaults : ∀ m ∈ d.methods, ∀ v ∈ m.default, v.depth ≤ Archive.maxValueDepth

section Members

variable {α : Type} {c : ClassDecl String}

def Decoded.StandsIn (c : ClassDecl String) (r : Decoded α) : Prop :=
  ∃ ref, DeclRef.IsIn c ref ∧ r.StandsOn ref

theorem stands_annotations {rs : List (Decoded α)} (h : ∀ r ∈ rs, r.StandsIn c) :
    ∀ a ∈ rs.flatMap (·.annotations),
      ∃ ref, DeclRef.IsIn c ref ∧ AnnotationUse.StandsOn ref a := by
  refine List.forall_mem_flatMap.2 fun r hr a ha => ?_
  obtain ⟨ref, hin, hstands⟩ := h r hr
  exact ⟨ref, hin, hstands.annotations a ha⟩

theorem stands_typeUses {rs : List (Decoded α)} (h : ∀ r ∈ rs, r.StandsIn c) :
    ∀ u ∈ rs.flatMap (·.typeUses), ∃ ref, DeclRef.IsIn c ref ∧ u.StandsOn ref := by
  refine List.forall_mem_flatMap.2 fun r hr u hu => ?_
  obtain ⟨ref, hin, hstands⟩ := h r hr
  exact ⟨ref, hin, hstands.typeUses u hu⟩

theorem standsIn_field {rs : List (Decoded (FieldDecl String))}
    (hfields : c.fields.map (·.name) = rs.map (·.decl.name))
    (h : ∀ r ∈ rs, r.StandsOn (.field c.name r.decl.name)) : ∀ r ∈ rs, r.StandsIn c := by
  intro r hr
  have hname : r.decl.name ∈ c.fields.map (·.name) := by
    rw [hfields]
    exact List.mem_map_of_mem hr
  exact ⟨.field c.name r.decl.name, ⟨rfl, List.mem_map.1 hname⟩, h r hr⟩

theorem standsIn_component {rs : List (Decoded (ComponentDecl String))}
    (hcomponents : c.components.map (·.name) = rs.map (·.decl.name))
    (h : ∀ r ∈ rs, r.StandsOn (.component c.name r.decl.name)) : ∀ r ∈ rs, r.StandsIn c := by
  intro r hr
  have hname : r.decl.name ∈ c.components.map (·.name) := by
    rw [hcomponents]
    exact List.mem_map_of_mem hr
  exact ⟨.component c.name r.decl.name, ⟨rfl, List.mem_map.1 hname⟩, h r hr⟩

theorem standsIn_method {rs : List (Decoded (MethodDraft String))}
    (hmethods : c.methods.length = rs.length)
    (h : ∀ (i : Nat) (r : Decoded (MethodDraft String)), rs[i]? = some r →
      r.StandsOn (.method c.name (UInt32.ofNat i))) : ∀ r ∈ rs, r.StandsIn c := by
  intro r hr
  obtain ⟨i, hi⟩ := List.mem_iff_getElem?.1 hr
  have hlt : i < rs.length := (List.getElem?_eq_some_iff.1 hi).1
  have hle : (UInt32.ofNat i).toNat ≤ i := Nat.mod_le i _
  exact ⟨.method c.name (UInt32.ofNat i), ⟨rfl, by omega⟩, h i r hi⟩

end Members

theorem Layout.gives_stands (invisible : Bool) (layout : Layout) :
    Gives (layout.draft invisible) (Draft.Stands layout) := by
  refine (Gives.any _).bind fun s _ => (Gives.any _).bind fun types _ => ?_
  refine (Context.gives_declaredOn _ layout.attributes _).bind fun onClass honClass => ?_
  refine (Context.gives_typeUsesIn _ layout.attributes _).bind fun inClass hinClass => ?_
  refine (Gives.mapM fun m _ => Context.gives_field_standsOn _ m).bind fun fields hfields => ?_
  refine (Context.gives_methodsFrom _ (Context.gives_method_standsOn _) 0 layout.methods).bind
    fun methods hmethods => ?_
  refine (Context.gives_components _ (Context.yields_component_standsOn _) layout.attributes).bind
    fun components hcomponents => Gives.ok ?_
  -- The draft itself is not at hand by name, so each kind of member is placed in any draft that
  -- has the members that were read.
  have hfield : ∀ d : Draft String, d.name = binaryName layout.name →
      d.fields = fields.map (·.decl) →
        ∀ r ∈ fields, r.StandsIn (d.decl MethodDecl.constructorName) := by
    intro d hname hdecls
    rw [← hname] at hfields
    refine standsIn_field ?_ hfields
    rw [d.map_name_fields, hdecls, List.map_map]
    rfl
  have hmethod : ∀ d : Draft String, d.name = binaryName layout.name →
      d.methods = methods.map (·.decl) →
        ∀ r ∈ methods, r.StandsIn (d.decl MethodDecl.constructorName) := by
    intro d hname hdecls
    refine standsIn_method ?_ fun i r hi => ?_
    · rw [d.length_methods, hdecls, List.length_map]
    · obtain ⟨m, _, hreads⟩ := hmethods.2 i r hi
      have hstands := hreads.standsOn
      rw [Nat.zero_add, ← hname] at hstands
      exact hstands
  have hcomponent : ∀ d : Draft String, d.name = binaryName layout.name →
      d.components = components.map (·.decl) →
        ∀ r ∈ components, r.StandsIn (d.decl MethodDecl.constructorName) := by
    intro d hname hdecls
    rw [← hname] at hcomponents
    refine standsIn_component ?_ hcomponents
    rw [d.map_name_components, hdecls, List.map_map]
    rfl
  refine ⟨?_, ?_, ?_, ?_, ?_⟩
  · show (methods.map (·.decl)).length = layout.methods.length
    rw [List.length_map, hmethods.1]
  · intro i m hm
    obtain ⟨r, hr, rfl⟩ := Option.map_eq_some_iff.1 (List.getElem?_map.symm.trans hm)
    obtain ⟨l, hl, hreads⟩ := hmethods.2 i r hr
    exact ⟨l, hl, hreads.signature⟩
  · refine List.forall_mem_append.2 ⟨List.forall_mem_append.2 ⟨List.forall_mem_append.2 ⟨?_, ?_⟩,
      ?_⟩, ?_⟩
    · exact fun a ha => ⟨.type (binaryName layout.name), rfl, honClass a ha⟩
    · exact stands_annotations (hfield _ rfl rfl)
    · exact stands_annotations (hmethod _ rfl rfl)
    · exact stands_annotations (hcomponent _ rfl rfl)
  · refine List.forall_mem_append.2 ⟨List.forall_mem_append.2 ⟨List.forall_mem_append.2 ⟨?_, ?_⟩,
      ?_⟩, ?_⟩
    · exact fun u hu => ⟨.type (binaryName layout.name), rfl, hinClass u hu⟩
    · exact stands_typeUses (hfield _ rfl rfl)
    · exact stands_typeUses (hmethod _ rfl rfl)
    · exact stands_typeUses (hcomponent _ rfl rfl)
  · refine List.forall_mem_map.2 fun r hr => ?_
    obtain ⟨i, hi⟩ := List.mem_iff_getElem?.1 hr
    obtain ⟨l, _, hreads⟩ := hmethods.2 i r hi
    exact hreads.default

theorem PendingTypeUse.resolve_eq_some {u : PendingTypeUse String} {init : String}
    {c : ClassDecl String} {hidden : Nat} {a : AnnotationUse String}
    (h : u.resolve init c hidden = some a) :
    ∃ base ty, baseType init c hidden u.enclosing u.entry.use = some base
      ∧ base.navigate u.entry.path = some ty
      ∧ a.target = some (.typeUse ⟨u.enclosing, u.entry.use, u.entry.path, ty⟩)
      ∧ a.members = u.entry.body.members := by
  obtain ⟨base, hbase, h⟩ := Option.bind_eq_some_iff.1 h
  obtain ⟨ty, hty, h⟩ := Option.bind_eq_some_iff.1 h
  cases h
  exact ⟨base, ty, hbase, hty, rfl, rfl⟩

theorem Draft.mem_annotations_finish {d : Draft String} {init : String} {text : String → String}
    {a : AnnotationUse String} (h : a ∈ (d.finish init text).annotations) :
    a ∈ d.annotations ∨ ∃ u ∈ d.typeUses,
      u.resolve init (d.decl init) (d.hiddenIn init text u.enclosing) = some a :=
  (List.mem_append.1 h).imp_right List.mem_filterMap.1

theorem declaringClass_belongsTo (t : Target String) :
    t.belongsTo.declaringClass = t.declaringClass := by
  cases t <;> rfl

theorem bigEndian_lt (bytes : List UInt8) : bigEndian bytes < Nat.pow 256 bytes.length := by
  have hfold : ∀ n, bytes.foldl (fun n b => n * 256 + b.toNat) n
      < (n + 1) * Nat.pow 256 bytes.length := by
    induction bytes with
    | nil => exact fun n => Nat.lt_of_lt_of_le (Nat.lt_succ_self n) (Nat.le_mul_of_pos_right _ Nat.one_pos)
    | cons b bytes ih =>
      intro n
      have hb := b.toNat_lt
      have hn := ih (n * 256 + b.toNat)
      have hpow : Nat.pow 256 (bytes.length + 1) = 256 * Nat.pow 256 bytes.length :=
        Nat.mul_comm _ _
      rw [List.foldl_cons, List.length_cons, hpow, ← Nat.mul_assoc]
      exact Nat.lt_of_lt_of_le hn (Nat.mul_le_mul_right _ (by omega))
  have hzero := hfold 0
  rwa [Nat.zero_add, Nat.one_mul] at hzero

theorem Reader.yields_u2 : Yields Reader.u2 (· < UInt16.size) := by
  refine Yields.mapped bigEndian fun c front d h => ?_
  have hfront : front.length = 2 := by
    simp only [Reader.bytes, StateT.run] at h
    split at h
    · next r hr =>
      cases h
      exact (Cursor.take?_eq_some hr).2.1
    · cases h
  have hlt := bigEndian_lt front
  rw [hfront] at hlt
  exact hlt

theorem Layout.yields_read (config : Config) :
    Yields (Layout.read config) fun layout => layout.methods.length < UInt16.size := by
  refine Yields.after fun _ => Yields.after fun pool => Yields.after fun flags => ?_
  refine Yields.after fun _ => Yields.after fun name => Yields.after fun _ => ?_
  refine Yields.after fun superName => Yields.after fun interfaces => ?_
  refine Yields.after fun fields => ?_
  have hmethods : Yields (Reader.counted (MemberLayout.read pool)) fun ms => ms.length < UInt16.size :=
    Reader.yields_u2.bind fun n hn => ((Yields.any _).times n).mono fun ms hms => hms.1 ▸ hn
  exact hmethods.bind fun methods hm => Yields.after fun _ => Yields.pure hm

theorem Layout.gives_parse (config : Config) (bytes : List UInt8) :
    Gives (Layout.parse config bytes) fun layout => layout.methods.length < UInt16.size := by
  intro layout h
  obtain ⟨⟨found, cursor⟩, hrun, hrest⟩ := bind_eq_ok h
  have hmethods := Layout.yields_read config _ found cursor hrun
  simp only at hrest
  split at hrest
  · cases hrest
    exact hmethods
  · cases hrest

theorem storable_of_decode {config : Config} {bytes : List UInt8} {c : ClassDecl String}
    (h : decode config bytes = .ok c) : Archive.Storable c := by
  obtain ⟨d, hdraft, hfinish⟩ := bind_eq_ok h
  obtain ⟨layout, hparse, hdraft⟩ := bind_eq_ok hdraft
  cases hfinish
  have hstands := layout.gives_stands config.invisible d hdraft
  have hannotations : ∀ a ∈ (d.finish MethodDecl.constructorName id).annotations,
      (∀ t ∈ a.target, t.declaringClass = d.name)
        ∧ Value.membersDepth a.members ≤ Archive.maxValueDepth := by
    intro a ha
    rcases Draft.mem_annotations_finish ha with hdeclared | ⟨u, hu, hresolve⟩
    · obtain ⟨ref, hin, ⟨t, htarget, hbelongs, _⟩, hmembers⟩ := hstands.annotations a hdeclared
      refine ⟨fun t' ht' => ?_, hmembers⟩
      obtain rfl : t = t' := Option.some.inj (htarget.symm.trans ht')
      rw [← declaringClass_belongsTo, hbelongs]
      exact hin.declaringClass
    · obtain ⟨ref, hin, henclosing, hmembers⟩ := hstands.typeUses u hu
      obtain ⟨base, ty, _, _, htarget, hsame⟩ := PendingTypeUse.resolve_eq_some hresolve
      rw [htarget, hsame]
      refine ⟨fun t ht => ?_, hmembers⟩
      cases ht
      show u.enclosing.declaringClass = d.name
      rw [henclosing]
      exact hin.declaringClass
  have hmethods : d.methods.length < UInt32.size := by
    have hlength := Layout.gives_parse config bytes layout hparse
    have hsizes : UInt16.size ≤ UInt32.size := by decide
    rw [hstands.methods]
    omega
  refine ⟨fun a ha => (hannotations a ha).1, ?_, fun a ha => (hannotations a ha).2,
    List.forall_mem_map.2 hstands.defaults⟩
  show (d.methods.map _).length ≤ UInt32.size
  rw [List.length_map]
  omega

end ClassCatalog.ClassFile
