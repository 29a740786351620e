import ClassCatalog.Proofs.ClassFile.Targets

/-! Which annotations on types a decoded class has. Those that its class file attaches to a method
stand on the types of this very method. Those that it attaches to a field or a record component
stand on the type of the first one of that name, which need not be the one that carries them. -/

namespace ClassCatalog.ClassFile

def TypeEntry.on (e : TypeEntry String) (ref : DeclRef String) (ty : Ty String) :
    AnnotationUse String :=
  { e.body with target := some (.typeUse ⟨ref, e.use, e.path, ty⟩) }

def Context.typeEntries (ctx : Context) (attributes : Attributes) :
    Except DecodeError (List (TypeEntry String)) :=
  ctx.readBoth attributes "TypeAnnotations" (TypeEntry.read ctx.pool)

section Means

variable {c : ClassDecl String} {hidden : UInt32 → Nat} {ref : DeclRef String} {use : TypeUse}
  {t : Ty String}

theorem bound?_of_isBoundAt {v : Ty String} {position : UInt8} (h : v.IsBoundAt position t) :
    v.bound? position = some t := by
  obtain ⟨n, implicitObject, bounds, slot, rfl, hposition, hbound⟩ := h
  have hslot : Ty.boundSlot implicitObject position = some slot := by
    unfold Ty.boundSlot
    rw [hposition]
    cases implicitObject <;> rfl
  rw [Ty.bound?, hslot]
  exact hbound

theorem typeParameterBound_of_isBoundAt {parameters : List (Ty String)}
    {parameter bound : UInt8} {v : Ty String} (hv : parameters[parameter.toNat]? = some v)
    (h : v.IsBoundAt bound t) : typeParameterBound parameters parameter bound = some t := by
  rw [typeParameterBound, hv]
  exact bound?_of_isBoundAt h

theorem receiverType_of_isSelf (h : c.IsSelf t) : receiverType c = t := by
  rcases h with ⟨hnil, rfl⟩ | ⟨names, hne, hnames, rfl⟩
  · rw [receiverType, hnil]
    rfl
  · have hfilter : c.typeParameters.filterMap Ty.name? = names := by
      have hids := congrArg (List.filterMap id) hnames
      simpa [List.filterMap_map] using hids
    have hsome : c.typeParameters.isEmpty = false := by
      rw [List.isEmpty_eq_false_iff]
      intro hnil
      rw [hnil] at hnames
      exact hne (List.map_eq_nil_iff.1 hnames.symm)
    rw [receiverType, hsome, hfilter]
    rfl

theorem baseType_of_means {count : Nat}
    (hcount : ∀ owner index, ref = .method owner index → count = hidden index)
    (h : Means c hidden ref use t) :
    baseType MethodDecl.constructorName c count ref use = some t := by
  cases h with
  | classTypeParameter h => exact h
  | superclass h => exact h
  | interface hne h => exact (if_neg hne).trans h
  | classTypeParameterBound hv h => exact typeParameterBound_of_isBoundAt hv h
  | field h => exact congrArg (Option.map (·.ty)) h
  | component h => exact congrArg (Option.map (·.ty)) h
  | methodTypeParameter hm h =>
    rw [baseType, hm]
    exact h
  | methodTypeParameterBound hm hv h =>
    rw [baseType, hm]
    exact typeParameterBound_of_isBoundAt hv h
  | constructed hm hname h =>
    rw [baseType, hm, ← receiverType_of_isSelf h]
    exact congrArg some (if_pos hname)
  | returned hm hname =>
    rw [baseType, hm]
    exact congrArg some (if_neg hname)
  | receiver hm h =>
    rw [baseType, hm, ← receiverType_of_isSelf h]
    rfl
  | formalParameter hm h =>
    rw [baseType, hm, hcount _ _ rfl]
    rw [Nat.add_comm] at h
    exact h
  | thrown hm h =>
    rw [baseType, hm]
    exact h

end Means

theorem Draft.Stands.on_mem_annotations_iff {d : Draft String} {layout : Layout}
    (hstands : d.Stands layout) (htyped : (d.finish MethodDecl.constructorName id).WellTyped)
    {ref : DeclRef String} {e : TypeEntry String} (hu : ⟨ref, e⟩ ∈ d.typeUses) (ty : Ty String) :
    e.on ref ty ∈ (d.finish MethodDecl.constructorName id).annotations
      ↔ ∃ base, Means (d.finish MethodDecl.constructorName id) d.hiddenAt ref e.use base
        ∧ base.navigate e.path = some ty := by
  constructor
  · intro hmem
    rcases Draft.mem_annotations_finish hmem with hdeclared | ⟨u, huses, hresolve⟩
    · obtain ⟨_, _, ⟨t, htarget, _, hplain⟩, _⟩ := hstands.annotations _ hdeclared
      cases htarget
      exact absurd rfl (hplain _)
    · obtain ⟨t, htarget, hresolves⟩ := hstands.resolvesIn_typeUse htyped huses hresolve
      cases htarget
      exact (hresolves.typeUse _ rfl).2
  · rintro ⟨base, hmeans, hty⟩
    have hbase : baseType MethodDecl.constructorName (d.decl MethodDecl.constructorName)
        (d.hiddenIn MethodDecl.constructorName id ref) ref e.use = some base := by
      rw [← Draft.baseType_finish d id]
      refine baseType_of_means (fun owner index href => ?_) hmeans
      have howner : owner = d.name := by
        obtain ⟨ref', hin, henclosing, _⟩ := hstands.typeUses _ hu
        rw [← henclosing, href] at hin
        exact hin.1
      rw [href, howner]
      rfl
    have hresolve : (PendingTypeUse.mk ref e).resolve MethodDecl.constructorName
        (d.decl MethodDecl.constructorName) (d.hiddenIn MethodDecl.constructorName id ref)
          = some (e.on ref ty) := by
      rw [PendingTypeUse.resolve, hbase]
      show (base.navigate e.path >>= _) = _
      rw [hty]
      rfl
    exact List.mem_append_right _ (List.mem_filterMap.2 ⟨_, hu, hresolve⟩)

def ReadFrom {ι α : Type} (P : Nat → ι → α → Prop) (xs : List ι) (as : List α) : Prop :=
  as.length = xs.length ∧ ∀ (i : Nat) (x : ι), xs[i]? = some x → ∃ a, as[i]? = some a ∧ P i x a

namespace ReadFrom

variable {ι α : Type} {P : Nat → ι → α → Prop}

theorem nil : ReadFrom P [] [] := ⟨rfl, by simp⟩

theorem cons {x : ι} {a : α} {xs : List ι} {as : List α} (h : P 0 x a)
    (hrest : ReadFrom (fun i => P (i + 1)) xs as) : ReadFrom P (x :: xs) (a :: as) := by
  refine ⟨by rw [List.length_cons, List.length_cons, hrest.1], fun i y hy => ?_⟩
  cases i with
  | zero =>
    cases hy
    exact ⟨a, rfl, h⟩
  | succ i => exact hrest.2 i y hy

theorem mapM {ε : Type} {f : ι → Except ε α} {Q : ι → α → Prop} (h : ∀ x, Gives (f x) (Q x))
    (xs : List ι) : Gives (xs.mapM f) (ReadFrom (fun _ => Q) xs) := by
  induction xs with
  | nil => exact Gives.ok nil
  | cons x xs ih =>
    rw [List.mapM_cons]
    exact (h x).bind fun a ha => ih.bind fun as has => Gives.ok (cons ha has)

theorem of_places {xs : List ι} {as : List α} (hlength : as.length = xs.length)
    (h : ∀ (i : Nat) (a : α), as[i]? = some a → ∃ x, xs[i]? = some x ∧ P i x a) :
    ReadFrom P xs as := by
  refine ⟨hlength, fun i x hx => ?_⟩
  have hlt : i < as.length := by
    rw [hlength]
    exact (List.getElem?_eq_some_iff.1 hx).1
  obtain ⟨y, hy, hP⟩ := h i _ (List.getElem?_eq_getElem hlt)
  obtain rfl : y = x := Option.some.inj (hy.symm.trans hx)
  exact ⟨_, List.getElem?_eq_getElem hlt, hP⟩

theorem map {β : Type} {Q : Nat → ι → β → Prop} {xs : List ι} {as : List α}
    (h : ReadFrom P xs as) (f : α → β)
    (hf : ∀ i x a, as[i]? = some a → P i x a → Q i x (f a)) : ReadFrom Q xs (as.map f) := by
  refine ⟨by rw [List.length_map, h.1], fun i x hx => ?_⟩
  obtain ⟨a, ha, hP⟩ := h.2 i x hx
  exact ⟨f a, by rw [List.getElem?_map, ha, Option.map_some], hf i x a ha hP⟩

end ReadFrom

theorem run_liftM_bind_eq_ok {ε σ α β : Type} {x : Except ε α} {k : α → StateT σ (Except ε) β}
    {s s' : σ} {b : β} (h : ((liftM x : StateT σ (Except ε) α) >>= k).run s = .ok (b, s')) :
    ∃ a, x = .ok a ∧ (k a).run s = .ok (b, s') := by
  cases x with
  | error e => cases h
  | ok a => exact ⟨a, rfl, h⟩

structure Decoded.Carries {α : Type} (ctx : Context) (attributes : Attributes)
    (ref : DeclRef String) (r : Decoded α) : Prop where
  entries : ∃ entries, ctx.typeEntries attributes = .ok entries
    ∧ r.typeUses = entries.map (PendingTypeUse.mk ref)

structure ComponentLayout where
  name : String
  descriptor : String
  attributes : Attributes

def ComponentLayout.read (pool : ConstantPool) : Reader ComponentLayout := do
  let name ← pool.utf8 (← Reader.u2)
  let descriptor ← pool.utf8 (← Reader.u2)
  let attributes ← Attributes.read pool
  return ⟨name, descriptor, attributes⟩

def Layout.components (layout : Layout) : Except DecodeError (List ComponentLayout) :=
  layout.attributes.readList "Record" (Reader.counted (ComponentLayout.read layout.pool))

namespace Context

variable (ctx : Context)

theorem gives_typeUsesIn_entries (attributes : Attributes) (ref : DeclRef String) :
    Gives (ctx.typeUsesIn attributes ref) fun us => ∃ entries,
      ctx.typeEntries attributes = .ok entries ∧ us = entries.map (PendingTypeUse.mk ref) := by
  intro us hus
  obtain ⟨entries, hentries, heq⟩ := bind_eq_ok hus
  cases heq
  exact ⟨entries, hentries, rfl⟩

theorem gives_field_carries (m : MemberLayout) :
    Gives (ctx.field m) fun r => r.decl.name = m.name
      ∧ r.Carries ctx m.attributes (.field ctx.name m.name) := by
  refine (Gives.any _).bind fun ty _ => (Gives.any _).bind fun annotations _ => ?_
  exact (ctx.gives_typeUsesIn_entries m.attributes _).bind fun us hus => Gives.ok ⟨rfl, ⟨hus⟩⟩

theorem gives_method_carries (index : Nat) (m : MemberLayout) :
    Gives (ctx.method index m) fun r => r.decl.name = m.name
      ∧ r.Carries ctx m.attributes (.method ctx.name (UInt32.ofNat index)) := by
  refine (Gives.any _).bind fun _ _ => (Gives.any _).bind fun _ _ => ?_
  refine (Gives.any _).bind fun types _ => (Gives.any _).bind fun default _ => ?_
  refine (Gives.any _).bind fun _ _ => (Gives.any _).bind fun declared _ => ?_
  refine (Gives.any _).bind fun onParameters _ => ?_
  exact (ctx.gives_typeUsesIn_entries m.attributes _).bind fun us hus => Gives.ok ⟨rfl, ⟨hus⟩⟩

theorem component_eq : ctx.component = ComponentLayout.read ctx.pool >>= fun l => do
    let ty ← l.attributes.variableType l.descriptor
    let annotations ← ctx.declaredOn l.attributes (.component ctx.name l.name)
    let typeUses ← ctx.typeUsesIn l.attributes (.component ctx.name l.name)
    return ⟨⟨l.name, ty⟩, annotations, typeUses⟩ := by
  simp only [component, ComponentLayout.read, bind_assoc, pure_bind]

theorem component_carries {cursor cursor' : Cursor} {r : Decoded (ComponentDecl String)}
    (h : ctx.component.run cursor = .ok (r, cursor')) :
    ∃ l, (ComponentLayout.read ctx.pool).run cursor = .ok (l, cursor') ∧ r.decl.name = l.name
      ∧ r.Carries ctx l.attributes (.component ctx.name l.name) := by
  rw [component_eq, StateT.run_bind] at h
  obtain ⟨⟨l, c⟩, hlayout, h⟩ := bind_eq_ok h
  obtain ⟨ty, _, h⟩ := run_liftM_bind_eq_ok h
  obtain ⟨annotations, _, h⟩ := run_liftM_bind_eq_ok h
  obtain ⟨typeUses, huses, h⟩ := run_liftM_bind_eq_ok h
  cases h
  exact ⟨l, hlayout, rfl, ⟨ctx.gives_typeUsesIn_entries _ _ _ huses⟩⟩

theorem times_component_carries (n : Nat) {cursor cursor' : Cursor}
    {rs : List (Decoded (ComponentDecl String))}
    (h : (times n ctx.component).run cursor = .ok (rs, cursor')) :
    ∃ ls, (times n (ComponentLayout.read ctx.pool)).run cursor = .ok (ls, cursor')
      ∧ ReadFrom (fun _ l r => r.decl.name = l.name
        ∧ r.Carries ctx l.attributes (.component ctx.name l.name)) ls rs := by
  induction n generalizing cursor rs with
  | zero =>
    cases h
    exact ⟨[], rfl, .nil⟩
  | succ n ih =>
    rw [times, StateT.run_bind] at h
    obtain ⟨⟨r, c⟩, hfirst, h⟩ := bind_eq_ok h
    rw [StateT.run_bind] at h
    obtain ⟨⟨rest, c'⟩, hmore, heq⟩ := bind_eq_ok h
    cases heq
    obtain ⟨l, hl, hcarries⟩ := ctx.component_carries hfirst
    obtain ⟨ls, hls, hrest⟩ := ih hmore
    refine ⟨l :: ls, ?_, .cons hcarries hrest⟩
    rw [times, run_bind_of_ok hl, run_bind_of_ok hls]
    rfl

theorem gives_components_carries (layout : Layout) (invisible : Bool) (name : String) :
    Gives (components ⟨layout.pool, invisible, name⟩ layout.attributes) fun rs =>
      ∃ ls, layout.components = .ok ls ∧ ReadFrom (fun _ l r => r.decl.name = l.name
        ∧ r.Carries ⟨layout.pool, invisible, name⟩ l.attributes (.component name l.name)) ls rs := by
  intro rs hrs
  rw [Layout.components, Attributes.readList]
  rw [components] at hrs
  cases hbody : layout.attributes.body? "Record" with
  | none =>
    rw [hbody] at hrs
    cases hrs
    exact ⟨[], rfl, .nil⟩
  | some body =>
    rw [hbody] at hrs
    obtain ⟨⟨found, cursor⟩, hrun, hend⟩ := bind_eq_ok hrs
    dsimp only at hend
    split at hend
    · cases hend
      rw [Reader.counted, StateT.run_bind] at hrun
      obtain ⟨⟨n, c⟩, hcount, hrun⟩ := bind_eq_ok hrun
      obtain ⟨ls, hls, hcarries⟩ := times_component_carries _ n hrun
      refine ⟨ls, ?_, hcarries⟩
      have hread : (Reader.counted (ComponentLayout.read layout.pool)).run (.ofBytes body)
          = .ok (ls, cursor) := by
        rw [Reader.counted, run_bind_of_ok hcount]
        exact hls
      exact congrArg (Except.map (·.1)) hread
    · cases hend

end Context

def Draft.Holds (ctx : Context) (d : Draft String) (attributes : Attributes)
    (ref : DeclRef String) : Prop :=
  ∃ entries, ctx.typeEntries attributes = .ok entries
    ∧ ∀ e ∈ entries, PendingTypeUse.mk ref e ∈ d.typeUses

theorem Decoded.Carries.holds {α : Type} {ctx : Context} {attributes : Attributes}
    {ref : DeclRef String} {r : Decoded α} (h : r.Carries ctx attributes ref) {d : Draft String}
    {rs : List (Decoded α)} (hr : r ∈ rs) (hrs : ∀ u ∈ rs.flatMap (·.typeUses), u ∈ d.typeUses) :
    d.Holds ctx attributes ref := by
  obtain ⟨entries, hentries, huses⟩ := h.entries
  refine ⟨entries, hentries, fun e he => hrs _ (List.mem_flatMap.2 ⟨r, hr, ?_⟩)⟩
  rw [huses]
  exact List.mem_map_of_mem he

structure Draft.HoldsTypeUses (ctx : Context) (layout : Layout)
    (components : List ComponentLayout) (d : Draft String) : Prop where
  fields : ReadFrom (fun _ l f => f.name = l.name
    ∧ d.Holds ctx l.attributes (.field d.name l.name)) layout.fields d.fields
  methods : ReadFrom (fun i l m => m.name = l.name
    ∧ d.Holds ctx l.attributes (.method d.name (UInt32.ofNat i))) layout.methods d.methods
  components : ReadFrom (fun _ l k => k.name = l.name
    ∧ d.Holds ctx l.attributes (.component d.name l.name)) components d.components

theorem Layout.gives_holdsTypeUses (invisible : Bool) (layout : Layout) :
    Gives (layout.draft invisible) fun d => ∃ components, layout.components = .ok components
      ∧ d.HoldsTypeUses ⟨layout.pool, invisible, d.name⟩ layout components := by
  refine (Gives.any _).bind fun s _ => (Gives.any _).bind fun types _ => ?_
  refine (Gives.any _).bind fun onClass _ => (Gives.any _).bind fun inClass _ => ?_
  refine (ReadFrom.mapM (Context.gives_field_carries _) layout.fields).bind fun fields hfields => ?_
  refine (Context.gives_methodsFrom _ (Context.gives_method_carries _) 0 layout.methods).bind
    fun methods hmethods => ?_
  refine (Context.gives_components_carries layout invisible _).bind fun components hcomponents => ?_
  obtain ⟨ls, hls, hplaces⟩ := hcomponents
  refine Gives.ok ⟨ls, hls, ?_, ?_, ?_⟩
  · refine hfields.map _ fun i l r hr h => ⟨h.1, h.2.holds (List.mem_of_getElem? hr) fun u hu => ?_⟩
    exact List.mem_append_left _ (List.mem_append_left _ (List.mem_append_right _ hu))
  · refine (ReadFrom.of_places hmethods.1 hmethods.2).map _ fun i l r hr h => ?_
    rw [Nat.zero_add] at h
    refine ⟨h.1, h.2.holds (List.mem_of_getElem? hr) fun u hu => ?_⟩
    exact List.mem_append_left _ (List.mem_append_right _ hu)
  · refine hplaces.map _ fun i l r hr h => ⟨h.1, h.2.holds (List.mem_of_getElem? hr) fun u hu => ?_⟩
    exact List.mem_append_right _ hu

/-- Of the annotations that `attributes` put on the type `own` of a field or record component,
those are there whose path leads to the same place in the type `first`. -/
def KeepsVariable (ctx : Context) (c : ClassDecl String) (attributes : Attributes)
    (ref : DeclRef String) (own first : Ty String) : Prop :=
  ∃ entries, ctx.typeEntries attributes = .ok entries
    ∧ ∀ e ∈ entries, e.use = .field → ∀ ty, own.navigate e.path = some ty →
      (e.on ref ty ∈ c.annotations ↔ first.navigate e.path = some ty)

/-- The annotations on the types of members, each member in its place. -/
structure KeepsTypeUses (ctx : Context) (layout : Layout) (components : List ComponentLayout)
    (hidden : UInt32 → Nat) (c : ClassDecl String) : Prop where
  methods : ReadFrom (fun i l m => m.name = l.name ∧ c.methods[(UInt32.ofNat i).toNat]? = some m
    ∧ ∃ entries, ctx.typeEntries l.attributes = .ok entries
      ∧ ∀ e ∈ entries, ∀ base ty, Means c hidden (.method c.name (UInt32.ofNat i)) e.use base →
        base.navigate e.path = some ty →
          e.on (.method c.name (UInt32.ofNat i)) ty ∈ c.annotations) layout.methods c.methods
  fields : ReadFrom (fun _ l f => f.name = l.name
    ∧ ∃ first, c.fields.find? (·.name = f.name) = some first
      ∧ KeepsVariable ctx c l.attributes (.field c.name f.name) f.ty first.ty)
    layout.fields c.fields
  components : ReadFrom (fun _ l k => k.name = l.name
    ∧ ∃ first, c.components.find? (·.name = k.name) = some first
      ∧ KeepsVariable ctx c l.attributes (.component c.name k.name) k.ty first.ty)
    components c.components

section Variables

variable {c : ClassDecl String} {hidden : UInt32 → Nat} {owner name : String}

theorem means_field_iff {first : FieldDecl String}
    (hfirst : c.fields.find? (·.name = name) = some first) (base : Ty String) :
    Means c hidden (.field owner name) .field base ↔ base = first.ty := by
  constructor
  · intro h
    cases h with
    | field h =>
      rw [hfirst] at h
      cases h
      rfl
  · rintro rfl
    exact .field hfirst

theorem means_component_iff {first : ComponentDecl String}
    (hfirst : c.components.find? (·.name = name) = some first) (base : Ty String) :
    Means c hidden (.component owner name) .field base ↔ base = first.ty := by
  constructor
  · intro h
    cases h with
    | component h =>
      rw [hfirst] at h
      cases h
      rfl
  · rintro rfl
    exact .component hfirst

theorem exists_first {α : Type} (nameOf : α → String) {xs : List α} {i : Nat} {x : α}
    (h : xs[i]? = some x) : ∃ first, xs.find? (nameOf · = nameOf x) = some first := by
  rw [← Option.isSome_iff_exists, List.find?_isSome]
  exact ⟨x, List.mem_of_getElem? h, decide_eq_true rfl⟩

end Variables

theorem Draft.Stands.keepsVariable {d : Draft String} {layout : Layout}
    (hstands : d.Stands layout) (htyped : (d.finish MethodDecl.constructorName id).WellTyped)
    {ctx : Context} {attributes : Attributes} {ref : DeclRef String}
    (hholds : d.Holds ctx attributes ref) (own : Ty String) {first : Ty String}
    (hmeans : ∀ base, Means (d.finish MethodDecl.constructorName id) d.hiddenAt ref .field base
      ↔ base = first) :
    KeepsVariable ctx (d.finish MethodDecl.constructorName id) attributes ref own first := by
  obtain ⟨entries, hentries, huses⟩ := hholds
  refine ⟨entries, hentries, fun e he huse ty _ => ?_⟩
  rw [hstands.on_mem_annotations_iff htyped (huses e he), huse]
  constructor
  · rintro ⟨base, hbase, hty⟩
    rwa [(hmeans base).1 hbase] at hty
  · exact fun hty => ⟨first, (hmeans first).2 rfl, hty⟩

/-- Every annotation that a class file attaches to a type of a method is there, on the type of
this method. One that it attaches to the type of a field or record component is there on this type
exactly if its path leads to the same place in the type of the first one of that name: always if
no other one before has the name, since then this is the type itself. -/
theorem keepsTypeUses_of_decode {config : Config} {bytes : List UInt8} {c : ClassDecl String}
    (h : decode config bytes = .ok c) :
    ∃ layout components hidden, Layout.parse config bytes = .ok layout
      ∧ layout.components = .ok components
      ∧ (∀ index, hidden index ≤ 2)
      ∧ (∀ index, hidden index ≠ 0 → IsBareConstructor layout c index)
      ∧ KeepsTypeUses ⟨layout.pool, config.invisible, c.name⟩ layout components hidden c := by
  obtain ⟨d, hdraft, hfinish⟩ := bind_eq_ok h
  obtain ⟨layout, hparse, hdraft⟩ := bind_eq_ok hdraft
  cases hfinish
  have hstands := layout.gives_stands config.invisible d hdraft
  have htyped := (layout.gives_wellTyped config.invisible d hdraft).finish
    MethodDecl.constructorName id
  obtain ⟨components, hcomponents, hholds⟩ :=
    layout.gives_holdsTypeUses config.invisible d hdraft
  have hcount := Layout.gives_parse config bytes layout hparse
  refine ⟨layout, components, d.hiddenAt, hparse, hcomponents, fun index => d.hiddenIn_le id _ _,
    fun index hne => hstands.isBareConstructor hne, ?_, ?_, ?_⟩
  · refine hholds.methods.map _ fun i l m hm hl => ⟨hl.1, ?_, ?_⟩
    · have hlt : i < d.methods.length := (List.getElem?_eq_some_iff.1 hm).1
      have hslot : (UInt32.ofNat i).toNat = i := by
        rw [hstands.methods] at hlt
        have hsizes : UInt16.size ≤ UInt32.size := by decide
        exact UInt32.toNat_ofNat_of_lt' (by omega)
      show (d.methods.map _)[_]? = _
      rw [hslot, List.getElem?_map, hm]
      rfl
    · obtain ⟨entries, hentries, huses⟩ := hl.2
      refine ⟨entries, hentries, fun e he base ty hmeans hty => ?_⟩
      exact (hstands.on_mem_annotations_iff htyped (huses e he) ty).2 ⟨base, hmeans, hty⟩
  · refine hholds.fields.map _ fun i l f hf hl => ⟨hl.1, ?_⟩
    have hplace : (d.finish MethodDecl.constructorName id).fields[i]?
        = some { f with ty := f.ty.bindIn d.types.scope } := by
      show (d.fields.map _)[i]? = _
      rw [List.getElem?_map, hf]
      rfl
    obtain ⟨first, hfirst⟩ := exists_first FieldDecl.name hplace
    refine ⟨first, hfirst, hstands.keepsVariable htyped ?_ _ (means_field_iff hfirst)⟩
    rw [hl.1]
    exact hl.2
  · refine hholds.components.map _ fun i l k hk hl => ⟨hl.1, ?_⟩
    have hplace : (d.finish MethodDecl.constructorName id).components[i]?
        = some { k with ty := k.ty.bindIn d.types.scope } := by
      show (d.components.map _)[i]? = _
      rw [List.getElem?_map, hk]
      rfl
    obtain ⟨first, hfirst⟩ := exists_first ComponentDecl.name hplace
    refine ⟨first, hfirst, hstands.keepsVariable htyped ?_ _ (means_component_iff hfirst)⟩
    rw [hl.1]
    exact hl.2

/-- The file of a public class `X` with two fields `f`, of the types `int` and `S`, and the same
annotation `T` on either type. -/
def twinFile : List UInt8 :=
  [0xCA, 0xFE, 0xBA, 0xBE, 0, 0, 0, 52, 0, 8] ++ utf8Bytes [88] ++ [7, 0, 1] ++ utf8Bytes [102]
    ++ utf8Bytes [73] ++ utf8Bytes [76, 83, 59]
    ++ utf8Bytes [82, 117, 110, 116, 105, 109, 101, 86, 105, 115, 105, 98, 108, 101, 84, 121, 112,
      101, 65, 110, 110, 111, 116, 97, 116, 105, 111, 110, 115]
    ++ utf8Bytes [76, 84, 59] ++ [0, 1, 0, 2, 0, 0, 0, 0, 0, 2]
    ++ [0, 0, 0, 3, 0, 4, 0, 1, 0, 6, 0, 0, 0, 8, 0, 1, 0x13, 0, 0, 7, 0, 0]
    ++ [0, 0, 0, 3, 0, 5, 0, 1, 0, 6, 0, 0, 0, 8, 0, 1, 0x13, 0, 0, 7, 0, 0]
    ++ [0, 0, 0, 0]

theorem decode_twinFile : ∃ c, decode .standard twinFile = .ok c ∧ c.name = "X"
    ∧ c.fields.map (fun f => (f.name, f.ty)) = [("f", .primitive .int), ("f", .named "S")]
    ∧ c.annotations.map (·.target) = List.replicate 2
      (some (.typeUse ⟨.field "X" "f", .field, [], .primitive .int⟩)) := by
  have hclass : (decode .standard twinFile).toOption.map
      (fun c => (c.name, c.fields.map (fun f => (f.name, f.ty)), c.annotations.map (·.target)))
        = some ("X", [("f", .primitive .int), ("f", .named "S")], List.replicate 2
          (some (.typeUse ⟨.field "X" "f", .field, [], .primitive .int⟩))) := by
    decide +kernel
  obtain ⟨c, hc, hparts⟩ := Option.map_eq_some_iff.1 hclass
  obtain ⟨hname, hrest⟩ := Prod.mk.inj hparts
  obtain ⟨hfields, hannotations⟩ := Prod.mk.inj hrest
  exact ⟨c, eq_ok_of_toOption hc, hname, hfields, hannotations⟩

theorem keepsTypeUses_twinFile : ∃ c, decode .standard twinFile = .ok c
    ∧ c.annotations.map (·.target) = List.replicate 2
      (some (.typeUse ⟨.field "X" "f", .field, [], .primitive .int⟩))
    ∧ ∃ layout components hidden, Layout.parse .standard twinFile = .ok layout
      ∧ layout.components = .ok components
      ∧ (∀ index, hidden index ≤ 2)
      ∧ (∀ index, hidden index ≠ 0 → IsBareConstructor layout c index)
      ∧ KeepsTypeUses ⟨layout.pool, Config.standard.invisible, c.name⟩ layout components hidden c := by
  obtain ⟨c, hdecode, _, _, hannotations⟩ := decode_twinFile
  exact ⟨c, hdecode, hannotations, keepsTypeUses_of_decode hdecode⟩

/-- The annotation of the second field is not on the type of the second field. -/
theorem twinFile_loses_own_type : ∃ c layout l f entries e,
    decode .standard twinFile = .ok c ∧ Layout.parse .standard twinFile = .ok layout
      ∧ layout.fields[1]? = some l ∧ c.fields[1]? = some f
      ∧ Context.typeEntries ⟨layout.pool, Config.standard.invisible, c.name⟩ l.attributes
        = .ok entries
      ∧ e ∈ entries ∧ e.use = .field ∧ f.ty.navigate e.path = some (.named "S")
      ∧ e.on (.field c.name f.name) (.named "S") ∉ c.annotations := by
  obtain ⟨c, hdecode, hname, hfields, hannotations⟩ := decode_twinFile
  have hentries : (Layout.parse .standard twinFile).toOption.bind (fun layout =>
      layout.fields[1]?.bind fun l =>
        (Context.typeEntries ⟨layout.pool, Config.standard.invisible, "X"⟩ l.attributes).toOption.map
          fun entries => entries.map fun e => (e.use, e.path)) = some [(.field, [])] := by
    decide +kernel
  obtain ⟨layout, hlayout, hentries⟩ := Option.bind_eq_some_iff.1 hentries
  obtain ⟨l, hl, hentries⟩ := Option.bind_eq_some_iff.1 hentries
  obtain ⟨entries, hread, huses⟩ := Option.map_eq_some_iff.1 hentries
  obtain ⟨e, he, huse⟩ : ∃ e ∈ entries, (e.use, e.path) = (TypeUse.field, []) :=
    List.mem_map.1 (huses ▸ List.mem_singleton_self _)
  obtain ⟨huse, hpath⟩ := Prod.mk.inj huse
  obtain ⟨f, hf, hown⟩ : ∃ f, c.fields[1]? = some f ∧ (f.name, f.ty) = ("f", Ty.named "S") := by
    apply Option.map_eq_some_iff.1
    rw [← List.getElem?_map, hfields]
    rfl
  obtain ⟨_, hty⟩ := Prod.mk.inj hown
  refine ⟨c, layout, l, f, entries, e, hdecode, eq_ok_of_toOption hlayout, hl, hf, ?_, he, huse,
    ?_, fun hmem => ?_⟩
  · rw [hname]
    exact eq_ok_of_toOption hread
  · rw [hty, hpath]
    rfl
  · have htarget := List.mem_map_of_mem (f := (·.target)) hmem
    rw [hannotations] at htarget
    have hint := List.eq_of_mem_replicate htarget
    simp [TypeEntry.on] at hint

end ClassCatalog.ClassFile
