import ClassCatalog.Proofs.ClassFile.OwnTypes
import ClassCatalog.Proofs.Independence

/-! To leave out the annotations that are not visible at run time is only a filter: a class file
that decodes with them decodes without them, to the same class with these annotations gone. -/

namespace ClassCatalog

def ClassDecl.visibleOnly (c : ClassDecl String) : ClassDecl String :=
  { c with annotations := c.annotations.filter (·.visible) }

namespace ClassFile

variable {α α' β β' ι ε : Type}

/-- Whatever `e` gives, `e'` gives it as well, with `f` applied to it. -/
def Thins (f : α → α') (e : Except ε α) (e' : Except ε α') : Prop := Gives e fun a => e' = .ok (f a)

namespace Thins

variable {f : α → α'} {g : β → β'}

theorem same (e : Except ε α) : Thins id e e := fun _ h => h

theorem ok {a : α} {a' : α'} (h : a' = f a) : Thins f (.ok a : Except ε α) (.ok a') := by
  rw [h]
  exact Gives.ok rfl

theorem bind {e : Except ε α} {e' : Except ε α'} {k : α → Except ε β} {k' : α' → Except ε β'}
    (he : Thins f e e') (hk : ∀ a, Thins g (k a) (k' (f a))) : Thins g (e >>= k) (e' >>= k') := by
  refine Gives.bind he fun a ha => ?_
  rw [ha]
  exact hk a

theorem mapM {p : ι → Except ε α} {p' : ι → Except ε α'} (h : ∀ x, Thins f (p x) (p' x))
    (xs : List ι) : Thins (List.map f) (xs.mapM p) (xs.mapM p') := by
  induction xs with
  | nil => exact ok rfl
  | cons x xs ih =>
    rw [List.mapM_cons, List.mapM_cons]
    exact (h x).bind fun a => ih.bind fun as => ok rfl

end Thins

namespace Reader

/-- Whatever `p` reads, `p'` reads from the same bytes, with `f` applied to it. -/
def Thins (f : α → α') (p : Reader α) (p' : Reader α') : Prop :=
  ∀ c, ClassFile.Thins (Prod.map f id) (p.run c) (p'.run c)

namespace Thins

variable {f : α → α'} {g : β → β'}

theorem same (p : Reader α) : Thins id p p := fun c => ClassFile.Thins.same (p.run c)

theorem pure {a : α} {a' : α'} (h : a' = f a) : Thins f (Pure.pure a) (Pure.pure a') :=
  fun c => ClassFile.Thins.ok (congrArg (·, c) h)

theorem lift {e : Except DecodeError α} {e' : Except DecodeError α'}
    (h : ClassFile.Thins f e e') : Thins f (liftM e) (liftM e') :=
  fun _ => ClassFile.Thins.bind h fun _ => ClassFile.Thins.ok rfl

theorem bind {p : Reader α} {p' : Reader α'} {k : α → Reader β} {k' : α' → Reader β'}
    (hp : Thins f p p') (hk : ∀ a, Thins g (k a) (k' (f a))) : Thins g (p >>= k) (p' >>= k') := by
  intro c
  rw [StateT.run_bind, StateT.run_bind]
  exact (hp c).bind fun r => hk r.1 r.2

theorem times {p : Reader α} {p' : Reader α'} (h : Thins f p p') (n : Nat) :
    Thins (List.map f) (ClassCatalog.times n p) (ClassCatalog.times n p') := by
  induction n with
  | zero => exact pure rfl
  | succ n ih => exact h.bind fun a => ih.bind fun as => pure rfl

theorem counted {p : Reader α} {p' : Reader α'} (h : Thins f p p') :
    Thins (List.map f) (Reader.counted p) (Reader.counted p') :=
  (same u2).bind h.times

end Thins

end Reader

namespace Annotations

theorem yields_readOne_visible (pool : ConstantPool) (visible : Bool) :
    Yields (readOne pool visible) (·.visible = visible) :=
  Yields.after fun _ => Yields.pure rfl

theorem yields_read_visible (pool : ConstantPool) (target : Target String) (visible : Bool) :
    Yields (read pool target visible) fun as => ∀ a ∈ as, a.visible = visible :=
  Reader.yields_counted ((yields_readOne_visible pool visible).bind fun _ ha => Yields.pure ha)

theorem yields_readTables_visible (pool : ConstantPool) (owner : String) (method : UInt32)
    (visible : Bool) (n position : Nat) :
    Yields (readTables pool owner method visible n position) fun as =>
      ∀ a ∈ as, a.visible = visible := by
  induction n generalizing position with
  | zero => exact Yields.pure (by simp)
  | succ n ih =>
    refine (yields_read_visible pool _ visible).bind fun here hhere => ?_
    refine (ih (position + 1)).bind fun rest hrest => Yields.pure ?_
    exact List.forall_mem_append.2 ⟨hhere, hrest⟩

end Annotations

theorem TypeEntry.yields_readMany_visible (pool : ConstantPool) (visible : Bool) (n : Nat) :
    Yields (readMany pool visible n) fun entries => ∀ e ∈ entries, e.body.visible = visible := by
  induction n with
  | zero => exact Yields.pure (by simp)
  | succ n ih =>
    refine Yields.after fun location => ?_
    cases location with
    | unknown => exact Yields.pure (by simp)
    | code => exact Yields.after fun _ => Yields.after fun _ => ih
    | declared use =>
      refine Yields.after fun path => ?_
      refine (Annotations.yields_readOne_visible pool visible).bind fun body hbody => ?_
      refine ih.bind fun rest hrest => ?_
      cases path with
      | none => exact Yields.pure hrest
      | some path => exact Yields.pure (List.forall_mem_cons.2 ⟨hbody, hrest⟩)

def Decoded.visibleOnly (r : Decoded α) : Decoded α where
  decl := r.decl
  annotations := r.annotations.filter (·.visible)
  typeUses := r.typeUses.filter (·.entry.body.visible)

def Draft.visibleOnly (d : Draft String) : Draft String :=
  { d with
    annotations := d.annotations.filter (·.visible)
    typeUses := d.typeUses.filter (·.entry.body.visible) }

namespace Context

variable (pool : ConstantPool) (name : String)

theorem thins_readBoth {p : Bool → Reader (List α)} {isVisible : α → Bool}
    (hp : ∀ visible, Yields (p visible) fun as => ∀ a ∈ as, isVisible a = visible)
    (attributes : Attributes) (kind : String) :
    Thins (List.filter isVisible) (readBoth ⟨pool, true, name⟩ attributes kind p)
      (readBoth ⟨pool, false, name⟩ attributes kind p) := by
  intro as has
  obtain ⟨shown, hshown, has⟩ := bind_eq_ok has
  obtain ⟨others, hothers, has⟩ := bind_eq_ok has
  cases has
  have hkept : shown.filter isVisible = shown :=
    List.filter_eq_self.2 (Attributes.gives_readList (hp true) shown hshown)
  have hgone : others.filter isVisible = [] := by
    refine List.filter_eq_nil_iff.2 fun a ha => ?_
    rw [Attributes.gives_readList (hp false) others hothers a ha]
    exact Bool.false_ne_true
  rw [List.filter_append, hkept, hgone, List.append_nil, readBoth, hshown]
  rfl

theorem thins_declaredOn (attributes : Attributes) (d : DeclRef String) :
    Thins (List.filter (·.visible)) (declaredOn ⟨pool, true, name⟩ attributes d)
      (declaredOn ⟨pool, false, name⟩ attributes d) :=
  thins_readBoth pool name (Annotations.yields_read_visible pool _) attributes _

theorem thins_typeUsesIn (attributes : Attributes) (d : DeclRef String) :
    Thins (List.filter (·.entry.body.visible)) (typeUsesIn ⟨pool, true, name⟩ attributes d)
      (typeUsesIn ⟨pool, false, name⟩ attributes d) := by
  have hentries := fun visible => Yields.after (p := Reader.u2)
    (TypeEntry.yields_readMany_visible pool visible)
  refine (thins_readBoth pool name hentries attributes _).bind fun entries => Thins.ok ?_
  rw [List.filter_map]
  rfl

theorem thins_field (m : MemberLayout) :
    Thins Decoded.visibleOnly (field ⟨pool, true, name⟩ m) (field ⟨pool, false, name⟩ m) := by
  refine (Thins.same _).bind fun ty => ?_
  refine (thins_declaredOn pool name m.attributes _).bind fun annotations => ?_
  exact (thins_typeUsesIn pool name m.attributes _).bind fun typeUses => Thins.ok rfl

theorem thins_method (index : Nat) (m : MemberLayout) :
    Thins Decoded.visibleOnly (method ⟨pool, true, name⟩ index m)
      (method ⟨pool, false, name⟩ index m) := by
  refine (Thins.same _).bind fun erased => (Thins.same _).bind fun thrown => ?_
  refine (Thins.same _).bind fun types => (Thins.same _).bind fun default => ?_
  refine (Thins.same _).bind fun parameterNames => ?_
  refine (thins_declaredOn pool name m.attributes _).bind fun declared => ?_
  have hparameters := fun visible => Yields.after (p := Reader.u1) fun count =>
    Annotations.yields_readTables_visible pool name (UInt32.ofNat index) visible count
      (types.parameters.length - count)
  refine (thins_readBoth pool name hparameters m.attributes _).bind fun onParameters => ?_
  refine (thins_typeUsesIn pool name m.attributes _).bind fun typeUses => Thins.ok ?_
  rw [Decoded.visibleOnly, List.filter_append]
  rfl

theorem thins_methodsFrom (index : Nat) (ms : List MemberLayout) :
    Thins (List.map Decoded.visibleOnly) (methodsFrom ⟨pool, true, name⟩ index ms)
      (methodsFrom ⟨pool, false, name⟩ index ms) := by
  induction ms generalizing index with
  | nil => exact Thins.ok rfl
  | cons m ms ih =>
    exact (thins_method pool name index m).bind fun r =>
      (ih (index + 1)).bind fun rs => Thins.ok rfl

theorem thins_component :
    Reader.Thins Decoded.visibleOnly (component ⟨pool, true, name⟩)
      (component ⟨pool, false, name⟩) := by
  rw [component_eq, component_eq]
  refine (Reader.Thins.same _).bind fun l => (Reader.Thins.same _).bind fun ty => ?_
  refine (Reader.Thins.lift (thins_declaredOn pool name l.attributes _)).bind fun as => ?_
  refine (Reader.Thins.lift (thins_typeUsesIn pool name l.attributes _)).bind fun us => ?_
  exact Reader.Thins.pure rfl

theorem thins_components (attributes : Attributes) :
    Thins (List.map Decoded.visibleOnly) (components ⟨pool, true, name⟩ attributes)
      (components ⟨pool, false, name⟩ attributes) := by
  unfold components
  split
  · exact Thins.ok rfl
  · next body _ =>
    refine ((thins_component pool name).counted (.ofBytes body)).bind fun r => ?_
    -- Both runs stop at the same place, so both fill the attribute or neither does.
    dsimp only [Prod.map_fst, Prod.map_snd, id]
    split
    · exact Thins.ok rfl
    · exact Gives.error _

end Context

theorem annotations_visibleOnly (rs : List (Decoded α)) :
    (rs.map Decoded.visibleOnly).flatMap (·.annotations)
      = (rs.flatMap (·.annotations)).filter (·.visible) := by
  rw [List.filter_flatMap, List.flatMap_map]
  rfl

theorem typeUses_visibleOnly (rs : List (Decoded α)) :
    (rs.map Decoded.visibleOnly).flatMap (·.typeUses)
      = (rs.flatMap (·.typeUses)).filter (·.entry.body.visible) := by
  rw [List.filter_flatMap, List.flatMap_map]
  rfl

theorem decl_visibleOnly (rs : List (Decoded α)) :
    (rs.map Decoded.visibleOnly).map (·.decl) = rs.map (·.decl) := List.map_map

theorem Layout.thins_draft (layout : Layout) :
    Thins Draft.visibleOnly (layout.draft true) (layout.draft false) := by
  refine (Thins.same _).bind fun s => (Thins.same _).bind fun types => ?_
  refine (Context.thins_declaredOn layout.pool _ layout.attributes _).bind fun onClass => ?_
  refine (Context.thins_typeUsesIn layout.pool _ layout.attributes _).bind fun inClass => ?_
  refine (Thins.mapM (Context.thins_field layout.pool _) layout.fields).bind fun fields => ?_
  refine (Context.thins_methodsFrom layout.pool _ 0 layout.methods).bind fun methods => ?_
  refine (Context.thins_components layout.pool _ layout.attributes).bind fun components => ?_
  refine Thins.ok ?_
  simp only [Draft.visibleOnly, annotations_visibleOnly, typeUses_visibleOnly, decl_visibleOnly,
    List.filter_append, id]

theorem baseType_visibleOnly (init : String) (c : ClassDecl String) (hidden : Nat)
    (ref : DeclRef String) (use : TypeUse) :
    baseType init c.visibleOnly hidden ref use = baseType init c hidden ref use := by
  cases ref <;> cases use <;> rfl

theorem PendingTypeUse.visible_of_resolve {u : PendingTypeUse String} {init : String}
    {c : ClassDecl String} {hidden : Nat} {a : AnnotationUse String}
    (h : u.resolve init c hidden = some a) : a.visible = u.entry.body.visible := by
  obtain ⟨base, _, h⟩ := Option.bind_eq_some_iff.1 h
  obtain ⟨ty, _, h⟩ := Option.bind_eq_some_iff.1 h
  cases h
  rfl

theorem Draft.finish_visibleOnly (d : Draft String) (init : String) (text : String → String) :
    d.visibleOnly.finish init text = (d.finish init text).visibleOnly := by
  have hresolve : ∀ u : PendingTypeUse String,
      (if u.entry.body.visible then
          u.resolve init (d.decl init).visibleOnly (d.hiddenIn init text u.enclosing) else none)
        = (u.resolve init (d.decl init) (d.hiddenIn init text u.enclosing)).filter (·.visible) := by
    intro u
    rw [PendingTypeUse.resolve, baseType_visibleOnly, ← PendingTypeUse.resolve]
    cases h : u.resolve init (d.decl init) (d.hiddenIn init text u.enclosing) with
    | none => rw [ite_self, Option.filter_none]
    | some a => rw [Option.filter_some, PendingTypeUse.visible_of_resolve h]
  have huses : (d.typeUses.filter (·.entry.body.visible)).filterMap (fun u =>
        u.resolve init (d.decl init).visibleOnly (d.hiddenIn init text u.enclosing))
      = (d.typeUses.filterMap fun u =>
        u.resolve init (d.decl init) (d.hiddenIn init text u.enclosing)).filter (·.visible) := by
    rw [List.filterMap_filter, List.filter_filterMap]
    exact congrArg (List.filterMap · d.typeUses) (funext hresolve)
  have hall := congrArg (d.annotations.filter (·.visible) ++ ·) huses
  rw [← List.filter_append] at hall
  exact congrArg (fun as => { d.decl init with annotations := as }) hall

/-- Without the annotations that are not visible at run time, a class file decodes to the same
class with just these annotations left out, into whatever name tables it is decoded. -/
theorem decode_visibleOnly {config : Config} {bytes : List UInt8} {c : ClassDecl String}
    (h : decode { config with invisible := true } bytes = .ok c) :
    decode { config with invisible := false } bytes
        = .ok { c with annotations := c.annotations.filter (·.visible) }
      ∧ ∀ t u : NameTable,
        textOutcome (decodeInto { config with invisible := true } bytes) ClassDecl.resolve t = .ok c
          ∧ textOutcome (decodeInto { config with invisible := false } bytes) ClassDecl.resolve u
            = .ok { c with annotations := c.annotations.filter (·.visible) } := by
  obtain ⟨d, hdraft, hfinish⟩ := bind_eq_ok h
  obtain ⟨layout, hparse, hdraft⟩ := bind_eq_ok hdraft
  cases hfinish
  -- The version range alone decides how the file is split into its parts.
  have hparse' : Layout.parse { config with invisible := false } bytes = .ok layout := hparse
  have hplain : decode { config with invisible := false } bytes
      = .ok (d.finish MethodDecl.constructorName id).visibleOnly := by
    rw [decode, draft, hparse', ← d.finish_visibleOnly]
    show (layout.draft false >>= _) = _
    rw [layout.thins_draft d hdraft]
    rfl
  refine ⟨hplain, fun t u => ⟨?_, ?_⟩⟩
  · rw [textOutcome_decodeInto, h]
  · rw [textOutcome_decodeInto]
    exact hplain

def markedFile : List UInt8 :=
  [0xCA, 0xFE, 0xBA, 0xBE, 0, 0, 0, 52, 0, 11] ++ utf8Bytes [88] ++ [7, 0, 1] ++ utf8Bytes [102]
    ++ utf8Bytes [73] ++ utf8Bytes (ModifiedUtf8.encode "RuntimeVisibleAnnotations")
    ++ utf8Bytes (ModifiedUtf8.encode "RuntimeInvisibleAnnotations")
    ++ utf8Bytes (ModifiedUtf8.encode "RuntimeVisibleTypeAnnotations")
    ++ utf8Bytes (ModifiedUtf8.encode "RuntimeInvisibleTypeAnnotations")
    ++ utf8Bytes [76, 65, 59] ++ utf8Bytes [76, 66, 59] ++ [0, 1, 0, 2, 0, 0, 0, 0, 0, 1]
    ++ [0, 0, 0, 3, 0, 4, 0, 4, 0, 6, 0, 0, 0, 6, 0, 1, 0, 10, 0, 0]
    ++ [0, 5, 0, 0, 0, 6, 0, 1, 0, 9, 0, 0, 0, 8, 0, 0, 0, 8, 0, 1, 0x13, 0, 0, 10, 0, 0]
    ++ [0, 7, 0, 0, 0, 8, 0, 1, 0x13, 0, 0, 9, 0, 0, 0, 0, 0, 0]

theorem decode_visibleOnly_markedFile :
    ∃ c, decode .standard markedFile = .ok c
      ∧ c.annotations.map (fun a => (a.name, a.visible))
        = [("A", true), ("B", false), ("A", true), ("B", false)]
      ∧ decode { Config.standard with invisible := false } markedFile
        = .ok { c with annotations := c.annotations.filter (·.visible) }
      ∧ ∀ t u : NameTable,
        textOutcome (decodeInto .standard markedFile) ClassDecl.resolve t = .ok c
          ∧ textOutcome (decodeInto { Config.standard with invisible := false } markedFile)
            ClassDecl.resolve u = .ok { c with annotations := c.annotations.filter (·.visible) } := by
  have hmarks : (decode .standard markedFile).toOption.map
      (fun c => c.annotations.map fun a => (a.name, a.visible))
        = some [("A", true), ("B", false), ("A", true), ("B", false)] := by
    decide +kernel
  obtain ⟨c, hc, hannotations⟩ := Option.map_eq_some_iff.1 hmarks
  have hdecode : decode { Config.standard with invisible := true } markedFile = .ok c :=
    eq_ok_of_toOption hc
  exact ⟨c, hdecode, hannotations, decode_visibleOnly hdecode⟩

end ClassFile

end ClassCatalog
