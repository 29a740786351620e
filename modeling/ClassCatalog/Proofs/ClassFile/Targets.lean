import ClassCatalog.Proofs.ClassFile.Annotations
import ClassCatalog.Proofs.ClassFile.BaseTypes

/-! Every annotation of a decoded class leads to a declaration of the class, and an annotation on
a type to the type that its class file means. -/

namespace ClassCatalog.ClassFile

/-- What the target refers to is there; `hidden` parameters of each method come before the first
one that type uses count. -/
structure Target.ResolvesIn (c : ClassDecl String) (hidden : UInt32 → Nat) (t : Target String) :
    Prop where
  owner : t.declaringClass = c.name
  declaration : DeclRef.IsIn c t.belongsTo
  typeUse : ∀ u, t = .typeUse u → u.use.code ∈ u.enclosing.useCodes
    ∧ ∃ base, Means c hidden u.enclosing u.use base ∧ base.navigate u.path = some u.ty

def IsBareConstructor (layout : Layout) (c : ClassDecl String) (index : UInt32) : Prop :=
  ∃ m l, c.methods[index.toNat]? = some m ∧ m.name = "<init>"
    ∧ layout.methods[index.toNat]? = some l ∧ l.attributes.signature = none

namespace Draft

variable (d : Draft String) (text : String → String)

theorem hiddenParameters_le (erased : List (Ty String)) : d.hiddenParameters text erased ≤ 2 := by
  unfold hiddenParameters
  split
  · split
    · exact Nat.le_succ 1
    · split
      · exact Nat.le_refl 2
      · exact Nat.zero_le 2
  · exact Nat.zero_le 2

theorem hiddenIn_le (init : String) (ref : DeclRef String) : d.hiddenIn init text ref ≤ 2 := by
  unfold hiddenIn
  split
  · split
    · split
      · exact d.hiddenParameters_le text _
      · exact Nat.zero_le 2
    · exact Nat.zero_le 2
  · exact Nat.zero_le 2

theorem of_hiddenIn_ne_zero {d : Draft String} {text : String → String} {init owner : String}
    {index : UInt32} (h : d.hiddenIn init text (.method owner index) ≠ 0) :
    ∃ m, d.methods[index.toNat]? = some m ∧ m.name = init ∧ m.hasSignature = false := by
  unfold hiddenIn at h
  dsimp only at h
  split at h
  · next m hm =>
    split at h
    · next hbare =>
      rw [Bool.and_eq_true, decide_eq_true_eq, Bool.not_eq_true'] at hbare
      exact ⟨m, hm, hbare.1, hbare.2⟩
    · exact absurd rfl h
  · exact absurd rfl h

theorem baseType_finish (init : String) (hidden : Nat) (ref : DeclRef String) (use : TypeUse) :
    baseType init (d.finish init text) hidden ref use
      = baseType init (d.decl init) hidden ref use := by
  cases ref <;> cases use <;> rfl

/-- The parameters of a method that come before the first one that its type uses count. -/
def hiddenAt (index : UInt32) : Nat :=
  d.hiddenIn MethodDecl.constructorName id (.method d.name index)

variable {d} {layout : Layout}

theorem Stands.isBareConstructor (hstands : d.Stands layout) {index : UInt32}
    (h : d.hiddenAt index ≠ 0) :
    IsBareConstructor layout (d.finish MethodDecl.constructorName id) index := by
  obtain ⟨m, hm, hname, hbare⟩ := of_hiddenIn_ne_zero h
  obtain ⟨l, hl, hsignature⟩ := hstands.signatures _ m hm
  refine ⟨m.decl d.types.scope, l, ?_, hname, hl, ?_⟩
  · show (d.methods.map (·.decl d.types.scope))[index.toNat]? = _
    rw [List.getElem?_map, hm]
    rfl
  · rw [hbare] at hsignature
    exact Option.isNone_iff_eq_none.1 (Option.isSome_eq_false_iff.1 hsignature.symm)

theorem Stands.resolvesIn_declared (hstands : d.Stands layout) {a : AnnotationUse String}
    (ha : a ∈ d.annotations) (hidden : UInt32 → Nat) : ∃ t, a.target = some t
      ∧ Target.ResolvesIn (d.finish MethodDecl.constructorName id) hidden t := by
  obtain ⟨ref, hin, ⟨t, htarget, rfl, hplain⟩, _⟩ := hstands.annotations a ha
  have howner : t.declaringClass = d.name := by
    rw [← declaringClass_belongsTo]
    exact hin.declaringClass
  exact ⟨t, htarget, howner, hin, fun u hu => absurd hu (hplain u)⟩

theorem Stands.resolvesIn_typeUse (hstands : d.Stands layout)
    (htyped : (d.finish MethodDecl.constructorName id).WellTyped) {u : PendingTypeUse String}
    (hu : u ∈ d.typeUses) {a : AnnotationUse String}
    (hresolve : u.resolve MethodDecl.constructorName (d.decl MethodDecl.constructorName)
      (d.hiddenIn MethodDecl.constructorName id u.enclosing) = some a) : ∃ t, a.target = some t
      ∧ Target.ResolvesIn (d.finish MethodDecl.constructorName id) d.hiddenAt t := by
  obtain ⟨ref, hin, rfl, _⟩ := hstands.typeUses u hu
  obtain ⟨base, ty, hbase, hty, htarget, _⟩ := PendingTypeUse.resolve_eq_some hresolve
  -- The type was looked up before the class had these annotations.
  rw [← baseType_finish d id] at hbase
  have hmeans : Means (d.finish MethodDecl.constructorName id) d.hiddenAt u.enclosing
      u.entry.use base := by
    refine means_of_baseType htyped (fun owner index henclosing => ?_) hbase
    rw [henclosing]
    rfl
  refine ⟨_, htarget, hin.declaringClass, hin, ?_⟩
  rintro _ ⟨⟩
  exact ⟨hmeans.code_mem, base, hmeans, hty⟩

end Draft

/-- Every annotation has a target, and what it refers to is there. Only constructors without a
signature have parameters that type uses do not count, and these have at most two. -/
theorem resolvesIn_of_decode {config : Config} {bytes : List UInt8} {c : ClassDecl String}
    (h : decode config bytes = .ok c) :
    ∃ layout hidden, Layout.parse config bytes = .ok layout
      ∧ (∀ index, hidden index ≤ 2)
      ∧ (∀ index, hidden index ≠ 0 → IsBareConstructor layout c index)
      ∧ ∀ a ∈ c.annotations, ∃ t, a.target = some t ∧ Target.ResolvesIn c hidden t := by
  obtain ⟨d, hdraft, hfinish⟩ := bind_eq_ok h
  obtain ⟨layout, hparse, hdraft⟩ := bind_eq_ok hdraft
  cases hfinish
  have hstands := layout.gives_stands config.invisible d hdraft
  have htyped := (layout.gives_wellTyped config.invisible d hdraft).finish
    MethodDecl.constructorName id
  refine ⟨layout, d.hiddenAt, hparse, fun index => d.hiddenIn_le id _ _,
    fun index hne => hstands.isBareConstructor hne, fun a ha => ?_⟩
  rcases Draft.mem_annotations_finish ha with hdeclared | ⟨u, hu, hresolve⟩
  · exact hstands.resolvesIn_declared hdeclared d.hiddenAt
  · exact hstands.resolvesIn_typeUse htyped hu hresolve

/-- The file of an inner class `O$I` whose constructor takes an `O` that no source declares and
an `S`, with an annotation `T` on the type of the first parameter. -/
def innerFile : List UInt8 :=
  [0xCA, 0xFE, 0xBA, 0xBE, 0, 0, 0, 52, 0, 11] ++ utf8Bytes [79, 36, 73] ++ [7, 0, 1]
    ++ utf8Bytes [79] ++ [7, 0, 3] ++ utf8Bytes [60, 105, 110, 105, 116, 62]
    ++ utf8Bytes [40, 76, 79, 59, 76, 83, 59, 41, 86]
    ++ utf8Bytes [82, 117, 110, 116, 105, 109, 101, 86, 105, 115, 105, 98, 108, 101, 84, 121, 112,
      101, 65, 110, 110, 111, 116, 97, 116, 105, 111, 110, 115]
    ++ utf8Bytes [76, 84, 59] ++ utf8Bytes [73, 110, 110, 101, 114, 67, 108, 97, 115, 115, 101, 115]
    ++ utf8Bytes [73]
    ++ [0, 1, 0, 2, 0, 0, 0, 0, 0, 0, 0, 1, 0, 1, 0, 5, 0, 6, 0, 1, 0, 7, 0, 0, 0, 9, 0, 1, 0x16, 0,
      0, 0, 8, 0, 0, 0, 1, 0, 9, 0, 0, 0, 10, 0, 1, 0, 2, 0, 4, 0, 10, 0, 1]

theorem resolvesIn_innerFile :
    ∃ c, decode .standard innerFile = .ok c
      ∧ c.annotations.map (·.target)
        = [some (.typeUse ⟨.method "O$I" 0, .formalParameter 0, [], .named "S"⟩)]
      ∧ ∃ layout hidden, Layout.parse .standard innerFile = .ok layout
        ∧ (∀ index, hidden index ≤ 2)
        ∧ (∀ index, hidden index ≠ 0 → IsBareConstructor layout c index)
        ∧ ∀ a ∈ c.annotations, ∃ t, a.target = some t ∧ Target.ResolvesIn c hidden t := by
  have htargets : (decode .standard innerFile).toOption.map
      (fun c => c.annotations.map (·.target))
        = some [some (.typeUse ⟨.method "O$I" 0, .formalParameter 0, [], .named "S"⟩)] := by
    decide +kernel
  obtain ⟨c, hc, hannotations⟩ := Option.map_eq_some_iff.1 htargets
  have hdecode := eq_ok_of_toOption hc
  exact ⟨c, hdecode, hannotations, resolvesIn_of_decode hdecode⟩

end ClassCatalog.ClassFile
