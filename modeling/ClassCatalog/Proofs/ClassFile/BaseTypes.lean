import ClassCatalog.ClassFile.TypeUses
import ClassCatalog.Proofs.Ty.WellFormed

/-! The type of a class that a type use means, told apart from the way it is looked up. -/

namespace ClassCatalog

def DeclRef.useCodes {ν : Type} : DeclRef ν → List UInt8
  | type _ => [0x00, 0x10, 0x11]
  | field .. | component .. => [0x13]
  | method .. => [0x01, 0x12, 0x14, 0x15, 0x16, 0x17]

/-- `t` is the bound that `position` means: a class bound that was left out has a position too. -/
def Ty.IsBoundAt (v : Ty String) (position : UInt8) (t : Ty String) : Prop :=
  ∃ n implicitObject bounds slot, v = .typeParameter n implicitObject bounds
    ∧ position.toNat = slot + (if implicitObject then 1 else 0) ∧ bounds[slot]? = some t

def ClassDecl.IsSelf (c : ClassDecl String) (t : Ty String) : Prop :=
  c.typeParameters = [] ∧ t = .named c.name
    ∨ ∃ names, names ≠ [] ∧ c.typeParameters.map Ty.name? = names.map some
      ∧ t = .parameterized c.name (names.map .typeVariable)

namespace ClassFile

/-- `base` is the type of the declaration that the use means, where `hidden` parameters of each
method come before the first one that its uses count. -/
inductive Means (c : ClassDecl String) (hidden : UInt32 → Nat) :
    DeclRef String → TypeUse → Ty String → Prop where
  | classTypeParameter {owner position t} (h : c.typeParameters[position.toNat]? = some t) :
    Means c hidden (.type owner) (.classTypeParameter position) t
  | superclass {owner t} (h : c.superType = some t) :
    Means c hidden (.type owner) (.supertype 0xFFFF) t
  | interface {owner index t} (hne : index ≠ 0xFFFF) (h : c.interfaces[index.toNat]? = some t) :
    Means c hidden (.type owner) (.supertype index) t
  | classTypeParameterBound {owner parameter bound v t}
      (hv : c.typeParameters[parameter.toNat]? = some v) (h : v.IsBoundAt bound t) :
    Means c hidden (.type owner) (.classTypeParameterBound parameter bound) t
  | field {owner name f} (h : c.fields.find? (·.name = name) = some f) :
    Means c hidden (.field owner name) .field f.ty
  | component {owner name k} (h : c.components.find? (·.name = name) = some k) :
    Means c hidden (.component owner name) .field k.ty
  | methodTypeParameter {owner index m position t} (hm : c.methods[index.toNat]? = some m)
      (h : m.typeParameters[position.toNat]? = some t) :
    Means c hidden (.method owner index) (.methodTypeParameter position) t
  | methodTypeParameterBound {owner index m parameter bound v t}
      (hm : c.methods[index.toNat]? = some m) (hv : m.typeParameters[parameter.toNat]? = some v)
      (h : v.IsBoundAt bound t) :
    Means c hidden (.method owner index) (.methodTypeParameterBound parameter bound) t
  | constructed {owner index m t} (hm : c.methods[index.toNat]? = some m)
      (hname : m.name = "<init>") (h : c.IsSelf t) :
    Means c hidden (.method owner index) .returnType t
  | returned {owner index m} (hm : c.methods[index.toNat]? = some m) (hname : m.name ≠ "<init>") :
    Means c hidden (.method owner index) .returnType m.returnType
  | receiver {owner index m t} (hm : c.methods[index.toNat]? = some m) (h : c.IsSelf t) :
    Means c hidden (.method owner index) .receiver t
  | formalParameter {owner index m position t} (hm : c.methods[index.toNat]? = some m)
      (h : m.parameters[position.toNat + hidden index]? = some t) :
    Means c hidden (.method owner index) (.formalParameter position) t
  | thrown {owner index m position t} (hm : c.methods[index.toNat]? = some m)
      (h : m.exceptions[position.toNat]? = some t) :
    Means c hidden (.method owner index) (.thrown position) t

variable {c : ClassDecl String} {hidden : UInt32 → Nat} {d : DeclRef String} {use : TypeUse}
  {t : Ty String}

theorem Means.code_mem (h : Means c hidden d use t) : use.code ∈ d.useCodes := by
  cases h <;> simp [TypeUse.code, DeclRef.useCodes]

theorem isBoundAt_of_bound? {v : Ty String} {position : UInt8} (h : v.bound? position = some t) :
    v.IsBoundAt position t := by
  cases v with
  | typeParameter n implicitObject bounds =>
    obtain ⟨slot, hslot, hbound⟩ := Option.bind_eq_some_iff.1 h
    refine ⟨n, implicitObject, bounds, slot, rfl, ?_, hbound⟩
    unfold Ty.boundSlot at hslot
    split at hslot
    · cases hslot
    · next hn =>
      cases hslot
      exact hn
    · cases hslot
      rfl
  | _ => cases h

theorem isBoundAt_of_typeParameterBound {parameters : List (Ty String)} {parameter bound : UInt8}
    (h : typeParameterBound parameters parameter bound = some t) :
    ∃ v, parameters[parameter.toNat]? = some v ∧ v.IsBoundAt bound t := by
  obtain ⟨v, hv, hbound⟩ := Option.bind_eq_some_iff.1 h
  exact ⟨v, hv, isBoundAt_of_bound? hbound⟩

theorem isSelf_receiverType (hc : c.WellTyped) : c.IsSelf (receiverType c) := by
  by_cases hnil : c.typeParameters = []
  · refine .inl ⟨hnil, ?_⟩
    rw [receiverType, hnil]
    rfl
  -- Every type parameter is a declaration and so has a name: none is lost among the arguments.
  · have hnames : ∀ v ∈ c.typeParameters, v.name?.isSome := by
      intro v hv
      have hdeclared := hc.typeParameters v hv
      cases v with
      | typeParameter n i bounds => rfl
      | _ => exact hdeclared.elim
    have hmap : c.typeParameters.map Ty.name? = (c.typeParameters.filterMap Ty.name?).map some := by
      rw [List.map_filterMap_some_eq_filter_map_isSome, eq_comm, List.filter_eq_self]
      exact List.forall_mem_map.2 hnames
    refine .inr ⟨c.typeParameters.filterMap Ty.name?, ?_, hmap, ?_⟩
    · intro hempty
      rw [hempty] at hmap
      exact hnil (List.map_eq_nil_iff.1 hmap)
    · exact if_neg (by rwa [List.isEmpty_iff])

theorem means_of_methodBaseType (hc : c.WellTyped) {owner : String} {index : UInt32}
    {m : MethodDecl String} (hm : c.methods[index.toNat]? = some m)
    (h : methodBaseType MethodDecl.constructorName c m (hidden index) use = some t) :
    Means c hidden (.method owner index) use t := by
  cases use with
  | methodTypeParameter position => exact .methodTypeParameter hm h
  | methodTypeParameterBound parameter bound =>
    obtain ⟨v, hv, hbound⟩ := isBoundAt_of_typeParameterBound h
    exact .methodTypeParameterBound hm hv hbound
  | returnType =>
    by_cases hname : m.name = MethodDecl.constructorName
    · have ht : receiverType c = t := by
        rw [methodBaseType_returnType, if_pos hname] at h
        exact Option.some.inj h
      exact .constructed hm hname (ht ▸ isSelf_receiverType hc)
    · rw [methodBaseType_returnType, if_neg hname] at h
      cases h
      exact .returned hm hname
  | receiver =>
    cases h
    exact .receiver hm (isSelf_receiverType hc)
  | formalParameter position =>
    refine .formalParameter hm ?_
    rw [Nat.add_comm]
    exact h
  | thrown position => exact .thrown hm h
  | _ => cases h

theorem means_of_baseType (hc : c.WellTyped) {count : Nat}
    (hcount : ∀ owner index, d = .method owner index → count = hidden index)
    (h : baseType MethodDecl.constructorName c count d use = some t) : Means c hidden d use t := by
  cases d with
  | type owner =>
    cases use with
    | classTypeParameter position => exact .classTypeParameter h
    | supertype index =>
      by_cases hindex : index = TypeUse.superclass
      · rw [baseType, if_pos hindex] at h
        rw [hindex]
        exact .superclass h
      · rw [baseType, if_neg hindex] at h
        exact .interface hindex h
    | classTypeParameterBound parameter bound =>
      obtain ⟨v, hv, hbound⟩ := isBoundAt_of_typeParameterBound h
      exact .classTypeParameterBound hv hbound
    | _ => cases h
  | field owner name =>
    cases use with
    | field =>
      obtain ⟨f, hf, rfl⟩ := Option.map_eq_some_iff.1 h
      exact .field hf
    | _ => cases h
  | component owner name =>
    cases use with
    | field =>
      obtain ⟨k, hk, rfl⟩ := Option.map_eq_some_iff.1 h
      exact .component hk
    | _ => cases h
  | method owner index =>
    -- Only now that the use is split does the look-up see that the declaration is a method.
    have hmethod : (c.methods[index.toNat]?).bind
        (fun m => methodBaseType MethodDecl.constructorName c m count use) = some t := by
      cases use <;> exact h
    obtain ⟨m, hm, hbase⟩ := Option.bind_eq_some_iff.1 hmethod
    rw [hcount owner index rfl] at hbase
    exact means_of_methodBaseType hc hm hbase

end ClassFile

end ClassCatalog
