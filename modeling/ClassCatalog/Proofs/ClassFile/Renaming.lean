import Mathlib.Data.List.Basic
import ClassCatalog.Proofs.Rename
import ClassCatalog.ClassFile.Draft

/-! Finishing a draft asks of names only whether they are equal. So it commutes with every
replacement of names that keeps different names different. -/

namespace ClassCatalog

open Function (Injective)

variable {α β : Type} {f : α → β}

namespace Ty

variable (f) in
theorem declaredNames_rename (ts : List (Ty α)) :
    declaredNames (ts.map (rename f)) = (declaredNames ts).map f := by
  rw [declaredNames, declaredNames, List.filterMap_map, List.map_filterMap]
  congr 1
  funext t
  cases t <;> simp

variable (f) in
theorem name?_rename (t : Ty α) : (t.rename f).name? = t.name?.map f := by
  cases t <;> simp [name?]

section Binding

variable [DecidableEq α] [DecidableEq β]

mutual

theorem bindIn_rename (hf : Injective f) (scope : List α) (t : Ty α) :
    (t.rename f).bindIn (scope.map f) = (t.bindIn scope).rename f := by
  cases t with
  | primitive | void | named | typeVariable | wildcard => rfl
  | unresolved n =>
    rw [rename_unresolved, bindIn, bindIn]
    simp only [List.mem_map_of_injective hf]
    split
    · rfl
    · rfl
  | array d c => simp [bindIn, bindIn_rename hf scope c]
  | bounded e b => simp [bindIn, bindIn_rename hf scope b]
  | parameterized n as => simp [bindIn, listBindIn_rename hf scope as]
  | inner o n as => simp [bindIn, bindIn_rename hf scope o, listBindIn_rename hf scope as]
  | typeParameter n i bs => simp [bindIn, listBindIn_rename hf scope bs]

theorem listBindIn_rename (hf : Injective f) (scope : List α) (ts : List (Ty α)) :
    listBindIn (scope.map f) (ts.map (rename f)) = (listBindIn scope ts).map (rename f) := by
  cases ts with
  | nil => rfl
  | cons t ts =>
    rw [List.map_cons, listBindIn, listBindIn, List.map_cons, bindIn_rename hf scope t,
      listBindIn_rename hf scope ts]

end

end Binding

variable (f)

theorem rename_eq_primitive_iff (t : Ty α) (p : Primitive) :
    t.rename f = primitive p ↔ t = primitive p := by
  cases t <;> simp

theorem ownerChain_rename (t : Ty α) :
    (t.rename f).ownerChain = t.ownerChain.map (rename f) := by
  induction t using ownerChain.induct with
  | case1 o n as ih => simp [ownerChain, ih]
  | case2 t h => cases t <;> simp [ownerChain] at h ⊢

theorem level_rename (depth : Nat) (t : Ty α) :
    (t.rename f).level depth = (t.level depth).map (rename f) := by
  cases t with
  | inner o n as =>
    rw [level, ← List.getElem?_map, ← ownerChain_rename, rename_inner, level]
  | _ => simp [level]

theorem step_rename (s : PathStep) (t : Ty α) :
    (t.rename f).step s = (t.step s).map (rename f) := by
  cases s <;> cases t <;> simp [step]
  split
  · rfl
  · rfl

theorem navigateFrom_rename (depth : Nat) (t : Ty α) (path : List PathStep) :
    (t.rename f).navigateFrom depth path = (t.navigateFrom depth path).map (rename f) := by
  induction path generalizing depth t with
  | nil => exact level_rename f depth t
  | cons s path ih =>
    cases s with
    | nested => exact ih (depth + 1) t
    | arrayElement | wildcardBound | argument _ =>
      simp only [navigateFrom, level_rename, Option.bind_eq_bind]
      cases t.level depth with
      | none => rfl
      | some u =>
        simp only [Option.map_some, Option.bind_some, step_rename]
        cases u.step _ with
        | none => rfl
        | some part => exact ih 0 part

theorem bound?_rename (t : Ty α) (position : UInt8) :
    (t.rename f).bound? position = (t.bound? position).map (rename f) := by
  cases t with
  | typeParameter n i bs =>
    simp only [rename_typeParameter, bound?]
    cases boundSlot i position with
    | none => rfl
    | some k => exact List.getElem?_map
  | _ => simp [bound?]

end Ty

namespace ClassFile

section Rename

variable (f)

def Supertypes.rename (s : Supertypes α) : Supertypes β :=
  (s.mapNames fun n => (pure (f n) : Id β)).run

def MethodSignature.rename (s : MethodSignature α) : MethodSignature β :=
  (s.mapNames fun n => (pure (f n) : Id β)).run

def MethodDraft.rename (m : MethodDraft α) : MethodDraft β :=
  (m.mapNames fun n => (pure (f n) : Id β)).run

def TypeEntry.rename (e : TypeEntry α) : TypeEntry β :=
  (e.mapNames fun n => (pure (f n) : Id β)).run

def PendingTypeUse.rename (u : PendingTypeUse α) : PendingTypeUse β :=
  (u.mapNames fun n => (pure (f n) : Id β)).run

def Draft.rename (d : Draft α) : Draft β := (d.mapNames fun n => (pure (f n) : Id β)).run

theorem Supertypes.rename_eq (s : Supertypes α) :
    s.rename f = ⟨s.typeParameters.map (Ty.rename f), s.superType.map (Ty.rename f),
      s.interfaces.map (Ty.rename f)⟩ := by
  simp only [← Ty.run_listMapNames]
  show Supertypes.mk _ (Id.run (s.superType.mapM _)) _ = _
  rw [run_optionMapM]
  rfl

theorem MethodSignature.rename_eq (s : MethodSignature α) :
    s.rename f = ⟨s.typeParameters.map (Ty.rename f), s.parameters.map (Ty.rename f),
      s.returnType.rename f, s.exceptions.map (Ty.rename f)⟩ := by
  simp only [← Ty.run_listMapNames]
  rfl

theorem MethodDraft.rename_eq (m : MethodDraft α) :
    m.rename f = ⟨f m.name, m.flags, m.types.rename f, m.parameterNames.map (Option.map f),
      m.default.map (Value.rename f), m.erased.map (Ty.rename f), m.hasSignature⟩ := by
  simp only [← Ty.run_listMapNames]
  show MethodDraft.mk _ _ _ (Id.run (m.parameterNames.mapM _)) (Id.run (m.default.mapM _)) _ _ = _
  simp only [List.idRun_mapM, run_optionMapM]
  rfl

theorem Draft.rename_eq (d : Draft α) :
    d.rename f = ⟨f d.name, d.flags, d.superName.map f, d.types.rename f,
      d.fields.map (FieldDecl.rename f), d.methods.map (MethodDraft.rename f),
      d.components.map (ComponentDecl.rename f), d.annotations.map (AnnotationUse.rename f),
      d.typeUses.map (PendingTypeUse.rename f), d.nesting.rename f⟩ := by
  show Draft.mk _ _ (Id.run (d.superName.mapM _)) _ (Id.run (d.fields.mapM _))
    (Id.run (d.methods.mapM _)) (Id.run (d.components.mapM _)) (Id.run (d.annotations.mapM _))
    (Id.run (d.typeUses.mapM _)) _ = _
  simp only [List.idRun_mapM, run_optionMapM]
  rfl

end Rename

theorem receiverType_rename (c : ClassDecl α) :
    receiverType (c.rename f) = (receiverType c).rename f := by
  rw [ClassDecl.rename_eq, receiverType, receiverType, List.isEmpty_map]
  split
  · rfl
  · simp [List.filterMap_map, Ty.name?_rename, List.map_filterMap, Function.comp_def]

theorem typeParameterBound_rename (parameters : List (Ty α)) (parameter bound : UInt8) :
    typeParameterBound (parameters.map (Ty.rename f)) parameter bound
      = (typeParameterBound parameters parameter bound).map (Ty.rename f) := by
  rw [typeParameterBound, typeParameterBound, List.getElem?_map]
  cases parameters[parameter.toNat]? with
  | none => rfl
  | some t => exact t.bound?_rename f bound

variable [DecidableEq α] [DecidableEq β]

theorem Supertypes.bound_rename (hf : Injective f) (s : Supertypes α) :
    (s.rename f).bound = s.bound.rename f := by
  simp [bound, scope, rename_eq, Ty.declaredNames_rename, Ty.listBindIn_rename hf,
    Ty.bindIn_rename hf, Function.comp_def]

theorem MethodDraft.decl_rename (hf : Injective f) (outer : List α) (m : MethodDraft α) :
    (m.rename f).decl (outer.map f) = (m.decl outer).rename f := by
  simp [decl, rename_eq, MethodDecl.rename_eq, MethodSignature.rename_eq, MethodSignature.boundIn,
    MethodSignature.scope, Ty.declaredNames_rename, ← List.map_append, Ty.listBindIn_rename hf,
    Ty.bindIn_rename hf]

namespace Draft

theorem isEnclosing_rename (hf : Injective f) (d : Draft α) (outer : α) :
    (d.rename f).isEnclosing (f outer) = d.isEnclosing outer := by
  have hsome : d.nesting.enclosingClass.map f = some (f outer)
      ↔ d.nesting.enclosingClass = some outer := by
    rw [← Option.map_some, (Option.map_injective hf).eq_iff]
  simp [isEnclosing, rename_eq, Nesting.rename_eq, hsome]

theorem isNoArgs_rename (hf : Injective f) (d : Draft α) (erased : List (Ty α)) :
    (d.rename f).isNoArgs (erased.map (Ty.rename f)) = d.isNoArgs erased := by
  match erased with
  | [] => rfl
  | [t] => cases t <;> simp [isNoArgs, isEnclosing_rename hf]
  | t :: u :: ts => cases t <;> simp [isNoArgs]

theorem hiddenParameters_rename (hf : Injective f) {text : α → String} {text' : β → String}
    (htext : ∀ n, text' (f n) = text n) (d : Draft α) (erased : List (Ty α)) :
    (d.rename f).hiddenParameters text' (erased.map (Ty.rename f))
      = d.hiddenParameters text erased := by
  have hflags : (d.rename f).flags = d.flags := by rw [rename_eq]
  have hhead : ∀ rest : List (Ty α), (rest.map (Ty.rename f)).head? = some (.primitive .int)
      ↔ rest.head? = some (.primitive .int) := by
    intro rest
    cases rest <;> simp [Ty.rename_eq_primitive_iff]
  match erased with
  | [] => rfl
  | t :: rest =>
    cases t with
    | named first =>
      rw [List.map_cons, Ty.rename_named, hiddenParameters, hiddenParameters,
        isEnclosing_rename hf, hflags, htext]
      simp only [hhead]
    | _ => simp [hiddenParameters]

theorem hiddenIn_rename (hf : Injective f) {text : α → String} {text' : β → String}
    (htext : ∀ n, text' (f n) = text n) (init : α) (d : Draft α) (ref : DeclRef α) :
    (d.rename f).hiddenIn (f init) text' (ref.rename f) = d.hiddenIn init text ref := by
  have hmethods : (d.rename f).methods = d.methods.map (MethodDraft.rename f) := by rw [rename_eq]
  cases ref with
  | method owner index =>
    show (d.rename f).hiddenIn (f init) text' (.method (f owner) index) = _
    rw [hiddenIn, hiddenIn, hmethods, List.getElem?_map]
    cases d.methods[index.toNat]? with
    | none => rfl
    | some m =>
      simp [MethodDraft.rename_eq, hf.eq_iff, hiddenParameters_rename hf htext]
  | _ => rfl

theorem decl_rename (hf : Injective f) (init : α) (d : Draft α) :
    (d.rename f).decl (f init) = (d.decl init).rename f := by
  have hscope : (d.types.rename f).scope = d.types.scope.map f := by
    simp [Supertypes.scope, Supertypes.rename_eq, Ty.declaredNames_rename]
  have hany : (d.methods.map (MethodDraft.rename f)).any
      (fun m => m.name = f init && (d.rename f).isNoArgs m.erased)
        = d.methods.any fun m => m.name = init && d.isNoArgs m.erased := by
    simp [List.any_map, Function.comp_def, MethodDraft.rename_eq, isNoArgs_rename hf, hf.eq_iff]
  rw [rename_eq] at hany
  have hfield : ∀ k : FieldDecl α,
      (⟨f k.name, k.flags, (k.ty.rename f).bindIn (d.types.scope.map f)⟩ : FieldDecl β)
        = FieldDecl.rename f { k with ty := k.ty.bindIn d.types.scope } := fun k => by
    rw [Ty.bindIn_rename hf]
    rfl
  have hcomponent : ∀ k : ComponentDecl α,
      (⟨f k.name, (k.ty.rename f).bindIn (d.types.scope.map f)⟩ : ComponentDecl β)
        = ComponentDecl.rename f { k with ty := k.ty.bindIn d.types.scope } := fun k => by
    rw [Ty.bindIn_rename hf]
    rfl
  rw [rename_eq, decl, decl, ClassDecl.rename_eq, hany]
  simp only [Supertypes.bound_rename hf, hscope, Supertypes.rename_eq f d.types.bound,
    MethodDraft.decl_rename hf, List.map_map, Function.comp_def, ← hfield, ← hcomponent]
  rfl

end Draft

theorem methodBaseType_rename (hf : Injective f) (init : α) (c : ClassDecl α) (m : MethodDecl α)
    (hidden : Nat) (use : TypeUse) :
    methodBaseType (f init) (c.rename f) (m.rename f) hidden use
      = (methodBaseType init c m hidden use).map (Ty.rename f) := by
  rw [MethodDecl.rename_eq]
  cases use with
  | methodTypeParameterBound parameter bound => exact typeParameterBound_rename ..
  | returnType =>
    simp only [methodBaseType_returnType, hf.eq_iff, receiverType_rename, Option.map_some]
    split
    · rfl
    · rfl
  | receiver => simp only [methodBaseType_receiver, receiverType_rename, Option.map_some]
  | methodTypeParameter | formalParameter | thrown => exact List.getElem?_map
  | _ => rfl

theorem find?_rename {κ κ' : Type} (name : κ → α) (name' : κ' → β) (hf : Injective f)
    {rename : κ → κ'} (h : ∀ k, name' (rename k) = f (name k)) (ks : List κ) (n : α) :
    (ks.map rename).find? (fun k => name' k = f n)
      = (ks.find? fun k => name k = n).map rename := by
  rw [List.find?_map]
  congr 2
  funext k
  simp [h, hf.eq_iff]

theorem baseType_rename (hf : Injective f) (init : α) (c : ClassDecl α) (hidden : Nat)
    (ref : DeclRef α) (use : TypeUse) :
    baseType (f init) (c.rename f) hidden (ref.rename f) use
      = (baseType init c hidden ref use).map (Ty.rename f) := by
  have hfield : ∀ name, (c.rename f).field? (f name) = (c.field? name).map (FieldDecl.rename f) := by
    intro name
    rw [ClassDecl.field?, ClassDecl.rename_eq]
    exact find?_rename FieldDecl.name FieldDecl.name hf (fun k => rfl) c.fields name
  have hcomponent : ∀ name,
      (c.rename f).component? (f name) = (c.component? name).map (ComponentDecl.rename f) := by
    intro name
    rw [ClassDecl.component?, ClassDecl.rename_eq]
    exact find?_rename ComponentDecl.name ComponentDecl.name hf (fun k => rfl) c.components name
  cases ref with
  | type owner =>
    show baseType (f init) (c.rename f) hidden (.type (f owner)) use = _
    rw [ClassDecl.rename_eq]
    cases use with
    | classTypeParameter position => exact List.getElem?_map
    | supertype index =>
      simp only [baseType]
      split
      · rfl
      · exact List.getElem?_map
    | classTypeParameterBound parameter bound => exact typeParameterBound_rename ..
    | _ => rfl
  | field owner name =>
    show baseType (f init) (c.rename f) hidden (.field (f owner) (f name)) use = _
    cases use with
    | field =>
      simp only [baseType, hfield, Option.map_map]
      rfl
    | _ => rfl
  | component owner name =>
    show baseType (f init) (c.rename f) hidden (.component (f owner) (f name)) use = _
    cases use with
    | field =>
      simp only [baseType, hcomponent, Option.map_map]
      rfl
    | _ => rfl
  | method owner index =>
    have hmethods : (c.rename f).methods = c.methods.map (MethodDecl.rename f) := by
      rw [ClassDecl.rename_eq]
    show baseType (f init) (c.rename f) hidden (.method (f owner) index) use = _
    rw [baseType, baseType, hmethods, List.getElem?_map]
    cases c.methods[index.toNat]? with
    | none => rfl
    | some m => exact methodBaseType_rename hf init c m hidden use

theorem PendingTypeUse.resolve_rename (hf : Injective f) (init : α) (c : ClassDecl α)
    (hidden : Nat) (u : PendingTypeUse α) :
    (u.rename f).resolve (f init) (c.rename f) hidden
      = (u.resolve init c hidden).map (AnnotationUse.rename f) := by
  have hrename : u.rename f = ⟨u.enclosing.rename f, ⟨u.entry.use, u.entry.path,
    u.entry.body.rename f⟩⟩ := rfl
  rw [hrename, resolve, resolve, baseType_rename hf]
  cases baseType init c hidden u.enclosing u.entry.use with
  | none => rfl
  | some base =>
    show ((base.rename f).navigate u.entry.path >>= _) = Option.map _ (base.navigate _ >>= _)
    rw [Ty.navigate, Ty.navigateFrom_rename, ← Ty.navigate]
    cases base.navigate u.entry.path with
    | none => rfl
    | some ty =>
      refine congrArg some ?_
      rw [AnnotationUse.rename_eq, AnnotationUse.rename_eq]
      rfl

theorem Draft.finish_rename (hf : Injective f) {text : α → String} {text' : β → String}
    (htext : ∀ n, text' (f n) = text n) (init : α) (d : Draft α) :
    (d.rename f).finish (f init) text' = (d.finish init text).rename f := by
  have huse : ∀ u : PendingTypeUse α,
      (u.rename f).resolve (f init) ((d.decl init).rename f)
          ((d.rename f).hiddenIn (f init) text' (u.rename f).enclosing)
        = (u.resolve init (d.decl init) (d.hiddenIn init text u.enclosing)).map
          (AnnotationUse.rename f) := by
    intro u
    rw [← u.resolve_rename hf, ← d.hiddenIn_rename hf htext]
    rfl
  have htypeUses : (d.rename f).typeUses = d.typeUses.map (PendingTypeUse.rename f) := by
    rw [rename_eq]
  have hannotations : (d.rename f).annotations = d.annotations.map (AnnotationUse.rename f) := by
    rw [rename_eq]
  simp only [finish, d.decl_rename hf, htypeUses, hannotations, List.filterMap_map,
    Function.comp_def, huse]
  simp only [ClassDecl.rename_eq, List.map_append, List.map_filterMap]

end ClassFile

end ClassCatalog
