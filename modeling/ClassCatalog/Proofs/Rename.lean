import ClassCatalog.Rename

/-! Replacing the names of types, values and classes by a function. Two replacements one
after the other are one. -/

namespace ClassCatalog

variable {α β γ : Type}

theorem run_optionMapM (f : α → Id β) (x : Option α) :
    (x.mapM f).run = x.map fun a => (f a).run := by
  cases x <;> rfl

def Ty.rename (f : α → β) (t : Ty α) : Ty β := (t.mapNames fun n => (pure (f n) : Id β)).run

namespace Ty

variable (f : α → β)

theorem run_listMapNames (ts : List (Ty α)) :
    (listMapNames (fun n => (pure (f n) : Id β)) ts).run = ts.map (rename f) := by
  induction ts with
  | nil => rfl
  | cons t ts ih =>
    rw [List.map_cons, ← ih]
    rfl

@[simp] theorem rename_primitive (p : Primitive) : (primitive p).rename f = primitive p := rfl

@[simp] theorem rename_void : (void : Ty α).rename f = void := rfl

@[simp] theorem rename_named (n : α) : (named n).rename f = named (f n) := rfl

@[simp] theorem rename_array (d : UInt8) (c : Ty α) :
    (array d c).rename f = array d (c.rename f) := rfl

@[simp] theorem rename_parameterized (n : α) (as : List (Ty α)) :
    (parameterized n as).rename f = parameterized (f n) (as.map (rename f)) := by
  rw [← run_listMapNames]
  rfl

@[simp] theorem rename_inner (o : Ty α) (n : α) (as : List (Ty α)) :
    (inner o n as).rename f = inner (o.rename f) (f n) (as.map (rename f)) := by
  rw [← run_listMapNames]
  rfl

@[simp] theorem rename_typeParameter (n : α) (i : Bool) (bs : List (Ty α)) :
    (typeParameter n i bs).rename f = typeParameter (f n) i (bs.map (rename f)) := by
  rw [← run_listMapNames]
  rfl

@[simp] theorem rename_typeVariable (n : α) :
    (typeVariable n).rename f = typeVariable (f n) := rfl

@[simp] theorem rename_unresolved (n : α) : (unresolved n).rename f = unresolved (f n) := rfl

@[simp] theorem rename_wildcard (e : Bool) : (wildcard e : Ty α).rename f = wildcard e := rfl

@[simp] theorem rename_bounded (e : Bool) (b : Ty α) :
    (bounded e b).rename f = bounded e (b.rename f) := rfl

mutual

theorem rename_rename (g : β → γ) (t : Ty α) : (t.rename f).rename g = t.rename (g ∘ f) := by
  cases t with
  | primitive | void | named | typeVariable | unresolved | wildcard => rfl
  | array d c => simp [rename_rename g c]
  | bounded e b => simp [rename_rename g b]
  | parameterized n as => simp [map_rename_rename g as]
  | inner o n as => simp [rename_rename g o, map_rename_rename g as]
  | typeParameter n i bs => simp [map_rename_rename g bs]

theorem map_rename_rename (g : β → γ) (ts : List (Ty α)) :
    ts.map (rename g ∘ rename f) = ts.map (rename (g ∘ f)) := by
  cases ts with
  | nil => rfl
  | cons t ts =>
    rw [List.map_cons, List.map_cons, Function.comp, rename_rename g t, map_rename_rename g ts]

end

end Ty

def Value.rename (f : α → β) (v : Value α) : Value β :=
  (v.mapNames fun n => (pure (f n) : Id β)).run

namespace Value

variable (f : α → β)

def renameMember (m : α × Value α) : β × Value β := (f m.1, m.2.rename f)

theorem run_membersMapNames (members : List (α × Value α)) :
    (membersMapNames (fun n => (pure (f n) : Id β)) members).run
      = members.map (renameMember f) := by
  induction members with
  | nil => rfl
  | cons m members ih =>
    rw [List.map_cons, ← ih]
    rfl

theorem run_elementsMapNames (elements : List (Value α)) :
    (elementsMapNames (fun n => (pure (f n) : Id β)) elements).run = elements.map (rename f) := by
  induction elements with
  | nil => rfl
  | cons v elements ih =>
    rw [List.map_cons, ← ih]
    rfl

theorem rename_nested (n : α) (visible : Bool) (members : List (α × Value α)) :
    (nested n visible members).rename f
      = nested (f n) visible (members.map (renameMember f)) := by
  rw [← run_membersMapNames]
  rfl

theorem rename_array (elements : List (Value α)) :
    (array elements).rename f = array (elements.map (rename f)) := by
  rw [← run_elementsMapNames]
  rfl

mutual

theorem rename_rename (g : β → γ) (v : Value α) : (v.rename f).rename g = v.rename (g ∘ f) := by
  cases v with
  | byte | char | short | int | long | float | double | boolean | string | enumConstant => rfl
  | classLiteral t => exact congrArg classLiteral (t.rename_rename f g)
  | nested n visible members =>
    rw [rename_nested, rename_nested, rename_nested, map_renameMember_renameMember g members]
    rfl
  | array elements =>
    rw [rename_array, rename_array, rename_array, map_rename_rename g elements]

theorem map_renameMember_renameMember (g : β → γ) (members : List (α × Value α)) :
    (members.map (renameMember f)).map (renameMember g) = members.map (renameMember (g ∘ f)) := by
  match members with
  | [] => rfl
  | (n, v) :: members =>
    rw [List.map_cons, List.map_cons, List.map_cons, map_renameMember_renameMember g members]
    simp only [renameMember, rename_rename g v, Function.comp]

theorem map_rename_rename (g : β → γ) (elements : List (Value α)) :
    (elements.map (rename f)).map (rename g) = elements.map (rename (g ∘ f)) := by
  cases elements with
  | nil => rfl
  | cons v elements =>
    rw [List.map_cons, List.map_cons, List.map_cons, rename_rename g v,
      map_rename_rename g elements]

end

end Value

section Declarations

variable (f : α → β) (g : β → γ)

def DeclRef.rename (d : DeclRef α) : DeclRef β := (d.mapNames fun n => (pure (f n) : Id β)).run

def Target.rename (t : Target α) : Target β := (t.mapNames fun n => (pure (f n) : Id β)).run

def AnnotationUse.rename (a : AnnotationUse α) : AnnotationUse β :=
  (a.mapNames fun n => (pure (f n) : Id β)).run

def FieldDecl.rename (d : FieldDecl α) : FieldDecl β :=
  (d.mapNames fun n => (pure (f n) : Id β)).run

def MethodDecl.rename (d : MethodDecl α) : MethodDecl β :=
  (d.mapNames fun n => (pure (f n) : Id β)).run

def ComponentDecl.rename (d : ComponentDecl α) : ComponentDecl β :=
  (d.mapNames fun n => (pure (f n) : Id β)).run

def EnclosingMethod.rename (e : EnclosingMethod α) : EnclosingMethod β :=
  (e.mapNames fun n => (pure (f n) : Id β)).run

def Nesting.rename (n : Nesting α) : Nesting β := (n.mapNames fun n => (pure (f n) : Id β)).run

def ClassDecl.rename (c : ClassDecl α) : ClassDecl β :=
  (c.mapNames fun n => (pure (f n) : Id β)).run

theorem DeclRef.rename_rename (d : DeclRef α) :
    (d.rename f).rename g = d.rename (g ∘ f) := by
  cases d <;> rfl

theorem Target.rename_rename (t : Target α) : (t.rename f).rename g = t.rename (g ∘ f) := by
  cases t with
  | declaration d => exact congrArg declaration (d.rename_rename f g)
  | parameter c i p => rfl
  | typeUse t =>
    exact congrArg typeUse
      (congr (congrArg (TypeTarget.mk · t.use t.path) (t.enclosing.rename_rename f g))
        (t.ty.rename_rename f g))

theorem AnnotationUse.rename_eq (a : AnnotationUse α) :
    a.rename f = ⟨f a.name, a.visible, a.target.map (Target.rename f),
      a.members.map (Value.renameMember f)⟩ := by
  rw [← Value.run_membersMapNames]
  show AnnotationUse.mk _ _ (Id.run (a.target.mapM _)) _ = _
  rw [run_optionMapM]
  rfl

theorem AnnotationUse.rename_rename (a : AnnotationUse α) :
    (a.rename f).rename g = a.rename (g ∘ f) := by
  simp [rename_eq, Target.rename_rename, -List.map_map, Value.map_renameMember_renameMember,
    Function.comp_def]

theorem FieldDecl.rename_rename (d : FieldDecl α) :
    (d.rename f).rename g = d.rename (g ∘ f) :=
  congrArg (FieldDecl.mk _ _) (d.ty.rename_rename f g)

theorem ComponentDecl.rename_rename (d : ComponentDecl α) :
    (d.rename f).rename g = d.rename (g ∘ f) :=
  congrArg (ComponentDecl.mk _) (d.ty.rename_rename f g)

theorem MethodDecl.rename_eq (d : MethodDecl α) :
    d.rename f = ⟨f d.name, d.flags, d.typeParameters.map (Ty.rename f),
      d.parameters.map (Ty.rename f), d.returnType.rename f, d.exceptions.map (Ty.rename f),
      d.parameterNames.map (Option.map f), d.default.map (Value.rename f)⟩ := by
  simp only [← Ty.run_listMapNames]
  show MethodDecl.mk _ _ _ _ _ _ (Id.run (d.parameterNames.mapM _)) (Id.run (d.default.mapM _)) = _
  rw [List.idRun_mapM, run_optionMapM]
  simp only [run_optionMapM]
  rfl

theorem MethodDecl.rename_rename (d : MethodDecl α) :
    (d.rename f).rename g = d.rename (g ∘ f) := by
  simp [rename_eq, Ty.rename_rename, Value.rename_rename, Function.comp_def]

theorem Nesting.rename_eq (n : Nesting α) :
    n.rename f = ⟨n.kind, n.enclosingClass.map f, n.simpleName.map f,
      n.enclosingMethod.map (EnclosingMethod.rename f)⟩ := by
  show Nesting.mk _ (Id.run (n.enclosingClass.mapM _)) (Id.run (n.simpleName.mapM _))
    (Id.run (n.enclosingMethod.mapM _)) = _
  simp only [run_optionMapM]
  rfl

theorem Nesting.rename_rename (n : Nesting α) :
    (n.rename f).rename g = n.rename (g ∘ f) := by
  simp only [rename_eq, Option.map_map]
  rfl

theorem ClassDecl.rename_eq (c : ClassDecl α) :
    c.rename f = ⟨f c.name, c.flags, c.superName.map f, c.superType.map (Ty.rename f),
      c.interfaces.map (Ty.rename f), c.typeParameters.map (Ty.rename f),
      c.fields.map (FieldDecl.rename f), c.methods.map (MethodDecl.rename f),
      c.components.map (ComponentDecl.rename f), c.annotations.map (AnnotationUse.rename f),
      c.nesting.rename f, c.hasNoArgsConstructor⟩ := by
  simp only [← Ty.run_listMapNames]
  show ClassDecl.mk _ _ (Id.run (c.superName.mapM _)) (Id.run (c.superType.mapM _)) _ _
    (Id.run (c.fields.mapM _)) (Id.run (c.methods.mapM _)) (Id.run (c.components.mapM _))
    (Id.run (c.annotations.mapM _)) _ _ = _
  simp only [run_optionMapM, List.idRun_mapM]
  rfl

theorem ClassDecl.rename_rename (c : ClassDecl α) :
    (c.rename f).rename g = c.rename (g ∘ f) := by
  simp [rename_eq, Ty.rename_rename, FieldDecl.rename_rename,
    MethodDecl.rename_rename, ComponentDecl.rename_rename, AnnotationUse.rename_rename,
    Nesting.rename_rename, Function.comp_def]

end Declarations

end ClassCatalog
