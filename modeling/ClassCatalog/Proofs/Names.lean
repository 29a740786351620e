import Mathlib.Tactic.Choose
import ClassCatalog.Interned

/-! The names of a class in the order in which an action is given them. Whatever the action keeps
and answers, it is given the same names, so what it leaves is a fold over them. -/

namespace ClassCatalog

variable {α β σ ν X : Type}

/-- What `p` leaves is what `name` leaves when it is given `xs` one after another. -/
def Visits (name : α → StateM σ ν) (xs : List α) (p : StateM σ β) : Prop :=
  ∀ s, (p.run s).2 = xs.foldl (fun s x => ((name x).run s).2) s

namespace Visits

variable {name : α → StateM σ ν} {xs ys : List α}

theorem pure (b : β) : Visits name [] (Pure.pure b) := fun _ => rfl

theorem one (x : α) : Visits name [x] (name x) := fun _ => rfl

theorem bind {γ : Type} {p : StateM σ β} {f : β → StateM σ γ} (hp : Visits name xs p)
    (hf : ∀ b, Visits name ys (f b)) : Visits name (xs ++ ys) (p >>= f) := by
  intro s
  have hrun : ((p >>= f).run s).2 = ((f (p.run s).1).run (p.run s).2).2 := rfl
  rw [hrun, hf, hp, List.foldl_append]

theorem mapM {p : X → StateM σ β} {names : X → List α} (h : ∀ x, Visits name (names x) (p x))
    (xs : List X) : Visits name (xs.flatMap names) (xs.mapM p) := by
  induction xs with
  | nil => exact pure []
  | cons x xs ih =>
    rw [List.mapM_cons, List.flatMap_cons, ← List.append_nil (xs.flatMap names)]
    exact (h x).bind fun _ => ih.bind fun _ => pure _

end Visits

/-- `walk` gives every action the same names. -/
def Walks {Y : Type → Type} (walk : ∀ σ ν : Type, (α → StateM σ ν) → StateM σ (Y ν)) : Prop :=
  ∃ xs : List α, ∀ (σ ν : Type) (name : α → StateM σ ν), Visits name xs (walk σ ν name)

namespace Walks

theorem one (x : α) : Walks fun σ ν (name : α → StateM σ ν) => name x :=
  ⟨[x], fun _ _ _ => .one x⟩

variable {Y : Type → Type} {w : X → ∀ σ ν : Type, (α → StateM σ ν) → StateM σ (Y ν)}

theorem mapM (xs : List X) (h : ∀ x, Walks (w x)) :
    Walks fun σ ν name => xs.mapM fun x => w x σ ν name := by
  choose names hnames using h
  exact ⟨xs.flatMap names, fun σ ν name => .mapM (fun x => hnames x σ ν name) xs⟩

theorem optionMapM (x : Option X) (h : ∀ x, Walks (w x)) :
    Walks fun σ ν name => x.mapM fun x => w x σ ν name := by
  cases x with
  | none => exact ⟨[], fun σ ν name => .pure none⟩
  | some x =>
    obtain ⟨as, has⟩ := h x
    exact ⟨as ++ [], fun σ ν name => (has σ ν name).bind fun _ => .pure _⟩

end Walks

mutual

theorem Ty.walks (t : Ty α) : Walks fun σ ν (name : α → StateM σ ν) => t.mapNames name := by
  cases t with
  | primitive | void | wildcard => exact ⟨[], fun σ ν name => .pure _⟩
  | named n | typeVariable n | unresolved n =>
    exact ⟨_, fun σ ν name => (Visits.one n).bind fun _ => .pure _⟩
  | array _ t | bounded _ t =>
    obtain ⟨as, has⟩ := t.walks
    exact ⟨_, fun σ ν name => (has σ ν name).bind fun _ => .pure _⟩
  | parameterized n ts | typeParameter n _ ts =>
    obtain ⟨as, has⟩ := Ty.walks_list ts
    exact ⟨_, fun σ ν name => (Visits.one n).bind fun _ =>
      (has σ ν name).bind fun _ => .pure _⟩
  | inner o n ts =>
    obtain ⟨as, has⟩ := o.walks
    obtain ⟨bs, hbs⟩ := Ty.walks_list ts
    exact ⟨_, fun σ ν name => (has σ ν name).bind fun _ => (Visits.one n).bind fun _ =>
      (hbs σ ν name).bind fun _ => .pure _⟩

theorem Ty.walks_list (ts : List (Ty α)) :
    Walks fun σ ν (name : α → StateM σ ν) => Ty.listMapNames name ts := by
  cases ts with
  | nil => exact ⟨[], fun σ ν name => .pure _⟩
  | cons t ts =>
    obtain ⟨as, has⟩ := t.walks
    obtain ⟨bs, hbs⟩ := Ty.walks_list ts
    exact ⟨_, fun σ ν name => (has σ ν name).bind fun _ =>
      (hbs σ ν name).bind fun _ => .pure _⟩

end

mutual

theorem Value.walks (v : Value α) :
    Walks fun σ ν (name : α → StateM σ ν) => v.mapNames name := by
  cases v with
  | byte | char | short | int | long | float | double | boolean =>
    exact ⟨[], fun σ ν name => .pure _⟩
  | string text => exact ⟨_, fun σ ν name => (Visits.one text).bind fun _ => .pure _⟩
  | classLiteral t =>
    obtain ⟨as, has⟩ := t.walks
    exact ⟨_, fun σ ν name => (has σ ν name).bind fun _ => .pure _⟩
  | enumConstant t c =>
    exact ⟨_, fun σ ν name => (Visits.one t).bind fun _ => (Visits.one c).bind fun _ => .pure _⟩
  | nested n _ members =>
    obtain ⟨as, has⟩ := Value.walks_members members
    exact ⟨_, fun σ ν name => (Visits.one n).bind fun _ =>
      (has σ ν name).bind fun _ => .pure _⟩
  | array elements =>
    obtain ⟨as, has⟩ := Value.walks_elements elements
    exact ⟨_, fun σ ν name => (has σ ν name).bind fun _ => .pure _⟩

theorem Value.walks_members (members : List (α × Value α)) :
    Walks fun σ ν (name : α → StateM σ ν) => Value.membersMapNames name members := by
  match members with
  | [] => exact ⟨[], fun σ ν name => .pure _⟩
  | (n, v) :: rest =>
    obtain ⟨as, has⟩ := v.walks
    obtain ⟨bs, hbs⟩ := Value.walks_members rest
    exact ⟨_, fun σ ν name => (Visits.one n).bind fun _ => (has σ ν name).bind fun _ =>
      (hbs σ ν name).bind fun _ => .pure _⟩

theorem Value.walks_elements (elements : List (Value α)) :
    Walks fun σ ν (name : α → StateM σ ν) => Value.elementsMapNames name elements := by
  cases elements with
  | nil => exact ⟨[], fun σ ν name => .pure _⟩
  | cons v rest =>
    obtain ⟨as, has⟩ := v.walks
    obtain ⟨bs, hbs⟩ := Value.walks_elements rest
    exact ⟨_, fun σ ν name => (has σ ν name).bind fun _ =>
      (hbs σ ν name).bind fun _ => .pure _⟩

end

theorem DeclRef.walks (d : DeclRef α) :
    Walks fun σ ν (name : α → StateM σ ν) => d.mapNames name := by
  cases d with
  | type c | method c _ => exact ⟨_, fun σ ν name => (Visits.one c).bind fun _ => .pure _⟩
  | field c n | component c n =>
    exact ⟨_, fun σ ν name => (Visits.one c).bind fun _ => (Visits.one n).bind fun _ => .pure _⟩

theorem Target.walks (t : Target α) :
    Walks fun σ ν (name : α → StateM σ ν) => t.mapNames name := by
  cases t with
  | declaration d =>
    obtain ⟨as, has⟩ := d.walks
    exact ⟨_, fun σ ν name => (has σ ν name).bind fun _ => .pure _⟩
  | parameter c _ _ => exact ⟨_, fun σ ν name => (Visits.one c).bind fun _ => .pure _⟩
  | typeUse t =>
    obtain ⟨as, has⟩ := t.enclosing.walks
    obtain ⟨bs, hbs⟩ := t.ty.walks
    exact ⟨_, fun σ ν name => (has σ ν name).bind fun _ =>
      (hbs σ ν name).bind fun _ => .pure _⟩

theorem AnnotationUse.walks (a : AnnotationUse α) :
    Walks fun σ ν (name : α → StateM σ ν) => a.mapNames name := by
  obtain ⟨as, has⟩ := Walks.optionMapM a.target Target.walks
  obtain ⟨bs, hbs⟩ := Value.walks_members a.members
  exact ⟨_, fun σ ν name => (Visits.one a.name).bind fun _ => (has σ ν name).bind fun _ =>
    (hbs σ ν name).bind fun _ => .pure _⟩

theorem FieldDecl.walks (d : FieldDecl α) :
    Walks fun σ ν (name : α → StateM σ ν) => d.mapNames name := by
  obtain ⟨as, has⟩ := d.ty.walks
  exact ⟨_, fun σ ν name => (Visits.one d.name).bind fun _ =>
    (has σ ν name).bind fun _ => .pure _⟩

theorem MethodDecl.walks (d : MethodDecl α) :
    Walks fun σ ν (name : α → StateM σ ν) => d.mapNames name := by
  obtain ⟨typeParameters, htypeParameters⟩ := Ty.walks_list d.typeParameters
  obtain ⟨parameters, hparameters⟩ := Ty.walks_list d.parameters
  obtain ⟨returnType, hreturnType⟩ := d.returnType.walks
  obtain ⟨exceptions, hexceptions⟩ := Ty.walks_list d.exceptions
  obtain ⟨parameterNames, hparameterNames⟩ :=
    Walks.mapM d.parameterNames fun n => Walks.optionMapM n Walks.one
  obtain ⟨default, hdefault⟩ := Walks.optionMapM d.default Value.walks
  exact ⟨_, fun σ ν name => (Visits.one d.name).bind fun _ =>
    (htypeParameters σ ν name).bind fun _ => (hparameters σ ν name).bind fun _ =>
    (hreturnType σ ν name).bind fun _ => (hexceptions σ ν name).bind fun _ =>
    (hparameterNames σ ν name).bind fun _ => (hdefault σ ν name).bind fun _ => .pure _⟩

theorem ComponentDecl.walks (d : ComponentDecl α) :
    Walks fun σ ν (name : α → StateM σ ν) => d.mapNames name := by
  obtain ⟨as, has⟩ := d.ty.walks
  exact ⟨_, fun σ ν name => (Visits.one d.name).bind fun _ =>
    (has σ ν name).bind fun _ => .pure _⟩

theorem EnclosingMethod.walks (e : EnclosingMethod α) :
    Walks fun σ ν (name : α → StateM σ ν) => e.mapNames name :=
  ⟨_, fun _ _ _ => (Visits.one e.owner).bind fun _ => (Visits.one e.name).bind fun _ =>
    (Visits.one e.descriptor).bind fun _ => .pure _⟩

theorem Nesting.walks (n : Nesting α) :
    Walks fun σ ν (name : α → StateM σ ν) => n.mapNames name := by
  obtain ⟨as, has⟩ := Walks.optionMapM n.enclosingClass Walks.one
  obtain ⟨bs, hbs⟩ := Walks.optionMapM n.simpleName Walks.one
  obtain ⟨cs, hcs⟩ := Walks.optionMapM n.enclosingMethod EnclosingMethod.walks
  exact ⟨_, fun σ ν name => (has σ ν name).bind fun _ => (hbs σ ν name).bind fun _ =>
    (hcs σ ν name).bind fun _ => .pure _⟩

theorem ClassDecl.walks (c : ClassDecl α) :
    Walks fun σ ν (name : α → StateM σ ν) => c.mapNames name := by
  obtain ⟨superName, hsuperName⟩ := Walks.optionMapM c.superName Walks.one
  obtain ⟨superType, hsuperType⟩ := Walks.optionMapM c.superType Ty.walks
  obtain ⟨interfaces, hinterfaces⟩ := Ty.walks_list c.interfaces
  obtain ⟨typeParameters, htypeParameters⟩ := Ty.walks_list c.typeParameters
  obtain ⟨fields, hfields⟩ := Walks.mapM c.fields FieldDecl.walks
  obtain ⟨methods, hmethods⟩ := Walks.mapM c.methods MethodDecl.walks
  obtain ⟨components, hcomponents⟩ := Walks.mapM c.components ComponentDecl.walks
  obtain ⟨annotations, hannotations⟩ := Walks.mapM c.annotations AnnotationUse.walks
  obtain ⟨nesting, hnesting⟩ := c.nesting.walks
  exact ⟨_, fun σ ν name => (Visits.one c.name).bind fun _ =>
    (hsuperName σ ν name).bind fun _ => (hsuperType σ ν name).bind fun _ =>
    (hinterfaces σ ν name).bind fun _ => (htypeParameters σ ν name).bind fun _ =>
    (hfields σ ν name).bind fun _ => (hmethods σ ν name).bind fun _ =>
    (hcomponents σ ν name).bind fun _ => (hannotations σ ν name).bind fun _ =>
    (hnesting σ ν name).bind fun _ => .pure _⟩

namespace ClassFile

theorem Supertypes.walks (s : Supertypes α) :
    Walks fun σ ν (name : α → StateM σ ν) => s.mapNames name := by
  obtain ⟨as, has⟩ := Ty.walks_list s.typeParameters
  obtain ⟨bs, hbs⟩ := Walks.optionMapM s.superType Ty.walks
  obtain ⟨cs, hcs⟩ := Ty.walks_list s.interfaces
  exact ⟨_, fun σ ν name => (has σ ν name).bind fun _ => (hbs σ ν name).bind fun _ =>
    (hcs σ ν name).bind fun _ => .pure _⟩

theorem MethodSignature.walks (s : MethodSignature α) :
    Walks fun σ ν (name : α → StateM σ ν) => s.mapNames name := by
  obtain ⟨as, has⟩ := Ty.walks_list s.typeParameters
  obtain ⟨bs, hbs⟩ := Ty.walks_list s.parameters
  obtain ⟨cs, hcs⟩ := s.returnType.walks
  obtain ⟨ds, hds⟩ := Ty.walks_list s.exceptions
  exact ⟨_, fun σ ν name => (has σ ν name).bind fun _ => (hbs σ ν name).bind fun _ =>
    (hcs σ ν name).bind fun _ => (hds σ ν name).bind fun _ => .pure _⟩

theorem MethodDraft.walks (d : MethodDraft α) :
    Walks fun σ ν (name : α → StateM σ ν) => d.mapNames name := by
  obtain ⟨types, htypes⟩ := d.types.walks
  obtain ⟨parameterNames, hparameterNames⟩ :=
    Walks.mapM d.parameterNames fun n => Walks.optionMapM n Walks.one
  obtain ⟨default, hdefault⟩ := Walks.optionMapM d.default Value.walks
  obtain ⟨erased, herased⟩ := Ty.walks_list d.erased
  exact ⟨_, fun σ ν name => (Visits.one d.name).bind fun _ => (htypes σ ν name).bind fun _ =>
    (hparameterNames σ ν name).bind fun _ => (hdefault σ ν name).bind fun _ =>
    (herased σ ν name).bind fun _ => .pure _⟩

theorem PendingTypeUse.walks (p : PendingTypeUse α) :
    Walks fun σ ν (name : α → StateM σ ν) => p.mapNames name := by
  obtain ⟨as, has⟩ := p.enclosing.walks
  obtain ⟨bs, hbs⟩ := p.entry.body.walks
  exact ⟨_, fun σ ν name => (has σ ν name).bind fun _ =>
    ((hbs σ ν name).bind fun _ => .pure _).bind fun _ => .pure _⟩

theorem Draft.walks (d : Draft α) :
    Walks fun σ ν (name : α → StateM σ ν) => d.mapNames name := by
  obtain ⟨superName, hsuperName⟩ := Walks.optionMapM d.superName Walks.one
  obtain ⟨types, htypes⟩ := d.types.walks
  obtain ⟨fields, hfields⟩ := Walks.mapM d.fields FieldDecl.walks
  obtain ⟨methods, hmethods⟩ := Walks.mapM d.methods MethodDraft.walks
  obtain ⟨components, hcomponents⟩ := Walks.mapM d.components ComponentDecl.walks
  obtain ⟨annotations, hannotations⟩ := Walks.mapM d.annotations AnnotationUse.walks
  obtain ⟨typeUses, htypeUses⟩ := Walks.mapM d.typeUses PendingTypeUse.walks
  obtain ⟨nesting, hnesting⟩ := d.nesting.walks
  exact ⟨_, fun σ ν name => (Visits.one d.name).bind fun _ =>
    (hsuperName σ ν name).bind fun _ => (htypes σ ν name).bind fun _ =>
    (hfields σ ν name).bind fun _ => (hmethods σ ν name).bind fun _ =>
    (hcomponents σ ν name).bind fun _ => (hannotations σ ν name).bind fun _ =>
    (htypeUses σ ν name).bind fun _ => (hnesting σ ν name).bind fun _ => .pure _⟩

end ClassFile

def note (x : α) : StateM (List α) Unit := modify (· ++ [x])

theorem foldl_note (xs ys : List α) : xs.foldl (fun s x => ((note x).run s).2) ys = ys ++ xs := by
  induction xs generalizing ys with
  | nil => exact (List.append_nil ys).symm
  | cons x xs ih => exact (ih _).trans (List.append_cons ys x xs).symm

theorem Walks.visits {Y : Type → Type} {walk : ∀ σ ν : Type, (α → StateM σ ν) → StateM σ (Y ν)}
    (h : Walks walk) (name : α → StateM σ ν) :
    Visits name ((walk (List α) Unit note).run []).2 (walk σ ν name) := by
  obtain ⟨xs, hxs⟩ := h
  rw [hxs, foldl_note]
  exact hxs σ ν name

def ClassDecl.names (c : ClassDecl α) : List α := ((c.mapNames note).run []).2

def ClassFile.Draft.names (d : Draft α) : List α := ((d.mapNames note).run []).2

theorem ClassDecl.visits_names (c : ClassDecl α) (name : α → StateM σ ν) :
    Visits name c.names (c.mapNames name) :=
  c.walks.visits name

theorem ClassFile.Draft.visits_names (d : Draft α) (name : α → StateM σ ν) :
    Visits name d.names (d.mapNames name) :=
  d.walks.visits name

end ClassCatalog
