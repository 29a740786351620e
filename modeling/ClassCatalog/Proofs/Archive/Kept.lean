import ClassCatalog.Archive.Item

/-! What each version of the archive format keeps of a class. -/

namespace ClassCatalog

def AnnotationUse.isInComponent (a : AnnotationUse String) : Bool :=
  match a.target.map Target.belongsTo with
  | some (.component ..) => true
  | _ => false

def MethodDecl.withoutDetails (m : MethodDecl String) : MethodDecl String :=
  { m with parameterNames := [], default := none }

def ClassDecl.withoutDetails (c : ClassDecl String) : ClassDecl String :=
  { c with
    methods := c.methods.map MethodDecl.withoutDetails
    nesting := .topLevel
    hasNoArgsConstructor := false }

def ClassDecl.withoutComponents (c : ClassDecl String) : ClassDecl String :=
  { c with
    components := []
    annotations := c.annotations.filter fun a => !a.isInComponent }

namespace Archive.Version

def keepMethod : Version → MethodDecl String → MethodDecl String
  | v1, m | v2, m => m.withoutDetails
  | v3, m => m

def keep : Version → ClassDecl String → ClassDecl String
  | v1, c => c.withoutDetails.withoutComponents
  | v2, c => c.withoutDetails
  | v3, c => c

def holdsRef (v : Version) : DeclRef String → Bool
  | .component .. => v.hasComponents
  | .type _ | .field .. | .method .. => true

variable (v : Version)

theorem holds_iff (a : AnnotationUse String) :
    v.holds a = true ↔ ∀ t ∈ a.target, v.holdsRef t.belongsTo = true := by
  obtain ⟨name, visible, target, members⟩ := a
  cases target with
  | none => simp [holds]
  | some t => cases h : t.belongsTo <;> simp [holds, holdsRef, h]

theorem keepMethod_eq (m : MethodDecl String) :
    v.keepMethod m = ⟨m.name, m.flags, m.typeParameters, m.parameters, m.returnType,
      m.exceptions, if v.hasDetails then m.parameterNames else [],
      if v.hasDetails then m.default else none⟩ := by
  cases v <;> rfl

theorem filter_holds (c : ClassDecl String) :
    c.annotations.filter v.holds = (v.keep c).annotations := by
  have hv1 : v1.holds = fun a => !a.isInComponent := by
    funext a
    unfold holds AnnotationUse.isInComponent
    cases a.target.map Target.belongsTo with
    | none => rfl
    | some d => cases d <;> rfl
  cases v with
  | v1 =>
    rw [hv1]
    rfl
  | v2 | v3 => exact List.filter_eq_self.2 fun a _ => rfl

theorem keep_eq (c : ClassDecl String) :
    v.keep c = ⟨c.name, c.flags, c.superName, c.superType, c.interfaces, c.typeParameters,
      c.fields, c.methods.map v.keepMethod, if v.hasComponents then c.components else [],
      c.annotations.filter v.holds, if v.hasDetails then c.nesting else .topLevel,
      if v.hasDetails then c.hasNoArgsConstructor else false⟩ := by
  rw [filter_holds]
  cases v with
  | v1 | v2 => rfl
  | v3 =>
    have hmethods : c.methods.map v3.keepMethod = c.methods := List.map_id' c.methods
    rw [hmethods]
    rfl

theorem keep_name (c : ClassDecl String) : (v.keep c).name = c.name := by cases v <;> rfl

end Archive.Version

end ClassCatalog
