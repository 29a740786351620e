import ClassCatalog.ClassFile.Decode
import ClassCatalog.Proofs.ClassFile.DescriptorGrammar
import ClassCatalog.Proofs.ClassFile.SignatureRuns

/-! Descriptors are signatures too. A class name may hold characters that only signatures give a
meaning; where there are none, a signature that repeats the descriptor says the same. -/

namespace ClassCatalog.ClassFile

namespace Descriptor

open Signature (Reads)

/-- The name holds no character with which signatures begin arguments or a member class. -/
def ClassName.IsPlain (name : ClassName) : Prop := '<' ∉ name.chars ∧ '.' ∉ name.chars

def Base.classNames : Base → List ClassName
  | primitive _ => []
  | named name => [name]

def FieldForm.classNames (f : FieldForm) : List ClassName := f.base.classNames

def MethodForm.classNames (m : MethodForm) : List ClassName :=
  (m.parameters ++ m.result.toList).flatMap FieldForm.classNames

theorem FieldForm.chars_subset {f : FieldForm} {name : ClassName} (h : name ∈ f.classNames) :
    name.chars ⊆ f.chars := by
  intro c hc
  obtain ⟨dimensions, hle, base⟩ := f
  cases base with
  | primitive p => cases h
  | named other =>
    obtain rfl : name = other := List.mem_singleton.1 h
    simp [FieldForm.chars, Base.chars, hc]

theorem MethodForm.chars_subset {m : MethodForm} {name : ClassName} (h : name ∈ m.classNames) :
    name.chars ⊆ m.chars := by
  obtain ⟨f, hf, hname⟩ := List.mem_flatMap.1 h
  have hfield := FieldForm.chars_subset hname
  intro c hc
  rcases List.mem_append.1 hf with hparameter | hresult
  · have hparameters : c ∈ m.parameters.flatMap FieldForm.chars :=
      List.mem_flatMap.2 ⟨f, hparameter, hfield hc⟩
    simp [MethodForm.chars, hparameters]
  · have hchars : resultChars m.result = f.chars := by
      rw [Option.mem_toList.1 hresult]
      rfl
    simp [MethodForm.chars, hchars, hfield hc]

theorem ClassName.IsPlain.clean {name : ClassName} (h : name.IsPlain) :
    ∀ c ∈ name.chars, c ∉ ['<', '.', ';'] := by
  intro c hc hmem
  simp only [List.mem_cons, List.not_mem_nil, or_false] at hmem
  rcases hmem with rfl | rfl | rfl
  · exact h.1 hc
  · exact h.2 hc
  · exact name.no_semicolon hc

theorem Base.reads_named {name : ClassName} (h : name.IsPlain) (levels : Nat) (back : List Char) :
    Reads (Signature.referenceType (levels + 1)) (Base.named name).chars back
      (Base.named name).ty :=
  Reads.peeked (Signature.reads_peek _)
    (Signature.reads_classType_name _ name.ne_nil h.clean back)

theorem Base.reads_javaType (b : Base) (h : ∀ name ∈ b.classNames, name.IsPlain) (levels : Nat)
    (back : List Char) :
    Reads (Signature.javaType (Signature.referenceType (levels + 1))) b.chars back b.ty := by
  cases b with
  | primitive p => exact Signature.reads_javaType_primitive _ p back
  | named name =>
    have hplain : name.IsPlain := h name (by simp [classNames])
    exact Signature.reads_javaType_reference rfl (Base.reads_named hplain levels back)

namespace FieldForm

theorem reads_array {f : FieldForm} (h : ∀ name ∈ f.classNames, name.IsPlain)
    (hdimensions : f.dimensions ≠ 0) (levels : Nat) (back : List Char) :
    Reads (Signature.referenceType (levels + 2)) f.chars back f.ty := by
  have hhead : (f.base.chars ++ back).head? ≠ some '[' := by
    obtain ⟨c, tail, hchars, hc⟩ := f.base.chars_eq_cons
    refine Signature.head?_append_ne hchars ?_
    rintro rfl
    simp at hc
  rw [chars, ty, if_neg hdimensions]
  exact Signature.reads_referenceType_array (Nat.one_le_iff_ne_zero.2 hdimensions) f.dimensions_le
    hhead (f.base.arrayOf_ty _) (f.base.reads_javaType h levels back)

theorem eq_base_of_flat {f : FieldForm} (h : f.dimensions = 0) :
    f.chars = f.base.chars ∧ f.ty = f.base.ty := by
  rw [chars, ty, h, if_pos rfl]
  exact ⟨rfl, rfl⟩

theorem reads_javaType {f : FieldForm} (h : ∀ name ∈ f.classNames, name.IsPlain)
    (back : List Char) : Reads (Signature.javaType Signature.reference) f.chars back f.ty := by
  by_cases hdimensions : f.dimensions = 0
  · rw [(eq_base_of_flat hdimensions).1, (eq_base_of_flat hdimensions).2]
    exact f.base.reads_javaType h 255 back
  · refine Signature.reads_javaType_reference ?_ (reads_array h hdimensions 254 back)
    obtain ⟨tail, htail⟩ :=
      Signature.replicate_append_eq_cons (Nat.one_le_iff_ne_zero.2 hdimensions) f.base.chars
    rw [chars, htail]
    rfl

theorem reads_reference {f : FieldForm} (h : ∀ name ∈ f.classNames, name.IsPlain)
    (hprimitive : ∀ p, f.ty ≠ .primitive p) (back : List Char) :
    Reads Signature.reference f.chars back f.ty := by
  by_cases hdimensions : f.dimensions = 0
  · obtain ⟨hchars, hty⟩ := eq_base_of_flat hdimensions
    rw [hchars, hty]
    cases hbase : f.base with
    | primitive p =>
      refine (hprimitive p ?_).elim
      rw [hty, hbase]
      rfl
    | named name =>
      have hplain : name.IsPlain := h name (by simp [classNames, hbase, Base.classNames])
      exact Base.reads_named hplain 255 back
  · exact reads_array h hdimensions 254 back

theorem bindIn_ty (scope : List String) (f : FieldForm) : f.ty.bindIn scope = f.ty := by
  have hbase : f.base.ty.bindIn scope = f.base.ty := by
    cases f.base <;> rfl
  rw [ty]
  split
  · exact hbase
  · rw [Ty.bindIn, hbase]

theorem run_fieldBody {f : FieldForm} (h : ∀ name ∈ f.classNames, name.IsPlain)
    (hprimitive : ∀ p, f.ty ≠ .primitive p) :
    Signature.run Signature.fieldBody f.text = .ok f.ty :=
  Signature.run_of_reads (Reads.last (reads_reference h hprimitive [])
    (Reads.last Signature.reads_finish (Reads.pure _ [])))

end FieldForm

namespace MethodForm

theorem run_methodBody {m : MethodForm} (h : ∀ name ∈ m.classNames, name.IsPlain) :
    Signature.run Signature.methodBody m.text = .ok ⟨[], m.types.1, m.types.2, []⟩ := by
  have hparts : ∀ f ∈ m.parameters ++ m.result.toList, ∀ name ∈ f.classNames, name.IsPlain :=
    fun f hf name hname => h name (List.mem_flatMap.2 ⟨f, hf, hname⟩)
  obtain ⟨hparameters, hresult⟩ := List.forall_mem_append.1 hparts
  -- Type parameters and thrown types are absent, and neither `<` nor `^` stands in their place.
  have htypeParameters (back : List Char) :
      Reads (Signature.typeParameters Signature.reference) [] ('(' :: back) [] :=
    Reads.uneaten (by simp) (Reads.pure [] _)
  have hupTo (back : List Char) :
      Reads (Signature.Parser.upTo ')' (Signature.javaType Signature.reference))
        (m.parameters.flatMap FieldForm.chars ++ [')']) back m.types.1 := by
    refine Signature.reads_upTo
      (fun f hf tail (_ : True) => FieldForm.reads_javaType (hparameters f hf) tail) ?_
      (fun _ _ _ => trivial) (fun _ => trivial) back
    intro f _
    obtain ⟨c, tail, hchars, hparen, _⟩ := f.chars_eq_cons
    exact ⟨c, tail, hchars, hparen⟩
  have hreturn : (resultChars m.result = ['V'] ∧ resultTy m.result = .void)
      ∨ ((resultChars m.result ++ []).head? ≠ some 'V'
        ∧ Reads (Signature.javaType Signature.reference) (resultChars m.result) []
          (resultTy m.result)) := by
    cases hcase : m.result with
    | none => exact .inl ⟨rfl, rfl⟩
    | some f =>
      obtain ⟨c, tail, hchars, _, hvoid⟩ := f.chars_eq_cons
      exact .inr ⟨Signature.head?_append_ne hchars hvoid,
        FieldForm.reads_javaType (hresult f (by simp [hcase])) []⟩
  have hthrown : Reads (Signature.Parser.repeatWhile (Signature.Parser.eat '^')
      Signature.thrownType) [] [] [] := fun start => ⟨start, rfl⟩
  have hbody := Signature.reads_methodBody (htypeParameters _) (hupTo _) hreturn hthrown
  rw [List.append_nil, List.append_assoc] at hbody
  exact Signature.run_of_reads hbody

theorem bindIn_types (scope : List String) (m : MethodForm) :
    Ty.listBindIn scope m.types.1 = m.types.1 ∧ m.types.2.bindIn scope = m.types.2 := by
  constructor
  · rw [Ty.listBindIn_eq_map, types, List.map_map]
    exact List.map_congr_left fun f _ => f.bindIn_ty scope
  · cases hcase : m.result with
    | none =>
      rw [types, hcase]
      rfl
    | some f =>
      rw [types, hcase]
      exact f.bindIn_ty scope

end MethodForm

end Descriptor

open Descriptor (FieldForm MethodForm ClassName)

/-- A signature that repeats a descriptor gives the types of the descriptor, so that a member has
the same types with it and without it. -/
theorem signature_repeats_descriptor (classScope : List String) :
    (∀ d ps r, Descriptor.parseMethod d = .ok (ps, r) →
      (∀ m : MethodForm, d = m.text → ∀ name ∈ m.classNames, name.IsPlain) →
      Signature.parseMethod classScope d = .ok ⟨[], ps, r, []⟩
      ∧ ∀ thrown, Context.methodTypes (some d) (ps, r) thrown
        = Context.methodTypes none (ps, r) thrown)
    ∧ (∀ d t, Descriptor.parseField d = .ok t → (∀ p, t ≠ .primitive p) →
      (∀ f : FieldForm, d = f.text → ∀ name ∈ f.classNames, name.IsPlain) →
      Signature.parseField classScope d = .ok t
      ∧ ∀ bodies, Attributes.variableType ⟨some d, bodies⟩ d
        = Attributes.variableType ⟨none, bodies⟩ d) := by
  constructor
  · intro d ps r h hplain
    obtain ⟨m, rfl, htypes⟩ := (Descriptor.parseMethod_eq_ok_iff d _).1 h
    obtain ⟨rfl, rfl⟩ := Prod.mk.inj htypes
    have hrun := MethodForm.run_methodBody (hplain m rfl)
    obtain ⟨hparameters, hresult⟩ := m.bindIn_types classScope
    constructor
    · rw [Signature.parseMethod, hrun]
      have hbound : (⟨[], m.types.1, m.types.2, []⟩ : MethodSignature String).boundIn classScope
          = ⟨[], m.types.1, m.types.2, []⟩ := by
        simp only [MethodSignature.boundIn, MethodSignature.scope, Ty.declaredNames,
          List.filterMap_nil, List.nil_append, hparameters, hresult, Ty.listBindIn]
      exact congrArg Except.ok hbound
    · intro thrown
      have hsignature : Context.methodTypes (some m.text) m.types thrown = (do
          let s ← Signature.run Signature.methodBody m.text
          return { s with exceptions := if s.exceptions.isEmpty then thrown else s.exceptions }) :=
        rfl
      refine hsignature.trans ?_
      rw [hrun]
      rfl
  · intro d t h hprimitive hplain
    obtain ⟨f, rfl, rfl⟩ := (Descriptor.parseField_eq_ok_iff d t).1 h
    have hrun := FieldForm.run_fieldBody (hplain f rfl) hprimitive
    constructor
    · rw [Signature.parseField, hrun]
      exact congrArg Except.ok (f.bindIn_ty classScope)
    · intro bodies
      exact hrun.trans h.symm

theorem signature_repeats_descriptor_oddNames :
    Descriptor.parseMethod "(L);[[La/b:;J)[Z"
        = .ok ([.named ")", .array 2 (.named "a.b:"), .primitive .long],
          .array 1 (.primitive .boolean))
    ∧ Signature.parseMethod ["T"] "(L);[[La/b:;J)[Z"
        = .ok ⟨[], [.named ")", .array 2 (.named "a.b:"), .primitive .long],
          .array 1 (.primitive .boolean), []⟩
    ∧ Descriptor.parseField "[La/>;" = .ok (.array 1 (.named "a.>"))
    ∧ Signature.parseField ["T"] "[La/>;" = .ok (.array 1 (.named "a.>")) := by
  have hmethod : Descriptor.parseMethod "(L);[[La/b:;J)[Z" = .ok ([.named ")",
      .array 2 (.named "a.b:"), .primitive .long], .array 1 (.primitive .boolean)) := by rfl
  have hfield : Descriptor.parseField "[La/>;" = .ok (.array 1 (.named "a.>")) := by rfl
  have hmethodNames : ∀ m : MethodForm, "(L);[[La/b:;J)[Z" = m.text →
      ∀ name ∈ m.classNames, name.IsPlain := by
    intro m hm name hname
    have hchars : m.chars = "(L);[[La/b:;J)[Z".toList := by
      rw [hm, MethodForm.text, String.toList_ofList]
    have hsubset := MethodForm.chars_subset hname
    rw [hchars] at hsubset
    exact ⟨fun hc => absurd (hsubset hc) (by decide), fun hc => absurd (hsubset hc) (by decide)⟩
  have hfieldNames : ∀ f : FieldForm, "[La/>;" = f.text →
      ∀ name ∈ f.classNames, name.IsPlain := by
    intro f hf name hname
    have hchars : f.chars = "[La/>;".toList := by
      rw [hf, FieldForm.text, String.toList_ofList]
    have hsubset := FieldForm.chars_subset hname
    rw [hchars] at hsubset
    exact ⟨fun hc => absurd (hsubset hc) (by decide), fun hc => absurd (hsubset hc) (by decide)⟩
  have hreference : ∀ p, (.array 1 (.named "a.>") : Ty String) ≠ .primitive p := by
    intro p heq
    cases heq
  obtain ⟨hmethods, hfields⟩ := signature_repeats_descriptor ["T"]
  exact ⟨hmethod, (hmethods _ _ _ hmethod hmethodNames).1, hfield,
    (hfields _ _ hfield hreference hfieldNames).1⟩

end ClassCatalog.ClassFile
