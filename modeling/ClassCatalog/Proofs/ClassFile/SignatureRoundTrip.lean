import ClassCatalog.Proofs.ClassFile.SignatureTypes

/-! The text of a class, method or field signature is read back as the types that it denotes. -/

namespace ClassCatalog.ClassFile.Signature

open Signature.Parser

theorem ReferenceForm.reads_reference (r : ReferenceForm)
    (h : r.levels ≤ Nested.signature.limit) (back : List Char) :
    Reads reference r.chars back (r.ty []) :=
  r.reads h back

theorem ClassForm.reads_classType (c : ClassForm) (h : c.levels ≤ Nested.signature.limit)
    (back : List Char) :
    Reads (classType reference) (NamedForm.classType c).chars back (c.ty []) := by
  rw [NamedForm.chars]
  exact (c.readBy h).reads back

namespace ParameterForm

theorem bindIn_ty (scope : List String) (p : ParameterForm) :
    (p.ty []).bindIn scope = p.ty scope := by
  rw [ty, ty, Ty.bindIn, listBindIn_map (ReferenceForm.bindIn_ty scope)]

theorem chars_eq_cons (p : ParameterForm) :
    ∃ c tail, p.chars = c :: tail ∧ c ≠ '>' ∧ c ≠ ':' := by
  obtain ⟨c, tail, hname⟩ := List.exists_cons_of_ne_nil p.name.ne_nil
  have hclean := p.name.clean c (by simp [hname])
  refine ⟨c, _, by rw [chars, hname, List.cons_append], ?_, ?_⟩
  · rintro rfl
    exact hclean (by simp)
  · rintro rfl
    exact hclean (by simp)

def readBounds (name : String) (hasClassBound : Bool) : Parser (Ty String) := do
  let classBound ← if hasClassBound then List.singleton <$> reference else pure []
  let others ← repeatWhile (eat ':') reference
  return .typeParameter name (!hasClassBound) (classBound ++ others)

theorem reads_readBounds (name : String) {classBound : Option ReferenceForm}
    {interfaceBounds : List ReferenceForm}
    (hclass : ∀ b ∈ classBound, b.levels ≤ Nested.signature.limit)
    (hinterfaces : ∀ b ∈ interfaceBounds, b.levels ≤ Nested.signature.limit)
    {back : List Char} (hback : back.head? ≠ some ':') :
    Reads (readBounds name classBound.isSome)
      (classBound.toList.flatMap ReferenceForm.chars
        ++ interfaceBounds.flatMap fun b => ':' :: b.chars) back
      (.typeParameter name classBound.isNone
        ((classBound.toList ++ interfaceBounds).map (ReferenceForm.ty []))) := by
  have hothers : Reads (repeatWhile (eat ':') reference)
      (interfaceBounds.flatMap fun b => ':' :: b.chars) back
      (interfaceBounds.map (ReferenceForm.ty [])) :=
    reads_marked (fun b hb tail => b.reads_reference (hinterfaces b hb) tail) hback
  cases classBound with
  | none => exact Reads.peeked (Reads.pure [] _) (Reads.last hothers (Reads.pure _ back))
  | some r =>
    have hsingle : Reads (List.singleton <$> reference) r.chars
        ((interfaceBounds.flatMap fun b => ':' :: b.chars) ++ back) [r.ty []] := by
      rw [← bind_pure_comp]
      exact Reads.last (r.reads_reference (hclass r rfl) _) (Reads.pure _ _)
    rw [Option.toList_some, List.flatMap_singleton]
    exact Reads.bind hsingle (Reads.last hothers (Reads.pure _ back))

/-- A class bound stands exactly if a reference type begins behind the first colon; else another
colon stands there. -/
theorem any_head?_bounds (p : ParameterForm) (back : List Char) :
    (((p.classBound.toList.flatMap ReferenceForm.chars
      ++ p.interfaceBounds.flatMap fun b => ':' :: b.chars) ++ back).head?).any
        (fun c => c = 'L' ∨ c = 'T' ∨ c = '[') = p.classBound.isSome := by
  cases hclass : p.classBound with
  | none =>
    have hne : p.interfaceBounds ≠ [] := p.is_bounded.resolve_left (by simp [hclass])
    obtain ⟨b, bs, hbs⟩ := List.exists_cons_of_ne_nil hne
    rw [hbs]
    rfl
  | some r =>
    obtain ⟨c, tail, hchars, hc⟩ := r.chars_eq_cons
    simpa [hchars] using hc

theorem reads (p : ParameterForm) (h : ∀ b ∈ p.bounds, b.levels ≤ Nested.signature.limit)
    {back : List Char} (hback : back.head? ≠ some ':') :
    Reads (typeParameter reference) p.chars back (p.ty []) := by
  have hname : ∀ c ∈ p.name.chars, c ∉ [':', '>', ';'] := by
    intro c hc hmem
    apply p.name.clean c hc
    simp only [List.mem_cons, List.not_mem_nil, or_false] at hmem ⊢
    rcases hmem with rfl | rfl | rfl <;> simp
  obtain ⟨hclass, hinterfaces⟩ := List.forall_mem_append.1 h
  have hbounds := reads_readBounds p.name.text (fun b hb => hclass b (by simpa using hb))
    hinterfaces hback
  rw [← p.any_head?_bounds back] at hbounds
  refine Reads.bind (reads_identifier p.name.ne_nil hname ⟨':', by simp, rfl⟩) ?_
  refine Reads.bind (reads_expect ':' _ _) ?_
  exact Reads.peeked (reads_peek _) hbounds

end ParameterForm

theorem declaredNames_map_ty (scope : List String) (ps : List ParameterForm) :
    Ty.declaredNames (ps.map (ParameterForm.ty scope)) = declared ps := by
  rw [Ty.declaredNames, List.filterMap_map, declared, ← List.filterMap_eq_map]
  rfl

theorem reads_typeParameters {ps : List ParameterForm}
    (h : ∀ p ∈ ps, ∀ b ∈ p.bounds, b.levels ≤ Nested.signature.limit) {back : List Char}
    (hback : back.head? ≠ some '<') :
    Reads (typeParameters reference) (parametersChars ps) back (ps.map (ParameterForm.ty [])) := by
  cases ps with
  | nil => exact Reads.uneaten hback (Reads.pure [] back)
  | cons p ps =>
    -- Bounds go on while colons stand there, so none may follow a parameter.
    have hfollow : ∀ q ∈ p :: ps, ∀ tail, (q.chars ++ tail).head? ≠ some ':' := by
      intro q _ tail
      obtain ⟨c, others, hchars, _, hcolon⟩ := q.chars_eq_cons
      exact head?_append_ne hchars hcolon
    have hclose : ∀ q ∈ p :: ps, ∃ c others, q.chars = c :: others ∧ c ≠ '>' := by
      intro q _
      obtain ⟨c, others, hchars, hangle, _⟩ := q.chars_eq_cons
      exact ⟨c, others, hchars, hangle⟩
    have hupTo : Reads (upTo '>' (typeParameter reference))
        ((p :: ps).flatMap ParameterForm.chars ++ ['>']) back
        ((p :: ps).map (ParameterForm.ty [])) :=
      reads_upTo (fun q hq tail (htail : tail.head? ≠ some ':') => q.reads (h q hq) htail)
        hclose hfollow (by simp) back
    obtain ⟨c, others, hchars, _⟩ := p.chars_eq_cons
    rw [parametersChars, bracketed_of_ne_nil (by simp [hchars])]
    exact Reads.eaten (Reads.last hupTo (Reads.pure _ back))

namespace ClassSignatureForm

def unboundTypes (s : ClassSignatureForm) : ClassSignature String where
  typeParameters := s.typeParameters.map (ParameterForm.ty [])
  superclass := s.superclass.ty []
  interfaces := s.interfaces.map (ClassForm.ty [])

theorem bound_unboundTypes (s : ClassSignatureForm) : s.unboundTypes.bound = s.types := by
  have hscope : s.unboundTypes.scope = declared s.typeParameters :=
    declaredNames_map_ty [] s.typeParameters
  rw [ClassSignature.bound, hscope]
  simp only [unboundTypes, types, ClassForm.bindIn_ty, listBindIn_map (ParameterForm.bindIn_ty _),
    listBindIn_map (ClassForm.bindIn_ty _)]

theorem reads (s : ClassSignatureForm) (h : s.WithinLimit) :
    Reads classBody (parametersChars s.typeParameters
      ++ (s.superclass :: s.interfaces).flatMap fun c => (NamedForm.classType c).chars) []
      s.unboundTypes := by
  have hinterfaces : Reads (repeatWhile (do return !(← atEnd)) (classType reference))
      (s.interfaces.flatMap fun c => (NamedForm.classType c).chars) []
      (s.interfaces.map (ClassForm.ty [])) :=
    reads_toEnd (fun c hc tail => c.reads_classType (h.interfaces c hc) tail)
      (fun c _ => by simp [NamedForm.chars])
  rw [List.flatMap_cons]
  refine Reads.bind (reads_typeParameters h.typeParameters (by simp [NamedForm.chars])) ?_
  refine Reads.bind (s.superclass.reads_classType h.superclass _) ?_
  exact Reads.last hinterfaces (Reads.pure _ [])

theorem parseClass_text (s : ClassSignatureForm) (h : s.WithinLimit) :
    parseClass s.text = .ok s.types := by
  rw [parseClass, text, run_of_reads (s.reads h), ← s.bound_unboundTypes]
  rfl

end ClassSignatureForm

namespace JavaForm

theorem bindIn_ty (scope : List String) (t : JavaForm) : (t.ty []).bindIn scope = t.ty scope := by
  cases t with
  | primitive p => rfl
  | reference type => exact type.bindIn_ty scope

theorem chars_eq_cons (t : JavaForm) : ∃ c tail, t.chars = c :: tail ∧ c ≠ ')' ∧ c ≠ 'V' := by
  cases t with
  | primitive p => exact ⟨p.letter, [], rfl, by cases p <;> decide, by cases p <;> decide⟩
  | reference type =>
    obtain ⟨c, tail, hchars, hc⟩ := type.chars_eq_cons
    refine ⟨c, tail, hchars, ?_, ?_⟩
    · rintro rfl
      simp at hc
    · rintro rfl
      simp at hc

theorem reads (t : JavaForm) (h : t.levels ≤ Nested.signature.limit) (back : List Char) :
    Reads (javaType Signature.reference) t.chars back (t.ty []) := by
  cases t with
  | primitive p => exact reads_javaType_primitive _ p back
  | reference type =>
    obtain ⟨c, tail, hchars, hc⟩ := type.chars_eq_cons
    refine reads_javaType_reference ?_ (type.reads_reference h back)
    rw [chars, hchars]
    simp only [List.mem_cons, List.not_mem_nil, or_false] at hc
    rcases hc with rfl | rfl | rfl <;> rfl

end JavaForm

theorem NamedForm.reads_thrownType (t : NamedForm) (h : t.levels ≤ Nested.signature.limit + 1)
    (back : List Char) : Reads thrownType t.chars back (t.ty []) := by
  cases t with
  | typeVariable name =>
    exact Reads.peeked (reads_peek _)
      (reads_typeVariable name.ne_nil (name.not_mem_chars (by simp)) back)
  | classType type =>
    exact Reads.peeked (reads_peek _) (type.reads_classType (Nat.le_of_succ_le_succ h) back)

namespace MethodSignatureForm

def unboundTypes (s : MethodSignatureForm) : MethodSignature String where
  typeParameters := s.typeParameters.map (ParameterForm.ty [])
  parameters := s.parameters.map (JavaForm.ty [])
  returnType := resultTy [] s.result
  exceptions := s.exceptions.map (NamedForm.ty [])

theorem bindIn_resultTy (scope : List String) (result : Option JavaForm) :
    (resultTy [] result).bindIn scope = resultTy scope result := by
  cases result with
  | none => rfl
  | some t => exact t.bindIn_ty scope

theorem boundIn_unboundTypes (classScope : List String) (s : MethodSignatureForm) :
    s.unboundTypes.boundIn classScope = s.types classScope := by
  have hscope : s.unboundTypes.scope classScope = s.scope classScope := by
    rw [MethodSignature.scope, unboundTypes, declaredNames_map_ty, scope]
  rw [MethodSignature.boundIn, hscope]
  simp only [unboundTypes, types, bindIn_resultTy, listBindIn_map (ParameterForm.bindIn_ty _),
    listBindIn_map (JavaForm.bindIn_ty _), listBindIn_map (NamedForm.bindIn_ty _)]

theorem reads (s : MethodSignatureForm) (h : s.WithinLimit) :
    Reads methodBody (parametersChars s.typeParameters
      ++ '(' :: (s.parameters.flatMap JavaForm.chars ++ ')' :: (resultChars s.result
      ++ s.exceptions.flatMap fun e => '^' :: e.chars))) [] s.unboundTypes := by
  have hparameters (back : List Char) : Reads (upTo ')' (javaType reference))
      (s.parameters.flatMap JavaForm.chars ++ [')']) back (s.parameters.map (JavaForm.ty [])) := by
    refine reads_upTo (fun t ht tail (_ : True) => t.reads (h.parameters t ht) tail) ?_
      (fun _ _ _ => trivial) (fun _ => trivial) back
    intro t _
    obtain ⟨c, tail, hchars, hparen, _⟩ := t.chars_eq_cons
    exact ⟨c, tail, hchars, hparen⟩
  have hresult (back : List Char) : (resultChars s.result = ['V'] ∧ resultTy [] s.result = .void)
      ∨ ((resultChars s.result ++ back).head? ≠ some 'V'
        ∧ Reads (javaType reference) (resultChars s.result) back (resultTy [] s.result)) := by
    cases hcase : s.result with
    | none => exact .inl ⟨rfl, rfl⟩
    | some t =>
      obtain ⟨c, tail, hchars, _, hvoid⟩ := t.chars_eq_cons
      exact .inr ⟨head?_append_ne hchars hvoid, t.reads (h.result t hcase) back⟩
  have hthrown : Reads (repeatWhile (eat '^') thrownType)
      (s.exceptions.flatMap fun e => '^' :: e.chars) [] (s.exceptions.map (NamedForm.ty [])) :=
    reads_marked (fun e he tail => e.reads_thrownType (h.exceptions e he) tail) (by simp)
  have hbody := reads_methodBody (reads_typeParameters h.typeParameters (by simp))
    (hparameters _) (hresult _) hthrown
  rwa [List.append_assoc, List.singleton_append] at hbody

theorem parseMethod_text (classScope : List String) (s : MethodSignatureForm) (h : s.WithinLimit) :
    parseMethod classScope s.text = .ok (s.types classScope) := by
  rw [parseMethod, text, run_of_reads (s.reads h), ← s.boundIn_unboundTypes]
  rfl

end MethodSignatureForm

theorem ReferenceForm.parseField_text (classScope : List String) (r : ReferenceForm)
    (h : r.levels ≤ Nested.signature.limit) :
    parseField classScope r.text = .ok (r.ty classScope) := by
  have hbody : Reads fieldBody r.chars [] (r.ty []) :=
    Reads.last (r.reads_reference h []) (Reads.last reads_finish (Reads.pure _ []))
  rw [parseField, text, run_of_reads hbody, ← r.bindIn_ty classScope]
  rfl

/-- Reading a signature undoes writing it. -/
theorem parse_text (classScope : List String) :
    (∀ s : ClassSignatureForm, s.WithinLimit → parseClass s.text = .ok s.types)
    ∧ (∀ s : MethodSignatureForm, s.WithinLimit →
      parseMethod classScope s.text = .ok (s.types classScope))
    ∧ ∀ r : ReferenceForm, r.levels ≤ Nested.signature.limit →
      parseField classScope r.text = .ok (r.ty classScope) :=
  ⟨fun s h => s.parseClass_text h, fun s h => s.parseMethod_text classScope h,
    fun r h => r.parseField_text classScope h⟩

def Identifier.single (c : Char) (h : c ∉ ['.', ';', '[', '/', '<', '>', ':'] := by decide) :
    Identifier :=
  ⟨[c], by simp, by simpa using h⟩

def Dimensions.of (count : Nat) (h : 1 ≤ count ∧ count ≤ 255 := by decide) : Dimensions :=
  ⟨count, h.1, h.2⟩

def forwardClass : ClassSignatureForm where
  typeParameters :=
    [⟨.single 'A', none, [.named (.classType (.outermost [.single 'p'] (.single 'C')
        [.exactly (.named (.typeVariable (.single 'B')))]))], .inr (by simp)⟩,
      ⟨.single 'B', some (.named (.classType (.outermost [] (.single 'D') []))), [], .inl rfl⟩]
  superclass := .member (.member (.outermost [.single 'q'] (.single 'O')
    [.exactly (.named (.typeVariable (.single 'A')))]) (.single 'I') []) (.single 'J') [.anything]
  interfaces := [.outermost [] (.single 'K')
    [.bounded true (.primitiveArray (.of 2) .int),
      .bounded false (.named (.typeVariable (.single 'X')))]]

def throwingMethod : MethodSignatureForm where
  typeParameters := [⟨.single 'E', some (.named (.classType (.outermost [] (.single 'D') []))), [],
    .inl rfl⟩]
  parameters := [.primitive .long, .reference (.array (.of 1)
    (.typeVariable (.single 'X')))]
  result := none
  exceptions := [.typeVariable (.single 'E'), .typeVariable (.single 'U'),
    .classType (.member (.outermost [] (.single 'O') []) (.single 'I') [.anything])]

def memberField : ReferenceForm :=
  .named (.classType (.member (.outermost [.single 'p'] (.single 'O') []) (.single 'I')
    [.exactly (.named (.typeVariable (.single 'X')))]))

theorem parse_text_samples :
    parseClass "<A::Lp/C<TB;>;B:LD;>Lq/O<TA;>.I.J<*>;LK<+[[I-TX;>;" = .ok
      ⟨[.typeParameter "A" true [.parameterized "p.C" [.typeVariable "B"]],
          .typeParameter "B" false [.named "D"]],
        .inner (.inner (.parameterized "q.O" [.typeVariable "A"]) "q.O$I" []) "q.O$I$J"
          [.wildcard true],
        [.parameterized "K" [.bounded true (.array 2 (.primitive .int)),
          .bounded false (.unresolved "X")]]⟩
    ∧ parseMethod ["X"] "<E:LD;>(J[TX;)V^TE;^TU;^LO.I<*>;" = .ok
      ⟨[.typeParameter "E" false [.named "D"]],
        [.primitive .long, .array 1 (.typeVariable "X")], .void,
        [.typeVariable "E", .unresolved "U", .parameterized "O$I" [.wildcard true]]⟩
    ∧ parseField ["X"] "Lp/O.I<TX;>;" = .ok (.parameterized "p.O$I" [.typeVariable "X"]) := by
  have hclass : forwardClass.WithinLimit := ⟨by decide, by decide, by decide⟩
  have hmethod : throwingMethod.WithinLimit := ⟨by decide, by decide, by decide, by decide⟩
  obtain ⟨hparseClass, hparseMethod, hparseField⟩ := parse_text ["X"]
  exact ⟨hparseClass forwardClass hclass, hparseMethod throwingMethod hmethod,
    hparseField memberField (by decide)⟩

end ClassCatalog.ClassFile.Signature
