import ClassCatalog.ClassFile.Draft
import ClassCatalog.Proofs.Outcome
import ClassCatalog.Proofs.Ty.WellFormed

/-! Signatures give well-formed types, first with all variables unresolved and then with those
bound that are in scope. -/

namespace ClassCatalog.ClassFile.Signature

open Signature.Parser

variable {α : Type} {P : α → Prop} {reference : Parser (Ty String)}

theorem yields_fail (fault : SignatureFault) : Yields (fail fault : Parser α) P :=
  Yields.after fun _ => Yields.fail _

theorem yields_whileFuel {again : Parser Bool} {item : Parser α} (h : Yields item P)
    (fuel : Nat) : Yields (whileFuel again item fuel) fun as => ∀ a ∈ as, P a := by
  induction fuel with
  | zero => exact yields_fail .trailing
  | succ fuel ih =>
    refine Yields.after fun more => Yields.ite (fun _ => ?_) fun _ => Yields.pure (by simp)
    refine h.bind fun a ha => ih.bind fun as has => Yields.pure ?_
    exact List.forall_mem_cons.2 ⟨ha, has⟩

theorem yields_repeatWhile {again : Parser Bool} {item : Parser α} (h : Yields item P) :
    Yields (repeatWhile again item) fun as => ∀ a ∈ as, P a :=
  Yields.after fun _ => yields_whileFuel h _

theorem yields_upTo {close : Char} {item : Parser α} (h : Yields item P) :
    Yields (upTo close item) fun as => ∀ a ∈ as, P a :=
  yields_repeatWhile h

theorem yields_typeVariable : Yields typeVariable (Ty.IsValue []) := by
  refine Yields.after fun _ => Yields.after fun name => Yields.after fun _ => Yields.pure ?_
  exact List.not_mem_nil

theorem yields_typeArgument (h : Yields reference (Ty.IsValue [])) :
    Yields (typeArgument reference) (Ty.IsArgument []) := by
  refine Yields.after fun _ => Yields.ite (fun _ => Yields.pure rfl) fun _ => ?_
  refine Yields.after fun _ => Yields.ite (fun _ => Yields.map _ h) fun _ => ?_
  refine Yields.after fun _ => Yields.ite (fun _ => Yields.map _ h) fun _ => ?_
  refine Yields.after fun next => ?_
  cases next with
  | none => exact yields_fail _
  | some c => exact h.mono fun t ht => ht.isArgument

theorem yields_typeArguments (h : Yields reference (Ty.IsValue [])) :
    Yields (typeArguments reference) fun ts => ∀ t ∈ ts, t.IsArgument [] := by
  refine Yields.after fun _ => Yields.ite (fun _ => ?_) fun _ => Yields.pure (by simp)
  refine (yields_upTo (yields_typeArgument h)).bind fun ts hts => ?_
  exact Yields.ite (fun _ => yields_fail _) fun _ => Yields.pure hts

theorem isValue_segmentType {outer : Option (Ty String)} (houter : ∀ t ∈ outer, t.IsValue [])
    (name : String) {arguments : List (Ty String)} (h : ∀ t ∈ arguments, t.IsArgument []) :
    (segmentType outer name arguments).IsValue [] := by
  have hplain : (segmentType.plain name arguments).IsValue [] := by
    unfold segmentType.plain
    split
    · exact trivial
    · next hne => exact ⟨by simpa using hne, (Ty.areArguments_iff _).2 h⟩
  unfold segmentType
  split
  · next owner =>
    split
    · next hkind =>
      exact ⟨of_decide_eq_true hkind, houter owner rfl, (Ty.areArguments_iff _).2 h⟩
    · exact hplain
  · exact hplain

theorem yields_segments (h : Yields reference (Ty.IsValue [])) (fuel : Nat)
    (internal : String) {outer : Option (Ty String)} (houter : ∀ t ∈ outer, t.IsValue []) :
    Yields (segments reference fuel internal outer) (Ty.IsValue []) := by
  induction fuel generalizing internal outer with
  | zero => exact yields_fail _
  | succ fuel ih =>
    refine (yields_typeArguments h).bind fun arguments harguments => ?_
    have hcurrent := isValue_segmentType houter (binaryName internal) harguments
    refine Yields.after fun _ => Yields.ite (fun _ => ?_) fun _ => Yields.pure hcurrent
    refine Yields.after fun simple => ih _ ?_
    intro t ht
    cases ht
    exact hcurrent

theorem yields_classType (h : Yields reference (Ty.IsValue [])) :
    Yields (classType reference) (Ty.IsValue []) := by
  refine Yields.after fun _ => Yields.after fun first => Yields.after fun s => ?_
  refine (yields_segments h _ first (by simp)).bind fun t ht => ?_
  exact Yields.after fun _ => Yields.pure ht

theorem yields_javaType (h : Yields reference (Ty.IsValue [])) :
    Yields (javaType reference) (Ty.IsValue []) := by
  refine Yields.after fun next => ?_
  split
  · exact Yields.after fun _ => Yields.pure trivial
  · exact h

theorem yields_dimensions (fuel : Nat) : Yields (dimensions fuel) (· ≤ fuel) := by
  induction fuel with
  | zero =>
    refine Yields.after fun _ => Yields.ite (fun _ => ?_) fun _ => Yields.pure (Nat.le_refl 0)
    exact Yields.after fun _ => Yields.pure (Nat.le_refl 0)
  | succ fuel ih =>
    refine Yields.after fun _ => Yields.ite (fun _ => ?_) fun _ => Yields.pure (Nat.zero_le _)
    exact ih.bind fun n hn => Yields.pure (Nat.succ_le_succ hn)

theorem pos_of_dimensions {fuel n : Nat} {s s' : Scan} (hs : s.rest.head? = some '[')
    (h : (dimensions (fuel + 1)).run s = .ok (n, s')) : 1 ≤ n := by
  obtain ⟨rest, offset⟩ := s
  obtain ⟨cs, rfl⟩ : ∃ cs, rest = '[' :: cs := List.head?_eq_some_iff.1 hs
  have hrun : (dimensions (fuel + 1)).run ⟨'[' :: cs, offset⟩
      = ((dimensions fuel).run ⟨cs, offset + '['.utf8Size⟩ >>= fun r => .ok (r.1 + 1, r.2)) := rfl
  rw [hrun] at h
  obtain ⟨r, _, heq⟩ := bind_eq_ok h
  cases heq
  exact Nat.succ_pos _

theorem yields_referenceType (levels : Nat) :
    Yields (referenceType levels) (Ty.IsValue []) := by
  induction levels with
  | zero => exact Yields.fail _
  | succ levels ih =>
    intro s t s' h
    -- The first character decides, and for arrays it is also the first bracket.
    have hpeek : peek.run s = .ok (s.rest.head?, s) := rfl
    rw [referenceType, run_bind_of_ok hpeek] at h
    split at h
    · exact yields_classType ih s t s' h
    · exact yields_typeVariable s t s' h
    · next hhead =>
      rw [StateT.run_bind] at h
      obtain ⟨⟨count, s₁⟩, hcount, h⟩ := bind_eq_ok h
      have hmost : count ≤ 255 := yields_dimensions 255 s count s₁ hcount
      have hleast : 1 ≤ count := pos_of_dimensions hhead hcount
      have hdimensions : 1 ≤ (UInt8.ofNat count).toNat := by
        rw [UInt8.toNat_ofNat_of_lt' (Nat.lt_of_le_of_lt hmost (by decide))]
        exact hleast
      have harray : Yields (do
          let component ← javaType (referenceType levels)
          return component.arrayOf (UInt8.ofNat count)) (Ty.IsValue []) :=
        (yields_javaType ih).bind fun u hu => Yields.pure (hu.arrayOf hdimensions)
      exact harray s₁ t s' h
    · exact yields_fail _ s t s' h

theorem yields_reference : Yields Signature.reference (Ty.IsValue []) := yields_referenceType _

theorem yields_typeParameter (h : Yields reference (Ty.IsValue [])) :
    Yields (typeParameter reference) (Ty.IsDeclaration []) := by
  have hothers : Yields (repeatWhile (eat ':') reference) fun ts => ∀ t ∈ ts, t.IsValue [] :=
    yields_repeatWhile h
  refine Yields.after fun name => Yields.after fun _ => Yields.after fun next => ?_
  refine Yields.ite (fun _ => ?_) fun _ => ?_
  · have hbound : Yields (List.singleton <$> reference) fun ts => ∀ t ∈ ts, t.IsValue [] :=
      Yields.mapped _ (h.mono fun t ht u hu => List.mem_singleton.1 hu ▸ ht)
    refine hbound.bind fun bound hb => hothers.bind fun others ho => Yields.pure ?_
    exact List.forall_mem_append.2 ⟨hb, ho⟩
  · have hnone : Yields (pure [] : Parser (List (Ty String))) (· = []) := Yields.pure rfl
    refine hnone.bind fun bound hb => hothers.bind fun others ho => Yields.pure ?_
    rw [hb]
    exact ho

theorem yields_typeParameters (h : Yields reference (Ty.IsValue [])) :
    Yields (typeParameters reference) fun ts => ∀ t ∈ ts, t.IsDeclaration [] := by
  refine Yields.after fun _ => Yields.ite (fun _ => ?_) fun _ => Yields.pure (by simp)
  refine (yields_upTo (yields_typeParameter h)).bind fun ts hts => ?_
  exact Yields.ite (fun _ => yields_fail _) fun _ => Yields.pure hts

theorem run_eq_ok {p : Parser α} {signature : String} {a : α} (h : run p signature = .ok a) :
    ∃ s, p.run ⟨signature.toList, 0⟩ = .ok (a, s) := by
  unfold run at h
  split at h
  · next b s hb =>
    cases h
    exact ⟨s, hb⟩
  · cases h
  · cases h

theorem gives_run {p : Parser α} (h : Yields p P) (signature : String) :
    Gives (run p signature) P := by
  intro a ha
  obtain ⟨s, hs⟩ := run_eq_ok ha
  exact h _ a s hs

theorem yields_fieldBody : Yields fieldBody (Ty.IsValue []) :=
  yields_reference.bind fun _ ht => Yields.after fun _ => Yields.pure ht

end ClassCatalog.ClassFile.Signature

namespace ClassCatalog.ClassFile

structure Supertypes.WellTyped (scope : List String) (s : Supertypes String) : Prop where
  typeParameters : ∀ t ∈ s.typeParameters, t.IsDeclaration scope
  superType : ∀ t ∈ s.superType, t.IsValue scope
  interfaces : ∀ t ∈ s.interfaces, t.IsValue scope

structure MethodSignature.WellTyped (scope : List String) (s : MethodSignature String) : Prop where
  typeParameters : ∀ t ∈ s.typeParameters, t.IsDeclaration scope
  parameters : ∀ t ∈ s.parameters, t.IsValue scope
  returnType : s.returnType.IsResult scope
  exceptions : ∀ t ∈ s.exceptions, t.IsValue scope

theorem Supertypes.WellTyped.bound {s : Supertypes String} (h : s.WellTyped []) :
    s.bound.WellTyped s.scope where
  typeParameters := Ty.forall_mem_listBindIn fun t ht => (h.typeParameters t ht).bindIn s.scope
  superType := by
    intro t ht
    obtain ⟨u, hu, rfl⟩ := Option.map_eq_some_iff.1 ht
    exact (h.superType u hu).bindIn s.scope
  interfaces := Ty.forall_mem_listBindIn fun t ht => (h.interfaces t ht).bindIn s.scope

theorem MethodSignature.WellTyped.boundIn {s : MethodSignature String} (h : s.WellTyped [])
    (outer : List String) : (s.boundIn outer).WellTyped (s.scope outer) where
  typeParameters := Ty.forall_mem_listBindIn fun t ht => (h.typeParameters t ht).bindIn _
  parameters := Ty.forall_mem_listBindIn fun t ht => (h.parameters t ht).bindIn _
  returnType := h.returnType.bindIn _
  exceptions := Ty.forall_mem_listBindIn fun t ht => (h.exceptions t ht).bindIn _

namespace Signature

open Signature.Parser

theorem yields_classBody :
    Yields classBody fun s => Supertypes.WellTyped [] ⟨s.typeParameters, some s.superclass, s.interfaces⟩ := by
  have hclass := yields_classType yields_reference
  refine (yields_typeParameters yields_reference).bind fun ts hts => ?_
  refine hclass.bind fun superclass hsuperclass => ?_
  refine (yields_repeatWhile hclass).bind fun interfaces hinterfaces => Yields.pure ?_
  refine ⟨hts, fun t ht => ?_, hinterfaces⟩
  cases ht
  exact hsuperclass

theorem yields_exception :
    Yields (do
      if (← peek) = some 'T' then typeVariable else classType Signature.reference)
      (Ty.IsValue []) := by
  refine Yields.after fun _ => Yields.ite (fun _ => yields_typeVariable) fun _ => ?_
  exact yields_classType yields_reference

theorem yields_methodBody : Yields methodBody (MethodSignature.WellTyped []) := by
  have hjava := yields_javaType yields_reference
  refine (yields_typeParameters yields_reference).bind fun ts hts => ?_
  refine Yields.after fun _ => (yields_upTo hjava).bind fun parameters hparameters => ?_
  -- The rest is the same after both kinds of result.
  have hrest : ∀ returnType : Ty String, returnType.IsResult [] →
      Yields (do
        let exceptions ← repeatWhile (eat '^') do
          if (← peek) = some 'T' then typeVariable else classType Signature.reference
        finish
        return (⟨ts, parameters, returnType, exceptions⟩ : MethodSignature String))
        (MethodSignature.WellTyped []) := by
    intro returnType hresult
    refine (yields_repeatWhile yields_exception).bind fun exceptions hexceptions => ?_
    exact Yields.after fun _ => Yields.pure ⟨hts, hparameters, hresult, hexceptions⟩
  refine Yields.after fun _ => Yields.ite (fun _ => ?_) fun _ => ?_
  · have hvoid : Yields (pure .void : Parser (Ty String)) (Ty.IsResult []) :=
      Yields.pure (.inl rfl)
    exact hvoid.bind hrest
  · exact hjava.bind fun t ht => hrest t (.inr ht)

end Signature

end ClassCatalog.ClassFile
