import ClassCatalog.ClassFile.Descriptor
import ClassCatalog.Proofs.Outcome
import ClassCatalog.Proofs.Ty.WellFormed

/-! Descriptors name types of values in any scope, since they have no type variables. -/

namespace ClassCatalog.ClassFile.Descriptor

variable {cs rest : List Char} {t : Ty String}

theorem baseType_eq_some (h : baseType cs = some (t, rest)) :
    (∃ p, t = .primitive p) ∨ ∃ n, t = .named n := by
  unfold baseType at h
  split at h
  · split at h
    · cases h
      exact .inr ⟨_, rfl⟩
    · cases h
  · obtain ⟨p, _, hp⟩ := Option.map_eq_some_iff.1 h
    cases hp
    exact .inl ⟨p, rfl⟩
  · cases h

theorem isValue_of_baseType (scope : List String) (h : baseType cs = some (t, rest)) :
    t.IsValue scope := by
  obtain ⟨p, rfl⟩ | ⟨n, rfl⟩ := baseType_eq_some h <;> exact trivial

theorem isValue_of_fieldType (scope : List String) (h : fieldType cs = some (t, rest)) :
    t.IsValue scope := by
  unfold fieldType at h
  simp only at h
  split at h
  · cases h
  · next hmost =>
    obtain ⟨⟨base, rest'⟩, hbase, heq⟩ := Option.bind_eq_some_iff.1 h
    have hvalue := isValue_of_baseType scope hbase
    cases heq
    split
    · exact hvalue
    · next hdimensions =>
      apply hvalue.arrayOf
      rw [UInt8.toNat_ofNat_of_lt' (Nat.lt_of_le_of_lt (Nat.not_lt.1 hmost) (by decide))]
      omega

theorem isResult_of_returnType (scope : List String) (h : returnType cs = some (t, rest)) :
    t.IsResult scope := by
  unfold returnType at h
  split at h
  · cases h
    exact .inl rfl
  · exact .inr (isValue_of_fieldType scope h)

theorem isValue_of_parameters (scope : List String) {fuel : Nat} {ts : List (Ty String)}
    (h : parameters fuel cs = some (ts, rest)) : ∀ t ∈ ts, t.IsValue scope := by
  fun_induction parameters fuel cs generalizing ts rest with
  | case1 => cases h; simp
  | case2 => cases h
  | case3 fuel cs _ ih =>
    obtain ⟨⟨t, rest₁⟩, ht, h⟩ := Option.bind_eq_some_iff.1 h
    obtain ⟨⟨ts', rest₂⟩, hts, h⟩ := Option.bind_eq_some_iff.1 h
    cases h
    exact List.forall_mem_cons.2 ⟨isValue_of_fieldType scope ht, ih _ hts⟩

theorem complete_eq_some {α : Type} {r : Option (α × List Char)} {a : α}
    (h : complete r = some a) : r = some (a, []) := by
  unfold complete at h
  split at h
  · cases h
    rfl
  · cases h

theorem gives_parseField (scope : List String) (descriptor : String) :
    Gives (parseField descriptor) (Ty.IsValue scope) := by
  intro t h
  unfold parseField at h
  cases hcomplete : complete (fieldType descriptor.toList) with
  | none =>
    rw [hcomplete] at h
    cases h
  | some u =>
    rw [hcomplete] at h
    cases h
    exact isValue_of_fieldType scope (complete_eq_some hcomplete)

theorem gives_parseMethod (scope : List String) (descriptor : String) :
    Gives (parseMethod descriptor) fun (parameters, result) =>
      (∀ t ∈ parameters, t.IsValue scope) ∧ result.IsResult scope := by
  intro r h
  unfold parseMethod at h
  cases hmethod : method descriptor.toList with
  | none =>
    rw [hmethod] at h
    cases h
  | some u =>
    rw [hmethod] at h
    cases h
    unfold method at hmethod
    split at hmethod
    · obtain ⟨⟨ts, rest⟩, hts, hmethod⟩ := Option.bind_eq_some_iff.1 hmethod
      obtain ⟨result, hresult, hmethod⟩ := Option.bind_eq_some_iff.1 hmethod
      cases hmethod
      exact ⟨isValue_of_parameters scope hts,
        isResult_of_returnType scope (complete_eq_some hresult)⟩
    · cases hmethod

end ClassCatalog.ClassFile.Descriptor
