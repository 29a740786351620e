import ClassCatalog.ClassDecl
import ClassCatalog.Ty.Scope

/-! Which trees are types of values, type arguments and declarations of type parameters, and how
the uses of type variables in them fit the variables in scope. -/

namespace ClassCatalog

namespace Ty

mutual

/-- A type that a value can have. Type variables are resolved exactly when they are in scope. -/
def IsValue (scope : List String) : Ty String → Prop
  | primitive _ | named _ => True
  | array dimensions component =>
    1 ≤ dimensions.toNat ∧ dimensions.toNat ≤ 255 ∧ component.kind ≠ .array
      ∧ component.IsValue scope
  | parameterized _ arguments => arguments ≠ [] ∧ AreArguments scope arguments
  | inner owner _ arguments =>
    owner.kind = .parameterized ∧ owner.IsValue scope ∧ AreArguments scope arguments
  | typeVariable n => n ∈ scope
  | unresolved n => n ∉ scope
  | void | typeParameter .. | wildcard _ | bounded .. => False

def AreArguments (scope : List String) : List (Ty String) → Prop
  | [] => True
  | wildcard isExtends :: ts => isExtends = true ∧ AreArguments scope ts
  | bounded _ bound :: ts => bound.IsValue scope ∧ AreArguments scope ts
  | t :: ts => t.IsValue scope ∧ AreArguments scope ts

end

def IsArgument (scope : List String) : Ty String → Prop
  | wildcard isExtends => isExtends = true
  | bounded _ bound => bound.IsValue scope
  | t => t.IsValue scope

def IsDeclaration (scope : List String) : Ty String → Prop
  | typeParameter _ _ bounds => ∀ t ∈ bounds, t.IsValue scope
  | _ => False

def IsResult (scope : List String) (t : Ty String) : Prop := t = void ∨ t.IsValue scope

end Ty

structure MethodDecl.WellTyped (outer : List String) (m : MethodDecl String) : Prop where
  typeParameters : ∀ t ∈ m.typeParameters,
    t.IsDeclaration (Ty.declaredNames m.typeParameters ++ outer)
  parameters : ∀ t ∈ m.parameters, t.IsValue (Ty.declaredNames m.typeParameters ++ outer)
  returnType : m.returnType.IsResult (Ty.declaredNames m.typeParameters ++ outer)
  exceptions : ∀ t ∈ m.exceptions, t.IsValue (Ty.declaredNames m.typeParameters ++ outer)

structure ClassDecl.WellTyped (c : ClassDecl String) : Prop where
  typeParameters : ∀ t ∈ c.typeParameters, t.IsDeclaration (Ty.declaredNames c.typeParameters)
  superType : ∀ t ∈ c.superType, t.IsValue (Ty.declaredNames c.typeParameters)
  interfaces : ∀ t ∈ c.interfaces, t.IsValue (Ty.declaredNames c.typeParameters)
  fields : ∀ f ∈ c.fields, f.ty.IsValue (Ty.declaredNames c.typeParameters)
  methods : ∀ m ∈ c.methods, m.WellTyped (Ty.declaredNames c.typeParameters)
  components : ∀ k ∈ c.components, k.ty.IsValue (Ty.declaredNames c.typeParameters)

namespace Ty

variable {scope : List String}

theorem IsValue.isArgument {t : Ty String} (h : t.IsValue scope) : t.IsArgument scope := by
  cases t with
  | wildcard _ => exact h.elim
  | bounded _ _ => exact h.elim
  | _ => exact h

theorem areArguments_cons {t : Ty String} {ts : List (Ty String)} :
    AreArguments scope (t :: ts) ↔ t.IsArgument scope ∧ AreArguments scope ts := by
  cases t <;> rfl

theorem areArguments_iff (ts : List (Ty String)) :
    AreArguments scope ts ↔ ∀ t ∈ ts, t.IsArgument scope := by
  induction ts with
  | nil => simp [AreArguments]
  | cons t ts ih => rw [areArguments_cons, ih, List.forall_mem_cons]

theorem IsValue.arrayOf {t : Ty String} (h : t.IsValue scope) {dimensions : UInt8}
    (hd : 1 ≤ dimensions.toNat) : (t.arrayOf dimensions).IsValue scope := by
  have hmost := dimensions.toNat_lt
  cases t with
  | array others component =>
    obtain ⟨hleast, _, hkind, hcomponent⟩ := h
    have hsum : (UInt8.ofNat (min 255 (others.toNat + dimensions.toNat))).toNat
        = min 255 (others.toNat + dimensions.toNat) :=
      UInt8.toNat_ofNat_of_lt (Nat.lt_of_le_of_lt (Nat.min_le_left _ _) (by decide))
    refine ⟨?_, ?_, hkind, hcomponent⟩
    · rw [hsum]
      omega
    · rw [hsum]
      omega
  | _ => exact ⟨hd, by omega, by simp [kind], h⟩

theorem listBindIn_eq_map (scope : List String) (ts : List (Ty String)) :
    listBindIn scope ts = ts.map (bindIn scope) := by
  induction ts with
  | nil => rfl
  | cons t ts ih => rw [listBindIn, ih, List.map_cons]

theorem forall_mem_listBindIn {P : Ty String → Prop} {scope : List String} {ts : List (Ty String)}
    (h : ∀ t ∈ ts, P (t.bindIn scope)) : ∀ t ∈ listBindIn scope ts, P t := by
  rw [listBindIn_eq_map]
  exact List.forall_mem_map.2 h

theorem kind_bindIn (scope : List String) (t : Ty String) :
    (t.bindIn scope).kind = t.kind
      ∨ t.kind = .unresolved ∧ (t.bindIn scope).kind = .typeVariable := by
  cases t with
  | unresolved n =>
    rw [bindIn]
    split
    · exact .inr ⟨rfl, rfl⟩
    · exact .inl rfl
  | _ => exact .inl rfl

theorem declaredNames_bindIn (scope : List String) (ts : List (Ty String)) :
    declaredNames (listBindIn scope ts) = declaredNames ts := by
  rw [listBindIn_eq_map, declaredNames, declaredNames, List.filterMap_map]
  congr 1
  funext t
  cases t with
  | unresolved n =>
    by_cases h : n ∈ scope
    · simp only [Function.comp, bindIn, if_pos h]
    · simp only [Function.comp, bindIn, if_neg h]
  | _ => rfl

mutual

theorem IsValue.bindIn {t : Ty String} (h : t.IsValue []) (scope : List String) :
    (t.bindIn scope).IsValue scope := by
  match t with
  | primitive _ | named _ => exact trivial
  | array dimensions component =>
    obtain ⟨hleast, hmost, hkind, hcomponent⟩ := h
    refine ⟨hleast, hmost, ?_, hcomponent.bindIn scope⟩
    rcases kind_bindIn scope component with hsame | ⟨_, hvariable⟩
    · rw [hsame]
      exact hkind
    · rw [hvariable]
      decide
  | parameterized _ arguments =>
    obtain ⟨hne, harguments⟩ := h
    refine ⟨?_, harguments.bindIn scope⟩
    rw [listBindIn_eq_map]
    simpa using hne
  | inner owner _ arguments =>
    obtain ⟨hkind, howner, harguments⟩ := h
    refine ⟨?_, howner.bindIn scope, harguments.bindIn scope⟩
    rcases kind_bindIn scope owner with hsame | ⟨hunresolved, _⟩
    · rw [hsame]
      exact hkind
    · rw [hkind] at hunresolved
      cases hunresolved
  | typeVariable n => exact absurd h List.not_mem_nil
  | unresolved n =>
    rw [Ty.bindIn]
    split
    · next hmem => exact hmem
    · next hmem => exact hmem
  | void | typeParameter .. | wildcard _ | bounded .. => exact h.elim

theorem AreArguments.bindIn {ts : List (Ty String)} (h : AreArguments [] ts)
    (scope : List String) : AreArguments scope (listBindIn scope ts) := by
  match ts with
  | [] => exact trivial
  | t :: ts =>
    obtain ⟨ht, hts⟩ := areArguments_cons.1 h
    refine areArguments_cons.2 ⟨?_, hts.bindIn scope⟩
    match t with
    | wildcard _ => exact ht
    | bounded _ bound => exact IsValue.bindIn (t := bound) ht scope
    | primitive _ | named _ => exact trivial
    | void | typeParameter .. => exact ht.elim
    | array d c => exact (IsValue.bindIn (t := array d c) ht scope).isArgument
    | parameterized n as => exact (IsValue.bindIn (t := parameterized n as) ht scope).isArgument
    | inner o n as => exact (IsValue.bindIn (t := inner o n as) ht scope).isArgument
    | typeVariable n => exact (IsValue.bindIn (t := typeVariable n) ht scope).isArgument
    | unresolved n => exact (IsValue.bindIn (t := unresolved n) ht scope).isArgument

end

theorem IsDeclaration.bindIn {t : Ty String} (h : t.IsDeclaration []) (scope : List String) :
    (t.bindIn scope).IsDeclaration scope := by
  cases t with
  | typeParameter _ _ bounds =>
    exact forall_mem_listBindIn fun t ht => (h t ht).bindIn scope
  | _ => exact h.elim

theorem IsResult.bindIn {t : Ty String} (h : t.IsResult []) (scope : List String) :
    (t.bindIn scope).IsResult scope := by
  rcases h with rfl | hvalue
  · exact .inl rfl
  · exact .inr (hvalue.bindIn scope)

end Ty

end ClassCatalog
