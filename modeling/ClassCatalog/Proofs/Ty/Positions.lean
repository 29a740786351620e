import ClassCatalog.Proofs.Ty.Navigation
import ClassCatalog.Proofs.Ty.Parts
import ClassCatalog.Proofs.Ty.WellFormed

/-! The positions in a type. Each has a path and a part of the type; the paths of positions, with
any number of nesting steps added where they have no effect, are the paths that lead somewhere. -/

namespace ClassCatalog.Ty

variable {ν : Type} {t u v : Ty ν} {s : PathStep} {number : Nat}

/-- An array has a dimension and is not over an array, and the owner of a member class is
parameterized. -/
def FitsParts : Ty ν → Prop
  | array dimensions component => 0 < dimensions.toNat ∧ component.kind ≠ .array
  | inner owner _ _ => owner.kind = .parameterized
  | _ => True

inductive Shaped : Ty ν → Prop
  | intro {t : Ty ν} (fits : t.FitsParts) (parts : ∀ u ∈ t.parts, Shaped u) : Shaped t

theorem Shaped.fits (h : t.Shaped) : t.FitsParts := h.casesOn fun fits _ => fits

theorem Shaped.part (h : t.Shaped) (hu : u ∈ t.parts) : u.Shaped :=
  h.casesOn (fun _ parts => parts) u hu

theorem IsArgument.fitsParts {scope : List String} {t : Ty String} (h : t.IsArgument scope) :
    t.FitsParts := by
  cases t with
  | array dimensions component => exact ⟨h.1, h.2.2.1⟩
  | inner owner name arguments => exact h.1
  | _ => trivial

theorem IsArgument.part {scope : List String} {t u : Ty String} (h : t.IsArgument scope)
    (hu : u ∈ t.parts) : u.IsArgument scope := by
  cases t with
  | array dimensions component =>
    cases List.mem_singleton.1 hu
    exact h.2.2.2.isArgument
  | parameterized name arguments => exact (areArguments_iff arguments).1 h.2 u hu
  | inner owner name arguments =>
    rcases List.mem_cons.1 hu with rfl | hargument
    · exact h.2.1.isArgument
    · exact (areArguments_iff arguments).1 h.2.2 u hargument
  | bounded isExtends bound =>
    cases List.mem_singleton.1 hu
    exact IsValue.isArgument h
  | typeParameter identifier implicitObject bounds => exact h.elim
  | _ => cases hu

theorem depth_lt_of_mem_parts (hu : u ∈ t.parts) : u.depth < t.depth := by
  have hpositive : 1 ≤ t.depth := by
    rw [depth_eq]
    omega
  exact (depth_le_iff t hpositive).1 (Nat.le_refl _) u hu

theorem IsArgument.shaped {scope : List String} {t : Ty String} (h : t.IsArgument scope) :
    t.Shaped :=
  .intro h.fitsParts fun u hu =>
    have _ : u.depth < t.depth := depth_lt_of_mem_parts hu
    (h.part hu).shaped
termination_by t.depth

theorem IsLevel.shaped (h : t.IsLevel number u) (ht : t.Shaped) : u.Shaped := by
  induction h with
  | self t => exact ht
  | outward h ih => exact ih (ht.part List.mem_cons_self)

theorem mem_parts_of_arguments {position : Nat} (h : t.arguments[position]? = some u) :
    u ∈ t.parts := by
  have hmem := List.mem_of_getElem? h
  cases t with
  | parameterized name arguments => exact hmem
  | inner owner name arguments => exact List.mem_cons_of_mem owner hmem
  | _ => cases hmem

theorem IsLevel.argument_shaped {position : Nat} (h : t.IsLevel number u) (ht : t.Shaped)
    (hv : u.arguments[position]? = some v) : v.Shaped :=
  (h.shaped ht).part (mem_parts_of_arguments hv)

theorem IsLevel.parameterized_of_argument {position : Nat} (h : t.IsLevel number u)
    (hv : u.arguments[position]? = some v) : t.kind = .parameterized := by
  cases h with
  | self =>
    cases t with
    | parameterized name arguments => rfl
    | inner owner name arguments => rfl
    | _ => cases hv
  | outward h => rfl

theorem IsLevel.eq_self_or_parameterized (h : t.IsLevel number u) (ht : t.Shaped) :
    (u = t ∧ number = t.nesting) ∨ u.kind = .parameterized := by
  induction h with
  | self t => exact .inl ⟨rfl, rfl⟩
  | outward h ih =>
    rcases ih (ht.part List.mem_cons_self) with ⟨rfl, _⟩ | hkind
    · exact .inr ht.fits
    · exact .inr hkind

theorem Shaped.step (h : t.Shaped) (hstep : t.step s = some u) : u.Shaped := by
  rcases step_cases hstep with ⟨dimensions, component, rfl, rfl, rfl⟩ | ⟨isExtends, rfl, rfl⟩
    | ⟨place, rfl, hargument⟩
  · split
    · next hmore =>
      have hless := toNat_less_one_add_one hmore
      have hmoreNat := one_lt_dimensions_iff.1 hmore
      exact .intro ⟨by omega, h.fits.2⟩ fun _ hu => h.part hu
    · exact h.part List.mem_cons_self
  · exact h.part List.mem_cons_self
  · exact h.part (mem_parts_of_arguments hargument)

inductive Position : Ty ν → Type
  /-- A class, or one of the classes around it, by its number from the outermost on. Any type but
  an array stands here for itself. -/
  | level {t : Ty ν} (number : Nat) (u : Ty ν) (hlevel : t.IsLevel number u)
      (hkind : t.kind ≠ .array) : Position t
  | argument {t : Ty ν} (number : Nat) (u : Ty ν) (hlevel : t.IsLevel number u) (place : UInt8)
      (v : Ty ν) (hargument : u.arguments[place.toNat]? = some v) (p : Position v) : Position t
  | elements {dimensions : UInt8} {component : Ty ν} (steps : Nat)
      (hsteps : steps < dimensions.toNat) : Position (array dimensions component)
  | component {dimensions : UInt8} {component : Ty ν} (p : Position component) :
      Position (array dimensions component)
  | bound {isExtends : Bool} {bound : Ty ν} (p : Position bound) :
      Position (bounded isExtends bound)

namespace Position

def part : {t : Ty ν} → Position t → Ty ν
  | _, level _ u _ _ => u
  | _, argument _ _ _ _ _ _ p => p.part
  | array dimensions c, elements steps _ => array (dimensions - UInt8.ofNat steps) c
  | _, component p => p.part
  | _, bound p => p.part

/-- The shortest path to a position. -/
def path : {t : Ty ν} → Position t → List PathStep
  | _, level number _ _ _ => List.replicate number .nested
  | _, argument number _ _ place _ _ p =>
    List.replicate number .nested ++ .argument place :: p.path
  | _, elements steps _ => List.replicate steps .arrayElement
  | array dimensions _, component p =>
    List.replicate dimensions.toNat .arrayElement ++ p.path
  | _, bound p => .wildcardBound :: p.path

end Position

theorem navigate_path (ht : t.Shaped) (p : Position t) : t.navigate p.path = some p.part := by
  induction p with
  | level number u hlevel hkind => exact navigate_level hlevel
  | argument number u hlevel place v hargument p ih =>
    have hstep : u.step (.argument place) = some v := (step_argument place u).trans hargument
    exact (navigate_level_step hlevel hstep _).trans (ih (hlevel.argument_shaped ht hargument))
  | @elements dimensions component steps hsteps =>
    have hrun := navigate_replicate_arrayElement hsteps component []
    rw [List.append_nil] at hrun
    exact hrun
  | @component dimensions component p ih =>
    exact (navigate_array ht.fits.1 component _).trans (ih (ht.part List.mem_cons_self))
  | @bound isExtends bound p ih =>
    have hstep : (bounded isExtends bound).step .wildcardBound = some bound := rfl
    exact (navigate_level_step (.self _) hstep _).trans (ih (ht.part List.mem_cons_self))

theorem replicate_nested_inj {m n : Nat} {a b : PathStep} {p q : List PathStep}
    (ha : a ≠ .nested) (hb : b ≠ .nested)
    (h : List.replicate m .nested ++ a :: p = List.replicate n .nested ++ b :: q) :
    m = n ∧ a = b ∧ p = q := by
  induction m generalizing n with
  | zero =>
    cases n with
    | zero => exact ⟨rfl, List.cons.inj h⟩
    | succ n => exact absurd (List.cons.inj h).1 ha
  | succ m ih =>
    cases n with
    | zero => exact absurd (List.cons.inj h).1.symm hb
    | succ n =>
      obtain ⟨rfl, hrest⟩ := ih (List.cons.inj h).2
      exact ⟨rfl, hrest⟩

theorem replicate_nested_ne {m n : Nat} {a : PathStep} {p : List PathStep} (ha : a ≠ .nested) :
    List.replicate m .nested ≠ List.replicate n .nested ++ a :: p := by
  intro h
  have hmem : a ∈ List.replicate m PathStep.nested := by
    rw [h]
    exact List.mem_append_right _ List.mem_cons_self
  exact ha (List.eq_of_mem_replicate hmem)

theorem replicate_arrayElement_ne {steps count : Nat} (h : steps < count)
    (path : List PathStep) :
    List.replicate steps PathStep.arrayElement ≠ List.replicate count .arrayElement ++ path := by
  intro heq
  have hlength := congrArg List.length heq
  rw [List.length_append, List.length_replicate, List.length_replicate] at hlength
  omega

theorem Position.path_injective {p q : Position t} (h : p.path = q.path) : p = q := by
  -- The first step that is not a nesting step tells the constructors apart; only the two of an
  -- array begin alike, and there the number of steps decides.
  induction p with
  | level number u hlevel hkind =>
    cases q with
    | level number' u' hlevel' hkind' =>
      obtain rfl : number = number' := by simpa [path] using congrArg List.length h
      obtain rfl := hlevel.unique hlevel'
      rfl
    | argument => exact absurd h (replicate_nested_ne nofun)
    | elements => exact absurd rfl hkind
    | component => exact absurd rfl hkind
    | bound => exact absurd h (replicate_nested_ne (n := 0) nofun)
  | argument number u hlevel place v hargument p ih =>
    cases q with
    | level => exact absurd h.symm (replicate_nested_ne nofun)
    | argument number' u' hlevel' place' v' hargument' q =>
      obtain ⟨rfl, hplace, hpath⟩ :=
        replicate_nested_inj (a := .argument place) (b := .argument place') nofun nofun h
      obtain rfl := hlevel.unique hlevel'
      obtain rfl := PathStep.argument.inj hplace
      obtain rfl := Option.some.inj (hargument.symm.trans hargument')
      rw [ih hpath]
    | elements => cases hlevel.parameterized_of_argument hargument
    | component => cases hlevel.parameterized_of_argument hargument
    | bound => cases hlevel.parameterized_of_argument hargument
  | elements steps hsteps =>
    cases q with
    | level _ _ _ hkind => exact absurd rfl hkind
    | argument _ _ hlevel _ _ hargument => cases hlevel.parameterized_of_argument hargument
    | elements steps' _ =>
      obtain rfl : steps = steps' := by simpa [path] using congrArg List.length h
      rfl
    | component q => exact absurd h (replicate_arrayElement_ne hsteps _)
  | component p ih =>
    cases q with
    | level _ _ _ hkind => exact absurd rfl hkind
    | argument _ _ hlevel _ _ hargument => cases hlevel.parameterized_of_argument hargument
    | elements steps hsteps => exact absurd h.symm (replicate_arrayElement_ne hsteps _)
    | component q => rw [ih (List.append_cancel_left h)]
  | bound p ih =>
    cases q with
    | level => exact absurd h.symm (replicate_nested_ne (n := 0) nofun)
    | argument _ _ hlevel _ _ hargument => cases hlevel.parameterized_of_argument hargument
    | bound q => rw [ih (List.cons.inj h).2]

theorem IsLevel.exists_position (h : t.IsLevel number u) (ht : t.Shaped) :
    ∃ p : Position t, p.part = u ∧ p.path = List.replicate number .nested := by
  by_cases hkind : t.kind = .array
  · cases t with
    | array dimensions component =>
      cases h
      exact ⟨.elements 0 ht.fits.1, by simp [Position.part], rfl⟩
    | _ => cases hkind
  · exact ⟨.level number u h hkind, rfl, rfl⟩

theorem exists_position_array {dimensions : UInt8} {component : Ty ν}
    (h : 0 < dimensions.toNat)
    (p : Position (if 1 < dimensions then array (dimensions - 1) component else component)) :
    ∃ q : Position (array dimensions component),
      q.part = p.part ∧ q.path = .arrayElement :: p.path := by
  revert p
  -- With more than one dimension the step stays in the array, and its positions move up by one.
  by_cases hmore : 1 < dimensions
  · rw [if_pos hmore]
    intro p
    have hless := toNat_less_one_add_one hmore
    cases p with
    | level _ _ _ hkind => exact absurd rfl hkind
    | argument _ _ hlevel _ _ hargument => cases hlevel.parameterized_of_argument hargument
    | elements steps hsteps =>
      refine ⟨.elements (steps + 1) (by omega), ?_, rfl⟩
      rw [Position.part, Position.part, less_one_less]
    | component p =>
      refine ⟨.component p, rfl, ?_⟩
      rw [Position.path, Position.path, ← hless, List.replicate_succ, List.cons_append]
  · rw [if_neg hmore]
    intro p
    have hone : dimensions.toNat = 1 := by
      rw [one_lt_dimensions_iff] at hmore
      omega
    refine ⟨.component p, rfl, ?_⟩
    rw [Position.path, hone]
    rfl

theorem exists_position_step (ht : t.Shaped) (hlevel : t.IsLevel number u)
    (hstep : u.step s = some v) (p : Position v) :
    ∃ q : Position t,
      q.part = p.part ∧ q.path = List.replicate number .nested ++ s :: p.path := by
  rcases step_cases hstep with ⟨dimensions, component, rfl, rfl, rfl⟩ | ⟨isExtends, rfl, rfl⟩
    | ⟨place, rfl, hargument⟩
  · rcases hlevel.eq_self_or_parameterized ht with ⟨rfl, rfl⟩ | hkind
    · exact exists_position_array ht.fits.1 p
    · cases hkind
  · rcases hlevel.eq_self_or_parameterized ht with ⟨rfl, rfl⟩ | hkind
    · exact ⟨.bound p, rfl, rfl⟩
    · cases hkind
  · exact ⟨.argument number u hlevel place v hargument p, rfl, rfl⟩

/-- The induction is on the path, so the positions are made from their ends. -/
theorem exists_position_of_navigateFrom {depth : Nat} {path : List PathStep} (ht : t.Shaped)
    (h : t.navigateFrom depth path = some u) :
    ∃ p : Position t, p.part = u
      ∧ p.path = List.replicate (t.counted depth) .nested ++ t.withoutAbsorbedFrom depth path := by
  induction path generalizing depth t with
  | nil =>
    rw [withoutAbsorbedFrom, List.append_nil]
    exact (isLevel_of_level h).exists_position ht
  | cons s path ih =>
    by_cases hs : s = .nested
    · subst hs
      rw [replicate_counted_nested]
      exact ih ht h
    rw [navigateFrom_cons hs] at h
    obtain ⟨v, hlevel, hv⟩ := Option.bind_eq_some_iff.1 h
    obtain ⟨w, hstep, hw⟩ := Option.bind_eq_some_iff.1 hv
    have hnumber := isLevel_of_level hlevel
    obtain ⟨p, hpart, hpath⟩ := ih ((hnumber.shaped ht).step hstep) hw
    rw [counted_zero, List.replicate_zero, List.nil_append] at hpath
    obtain ⟨q, hqpart, hqpath⟩ := exists_position_step ht hnumber hstep p
    refine ⟨q, hqpart.trans hpart, ?_⟩
    rw [hqpath, hpath, withoutAbsorbedFrom_cons hlevel hstep, withoutAbsorbed]

theorem exists_position_of_navigate {path : List PathStep} (ht : t.Shaped)
    (h : t.navigate path = some u) :
    ∃ p : Position t, p.part = u ∧ p.path = t.withoutAbsorbed path := by
  obtain ⟨p, hpart, hpath⟩ := exists_position_of_navigateFrom ht h
  rw [counted_zero, List.replicate_zero, List.nil_append] at hpath
  exact ⟨p, hpart, hpath⟩

/-- Paths lead exactly to the positions of a type. Each position is reached by its own path, no
two positions have the same path, and a path that leads somewhere is, without its absorbed steps,
the path of a position; the walk by index that follows it stays within the path. -/
theorem navigate_reaches_positions (ht : t.Shaped) :
    (∀ p : Position t, t.navigate p.path = some p.part)
    ∧ (∀ p q : Position t, p.path = q.path → p = q)
    ∧ (∀ path u, t.navigate path = some u ↔
      ∃ p : Position t, p.part = u ∧ p.path = t.withoutAbsorbed path)
    ∧ ∀ path, t.walk path 0 = .ok (t.navigate path) := by
  refine ⟨navigate_path ht, fun p q => Position.path_injective, fun path u => ⟨?_, ?_⟩,
    fun path => walk_eq_navigate (Nat.zero_le _) t⟩
  · exact exists_position_of_navigate ht
  · rintro ⟨p, rfl, hpath⟩
    rw [← navigate_withoutAbsorbed, ← hpath]
    exact navigate_path ht p

def memberClass : Ty String :=
  inner (parameterized "p.Outer" [unresolved "A"]) "p.Outer$Inner"
    [array 2 (parameterized "q.List" [bounded true (unresolved "B")])]

/-- The second path has nesting steps at the array and at its component. -/
theorem navigate_reaches_positions_memberClass :
    memberClass.IsValue []
      ∧ memberClass.walk [] 0 = .ok (some (parameterized "p.Outer" [unresolved "A"]))
      ∧ ∃ p : Position memberClass, p.part = unresolved "B"
        ∧ p.path = [.nested, .argument 0, .arrayElement, .arrayElement, .argument 0, .wildcardBound]
        ∧ memberClass.navigate [.nested, .argument 0, .nested, .arrayElement, .arrayElement,
          .nested, .nested, .argument 0, .wildcardBound] = some p.part := by
  have hvalue : memberClass.IsValue [] := by
    simp [memberClass, IsValue, AreArguments, kind]
  obtain ⟨-, -, hexact, hwalk⟩ := navigate_reaches_positions hvalue.isArgument.shaped
  obtain ⟨p, hpart, hpath⟩ := (hexact [.nested, .argument 0, .nested, .arrayElement, .arrayElement,
    .nested, .nested, .argument 0, .wildcardBound] (unresolved "B")).1 rfl
  refine ⟨hvalue, hwalk [], p, hpart, hpath, ?_⟩
  rw [hpart]
  rfl

end ClassCatalog.Ty
