import ClassCatalog.Ty.Path

/-! How a type path is followed: the levels of a member class, the single steps between them, the
nesting steps that have no effect, and the same walk over the indices of the path. -/

namespace ClassCatalog.Ty

variable {ν : Type} {t u v : Ty ν} {s : PathStep} {number : Nat}

def nesting : Ty ν → Nat
  | inner owner _ _ => owner.nesting + 1
  | _ => 0

/-- `t.IsLevel number u`: counted from the outermost class, `u` has this number among `t` and the
classes around it. -/
inductive IsLevel : Ty ν → Nat → Ty ν → Prop
  | self (t : Ty ν) : IsLevel t t.nesting t
  | outward {owner : Ty ν} {name : ν} {arguments : List (Ty ν)} {number : Nat} {u : Ty ν}
      (h : IsLevel owner number u) : IsLevel (inner owner name arguments) number u

theorem length_ownerChain (t : Ty ν) : t.ownerChain.length = t.nesting + 1 := by
  fun_induction nesting t with
  | case1 owner name arguments ih => rw [ownerChain, List.length_append, ih, List.length_singleton]
  | case2 t hmember => rw [ownerChain.eq_2 t hmember, List.length_singleton]

theorem IsLevel.ownerChain_getElem? (h : t.IsLevel number u) : t.ownerChain[number]? = some u := by
  induction h with
  | self t =>
    fun_cases nesting t with
    | case1 owner name arguments =>
      rw [ownerChain, ← length_ownerChain, List.getElem?_concat_length]
    | case2 t hmember => rw [ownerChain.eq_2 t hmember, List.getElem?_cons_zero]
  | outward h ih =>
    rw [ownerChain, List.getElem?_append_left (List.getElem?_eq_some_iff.1 ih).1]
    exact ih

theorem isLevel_of_getElem?_ownerChain (h : t.ownerChain[number]? = some u) :
    t.IsLevel number u := by
  fun_induction ownerChain t with
  | case1 owner name arguments ih =>
    rcases Nat.lt_or_ge number owner.ownerChain.length with howner | hself
    · rw [List.getElem?_append_left howner] at h
      exact .outward (ih h)
    · rw [List.getElem?_append_right hself, List.getElem?_singleton] at h
      split at h
      · next hlast =>
        cases h
        have hnumber : number = (inner owner name arguments).nesting := by
          rw [nesting, ← length_ownerChain]
          omega
        rw [hnumber]
        exact .self _
      · cases h
  | case2 t hmember =>
    rw [List.getElem?_singleton] at h
    split at h
    · next hnumber =>
      cases h
      rw [hnumber, ← nesting.eq_2 _ hmember]
      exact .self _
    · cases h

theorem IsLevel.unique (hu : t.IsLevel number u) (hv : t.IsLevel number v) : u = v :=
  Option.some.inj (hu.ownerChain_getElem?.symm.trans hv.ownerChain_getElem?)

def isMember : Ty ν → Bool
  | inner .. => true
  | _ => false

/-- The nesting steps among `depth` of them that have an effect. -/
def counted (depth : Nat) (t : Ty ν) : Nat := if t.isMember then depth else 0

@[simp] theorem counted_zero (t : Ty ν) : t.counted 0 = 0 := ite_self 0

theorem level_counted (depth : Nat) (t : Ty ν) : t.level (t.counted depth) = t.level depth := by
  cases t <;> rfl

theorem IsLevel.level (h : t.IsLevel number u) : t.level number = some u := by
  cases t with
  | inner owner name arguments => exact h.ownerChain_getElem?
  | _ =>
    cases h
    rfl

theorem isLevel_of_level {depth : Nat} (h : t.level depth = some u) :
    t.IsLevel (t.counted depth) u := by
  cases t with
  | inner owner name arguments => exact isLevel_of_getElem?_ownerChain h
  | _ =>
    cases h
    exact .self _

def arguments : Ty ν → List (Ty ν)
  | parameterized _ arguments | inner _ _ arguments => arguments
  | _ => []

theorem step_argument (position : UInt8) (t : Ty ν) :
    t.step (.argument position) = t.arguments[position.toNat]? := by
  cases t <;> rfl

theorem step_cases (h : t.step s = some u) :
    (∃ dimensions component, t = array dimensions component ∧ s = .arrayElement
      ∧ u = if 1 < dimensions then array (dimensions - 1) component else component)
    ∨ (∃ isExtends, t = bounded isExtends u ∧ s = .wildcardBound)
    ∨ ∃ position, s = .argument position ∧ t.arguments[position.toNat]? = some u := by
  cases s with
  | nested => cases t <;> cases h
  | arrayElement =>
    cases t with
    | array dimensions component =>
      refine .inl ⟨dimensions, component, rfl, rfl, Option.some.inj ?_⟩
      rw [← h, step, apply_ite some]
    | _ => cases h
  | wildcardBound =>
    cases t with
    | bounded isExtends bound =>
      cases h
      exact .inr (.inl ⟨isExtends, rfl, rfl⟩)
    | _ => cases h
  | argument position => exact .inr (.inr ⟨position, rfl, step_argument position t ▸ h⟩)

theorem ne_nested_of_step (h : t.step s = some u) : s ≠ .nested := by
  rintro rfl
  cases t <;> cases h

theorem navigateFrom_cons (hs : s ≠ .nested) (depth : Nat) (t : Ty ν) (path : List PathStep) :
    t.navigateFrom depth (s :: path)
      = (t.level depth).bind fun u => (u.step s).bind fun v => v.navigate path := by
  cases s with
  | nested => exact absurd rfl hs
  | _ => rfl

theorem navigateFrom_replicate_nested (depth count : Nat) (t : Ty ν) (path : List PathStep) :
    t.navigateFrom depth (List.replicate count .nested ++ path)
      = t.navigateFrom (depth + count) path := by
  induction count generalizing depth with
  | zero => rfl
  | succ count ih =>
    rw [List.replicate_succ, List.cons_append, navigateFrom, ih, Nat.add_right_comm]
    rfl

theorem navigate_level (h : t.IsLevel number u) :
    t.navigate (List.replicate number .nested) = some u := by
  have hrun := navigateFrom_replicate_nested 0 number t []
  rw [List.append_nil, Nat.zero_add] at hrun
  exact hrun.trans h.level

theorem navigate_level_step (hlevel : t.IsLevel number u) (hstep : u.step s = some v)
    (path : List PathStep) :
    t.navigate (List.replicate number .nested ++ s :: path) = v.navigate path := by
  rw [navigate, navigateFrom_replicate_nested, Nat.zero_add,
    navigateFrom_cons (ne_nested_of_step hstep), hlevel.level]
  show (u.step s).bind _ = _
  rw [hstep]
  rfl

theorem one_lt_dimensions_iff {dimensions : UInt8} : 1 < dimensions ↔ 1 < dimensions.toNat :=
  UInt8.lt_iff_toNat_lt

theorem toNat_less_one_add_one {dimensions : UInt8} (h : 1 < dimensions) :
    (dimensions - 1).toNat + 1 = dimensions.toNat := by
  rw [UInt8.toNat_sub_of_le _ _ (UInt8.le_of_lt h)]
  exact Nat.sub_add_cancel (Nat.le_of_lt (one_lt_dimensions_iff.1 h))

theorem less_one_less (dimensions : UInt8) (count : Nat) :
    dimensions - 1 - UInt8.ofNat count = dimensions - UInt8.ofNat (count + 1) := by
  rw [UInt8.ofNat_add]
  grind

theorem navigate_replicate_arrayElement {count : Nat} {dimensions : UInt8}
    (h : count < dimensions.toNat) (component : Ty ν) (path : List PathStep) :
    (array dimensions component).navigate (List.replicate count .arrayElement ++ path)
      = (array (dimensions - UInt8.ofNat count) component).navigate path := by
  induction count generalizing dimensions with
  | zero => simp
  | succ count ih =>
    have hmore : 1 < dimensions := one_lt_dimensions_iff.2 (by omega)
    have hless := toNat_less_one_add_one hmore
    have hstep : (array dimensions component).step .arrayElement
        = some (array (dimensions - 1) component) := if_pos hmore
    rw [List.replicate_succ, List.cons_append]
    refine (navigate_level_step (.self _) hstep _).trans ?_
    rw [ih (by omega), less_one_less]

theorem navigate_array {dimensions : UInt8} (h : 0 < dimensions.toNat) (component : Ty ν)
    (path : List PathStep) :
    (array dimensions component).navigate
        (List.replicate dimensions.toNat .arrayElement ++ path) = component.navigate path := by
  obtain ⟨count, hcount⟩ := Nat.exists_eq_succ_of_ne_zero (Nat.ne_of_gt h)
  have hlast : (array (dimensions - UInt8.ofNat count) component).step .arrayElement
      = some component := by
    have hcountLt : count < UInt8.size := Nat.lt_trans (by omega) dimensions.toNat_lt
    have hfit : (UInt8.ofNat count).toNat = count := UInt8.toNat_ofNat_of_lt hcountLt
    have hle : UInt8.ofNat count ≤ dimensions := by
      rw [UInt8.le_iff_toNat_le, hfit]
      omega
    refine if_neg ?_
    rw [one_lt_dimensions_iff, UInt8.toNat_sub_of_le _ _ hle, hfit]
    omega
  rw [hcount, List.replicate_succ', List.append_assoc,
    navigate_replicate_arrayElement (by omega)]
  exact navigate_level_step (.self _) hlast path

/-- The rest of a path, after `depth` nesting steps at `t`, without the nesting steps at types
that have no owner. What comes after a step that does not apply stays as it is. -/
def withoutAbsorbedFrom (depth : Nat) (t : Ty ν) : List PathStep → List PathStep
  | [] => []
  | .nested :: path =>
    if t.isMember then .nested :: withoutAbsorbedFrom (depth + 1) t path
    else withoutAbsorbedFrom (depth + 1) t path
  | s :: path =>
    match (t.level depth).bind (step s) with
    | some part => s :: withoutAbsorbedFrom 0 part path
    | none => s :: path

def withoutAbsorbed (t : Ty ν) (path : List PathStep) : List PathStep :=
  t.withoutAbsorbedFrom 0 path

theorem replicate_counted_nested (depth : Nat) (t : Ty ν) (path : List PathStep) :
    List.replicate (t.counted depth) .nested ++ t.withoutAbsorbedFrom depth (.nested :: path)
      = List.replicate (t.counted (depth + 1)) .nested
        ++ t.withoutAbsorbedFrom (depth + 1) path := by
  cases hmember : t.isMember with
  | true => simp [counted, withoutAbsorbedFrom, hmember, List.replicate_succ']
  | false => simp [counted, withoutAbsorbedFrom, hmember]

theorem withoutAbsorbedFrom_cons {depth : Nat} (hlevel : t.level depth = some u)
    (hstep : u.step s = some v) (path : List PathStep) :
    t.withoutAbsorbedFrom depth (s :: path) = s :: v.withoutAbsorbed path := by
  have hnext : (t.level depth).bind (step s) = some v := by
    rw [hlevel]
    exact hstep
  rw [withoutAbsorbedFrom.eq_3 _ _ _ _ (ne_nested_of_step hstep), hnext]
  rfl

theorem navigate_withoutAbsorbedFrom (depth : Nat) (t : Ty ν) (path : List PathStep) :
    t.navigate (List.replicate (t.counted depth) .nested ++ t.withoutAbsorbedFrom depth path)
      = t.navigateFrom depth path := by
  induction path generalizing depth t with
  | nil =>
    rw [withoutAbsorbedFrom, navigate, navigateFrom_replicate_nested, Nat.zero_add]
    exact level_counted depth t
  | cons s path ih =>
    by_cases hs : s = .nested
    · subst hs
      rw [replicate_counted_nested, ih, navigateFrom]
    cases hnext : (t.level depth).bind (step s) with
    | none =>
      -- Both walks stop at this step, which is taken from the same level.
      rw [withoutAbsorbedFrom.eq_3 _ _ _ _ hs, hnext, navigate, navigateFrom_replicate_nested,
        navigateFrom_cons hs, navigateFrom_cons hs, Nat.zero_add, level_counted]
    | some part =>
      obtain ⟨u, hlevel, hstep⟩ := Option.bind_eq_some_iff.1 hnext
      have hrest := ih 0 part
      rw [counted_zero, List.replicate_zero, List.nil_append] at hrest
      rw [withoutAbsorbedFrom_cons hlevel hstep,
        navigate_level_step (isLevel_of_level hlevel) hstep, navigateFrom_cons hs, hlevel,
        Option.bind_some, hstep, Option.bind_some]
      exact hrest

theorem navigate_withoutAbsorbed (t : Ty ν) (path : List PathStep) :
    t.navigate (t.withoutAbsorbed path) = t.navigate path := by
  have h := navigate_withoutAbsorbedFrom 0 t path
  rw [counted_zero, List.replicate_zero, List.nil_append] at h
  exact h

def stepsFrom (path : List PathStep) (index : Nat) : Except Nat (List PathStep) :=
  if index ≤ path.length then .ok (path.drop index) else .error index

/-- Follows a path by an index into it: a run of nesting steps, then one other step, and so on. -/
def walk (path : List PathStep) (index : Nat) (t : Ty ν) : Except Nat (Option (Ty ν)) := do
  let rest ← stepsFrom path index
  let depth := (rest.takeWhile (· = .nested)).length
  match t.level depth with
  | none => return none
  | some here =>
    match _hs : path[index + depth]? with
    | none => return some here
    | some s =>
      match here.step s with
      | none => return none
      | some part => walk path (index + depth + 1) part
termination_by path.length - index
decreasing_by
  have hindex := (List.getElem?_eq_some_iff.1 _hs).1
  omega

theorem navigateFrom_eq_dropWhile (depth : Nat) (t : Ty ν) (path : List PathStep) :
    t.navigateFrom depth path
      = t.navigateFrom (depth + (path.takeWhile (· = .nested)).length)
        (path.dropWhile (· = .nested)) := by
  have hall : ∀ s ∈ path.takeWhile (· = .nested), s = .nested :=
    fun s hs => of_decide_eq_true (List.all_eq_true.1 List.all_takeWhile s hs)
  have hrun : path.takeWhile (· = .nested)
      = List.replicate (path.takeWhile (· = .nested)).length .nested :=
    List.eq_replicate_iff.2 ⟨rfl, hall⟩
  rw [← navigateFrom_replicate_nested, ← hrun, List.takeWhile_append_dropWhile]

theorem drop_of_drop_eq_append {path run rest : List PathStep} {index : Nat}
    (h : path.drop index = run ++ rest) : path.drop (index + run.length) = rest := by
  rw [← List.drop_drop, h, List.drop_left]

/-- The index stays within the path, whatever the path, and the walk leads where the path does. -/
theorem walk_eq_navigate {path : List PathStep} {index : Nat} (h : index ≤ path.length)
    (t : Ty ν) : t.walk path index = .ok (t.navigate (path.drop index)) := by
  have hrun := navigateFrom_eq_dropWhile 0 t (path.drop index)
  have hhead := List.head?_dropWhile_not (· = PathStep.nested) (path.drop index)
  have hrest := drop_of_drop_eq_append
    (List.takeWhile_append_dropWhile (p := (· = PathStep.nested)) (l := path.drop index)).symm
  rw [Nat.zero_add] at hrun
  rw [walk, stepsFrom, if_pos h, navigate, hrun]
  simp only [pure, bind, Except.bind]
  -- Of the run only its length matters now, and that no nesting step comes after it.
  generalize ((path.drop index).takeWhile (· = .nested)).length = depth at hrest ⊢
  rw [← hrest, List.head?_drop] at hhead
  rw [← hrest]
  have hne : ∀ s, path[index + depth]? = some s → s ≠ .nested := by
    intro s hs
    rw [hs] at hhead
    exact of_decide_eq_false hhead
  split
  · next hnone =>
    cases hdrop : path.drop (index + depth) with
    | nil => exact congrArg Except.ok hnone.symm
    | cons s rest =>
      have hs : path[index + depth]? = some s := by
        rw [← List.head?_drop, hdrop, List.head?_cons]
      rw [navigateFrom_cons (hne s hs), hnone]
      rfl
  · next here hhere =>
    split
    · next hend =>
      rw [List.drop_eq_nil_of_le (List.getElem?_eq_none_iff.1 hend)]
      exact congrArg Except.ok hhere.symm
    · next s hs =>
      obtain ⟨hindex, hget⟩ := List.getElem?_eq_some_iff.1 hs
      rw [List.drop_eq_getElem_cons hindex, hget, navigateFrom_cons (hne s hs), hhere,
        Option.bind_some]
      split
      · next hstuck =>
        rw [hstuck]
        rfl
      · next part hpart =>
        rw [hpart, walk_eq_navigate hindex]
        rfl
termination_by path.length - index

end ClassCatalog.Ty
