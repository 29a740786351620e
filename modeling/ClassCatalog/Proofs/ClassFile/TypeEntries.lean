import Mathlib.Data.List.TakeWhile
import ClassCatalog.Proofs.ClassFile.ElementValues

/-! Tables of annotations on types. Each entry is stepped over exactly, whatever is kept of it,
until one comes whose target type is undefined; nothing after this byte is looked at. -/

namespace ClassCatalog.ClassFile

def isDefinedTarget (target : UInt8) : Bool :=
  target ≤ 0x01 || (0x10 ≤ target && target ≤ 0x17) || (0x40 ≤ target && target ≤ 0x4B)

def isCodeTarget (target : UInt8) : Bool := 0x40 ≤ target && target ≤ 0x4B

theorem isCodeTarget_iff {target : UInt8} :
    isCodeTarget target = true ↔ 0x40 ≤ target.toNat ∧ target.toNat ≤ 0x4B := by
  simp only [isCodeTarget, Bool.and_eq_true, decide_eq_true_eq, UInt8.le_iff_toNat_le]
  exact Iff.rfl

theorem isDefinedTarget_iff {target : UInt8} :
    isDefinedTarget target = true ↔ (target.toNat ≤ 0x01
      ∨ (0x10 ≤ target.toNat ∧ target.toNat ≤ 0x17))
      ∨ (0x40 ≤ target.toNat ∧ target.toNat ≤ 0x4B) := by
  simp only [isDefinedTarget, Bool.or_eq_true, Bool.and_eq_true, decide_eq_true_eq,
    UInt8.le_iff_toNat_le]
  exact Iff.rfl

def useBytes : TypeUse → List UInt8
  | .classTypeParameter position | .methodTypeParameter position
  | .formalParameter position => [position]
  | .supertype index | .thrown index => wordBytes index
  | .classTypeParameterBound parameter bound
  | .methodTypeParameterBound parameter bound => [parameter, bound]
  | .field | .returnType | .receiver => []

structure VariableRange where
  start : UInt16
  length : UInt16
  slot : UInt16

def VariableRange.bytes (r : VariableRange) : List UInt8 :=
  wordBytes r.start ++ (wordBytes r.length ++ wordBytes r.slot)

inductive LocationForm where
  | declared (use : TypeUse)
  | localVariable (target : UInt8) (within : target = 0x40 ∨ target = 0x41)
    (ranges : List VariableRange) (fits : ranges.length < UInt16.size)
  | instruction (target : UInt8) (within : 0x42 ≤ target ∧ target ≤ 0x46) (place : UInt16)
  | typeArgument (target : UInt8) (within : 0x47 ≤ target ∧ target ≤ 0x4B) (place : UInt16)
    (argument : UInt8)
  | undefined (target : UInt8) (without : isDefinedTarget target = false) (info : List UInt8)

namespace LocationForm

def target : LocationForm → UInt8
  | declared use => use.code
  | localVariable target _ _ _ | instruction target _ _ | typeArgument target _ _ _
  | undefined target _ _ => target

def info : LocationForm → List UInt8
  | declared use => useBytes use
  | localVariable _ _ ranges _ => countedBytes VariableRange.bytes ranges
  | instruction _ _ place => wordBytes place
  | typeArgument _ _ place argument => wordBytes place ++ [argument]
  | undefined _ _ info => info

def use? : LocationForm → Option TypeUse
  | declared use => some use
  | _ => none

theorem toNat_within {target low high : UInt8} (h : low ≤ target ∧ target ≤ high) :
    low.toNat ≤ target.toNat ∧ target.toNat ≤ high.toNat :=
  ⟨UInt8.le_iff_toNat_le.1 h.1, UInt8.le_iff_toNat_le.1 h.2⟩

theorem isCodeTarget_of_within {target low high : UInt8} (h : low ≤ target ∧ target ≤ high)
    (hlow : 0x40 ≤ low.toNat) (hhigh : high.toNat ≤ 0x4B) : isCodeTarget target = true := by
  have hwithin := toNat_within h
  rw [isCodeTarget_iff]
  exact ⟨Nat.le_trans hlow hwithin.1, Nat.le_trans hwithin.2 hhigh⟩

theorem isSome_use? (l : LocationForm) :
    l.use?.isSome = (isDefinedTarget l.target && !isCodeTarget l.target) := by
  cases l with
  | declared use => cases use <;> rfl
  | localVariable target within ranges fits => rcases within with rfl | rfl <;> rfl
  | instruction target within place =>
    have hcode := isCodeTarget_of_within within (by decide) (by decide)
    simp [use?, LocationForm.target, hcode]
  | typeArgument target within place argument =>
    have hcode := isCodeTarget_of_within within (by decide) (by decide)
    simp [use?, LocationForm.target, hcode]
  | undefined target without info => simp [use?, LocationForm.target, without]

def someUses : List TypeUse :=
  [.classTypeParameter 0, .methodTypeParameter 0, .supertype 0, .classTypeParameterBound 0 0,
    .methodTypeParameterBound 0 0, .field, .returnType, .receiver, .formalParameter 0, .thrown 0]

theorem exists_of_target (target : UInt8) : ∃ l : LocationForm, l.target = target := by
  by_cases hdefined : isDefinedTarget target = true
  · rcases isDefinedTarget_iff.1 hdefined with hdeclared | hcode
    · have hmem : target.toNat ∈ someUses.map (·.code.toNat) := by
        show target.toNat ∈ [0, 1, 16, 17, 18, 19, 20, 21, 22, 23]
        simp only [List.mem_cons, List.not_mem_nil, or_false]
        omega
      obtain ⟨use, _, huse⟩ := List.mem_map.1 hmem
      exact ⟨declared use, UInt8.toNat_inj.1 huse⟩
    · by_cases hvariable : target = 0x40 ∨ target = 0x41
      · exact ⟨localVariable target hvariable [] (by decide), rfl⟩
      · have hlow : 0x42 ≤ target.toNat := by
          simp only [← UInt8.toNat_inj] at hvariable
          change ¬ (target.toNat = 0x40 ∨ target.toNat = 0x41) at hvariable
          omega
        by_cases hplace : target ≤ 0x46
        · exact ⟨instruction target ⟨UInt8.le_iff_toNat_le.2 hlow, hplace⟩ 0, rfl⟩
        · have hhigh : 0x47 ≤ target := UInt8.le_iff_toNat_le.2 (UInt8.lt_iff_toNat_lt.1
            (UInt8.not_le.1 hplace))
          exact ⟨typeArgument target ⟨hhigh, UInt8.le_iff_toNat_le.2 hcode.2⟩ 0 0, rfl⟩
  · rw [Bool.not_eq_true] at hdefined
    exact ⟨undefined target hdefined [], rfl⟩

def location : LocationForm → TypeEntry.Location
  | declared use => .declared use
  | localVariable .. | instruction .. | typeArgument .. => .code
  | undefined .. => .unknown

end LocationForm

open Reader (takes_byte takes_u1 takes_u2 takes_word takes_pure takes_bytes)

theorem Reader.takes_skip (bytes : List UInt8) : (skip bytes.length).Takes bytes () :=
  (takes_bytes bytes).bind_last (takes_pure ())

theorem length_wordBytes (w : UInt16) : (wordBytes w).length = 2 := length_bigEndianBytes 2 _

theorem length_rangesBytes (ranges : List VariableRange) :
    (ranges.flatMap VariableRange.bytes).length = ranges.length * 6 := by
  induction ranges with
  | nil => rfl
  | cons r ranges ih =>
    rw [List.flatMap_cons, List.length_append, ih, List.length_cons, VariableRange.bytes]
    simp only [List.length_append, length_wordBytes]
    omega

namespace TypeEntry

theorem takes_declared (use : TypeUse) :
    readLocation.Takes (use.code :: useBytes use) (.declared use) := by
  cases use with
  | classTypeParameter position =>
    exact (takes_u1 0x00).bind ((takes_byte position).bind_last (takes_pure _))
  | methodTypeParameter position =>
    exact (takes_u1 0x01).bind ((takes_byte position).bind_last (takes_pure _))
  | supertype index => exact (takes_u1 0x10).bind ((takes_word index).bind_last (takes_pure _))
  | classTypeParameterBound parameter bound =>
    exact (takes_u1 0x11).bind
      ((takes_byte parameter).bind ((takes_byte bound).bind_last (takes_pure _)))
  | methodTypeParameterBound parameter bound =>
    exact (takes_u1 0x12).bind
      ((takes_byte parameter).bind ((takes_byte bound).bind_last (takes_pure _)))
  | field => exact (takes_u1 0x13).bind_last (takes_pure _)
  | returnType => exact (takes_u1 0x14).bind_last (takes_pure _)
  | receiver => exact (takes_u1 0x15).bind_last (takes_pure _)
  | formalParameter position =>
    exact (takes_u1 0x16).bind ((takes_byte position).bind_last (takes_pure _))
  | thrown index => exact (takes_u1 0x17).bind ((takes_word index).bind_last (takes_pure _))

def readUndeclared (target : Nat) : Reader Location :=
  if target = 0x40 ∨ target = 0x41 then do
    let entries ← Reader.u2
    Reader.skip (entries * 6)
    return .code
  else if 0x42 ≤ target ∧ target ≤ 0x46 then do
    Reader.skip 2
    return .code
  else if 0x47 ≤ target ∧ target ≤ 0x4B then do
    Reader.skip 3
    return .code
  else return .unknown

theorem takes_undeclared {target : UInt8} {info : List UInt8} {location : Location}
    (hlow : 0x01 < target.toNat) (hhigh : ¬ (0x10 ≤ target.toNat ∧ target.toNat ≤ 0x17))
    (h : (readUndeclared target.toNat).Takes info location) :
    readLocation.Takes (target :: info) location := by
  refine (takes_u1 target).bind ?_
  split
  all_goals first | omega | exact h

theorem takes_localVariable {target : UInt8} (within : target = 0x40 ∨ target = 0x41)
    {ranges : List VariableRange} (fits : ranges.length < UInt16.size) :
    readLocation.Takes (target :: countedBytes VariableRange.bytes ranges) .code := by
  have hcount : Reader.u2.Takes (bigEndianBytes 2 ranges.length) ranges.length :=
    Reader.takes_number 2 fits
  have hskip := Reader.takes_skip (ranges.flatMap VariableRange.bytes)
  rw [length_rangesBytes] at hskip
  have htable : (readUndeclared target.toNat).Takes (countedBytes VariableRange.bytes ranges)
      .code := by
    have htarget : target.toNat = 0x40 ∨ target.toNat = 0x41 := by
      rcases within with rfl | rfl
      · exact .inl rfl
      · exact .inr rfl
    unfold readUndeclared
    rw [if_pos htarget]
    exact hcount.bind (hskip.bind_last (takes_pure _))
  rcases within with rfl | rfl <;> exact takes_undeclared (by decide) (by decide) htable

theorem takes_instruction {target : UInt8} (within : 0x42 ≤ target ∧ target ≤ 0x46)
    (place : UInt16) : readLocation.Takes (target :: wordBytes place) .code := by
  have hwithin : 0x42 ≤ target.toNat ∧ target.toNat ≤ 0x46 := LocationForm.toNat_within within
  have hskip := Reader.takes_skip (wordBytes place)
  rw [length_wordBytes] at hskip
  apply takes_undeclared (by omega) (by omega)
  unfold readUndeclared
  rw [if_neg (by omega), if_pos hwithin]
  exact hskip.bind_last (takes_pure _)

theorem takes_typeArgument {target : UInt8} (within : 0x47 ≤ target ∧ target ≤ 0x4B)
    (place : UInt16) (argument : UInt8) :
    readLocation.Takes (target :: (wordBytes place ++ [argument])) .code := by
  have hwithin : 0x47 ≤ target.toNat ∧ target.toNat ≤ 0x4B := LocationForm.toNat_within within
  have hskip := Reader.takes_skip (wordBytes place ++ [argument])
  rw [List.length_append, length_wordBytes] at hskip
  apply takes_undeclared (by omega) (by omega)
  unfold readUndeclared
  rw [if_neg (by omega), if_neg (by omega), if_pos hwithin]
  exact hskip.bind_last (takes_pure _)

theorem takes_undefined {target : UInt8} (h : isDefinedTarget target = false) :
    readLocation.Takes [target] .unknown := by
  have houtside := mt isDefinedTarget_iff.2 (Bool.eq_false_iff.1 h)
  push Not at houtside
  apply takes_undeclared (by omega) (by omega)
  unfold readUndeclared
  rw [if_neg (by omega), if_neg (by omega), if_neg (by omega)]
  exact takes_pure _

theorem takes_readLocation {l : LocationForm} (h : isDefinedTarget l.target = true) :
    readLocation.Takes (l.target :: l.info) l.location := by
  cases l with
  | declared use => exact takes_declared use
  | localVariable target within ranges fits => exact takes_localVariable within fits
  | instruction target within place => exact takes_instruction within place
  | typeArgument target within place argument => exact takes_typeArgument within place argument
  | undefined target without info => exact absurd h (Bool.eq_false_iff.1 without)

end TypeEntry

/-- A step of a path. Its second byte means something only for a step to a type argument. -/
inductive StepForm where
  | arrayElement (unused : UInt8)
  | nested (unused : UInt8)
  | wildcardBound (unused : UInt8)
  | argument (position : UInt8)
  | undefined (kind : UInt8) (without : 3 < kind) (unused : UInt8)

namespace StepForm

def kind : StepForm → UInt8
  | arrayElement _ => 0
  | nested _ => 1
  | wildcardBound _ => 2
  | argument _ => 3
  | undefined kind _ _ => kind

def bytes (s : StepForm) : List UInt8 :=
  match s with
  | arrayElement unused | nested unused | wildcardBound unused | undefined _ _ unused =>
    [s.kind, unused]
  | argument position => [s.kind, position]

def step? : StepForm → Option PathStep
  | arrayElement _ => some .arrayElement
  | nested _ => some .nested
  | wildcardBound _ => some .wildcardBound
  | argument position => some (.argument position)
  | undefined .. => none

theorem isSome_step? (s : StepForm) : s.step?.isSome = decide (s.kind ≤ 3) := by
  cases s with
  | undefined kind without unused => exact (decide_eq_false (UInt8.not_le.2 without)).symm
  | _ => rfl

theorem takes_step (s : StepForm) :
    Reader.Takes (do
      let kind ← Reader.byte
      return PathStep.ofCode? kind (← Reader.byte)) s.bytes s.step? := by
  have hread (kind argument : UInt8) : Reader.Takes (do
      let kind ← Reader.byte
      return PathStep.ofCode? kind (← Reader.byte)) [kind, argument]
      (PathStep.ofCode? kind argument) :=
    (takes_byte kind).bind ((takes_byte argument).bind_last (takes_pure _))
  cases s with
  | arrayElement unused => exact hread 0 unused
  | nested unused => exact hread 1 unused
  | wildcardBound unused => exact hread 2 unused
  | argument position => exact hread 3 position
  | undefined kind without unused =>
    have hstep : PathStep.ofCode? kind unused = none := by
      have hkind : 3 < kind.toNat := UInt8.lt_iff_toNat_lt.1 without
      unfold PathStep.ofCode?
      split
      all_goals first | omega | rfl
    have hundefined := hread kind unused
    rw [hstep] at hundefined
    exact hundefined

end StepForm

theorem Reader.takes_times {ι α : Type} {p : Reader α} {enc : ι → List UInt8} {val : ι → α}
    (h : ∀ x, p.Takes (enc x) (val x)) (xs : List ι) :
    (times xs.length p).Takes (xs.flatMap enc) (xs.map val) := by
  induction xs with
  | nil => exact takes_pure []
  | cons x xs ih => exact (h x).bind (ih.bind_last (takes_pure _))

def path? : List StepForm → Option (List PathStep)
  | [] => some []
  | s :: steps => s.step?.bind fun step => (path? steps).map (step :: ·)

def pathBytes (steps : List StepForm) : List UInt8 :=
  UInt8.ofNat steps.length :: steps.flatMap StepForm.bytes

theorem mapM_step? (steps : List StepForm) :
    (steps.map StepForm.step?).mapM id = path? steps := by
  induction steps with
  | nil => rfl
  | cons s steps ih =>
    rw [List.map_cons, List.mapM_cons, ih, path?]
    cases s.step? with
    | none => rfl
    | some step => cases path? steps <;> rfl

theorem path?_eq_some_iff {steps : List StepForm} {path : List PathStep} :
    path? steps = some path ↔ steps.map StepForm.step? = path.map some := by
  induction steps generalizing path with
  | nil => cases path <;> simp [path?]
  | cons s steps ih =>
    cases path with
    | nil => cases hs : s.step? <;> simp [path?, hs]
    | cons step path => cases hs : s.step? <;> simp [path?, hs, ih, and_comm]

theorem isSome_path? (steps : List StepForm) :
    (path? steps).isSome = steps.all (·.kind ≤ 3) := by
  induction steps with
  | nil => rfl
  | cons s steps ih =>
    rw [List.all_cons, ← s.isSome_step?, ← ih, path?]
    cases s.step? with
    | none => rfl
    | some step => exact Option.isSome_map

theorem TypeEntry.takes_readPath {steps : List StepForm} (fits : steps.length < UInt8.size) :
    readPath.Takes (pathBytes steps) (path? steps) := by
  have hcount := takes_u1 (UInt8.ofNat steps.length)
  have hlength : (UInt8.ofNat steps.length).toNat = steps.length := UInt8.toNat_ofNat_of_lt' fits
  rw [hlength] at hcount
  rw [← mapM_step?]
  exact hcount.bind ((Reader.takes_times StepForm.takes_step steps).bind_last (takes_pure _))

structure TypeEntryForm where
  location : LocationForm
  steps : List StepForm
  body : AnnotationForm
  steps_fit : steps.length < UInt8.size := by decide

namespace TypeEntryForm

def bytes (e : TypeEntryForm) : List UInt8 :=
  e.location.target :: (e.location.info ++ (pathBytes e.steps ++ e.body.bytes))

def isDefined (e : TypeEntryForm) : Bool := isDefinedTarget e.location.target

/-- Whether the entry stands outside code, with a path that is defined throughout. -/
def isKept (e : TypeEntryForm) : Bool :=
  e.isDefined && !isCodeTarget e.location.target && e.steps.all (·.kind ≤ 3)

def kept? (visible : Bool) (e : TypeEntryForm) : Option (TypeEntry String) :=
  e.location.use?.bind fun use => (path? e.steps).map fun path => ⟨use, path, e.body.use visible⟩

structure WellFormed (pool : ConstantPool) (visible : Bool) (e : TypeEntryForm) : Prop where
  body : e.body.WellFormed pool (Nested.elementValue.limit - 1)
  shallow : ∀ m ∈ e.body.members, ∀ depth, Value.LiesAt 1 (m.2.value visible) depth →
    depth < Nested.elementValue.limit

theorem isSome_kept? (visible : Bool) (e : TypeEntryForm) :
    (e.kept? visible).isSome = e.isKept := by
  have hkept : e.isKept = (e.location.use?.isSome && (path? e.steps).isSome) := by
    rw [isKept, isDefined, e.location.isSome_use?, isSome_path?]
  rw [hkept, kept?]
  cases e.location.use? with
  | none => rfl
  | some use => exact Option.isSome_map

/-- What is kept of an entry has the target, the path and the annotation of the entry. -/
structure Says (visible : Bool) (e : TypeEntryForm) (k : TypeEntry String) : Prop where
  location : e.location = .declared k.use
  path : e.steps.map StepForm.step? = k.path.map some
  body : k.body = e.body.use visible

theorem says_of_kept? {visible : Bool} {e : TypeEntryForm} {k : TypeEntry String}
    (h : e.kept? visible = some k) : e.Says visible k := by
  unfold kept? at h
  obtain ⟨use, huse, h⟩ := Option.bind_eq_some_iff.1 h
  obtain ⟨path, hpath, rfl⟩ := Option.map_eq_some_iff.1 h
  have hlocation : e.location = .declared use := by
    cases hl : e.location with
    | declared found =>
      rw [hl] at huse
      cases huse
      rfl
    | _ =>
      rw [hl] at huse
      cases huse
  exact ⟨hlocation, path?_eq_some_iff.1 hpath, rfl⟩

end TypeEntryForm

open TypeEntryForm (kept? WellFormed)

namespace TypeEntry

variable {pool : ConstantPool} {visible : Bool}

theorem takes_readOne {a : AnnotationForm}
    (h : a.WellFormed pool (Nested.elementValue.limit - 1))
    (hshallow : ∀ m ∈ a.members, ∀ depth, Value.LiesAt 1 (m.2.value visible) depth →
      depth < Nested.elementValue.limit) :
    (Annotations.readOne pool visible).Takes a.bytes (a.use visible) := by
  have hbody := ElementValue.takesIf_body visible h.type h.fits
    fun m hm => ⟨(h.members m hm).1, ElementValue.takesIf_read (h.members m hm).2⟩
  have hwithin : ∀ m ∈ a.members,
      (m.2.value visible).depth ≤ Nested.elementValue.limit - 1 := by
    intro m hm
    rw [Value.depth_le_iff_liesAt _ 1]
    exact hshallow m hm
  exact (hbody.takes hwithin).bind_last (takes_pure _)

theorem takes_readMany_cons {e : TypeEntryForm} (hdefined : e.isDefined = true)
    (h : e.WellFormed pool visible) {n : Nat} {back : List UInt8}
    {more : List (TypeEntry String)} (hmore : (readMany pool visible n).Takes back more) :
    (readMany pool visible (n + 1)).Takes (e.bytes ++ back)
      ((e.kept? visible).toList ++ more) := by
  have hlocation := takes_readLocation hdefined
  have hpath := takes_readPath e.steps_fit
  have hbody := takes_readOne h.body h.shallow
  have hbytes : e.bytes ++ back = (e.location.target :: e.location.info)
      ++ (pathBytes e.steps ++ (e.body.bytes ++ back)) := by
    simp [TypeEntryForm.bytes]
  rw [hbytes]
  refine hlocation.bind ?_
  cases hl : e.location with
  | declared use =>
    refine hpath.bind (hbody.bind (hmore.bind_last ?_))
    cases hp : path? e.steps with
    | none => simp [kept?, hl, LocationForm.use?, hp, takes_pure]
    | some path => simp [kept?, hl, LocationForm.use?, hp, takes_pure]
  | undefined target without info =>
    have hundefined : e.isDefined = false := by rw [TypeEntryForm.isDefined, hl]; exact without
    rw [hundefined] at hdefined
    cases hdefined
  | _ =>
    have hnone : e.kept? visible = none := by rw [kept?, hl]; rfl
    rw [hnone]
    exact hpath.bind (hbody.bind hmore)

theorem takes_readMany {entries : List TypeEntryForm}
    (h : ∀ e ∈ entries, e.isDefined = true ∧ e.WellFormed pool visible) {n : Nat}
    {back : List UInt8} {more : List (TypeEntry String)}
    (hmore : (readMany pool visible n).Takes back more) :
    (readMany pool visible (entries.length + n)).Takes
      (entries.flatMap TypeEntryForm.bytes ++ back)
      (entries.filterMap (kept? visible) ++ more) := by
  induction entries with
  | nil => simpa using hmore
  | cons e entries ih =>
    obtain ⟨⟨hdefined, hformed⟩, hothers⟩ := List.forall_mem_cons.1 h
    have hstep := takes_readMany_cons hdefined hformed (ih hothers)
    have hlength : (e :: entries).length + n = entries.length + n + 1 := by
      rw [List.length_cons]
      omega
    have hkept : (e :: entries).filterMap (kept? visible) ++ more
        = (e.kept? visible).toList ++ (entries.filterMap (kept? visible) ++ more) := by
      cases he : e.kept? visible <;> simp [he]
    rw [hlength, hkept, List.flatMap_cons, List.append_assoc]
    exact hstep

/-- An undefined target type ends the table, whatever count is left. -/
theorem takes_readMany_undefined {target : UInt8} (h : isDefinedTarget target = false) (n : Nat) :
    (readMany pool visible (n + 1)).Takes [target] [] :=
  (takes_undefined h).bind_last (takes_pure [])

end TypeEntry

theorem Reader.Takes.value {α : Type} {p : Reader α} {bytes : List UInt8} {a : α}
    (h : p.Takes bytes a) (rest : List UInt8) : p.value (bytes ++ rest) = .ok a := by
  rw [Reader.value, Cursor.ofBytes, h rest 0]
  rfl

namespace TypeEntry

variable {pool : ConstantPool} {visible : Bool}

theorem value_read_defined {entries : List TypeEntryForm}
    (fits : entries.length < UInt16.size)
    (h : ∀ e ∈ entries, e.isDefined = true ∧ e.WellFormed pool visible) (rest : List UInt8) :
    (read pool visible).value (countedBytes TypeEntryForm.bytes entries ++ rest)
      = .ok (entries.filterMap (kept? visible)) := by
  have hentries := takes_readMany h (n := 0) (takes_pure [])
  simp only [Nat.add_zero, List.append_nil] at hentries
  exact ((Reader.takes_number 2 fits).bind hentries).value rest

theorem value_read_undefined {front : List TypeEntryForm}
    (h : ∀ e ∈ front, e.isDefined = true ∧ e.WellFormed pool visible) {count : Nat}
    (hmore : front.length < count) (fits : count < UInt16.size) {target : UInt8}
    (htarget : isDefinedTarget target = false) (garbage : List UInt8) :
    (read pool visible).value
        (bigEndianBytes 2 count ++ (front.flatMap TypeEntryForm.bytes ++ target :: garbage))
      = .ok (front.filterMap (kept? visible)) := by
  obtain ⟨n, rfl⟩ : ∃ n, count = front.length + (n + 1) :=
    Nat.exists_eq_add_of_lt hmore
  have hentries := takes_readMany h (takes_readMany_undefined htarget n)
  rw [List.append_nil] at hentries
  have htable : (read pool visible).Takes
      (bigEndianBytes 2 (front.length + (n + 1))
        ++ (front.flatMap TypeEntryForm.bytes ++ [target])) (front.filterMap (kept? visible)) :=
    (Reader.takes_number 2 fits).bind hentries
  have hvalue := htable.value garbage
  rwa [List.append_assoc, List.append_assoc] at hvalue

end TypeEntry

/-- Of a table of annotations on types, those before the first undefined target type are kept that
stand outside code and have a path of defined steps, each as its bytes say. What follows an
undefined target type may be anything, and any byte may be a target type. -/
theorem type_entries_kept_until_undefined (pool : ConstantPool) (visible : Bool) :
    (∀ entries : List TypeEntryForm, entries.length < UInt16.size →
      (∀ e ∈ entries.takeWhile (·.isDefined), e.WellFormed pool visible) →
        ∀ rest, (TypeEntry.read pool visible).value
            (countedBytes TypeEntryForm.bytes entries ++ rest)
          = .ok ((entries.takeWhile (·.isDefined)).filterMap (kept? visible)))
      ∧ (∀ front : List TypeEntryForm,
        (∀ e ∈ front, e.isDefined = true ∧ e.WellFormed pool visible) →
          ∀ count target, front.length < count → count < UInt16.size →
            isDefinedTarget target = false → ∀ garbage, (TypeEntry.read pool visible).value
                (bigEndianBytes 2 count
                  ++ (front.flatMap TypeEntryForm.bytes ++ target :: garbage))
              = .ok (front.filterMap (kept? visible)))
      ∧ (∀ e : TypeEntryForm, (e.kept? visible).isSome = e.isKept
        ∧ ∀ k, e.kept? visible = some k → e.Says visible k)
      ∧ ∀ target, ∃ l : LocationForm, l.target = target := by
  refine ⟨?_, ?_, ?_, LocationForm.exists_of_target⟩
  · intro entries fits h rest
    have hsplit := List.takeWhile_append_dropWhile (p := TypeEntryForm.isDefined) (l := entries)
    have hhead := List.head?_dropWhile_not TypeEntryForm.isDefined entries
    have hdefined : ∀ e ∈ entries.takeWhile (·.isDefined),
        e.isDefined = true ∧ e.WellFormed pool visible :=
      fun e he => ⟨List.mem_takeWhile_imp he, h e he⟩
    generalize entries.takeWhile (·.isDefined) = front at hsplit hdefined ⊢
    generalize entries.dropWhile (·.isDefined) = back at hsplit hhead
    subst hsplit
    cases back with
    | nil =>
      rw [List.append_nil] at fits ⊢
      exact TypeEntry.value_read_defined fits hdefined rest
    | cons u others =>
      have hmore : front.length < (front ++ u :: others).length := by
        rw [List.length_append, List.length_cons]
        omega
      -- All that comes after the first undefined target type is left where it is.
      have hread := TypeEntry.value_read_undefined hdefined hmore fits hhead
        (u.location.info ++ (pathBytes u.steps ++ u.body.bytes)
          ++ (others.flatMap TypeEntryForm.bytes ++ rest))
      simpa [countedBytes, TypeEntryForm.bytes, List.append_assoc] using hread
  · intro front h count target hmore fits htarget garbage
    exact TypeEntry.value_read_undefined h hmore fits htarget garbage
  · exact fun e => ⟨e.isSome_kept? visible, fun k hk => TypeEntryForm.says_of_kept? hk⟩

namespace TypeEntryForm

def marker : AnnotationForm := ⟨ElementForm.switch.type, []⟩

theorem wellFormed_marker {e : TypeEntryForm} (h : e.body = marker) (visible : Bool) :
    e.WellFormed ElementForm.switchPool visible := by
  refine ⟨?_, ?_⟩
  · rw [h]
    exact ⟨⟨_, rfl, .string (by decide)⟩, by decide, nofun⟩
  · rw [h]
    exact nofun

def onVariable : TypeEntryForm where
  location := .localVariable 0x40 (.inl rfl) [⟨0, 4, 1⟩] (by decide)
  steps := []
  body := marker

def offPath : TypeEntryForm where
  location := .declared .field
  steps := [.nested 0, .undefined 9 (by decide) 0]
  body := marker

def onThrown : TypeEntryForm where
  location := .declared (.thrown 2)
  steps := [.arrayElement 7, .argument 1]
  body := marker

def onUnknown : TypeEntryForm where
  location := .undefined 0x30 rfl [1, 2, 3]
  steps := []
  body := marker

end TypeEntryForm

open TypeEntryForm (onVariable offPath onThrown onUnknown wellFormed_marker) in
/-- Of a local variable, a path with an unknown step, a thrown type and an unknown place with a
field behind it, the thrown type is kept; it is kept as well if nothing but two odd bytes follow. -/
theorem type_entries_kept_until_undefined_mixed :
    (TypeEntry.read ElementForm.switchPool true).value
        [0, 5, 0x40, 0, 1, 0, 0, 0, 4, 0, 1, 0, 0, 1, 0, 0, 0x13, 2, 1, 0, 9, 0, 0, 1, 0, 0,
          0x17, 0, 2, 2, 0, 7, 3, 1, 0, 1, 0, 0, 0x30, 1, 2, 3, 0, 0, 1, 0, 0,
          0x40, 0, 1, 0, 0, 0, 4, 0, 1, 0, 0, 1, 0, 0]
      = .ok [⟨.thrown 2, [.arrayElement, .argument 1], ⟨"A", true, none, []⟩⟩]
    ∧ (TypeEntry.read ElementForm.switchPool true).value
        [0, 9, 0x17, 0, 2, 2, 0, 7, 3, 1, 0, 1, 0, 0, 0x4C, 255, 255]
      = .ok [⟨.thrown 2, [.arrayElement, .argument 1], ⟨"A", true, none, []⟩⟩] := by
  obtain ⟨hentries, hgarbage, _⟩ := type_entries_kept_until_undefined ElementForm.switchPool true
  refine ⟨?_, ?_⟩
  · have hbodies : ∀ e ∈ [onVariable, offPath, onThrown, onUnknown, onVariable],
        e.body = TypeEntryForm.marker := by
      simp [onVariable, offPath, onThrown, onUnknown]
    exact hentries [onVariable, offPath, onThrown, onUnknown, onVariable] (by decide)
      (fun e he => wellFormed_marker (hbodies e (List.takeWhile_subset _ he)) true) []
  · exact hgarbage [onThrown] (List.forall_mem_singleton.2 ⟨rfl, wellFormed_marker rfl true⟩) 9 0x4C
      (by decide) (by decide) rfl [255, 255]

end ClassCatalog.ClassFile
