import ClassCatalog.Proofs.ClassFile.Descriptor
import ClassCatalog.Proofs.Sums

/-! The grammar of descriptors: its forms, the text and the type of each, and that a descriptor is
read exactly if it is the text of a form. -/

namespace ClassCatalog.ClassFile.Descriptor

structure ClassName where
  chars : List Char
  ne_nil : chars ≠ []
  no_semicolon : ';' ∉ chars

inductive Base where
  | primitive (p : Primitive)
  | named (name : ClassName)

namespace Base

def chars : Base → List Char
  | primitive p => [p.letter]
  | named name => 'L' :: (name.chars ++ [';'])

def ty : Base → Ty String
  | primitive p => .primitive p
  | named name => .named (binaryName (String.ofList name.chars))

end Base

structure FieldForm where
  dimensions : Nat
  dimensions_le : dimensions ≤ 255
  base : Base

namespace FieldForm

def chars (f : FieldForm) : List Char := List.replicate f.dimensions '[' ++ f.base.chars

def text (f : FieldForm) : String := String.ofList f.chars

def ty (f : FieldForm) : Ty String :=
  if f.dimensions = 0 then f.base.ty else .array (UInt8.ofNat f.dimensions) f.base.ty

end FieldForm

/-- A method without a result returns `void`. -/
structure MethodForm where
  parameters : List FieldForm
  result : Option FieldForm

namespace MethodForm

def resultChars : Option FieldForm → List Char
  | none => ['V']
  | some f => f.chars

def resultTy : Option FieldForm → Ty String
  | none => .void
  | some f => f.ty

def chars (m : MethodForm) : List Char :=
  '(' :: (m.parameters.flatMap FieldForm.chars ++ ')' :: resultChars m.result)

def text (m : MethodForm) : String := String.ofList m.chars

def types (m : MethodForm) : List (Ty String) × Ty String :=
  (m.parameters.map FieldForm.ty, resultTy m.result)

end MethodForm

variable {cs rest : List Char} {t : Ty String}

theorem letter_of_ofLetter? {c : Char} {p : Primitive} (h : Primitive.ofLetter? c = some p) :
    p.letter = c := by
  unfold Primitive.ofLetter? at h
  split at h <;> cases h <;> rfl

theorem baseType_primitive (p : Primitive) (rest : List Char) :
    baseType (p.letter :: rest) = some (.primitive p, rest) := by
  cases p <;> rfl

theorem baseType_named (name : ClassName) (rest : List Char) :
    baseType ('L' :: (name.chars ++ ';' :: rest))
      = some (.named (binaryName (String.ofList name.chars)), rest) := by
  have hfront : ∀ c ∈ name.chars, (c != ';') = true := by
    intro c hc
    have hne : c ≠ ';' := fun h => name.no_semicolon (h ▸ hc)
    simpa using hne
  obtain ⟨htake, hdrop⟩ : (name.chars ++ ';' :: rest).takeWhile (· != ';') = name.chars
      ∧ (name.chars ++ ';' :: rest).dropWhile (· != ';') = ';' :: rest :=
    Text.cut_append hfront (by simp)
  obtain ⟨first, others, hname⟩ := List.exists_cons_of_ne_nil name.ne_nil
  rw [baseType, htake, hdrop, hname]
  rfl

theorem baseType_eq_some_iff :
    baseType cs = some (t, rest) ↔ ∃ b : Base, cs = b.chars ++ rest ∧ t = b.ty := by
  constructor
  · intro h
    unfold baseType at h
    split at h
    · next cs =>
      split at h
      · next first others tail htake hdrop =>
        cases h
        have hnone : ';' ∉ first :: others := by
          intro hmem
          rw [← htake] at hmem
          simpa using List.all_eq_true.1 List.all_takeWhile _ hmem
        refine ⟨.named ⟨first :: others, by simp, hnone⟩, ?_, rfl⟩
        have hcut := List.takeWhile_append_dropWhile (p := (· != ';')) (l := cs)
        rw [htake, hdrop] at hcut
        simp [Base.chars, ← hcut]
      · cases h
    · next c tail _ =>
      obtain ⟨p, hp, heq⟩ := Option.map_eq_some_iff.1 h
      cases heq
      exact ⟨.primitive p, by rw [Base.chars, letter_of_ofLetter? hp]; rfl, rfl⟩
    · cases h
  · rintro ⟨b, rfl, rfl⟩
    cases b with
    | primitive p => exact baseType_primitive p rest
    | named name =>
      have hchars : (Base.named name).chars ++ rest = 'L' :: (name.chars ++ ';' :: rest) := by
        simp [Base.chars]
      rw [hchars]
      exact baseType_named name rest

theorem Base.chars_eq_cons (b : Base) :
    ∃ c tail, b.chars = c :: tail ∧ c ∉ ['[', ')', 'V'] := by
  cases b with
  | primitive p => exact ⟨p.letter, [], rfl, by cases p <;> decide⟩
  | named name => exact ⟨'L', _, rfl, by decide⟩

theorem Base.arrayOf_ty (b : Base) (dimensions : UInt8) :
    b.ty.arrayOf dimensions = .array dimensions b.ty := by
  cases b <;> rfl

theorem takeWhile_bracket (cs : List Char) :
    cs.takeWhile (· == '[') = List.replicate (cs.takeWhile (· == '[')).length '[' := by
  rw [List.eq_replicate_iff]
  exact ⟨rfl, fun c hc => eq_of_beq (List.all_eq_true.1 List.all_takeWhile c hc)⟩

theorem cut_replicate (n : Nat) (h : rest.head? ≠ some '[') :
    (List.replicate n '[' ++ rest).takeWhile (· == '[') = List.replicate n '['
      ∧ (List.replicate n '[' ++ rest).dropWhile (· == '[') = rest := by
  apply Text.cut_append
  · intro d hd
    simpa using List.eq_of_mem_replicate hd
  · intro d hd
    have hne : d ≠ '[' := fun heq => h (heq ▸ hd)
    simpa using hne

theorem FieldForm.cut_brackets (f : FieldForm) (rest : List Char) :
    (f.chars ++ rest).takeWhile (· == '[') = List.replicate f.dimensions '['
      ∧ (f.chars ++ rest).dropWhile (· == '[') = f.base.chars ++ rest := by
  obtain ⟨c, tail, hchars, hc⟩ := f.base.chars_eq_cons
  rw [FieldForm.chars, List.append_assoc]
  apply cut_replicate
  rw [hchars]
  intro h
  cases h
  simp at hc

theorem fieldType_eq_some_iff :
    fieldType cs = some (t, rest) ↔ ∃ f : FieldForm, cs = f.chars ++ rest ∧ t = f.ty := by
  constructor
  · intro h
    unfold fieldType at h
    simp only at h
    split at h
    · cases h
    · next hmost =>
      obtain ⟨⟨base, tail⟩, hbase, heq⟩ := Option.bind_eq_some_iff.1 h
      cases heq
      obtain ⟨b, hdrop, rfl⟩ := baseType_eq_some_iff.1 hbase
      refine ⟨⟨_, Nat.not_lt.1 hmost, b⟩, ?_, ?_⟩
      · have hcut := List.takeWhile_append_dropWhile (p := (· == '[')) (l := cs)
        rw [hdrop] at hcut
        rw [FieldForm.chars, List.append_assoc, ← takeWhile_bracket, hcut]
      · rw [FieldForm.ty, Base.arrayOf_ty]
  · rintro ⟨f, rfl, rfl⟩
    obtain ⟨htake, hdrop⟩ := f.cut_brackets rest
    have hbase : baseType (f.base.chars ++ rest) = some (f.base.ty, rest) :=
      baseType_eq_some_iff.2 ⟨f.base, rfl, rfl⟩
    unfold fieldType
    rw [htake, hdrop, List.length_replicate, if_neg (Nat.not_lt.2 f.dimensions_le), hbase]
    simp only [Option.bind_eq_bind, Option.bind_some, Base.arrayOf_ty]
    rfl

theorem FieldForm.chars_eq_cons (f : FieldForm) :
    ∃ c tail, f.chars = c :: tail ∧ c ≠ ')' ∧ c ≠ 'V' := by
  obtain ⟨c, tail, hchars, hc⟩ := f.base.chars_eq_cons
  unfold FieldForm.chars
  cases f.dimensions with
  | zero =>
    refine ⟨c, tail, hchars, ?_, ?_⟩
    · rintro rfl
      simp at hc
    · rintro rfl
      simp at hc
  | succ n => exact ⟨'[', _, rfl, by decide, by decide⟩

theorem FieldForm.length_chars_pos (f : FieldForm) : 0 < f.chars.length := by
  obtain ⟨c, tail, hchars, _⟩ := f.chars_eq_cons
  rw [hchars]
  exact Nat.succ_pos _

theorem parameters_more {fuel : Nat} {c : Char} (hc : c ≠ ')') :
    parameters (fuel + 1) (c :: cs) = (do
      let (ty, rest) ← fieldType (c :: cs)
      let (tys, rest) ← parameters fuel rest
      return (ty :: tys, rest)) := by
  rw [parameters]
  intro tail h
  cases h
  exact hc rfl

/-- Each field type takes a character, so that the fuel is not used up before the parenthesis. -/
theorem parameters_of_forms (fs : List FieldForm) (rest : List Char) {fuel : Nat}
    (hfuel : fs.length ≤ fuel) :
    parameters fuel (fs.flatMap FieldForm.chars ++ ')' :: rest)
      = some (fs.map FieldForm.ty, rest) := by
  induction fs generalizing fuel with
  | nil => cases fuel <;> rfl
  | cons f fs ih =>
    cases fuel with
    | zero => cases hfuel
    | succ fuel =>
      obtain ⟨c, tail, hchars, hparen, _⟩ := f.chars_eq_cons
      have hfield : fieldType (c :: tail ++ (fs.flatMap FieldForm.chars ++ ')' :: rest))
          = some (f.ty, fs.flatMap FieldForm.chars ++ ')' :: rest) :=
        fieldType_eq_some_iff.2 ⟨f, by rw [hchars], rfl⟩
      have hmore := ih (Nat.le_of_succ_le_succ hfuel)
      rw [List.flatMap_cons, List.append_assoc, hchars, List.cons_append, parameters_more hparen,
        ← List.cons_append, hfield]
      simp only [Option.bind_eq_bind, Option.bind_some, hmore]
      rfl

theorem forms_of_parameters {fuel : Nat} {ts : List (Ty String)}
    (h : parameters fuel cs = some (ts, rest)) :
    ∃ fs : List FieldForm, cs = fs.flatMap FieldForm.chars ++ ')' :: rest
      ∧ ts = fs.map FieldForm.ty := by
  fun_induction parameters fuel cs generalizing ts rest with
  | case1 =>
    cases h
    exact ⟨[], rfl, rfl⟩
  | case2 => cases h
  | case3 fuel cs _ ih =>
    obtain ⟨⟨t, rest₁⟩, ht, h⟩ := Option.bind_eq_some_iff.1 h
    obtain ⟨⟨ts', rest₂⟩, hts, h⟩ := Option.bind_eq_some_iff.1 h
    cases h
    obtain ⟨f, rfl, rfl⟩ := fieldType_eq_some_iff.1 ht
    obtain ⟨fs, rfl, rfl⟩ := ih _ hts
    exact ⟨f :: fs, by simp, rfl⟩

theorem returnType_eq_some_iff :
    returnType cs = some (t, rest) ↔ ∃ r : Option FieldForm,
      cs = MethodForm.resultChars r ++ rest ∧ t = MethodForm.resultTy r := by
  constructor
  · intro h
    unfold returnType at h
    split at h
    · cases h
      exact ⟨none, rfl, rfl⟩
    · obtain ⟨f, hcs, ht⟩ := fieldType_eq_some_iff.1 h
      exact ⟨some f, hcs, ht⟩
  · rintro ⟨r, rfl, rfl⟩
    cases r with
    | none => rfl
    | some f =>
      obtain ⟨c, tail, hchars, _, hvoid⟩ := f.chars_eq_cons
      rw [MethodForm.resultChars, MethodForm.resultTy]
      unfold returnType
      split
      · next others htail =>
        rw [hchars] at htail
        cases htail
        exact (hvoid rfl).elim
      · exact fieldType_eq_some_iff.2 ⟨f, rfl, rfl⟩

theorem complete_eq_some_iff {α : Type} {r : Option (α × List Char)} {a : α} :
    complete r = some a ↔ r = some (a, []) := by
  constructor
  · exact complete_eq_some
  · rintro rfl
    rfl

theorem method_eq_some_iff {r : List (Ty String) × Ty String} :
    method cs = some r ↔ ∃ m : MethodForm, cs = m.chars ∧ r = m.types := by
  constructor
  · intro h
    unfold method at h
    split at h
    · obtain ⟨⟨ts, tail⟩, hts, h⟩ := Option.bind_eq_some_iff.1 h
      obtain ⟨result, hresult, h⟩ := Option.bind_eq_some_iff.1 h
      cases h
      obtain ⟨fs, rfl, rfl⟩ := forms_of_parameters hts
      obtain ⟨f, rfl, rfl⟩ := returnType_eq_some_iff.1 (complete_eq_some_iff.1 hresult)
      exact ⟨⟨fs, f⟩, by rw [List.append_nil]; rfl, rfl⟩
    · cases h
  · rintro ⟨m, rfl, rfl⟩
    have hfuel : m.parameters.length
        ≤ (m.parameters.flatMap FieldForm.chars
          ++ ')' :: MethodForm.resultChars m.result).length := by
      have hparameters := length_le_length_flatMap fun f (_ : f ∈ m.parameters) => f.length_chars_pos
      rw [List.length_append]
      omega
    have hresult : complete (returnType (MethodForm.resultChars m.result))
        = some (MethodForm.resultTy m.result) :=
      complete_eq_some_iff.2 (returnType_eq_some_iff.2 ⟨m.result, by rw [List.append_nil], rfl⟩)
    rw [MethodForm.chars, method, parameters_of_forms m.parameters _ hfuel]
    simp only [Option.bind_eq_bind, Option.bind_some, hresult]
    rfl

theorem orMalformed_eq_ok_iff {α : Type} {d : String} {r : Option α} {a : α} :
    orMalformed d r = .ok a ↔ r = some a := by
  cases r with
  | none => exact ⟨nofun, nofun⟩
  | some b => simp [orMalformed]

theorem className_eq_some_iff {n : String} :
    className cs = some n ↔ ∃ name : ClassName, cs = (Base.named name).chars
      ∧ n = binaryName (String.ofList name.chars) := by
  constructor
  · intro h
    unfold className at h
    split at h
    · next cs =>
      split at h
      · next hname =>
        cases h
        obtain ⟨hlast, hne, hnone⟩ := hname
        obtain ⟨front, rfl⟩ := List.getLast?_eq_some_iff.1 hlast
        rw [List.dropLast_concat] at hne hnone ⊢
        exact ⟨⟨front, hne, hnone⟩, rfl, rfl⟩
      · cases h
    · cases h
  · rintro ⟨name, rfl, rfl⟩
    simp [Base.chars, className, name.ne_nil, name.no_semicolon]

theorem FieldForm.chars_of_ty_eq_named {f : FieldForm} {n : String} (h : f.ty = .named n) :
    ∃ name : ClassName, f.chars = (Base.named name).chars
      ∧ n = binaryName (String.ofList name.chars) := by
  obtain ⟨dimensions, hmost, base⟩ := f
  unfold FieldForm.ty at h
  split at h
  · next hzero =>
    cases base with
    | primitive p => cases h
    | named name =>
      cases h
      obtain rfl : dimensions = 0 := hzero
      exact ⟨name, rfl, rfl⟩
  · cases h

theorem parseField_eq_ok_iff (d : String) (t : Ty String) :
    parseField d = .ok t ↔ ∃ f : FieldForm, d = f.text ∧ t = f.ty := by
  rw [parseField, orMalformed_eq_ok_iff, complete_eq_some_iff, fieldType_eq_some_iff]
  simp only [List.append_nil, FieldForm.text, ← String.toList_inj, String.toList_ofList]

theorem parseMethod_eq_ok_iff (d : String) (r : List (Ty String) × Ty String) :
    parseMethod d = .ok r ↔ ∃ m : MethodForm, d = m.text ∧ r = m.types := by
  rw [parseMethod, orMalformed_eq_ok_iff, method_eq_some_iff]
  simp only [MethodForm.text, ← String.toList_inj, String.toList_ofList]

theorem parseReturn_eq_ok_iff (d : String) (t : Ty String) :
    parseReturn d = .ok t ↔ (d = "V" ∧ t = .void) ∨ parseField d = .ok t := by
  rw [parseReturn, orMalformed_eq_ok_iff, complete_eq_some_iff, returnType_eq_some_iff,
    parseField_eq_ok_iff]
  constructor
  · rintro ⟨r, hd, rfl⟩
    rw [List.append_nil] at hd
    cases r with
    | none => exact .inl ⟨String.toList_inj.1 hd, rfl⟩
    | some f => exact .inr ⟨f, String.toList_inj.1 (hd.trans String.toList_ofList.symm), rfl⟩
  · rintro (⟨rfl, rfl⟩ | ⟨f, rfl, rfl⟩)
    · exact ⟨none, rfl, rfl⟩
    · exact ⟨some f, by rw [List.append_nil, FieldForm.text, String.toList_ofList]; rfl, rfl⟩

theorem parseClass_eq_ok_iff (d : String) (n : String) :
    parseClass d = .ok n ↔ parseField d = .ok (.named n) := by
  rw [parseClass, orMalformed_eq_ok_iff, className_eq_some_iff, parseField_eq_ok_iff]
  constructor
  · rintro ⟨name, hd, rfl⟩
    refine ⟨⟨0, Nat.zero_le _, .named name⟩, ?_, rfl⟩
    rw [← String.toList_inj, hd, FieldForm.text, String.toList_ofList]
    rfl
  · rintro ⟨f, rfl, ht⟩
    obtain ⟨name, hchars, hn⟩ := f.chars_of_ty_eq_named ht.symm
    refine ⟨name, ?_, hn⟩
    rw [FieldForm.text, String.toList_ofList, hchars]

/-- Exactly the texts of the grammar are read, and each as the type of its form. -/
theorem parse_eq_ok_iff (d : String) :
    (∀ t, parseField d = .ok t ↔ ∃ f : FieldForm, d = f.text ∧ t = f.ty)
    ∧ (∀ r, parseMethod d = .ok r ↔ ∃ m : MethodForm, d = m.text ∧ r = m.types)
    ∧ (∀ t, parseReturn d = .ok t ↔
      (d = "V" ∧ t = .void) ∨ ∃ f : FieldForm, d = f.text ∧ t = f.ty)
    ∧ ∀ n, parseClass d = .ok n ↔ parseField d = .ok (.named n) := by
  refine ⟨parseField_eq_ok_iff d, parseMethod_eq_ok_iff d, fun t => ?_, parseClass_eq_ok_iff d⟩
  rw [parseReturn_eq_ok_iff, parseField_eq_ok_iff]

example : parseField "[[La/b;" = .ok (.array 2 (.named "a.b")) := by rfl

end ClassCatalog.ClassFile.Descriptor
