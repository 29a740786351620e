import ClassCatalog.Proofs.ClassFile.SignatureForms
import ClassCatalog.Proofs.ClassFile.SignatureRuns

/-! The text of a type in a signature is read back as the type that it denotes. -/

namespace ClassCatalog.ClassFile.Signature

open Signature.Parser

theorem bindIn_applied (scope : List String) (name : List Char) (ts : List (Ty String)) :
    (applied name ts).bindIn scope = applied name (Ty.listBindIn scope ts) := by
  cases ts with
  | nil => rfl
  | cons t ts => rfl

mutual

theorem ClassForm.bindIn_ty (scope : List String) (c : ClassForm) :
    (c.ty []).bindIn scope = c.ty scope := by
  match c with
  | .outermost package name arguments =>
    rw [ClassForm.ty, ClassForm.ty, bindIn_applied, bindIn_argumentsTy scope arguments]
  | .member outer name arguments =>
    rw [ClassForm.ty, ClassForm.ty]
    split
    · rw [Ty.bindIn, outer.bindIn_ty scope, bindIn_argumentsTy scope arguments]
    · rw [bindIn_applied, bindIn_argumentsTy scope arguments]

theorem ArgumentForm.bindIn_ty (scope : List String) (a : ArgumentForm) :
    (a.ty []).bindIn scope = a.ty scope := by
  match a with
  | .anything => rfl
  | .bounded isExtends bound =>
    rw [ArgumentForm.ty, ArgumentForm.ty, Ty.bindIn, bound.bindIn_ty scope]
  | .exactly type => rw [ArgumentForm.ty, ArgumentForm.ty, type.bindIn_ty scope]

theorem bindIn_argumentsTy (scope : List String) (as : List ArgumentForm) :
    Ty.listBindIn scope (argumentsTy [] as) = argumentsTy scope as := by
  match as with
  | [] => rfl
  | a :: as =>
    rw [argumentsTy, argumentsTy, Ty.listBindIn, a.bindIn_ty scope, bindIn_argumentsTy scope as]

theorem ReferenceForm.bindIn_ty (scope : List String) (r : ReferenceForm) :
    (r.ty []).bindIn scope = r.ty scope := by
  match r with
  | .named type => rw [ReferenceForm.ty, ReferenceForm.ty, type.bindIn_ty scope]
  | .array dimensions component =>
    rw [ReferenceForm.ty, ReferenceForm.ty, Ty.bindIn, component.bindIn_ty scope]
  | .primitiveArray dimensions p => rfl

theorem NamedForm.bindIn_ty (scope : List String) (t : NamedForm) :
    (t.ty []).bindIn scope = t.ty scope := by
  match t with
  | .typeVariable name =>
    rw [NamedForm.ty, NamedForm.ty, if_neg List.not_mem_nil, Ty.bindIn]
  | .classType type => rw [NamedForm.ty, NamedForm.ty, type.bindIn_ty scope]

end

theorem listBindIn_map {ι : Type} {ty : List String → ι → Ty String} {scope : List String}
    (h : ∀ x, (ty [] x).bindIn scope = ty scope x) (xs : List ι) :
    Ty.listBindIn scope (xs.map (ty [])) = xs.map (ty scope) := by
  rw [Ty.listBindIn_eq_map, List.map_map]
  exact List.map_congr_left fun x _ => h x

theorem NamedForm.chars_eq_cons (t : NamedForm) :
    ∃ c tail, t.chars = c :: tail ∧ c ∈ ['L', 'T'] := by
  cases t with
  | typeVariable name => exact ⟨'T', _, by rw [NamedForm.chars], by simp⟩
  | classType type => exact ⟨'L', _, by rw [NamedForm.chars], by simp⟩

theorem ReferenceForm.chars_eq_cons (r : ReferenceForm) :
    ∃ c tail, r.chars = c :: tail ∧ c ∈ ['L', 'T', '['] := by
  cases r with
  | named type =>
    obtain ⟨c, tail, hchars, hc⟩ := type.chars_eq_cons
    exact ⟨c, tail, by rw [ReferenceForm.chars, hchars], List.mem_append_left ['['] hc⟩
  | array dimensions component =>
    obtain ⟨tail, htail⟩ := replicate_append_eq_cons dimensions.pos component.chars
    exact ⟨'[', tail, by rw [ReferenceForm.chars, htail], by simp⟩
  | primitiveArray dimensions p =>
    obtain ⟨tail, htail⟩ := replicate_append_eq_cons dimensions.pos [p.letter]
    exact ⟨'[', tail, by rw [ReferenceForm.chars, htail], by simp⟩

theorem ArgumentForm.chars_eq_cons (a : ArgumentForm) :
    ∃ c tail, a.chars = c :: tail ∧ c ≠ '>' := by
  cases a with
  | anything => exact ⟨'*', [], by rw [ArgumentForm.chars], by decide⟩
  | bounded isExtends bound =>
    cases isExtends with
    | true => exact ⟨'+', _, by rw [ArgumentForm.chars], by decide⟩
    | false => exact ⟨'-', _, by rw [ArgumentForm.chars], by decide⟩
  | exactly type =>
    obtain ⟨c, tail, hchars, hc⟩ := type.chars_eq_cons
    refine ⟨c, tail, by rw [ArgumentForm.chars, hchars], ?_⟩
    rintro rfl
    simp at hc

namespace ClassForm

def first : ClassForm → List Char
  | outermost package name _ => package.flatMap (fun i => i.chars ++ ['/']) ++ name.chars
  | member outer _ _ => outer.first

def rest : ClassForm → List Char
  | outermost _ _ arguments => bracketed (argumentsChars arguments)
  | member outer name arguments =>
    outer.rest ++ ('.' :: name.chars ++ bracketed (argumentsChars arguments))

def internal : ClassForm → List Char
  | outermost package name _ => package.flatMap (fun i => i.chars ++ ['/']) ++ name.chars
  | member outer name _ => outer.internal ++ '$' :: name.chars

def members : ClassForm → Nat
  | outermost .. => 0
  | member outer _ _ => outer.members + 1

theorem chars_eq (c : ClassForm) : c.chars = c.first ++ c.rest := by
  match c with
  | outermost package name arguments => rw [chars, first, rest]
  | member outer name arguments =>
    rw [chars, first, rest, outer.chars_eq, List.append_assoc, List.append_assoc]

theorem head?_bracketed (cs : List Char) {back : List Char}
    (h : ∃ c ∈ ['<', '.', ';'], back.head? = some c) :
    ∃ c ∈ ['<', '.', ';'], (bracketed cs ++ back).head? = some c := by
  cases cs with
  | nil => exact h
  | cons c cs => exact ⟨'<', by simp, rfl⟩

theorem head?_rest (c : ClassForm) {back : List Char}
    (h : ∃ c ∈ ['<', '.', ';'], back.head? = some c) :
    ∃ d ∈ ['<', '.', ';'], (c.rest ++ back).head? = some d := by
  match c with
  | outermost package name arguments => exact head?_bracketed _ h
  | member outer name arguments =>
    rw [rest, List.append_assoc]
    exact outer.head?_rest ⟨'.', by simp, rfl⟩

theorem members_le_length_rest (c : ClassForm) : c.members ≤ c.rest.length := by
  match c with
  | outermost package name arguments => exact Nat.zero_le _
  | member outer name arguments =>
    have houter := outer.members_le_length_rest
    simp only [members, rest, List.length_append, List.length_cons]
    omega

end ClassForm

theorem Identifier.not_mem_chars (i : Identifier) {c : Char}
    (h : c ∈ ['.', ';', '[', '/', '<', '>', ':']) : c ∉ i.chars :=
  fun hc => i.clean c hc h

theorem Identifier.clean_segment (i : Identifier) : ∀ c ∈ i.chars, c ∉ ['<', '.', ';'] := by
  intro c hc hmem
  apply i.clean c hc
  simp only [List.mem_cons, List.not_mem_nil, or_false] at hmem ⊢
  rcases hmem with rfl | rfl | rfl <;> simp

theorem clean_qualified (package : List Identifier) (name : Identifier) :
    ∀ c ∈ package.flatMap (fun i => i.chars ++ ['/']) ++ name.chars, c ∉ ['<', '.', ';'] := by
  intro c hc
  rcases List.mem_append.1 hc with hpackage | hname
  · obtain ⟨i, _, hi⟩ := List.mem_flatMap.1 hpackage
    rcases List.mem_append.1 hi with hchars | hslash
    · exact i.clean_segment c hchars
    · rw [List.mem_singleton.1 hslash]
      decide
  · exact name.clean_segment c hname

theorem ClassForm.clean_first (c : ClassForm) : ∀ d ∈ c.first, d ∉ ['<', '.', ';'] := by
  match c with
  | .outermost package name arguments => exact clean_qualified package name
  | .member outer name arguments => exact outer.clean_first

theorem ClassForm.first_ne_nil (c : ClassForm) : c.first ≠ [] := by
  match c with
  | .outermost package name arguments =>
    intro hnil
    exact name.ne_nil (List.append_eq_nil_iff.1 hnil).2
  | .member outer name arguments => exact outer.first_ne_nil

theorem Identifier.map_slash (i : Identifier) :
    i.chars.map (fun c => if c = '/' then '.' else c) = i.chars := by
  refine (List.map_congr_left fun c hc => ?_).trans (List.map_id _)
  have hne : c ≠ '/' := fun h => i.not_mem_chars (by simp) (h ▸ hc)
  exact if_neg hne

theorem ClassForm.map_slash (c : ClassForm) :
    c.internal.map (fun c => if c = '/' then '.' else c) = c.binaryChars := by
  match c with
  | .outermost package name arguments =>
    simp only [internal, binaryChars, List.map_append, List.map_flatMap, Identifier.map_slash]
    rfl
  | .member outer name arguments =>
    simp only [internal, binaryChars, List.map_append, List.map_cons, outer.map_slash,
      Identifier.map_slash]
    rfl

theorem ClassForm.binaryName_internal (c : ClassForm) :
    binaryName (String.ofList c.internal) = String.ofList c.binaryChars := by
  rw [binaryName, Text.replace, String.toList_ofList, c.map_slash]

theorem argumentsTy_eq_map (scope : List String) (as : List ArgumentForm) :
    argumentsTy scope as = as.map (ArgumentForm.ty scope) := by
  induction as with
  | nil => rfl
  | cons a as ih => rw [argumentsTy, ih, List.map_cons]

theorem argumentsChars_eq_flatMap (as : List ArgumentForm) :
    argumentsChars as = as.flatMap ArgumentForm.chars := by
  induction as with
  | nil => rfl
  | cons a as ih => rw [argumentsChars, ih, List.flatMap_cons]

theorem segmentType_none (name : List Char) (ts : List (Ty String)) :
    segmentType none (String.ofList name) ts = applied name ts := by
  cases ts with
  | nil => rfl
  | cons t ts => rfl

theorem segmentType_some (owner : Ty String) (name : List Char) (ts : List (Ty String)) :
    segmentType (some owner) (String.ofList name) ts
      = if owner.isParameterized then .inner owner (String.ofList name) ts
        else applied name ts := by
  cases ts with
  | nil => rfl
  | cons t ts => rfl

theorem isParameterized_applied (name : List Char) (ts : List (Ty String)) :
    (applied name ts).isParameterized = !ts.isEmpty := by
  cases ts with
  | nil => rfl
  | cons t ts => rfl

theorem ClassForm.isParameterized_ty (scope : List String) (c : ClassForm) :
    (c.ty scope).isParameterized = c.isGeneric := by
  cases c with
  | outermost package name arguments =>
    rw [ClassForm.ty, isParameterized_applied, isGeneric, argumentsTy_eq_map, List.isEmpty_map]
  | member outer name arguments =>
    rw [ClassForm.ty, isGeneric]
    split
    · next houter =>
      rw [houter]
      rfl
    · next houter =>
      rw [isParameterized_applied, argumentsTy_eq_map, List.isEmpty_map]
      simp [houter]

theorem reads_bracketed {reference : Parser (Ty String)} {as : List ArgumentForm}
    (h : ∀ a ∈ as, ∀ back, Reads (typeArgument reference) a.chars back (a.ty []))
    {back : List Char} (hback : back.head? ≠ some '<') :
    Reads (typeArguments reference) (bracketed (argumentsChars as)) back (argumentsTy [] as) := by
  rw [argumentsChars_eq_flatMap, argumentsTy_eq_map]
  cases as with
  | nil => exact reads_typeArguments_none reference hback
  | cons a as =>
    have hupTo := reads_upTo (fun x hx tail (_ : True) => h x hx tail)
      (fun x _ => x.chars_eq_cons) (fun _ _ _ => trivial) (fun _ => trivial) back
    obtain ⟨c, cs, hchars, _⟩ := a.chars_eq_cons
    rw [bracketed_of_ne_nil (by simp [hchars])]
    exact reads_typeArguments_some (by simp) hupTo

/-- After the first name of the class, its other segments are read up to the next one or the
semicolon. -/
def ClassForm.ReadBy (reference : Parser (Ty String)) (c : ClassForm) : Prop :=
  ∀ back fuel, (∃ d ∈ ['.', ';'], back.head? = some d) →
    Reaches (segments reference (c.members + 1 + fuel) (String.ofList c.first) none) c.rest back
      (nextSegment reference fuel (String.ofList c.internal) (c.ty []))

theorem ne_open_of_segment_end {back : List Char} (h : ∃ d ∈ ['.', ';'], back.head? = some d) :
    back.head? ≠ some '<' := by
  obtain ⟨d, hd, hhead⟩ := h
  rw [hhead]
  rintro heq
  cases heq
  simp at hd

theorem ClassForm.readBy_outermost {reference : Parser (Ty String)} (package : List Identifier)
    (name : Identifier) {arguments : List ArgumentForm}
    (h : ∀ a ∈ arguments, ∀ back, Reads (typeArgument reference) a.chars back (a.ty [])) :
    (ClassForm.outermost package name arguments).ReadBy reference := by
  intro back fuel hback
  have harguments := reads_bracketed h (ne_open_of_segment_end hback)
  have hty : (ClassForm.outermost package name arguments).ty []
      = segmentType none (binaryName (String.ofList
        (ClassForm.outermost package name arguments).internal)) (argumentsTy [] arguments) := by
    rw [ClassForm.binaryName_internal, segmentType_none, ClassForm.ty]
  rw [hty, ClassForm.members, Nat.zero_add, Nat.add_comm]
  exact reaches_nextSegment harguments

theorem ClassForm.ReadBy.member {reference : Parser (Ty String)} {outer : ClassForm}
    (houter : outer.ReadBy reference) (name : Identifier) {arguments : List ArgumentForm}
    (h : ∀ a ∈ arguments, ∀ back, Reads (typeArgument reference) a.chars back (a.ty [])) :
    (ClassForm.member outer name arguments).ReadBy reference := by
  intro back fuel hback
  have harguments := reads_bracketed h (ne_open_of_segment_end hback)
  have hstop : ∃ d ∈ ['<', '.', ';'], back.head? = some d := by
    obtain ⟨d, hd, hhead⟩ := hback
    exact ⟨d, List.mem_cons_of_mem '<' hd, hhead⟩
  have hinternal : String.ofList outer.internal ++ "$" ++ String.ofList name.chars
      = String.ofList (ClassForm.member outer name arguments).internal := by
    rw [← String.toList_inj]
    simp [ClassForm.internal]
  have hty : (ClassForm.member outer name arguments).ty []
      = segmentType (some (outer.ty [])) (binaryName (String.ofList
        (ClassForm.member outer name arguments).internal)) (argumentsTy [] arguments) := by
    rw [ClassForm.binaryName_internal, segmentType_some, outer.isParameterized_ty, ClassForm.ty]
  have hfuel : (ClassForm.member outer name arguments).members + 1 + fuel
      = outer.members + 1 + (fuel + 1) := by
    rw [ClassForm.members]
    omega
  have hmember := reaches_member reference (fuel + 1) (String.ofList outer.internal)
    (outer.ty []) name.ne_nil name.clean_segment
    (ClassForm.head?_bracketed (argumentsChars arguments) hstop)
  rw [hinternal] at hmember
  rw [hty, hfuel]
  -- The class around it ends at the dot, where the loop goes on with what it has read so far.
  refine (houter _ _ ⟨'.', by simp, rfl⟩).trans ?_
  exact hmember.trans (reaches_nextSegment harguments)

theorem ClassForm.ReadBy.reads {reference : Parser (Ty String)} {c : ClassForm}
    (h : c.ReadBy reference) (back : List Char) :
    Reads (classType reference) ('L' :: (c.chars ++ [';'])) back (c.ty []) := by
  rw [c.chars_eq, List.append_assoc]
  refine reads_classType c.first_ne_nil c.clean_first (c.head?_rest ⟨';', by simp, rfl⟩) ?_
  intro fuel hfuel
  have hmembers := c.members_le_length_rest
  have hsplit : fuel + 1 = c.members + 1 + (fuel - c.members) := by
    rw [List.length_append] at hfuel
    omega
  rw [hsplit]
  exact (h _ _ ⟨';', by simp, rfl⟩).reads (reads_nextSegment_end reference _ _ _ back)

theorem reads_typeArgument_reference {reference : Parser (Ty String)} {r : ReferenceForm}
    {back : List Char} {t : Ty String} (h : Reads reference r.chars back t) :
    Reads (typeArgument reference) r.chars back t := by
  obtain ⟨c, tail, hchars, hc⟩ := r.chars_eq_cons
  have hhead : (r.chars ++ back).head? = some c := by rw [hchars]; rfl
  -- No wildcard begins like a reference type, so all three tests fail.
  have hne : ∀ d ∈ ['*', '+', '-'], (r.chars ++ back).head? ≠ some d := by
    intro d hd heq
    rw [hhead] at heq
    cases heq
    simp only [List.mem_cons, List.not_mem_nil, or_false] at hc hd
    rcases hc with rfl | rfl | rfl <;> simp at hd
  refine Reads.uneaten (hne '*' (by simp)) ?_
  refine Reads.uneaten (hne '+' (by simp)) ?_
  refine Reads.uneaten (hne '-' (by simp)) ?_
  refine Reads.peeked (reads_peek _) ?_
  rw [hhead]
  exact h

theorem NamedForm.arrayOf_ty (scope : List String) (t : NamedForm) (dimensions : UInt8) :
    (t.ty scope).arrayOf dimensions = .array dimensions (t.ty scope) := by
  have happlied : ∀ name ts, (applied name ts).arrayOf dimensions
      = .array dimensions (applied name ts) := by
    intro name ts
    cases ts <;> rfl
  cases t with
  | typeVariable name =>
    rw [NamedForm.ty]
    split <;> rfl
  | classType type =>
    cases type with
    | outermost package name arguments => rw [NamedForm.ty, ClassForm.ty, happlied]
    | member outer name arguments =>
      rw [NamedForm.ty, ClassForm.ty]
      split
      · rfl
      · exact happlied _ _

theorem NamedForm.reads_javaType {reference : Parser (Ty String)} {t : NamedForm}
    {back : List Char} {u : Ty String} (h : Reads reference t.chars back u) :
    Reads (javaType reference) t.chars back u := by
  refine reads_javaType_reference ?_ h
  obtain ⟨c, tail, hchars, hc⟩ := t.chars_eq_cons
  rw [hchars]
  simp only [List.mem_cons, List.not_mem_nil, or_false] at hc
  rcases hc with rfl | rfl <;> rfl

mutual

/-- The levels go down at each reference type, and are the same for all parts of a class type. -/
theorem ReferenceForm.reads (r : ReferenceForm) {levels : Nat} (h : r.levels ≤ levels)
    (back : List Char) : Reads (referenceType levels) r.chars back (r.ty []) := by
  match r with
  | .named type => exact type.reads h back
  | .array dimensions component =>
    cases levels with
    | zero => cases h
    | succ levels =>
      have hcomponent := component.reads (Nat.le_of_succ_le_succ h) back
      have hhead : (component.chars ++ back).head? ≠ some '[' := by
        obtain ⟨c, tail, hchars, hc⟩ := component.chars_eq_cons
        refine head?_append_ne hchars ?_
        rintro rfl
        simp at hc
      exact reads_referenceType_array dimensions.pos dimensions.le hhead
        (component.arrayOf_ty [] _) (NamedForm.reads_javaType hcomponent)
  | .primitiveArray dimensions p =>
    cases levels with
    | zero => cases h
    | succ levels =>
      have hhead : ([p.letter] ++ back).head? ≠ some '[' := by cases p <;> simp [Primitive.letter]
      exact reads_referenceType_array dimensions.pos dimensions.le hhead rfl
        (reads_javaType_primitive _ p back)

theorem NamedForm.reads (t : NamedForm) {levels : Nat} (h : t.levels ≤ levels)
    (back : List Char) : Reads (referenceType levels) t.chars back (t.ty []) := by
  match t with
  | .typeVariable name =>
    cases levels with
    | zero => cases h
    | succ levels =>
      exact Reads.peeked (reads_peek _)
        (reads_typeVariable name.ne_nil (name.not_mem_chars (by simp)) back)
  | .classType type =>
    cases levels with
    | zero => cases h
    | succ levels =>
      have htype := type.readBy (Nat.le_of_succ_le_succ h)
      exact Reads.peeked (reads_peek _) (htype.reads back)

theorem ClassForm.readBy (c : ClassForm) {levels : Nat} (h : c.levels ≤ levels) :
    c.ReadBy (referenceType levels) := by
  match c with
  | .outermost package name arguments =>
    exact ClassForm.readBy_outermost package name (reads_arguments arguments h)
  | .member outer name arguments =>
    obtain ⟨houter, harguments⟩ := Nat.max_le.1 h
    exact (outer.readBy houter).member name (reads_arguments arguments harguments)

theorem ArgumentForm.reads (a : ArgumentForm) {levels : Nat} (h : a.levels ≤ levels)
    (back : List Char) : Reads (typeArgument (referenceType levels)) a.chars back (a.ty []) := by
  match a with
  | .anything => exact Reads.eaten (Reads.pure _ back)
  | .bounded true bound =>
    refine Reads.uneaten (by simp [ArgumentForm.chars]) (Reads.eaten ?_)
    exact Reads.last (bound.reads h back) (Reads.pure _ back)
  | .bounded false bound =>
    refine Reads.uneaten (by simp [ArgumentForm.chars]) ?_
    refine Reads.uneaten (by simp [ArgumentForm.chars]) (Reads.eaten ?_)
    exact Reads.last (bound.reads h back) (Reads.pure _ back)
  | .exactly type => exact reads_typeArgument_reference (type.reads h back)

theorem reads_arguments (as : List ArgumentForm) {levels : Nat} (h : argumentsLevels as ≤ levels) :
    ∀ a ∈ as, ∀ back, Reads (typeArgument (referenceType levels)) a.chars back (a.ty []) := by
  match as with
  | [] => exact nofun
  | a :: as =>
    obtain ⟨hfirst, hothers⟩ := Nat.max_le.1 h
    exact List.forall_mem_cons.2 ⟨a.reads hfirst, reads_arguments as hothers⟩

end

end ClassCatalog.ClassFile.Signature
