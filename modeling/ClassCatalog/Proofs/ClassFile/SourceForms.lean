import ClassCatalog.Proofs.ClassFile.SignatureLevels
import ClassCatalog.Ty.Display

/-! Types of signatures in the syntax of source code, and how far the display of what is read from
a signature is this syntax. -/

namespace ClassCatalog.ClassFile.Signature

def angled : List String → String
  | [] => ""
  | t :: ts => "<" ++ t ++ String.join (ts.map (", " ++ ·)) ++ ">"

mutual

/-- The dotted name up to the first arguments; the classes after it are its members. How their
simple names are written is left to `simple`. -/
def ClassForm.source (simple : String → String) : ClassForm → String
  | c@(.outermost _ _ arguments) =>
    String.ofList c.binaryChars ++ angled (argumentsSource simple arguments)
  | c@(.member outer name arguments) =>
    (if outer.isGeneric then outer.source simple ++ "." ++ simple name.text
      else String.ofList c.binaryChars) ++ angled (argumentsSource simple arguments)

def ArgumentForm.source (simple : String → String) : ArgumentForm → String
  | .anything => "?"
  | .bounded true bound => "? extends " ++ bound.source simple
  | .bounded false bound => "? super " ++ bound.source simple
  | .exactly type => type.source simple

def argumentsSource (simple : String → String) : List ArgumentForm → List String
  | [] => []
  | a :: as => a.source simple :: argumentsSource simple as

def ReferenceForm.source (simple : String → String) : ReferenceForm → String
  | .named type => type.source simple
  | .array dimensions component =>
    component.source simple ++ String.join (List.replicate dimensions.count "[]")
  | .primitiveArray dimensions p => p.keyword ++ String.join (List.replicate dimensions.count "[]")

def NamedForm.source (simple : String → String) : NamedForm → String
  | .typeVariable name => name.text
  | .classType type => type.source simple

end

theorem dimensions_toNat (d : Dimensions) : (UInt8.ofNat d.count).toNat = d.count := by
  have h := d.le
  rw [UInt8.toNat_ofNat']
  omega

theorem display_applied (name : List Char) (ts : List (Ty String)) :
    (applied name ts).display = String.ofList name ++ Ty.displayArguments ts := by
  cases ts with
  | nil => simp [applied, Ty.display, Ty.displayArguments]
  | cons t ts => rw [applied, Ty.display]

theorem displayMore_eq_join (ts : List (Ty String)) :
    Ty.displayMore ts = String.join ((ts.map Ty.display).map (", " ++ ·)) := by
  induction ts with
  | nil => rfl
  | cons t ts ih => rw [Ty.displayMore, ih, List.map_cons, List.map_cons, String.join_cons]

theorem displayArguments_eq_angled (ts : List (Ty String)) :
    Ty.displayArguments ts = angled (ts.map Ty.display) := by
  cases ts with
  | nil => rfl
  | cons t ts => rw [Ty.displayArguments, displayMore_eq_join, List.map_cons, angled]

theorem afterLast_binaryChars (outer : ClassForm) (name : Identifier)
    (arguments : List ArgumentForm) :
    Text.afterLast '$' (String.ofList (ClassForm.member outer name arguments).binaryChars) =
      Text.afterLast '$' name.text := by
  rw [ClassForm.binaryChars, Text.afterLast_append_cons, Identifier.text]

mutual

theorem ClassForm.display_ty (scope : List String) (c : ClassForm) :
    (c.ty scope).display = c.source (Text.afterLast '$') := by
  match c with
  | .outermost package name arguments =>
    rw [ClassForm.ty, ClassForm.source, display_applied, displayArguments_eq_angled,
      display_argumentsTy scope arguments]
  | .member outer name arguments =>
    rw [ClassForm.ty, ClassForm.source]
    split
    · rw [Ty.display, outer.display_ty scope, afterLast_binaryChars, displayArguments_eq_angled,
        display_argumentsTy scope arguments]
    · rw [display_applied, displayArguments_eq_angled, display_argumentsTy scope arguments]

theorem ArgumentForm.display_ty (scope : List String) (a : ArgumentForm) :
    (a.ty scope).display = a.source (Text.afterLast '$') := by
  match a with
  | .anything => rw [ArgumentForm.ty, ArgumentForm.source, Ty.display]
  | .bounded true bound =>
    rw [ArgumentForm.ty, ArgumentForm.source, Ty.display, bound.display_ty scope, if_pos rfl]
  | .bounded false bound =>
    rw [ArgumentForm.ty, ArgumentForm.source, Ty.display, bound.display_ty scope,
      if_neg Bool.false_ne_true]
  | .exactly type => rw [ArgumentForm.ty, ArgumentForm.source, type.display_ty scope]

theorem display_argumentsTy (scope : List String) (as : List ArgumentForm) :
    (argumentsTy scope as).map Ty.display = argumentsSource (Text.afterLast '$') as := by
  match as with
  | [] => rfl
  | a :: as =>
    rw [argumentsTy, argumentsSource, List.map_cons, a.display_ty scope,
      display_argumentsTy scope as]

theorem ReferenceForm.display_ty (scope : List String) (r : ReferenceForm) :
    (r.ty scope).display = r.source (Text.afterLast '$') := by
  match r with
  | .named type => rw [ReferenceForm.ty, ReferenceForm.source, type.display_ty scope]
  | .array dimensions component =>
    rw [ReferenceForm.ty, ReferenceForm.source, Ty.display, component.display_ty scope,
      dimensions_toNat]
  | .primitiveArray dimensions p =>
    rw [ReferenceForm.ty, ReferenceForm.source, Ty.display, Ty.display, dimensions_toNat]

theorem NamedForm.display_ty (scope : List String) (t : NamedForm) :
    (t.ty scope).display = t.source (Text.afterLast '$') := by
  match t with
  | .typeVariable name =>
    rw [NamedForm.ty, NamedForm.source]
    split
    · rw [Ty.display]
    · rw [Ty.display]
  | .classType type => rw [NamedForm.ty, NamedForm.source, type.display_ty scope]

end

structure ShorterUnless (p : Prop) (s t : String) : Prop where
  eq : p → s = t
  lt : ¬p → s.length < t.length

namespace ShorterUnless

theorem eq_iff {p : Prop} {s t : String} (h : ShorterUnless p s t) : s = t ↔ p := by
  refine ⟨fun heq => Classical.byContradiction fun hp => ?_, h.eq⟩
  have hlt := h.lt hp
  rw [heq] at hlt
  exact Nat.lt_irrefl _ hlt

theorem le {p : Prop} {s t : String} (h : ShorterUnless p s t) : s.length ≤ t.length := by
  by_cases hp : p
  · exact Nat.le_of_eq (congrArg String.length (h.eq hp))
  · exact Nat.le_of_lt (h.lt hp)

theorem same (s : String) : ShorterUnless True s s := ⟨fun _ => rfl, fun h => absurd trivial h⟩

theorem append {p q : Prop} {s t s' t' : String} (h : ShorterUnless p s t)
    (h' : ShorterUnless q s' t') : ShorterUnless (p ∧ q) (s ++ s') (t ++ t') where
  eq := fun ⟨hp, hq⟩ => by rw [h.eq hp, h'.eq hq]
  lt := fun hpq => by
    rw [String.length_append, String.length_append]
    have hle := h.le
    have hle' := h'.le
    by_cases hp : p
    · have hlt := h'.lt fun hq => hpq ⟨hp, hq⟩
      omega
    · have hlt := h.lt hp
      omega

theorem congr {p q : Prop} {s t : String} (h : ShorterUnless p s t) (hpq : p ↔ q) :
    ShorterUnless q s t := by rwa [← hpq]

theorem after {p : Prop} {s t : String} (front : String) (h : ShorterUnless p s t) :
    ShorterUnless p (front ++ s) (front ++ t) :=
  ((same front).append h).congr (by rw [true_and])

theorem before {p : Prop} {s t : String} (back : String) (h : ShorterUnless p s t) :
    ShorterUnless p (s ++ back) (t ++ back) :=
  (h.append (same back)).congr (by rw [and_true])

end ShorterUnless

mutual

/-- No member of a generic class has a `$` in its simple name. -/
def ClassForm.Undivided : ClassForm → Prop
  | .outermost _ _ arguments => argumentsUndivided arguments
  | .member outer name arguments =>
    (outer.isGeneric → outer.Undivided ∧ '$' ∉ name.chars) ∧ argumentsUndivided arguments

def ArgumentForm.Undivided : ArgumentForm → Prop
  | .anything => True
  | .bounded _ bound => bound.Undivided
  | .exactly type => type.Undivided

def argumentsUndivided : List ArgumentForm → Prop
  | [] => True
  | a :: as => a.Undivided ∧ argumentsUndivided as

def ReferenceForm.Undivided : ReferenceForm → Prop
  | .named type => type.Undivided
  | .array _ component => component.Undivided
  | .primitiveArray .. => True

def NamedForm.Undivided : NamedForm → Prop
  | .typeVariable _ => True
  | .classType type => type.Undivided

end

theorem shorterUnless_join {ι : Type} {f g : ι → String} {p : ι → Prop} {xs : List ι}
    (h : ∀ x ∈ xs, ShorterUnless (p x) (f x) (g x)) :
    ShorterUnless (∀ x ∈ xs, p x) (String.join (xs.map f)) (String.join (xs.map g)) := by
  induction xs with
  | nil => exact (ShorterUnless.same "").congr (by simp)
  | cons x xs ih =>
    obtain ⟨hx, hxs⟩ := List.forall_mem_cons.1 h
    rw [List.map_cons, List.map_cons, String.join_cons, String.join_cons]
    exact (hx.append (ih hxs)).congr List.forall_mem_cons.symm

theorem shorterUnless_angled {ι : Type} {f g : ι → String} {p : ι → Prop} {xs : List ι}
    (h : ∀ x ∈ xs, ShorterUnless (p x) (f x) (g x)) :
    ShorterUnless (∀ x ∈ xs, p x) (angled (xs.map f)) (angled (xs.map g)) := by
  cases xs with
  | nil => exact (ShorterUnless.same "").congr (by simp)
  | cons x xs =>
    obtain ⟨hx, hxs⟩ := List.forall_mem_cons.1 h
    have hmore := shorterUnless_join fun y hy => (hxs y hy).after ", "
    rw [List.map_cons, List.map_cons, angled, angled, List.map_map, List.map_map]
    exact (((hx.after "<").append hmore).before ">").congr List.forall_mem_cons.symm

theorem shorterUnless_afterLast (c : Char) (text : String) :
    ShorterUnless (c ∉ text.toList) (Text.afterLast c text) text where
  eq := Text.afterLast_eq_self
  lt := fun h => Text.length_afterLast_lt (Classical.not_not.1 h)

theorem argumentsSource_eq_map (simple : String → String) (as : List ArgumentForm) :
    argumentsSource simple as = as.map (ArgumentForm.source simple) := by
  induction as with
  | nil => rfl
  | cons a as ih => rw [argumentsSource, ih, List.map_cons]

theorem argumentsUndivided_iff (as : List ArgumentForm) :
    argumentsUndivided as ↔ ∀ a ∈ as, a.Undivided := by
  induction as with
  | nil => simp [argumentsUndivided]
  | cons a as ih => rw [argumentsUndivided, ih, List.forall_mem_cons]

theorem shorterUnless_angled_arguments {as : List ArgumentForm}
    (h : ∀ a ∈ as,
      ShorterUnless a.Undivided (a.source (Text.afterLast '$')) (a.source id)) :
    ShorterUnless (argumentsUndivided as) (angled (argumentsSource (Text.afterLast '$') as))
      (angled (argumentsSource id as)) := by
  rw [argumentsSource_eq_map, argumentsSource_eq_map, argumentsUndivided_iff]
  exact shorterUnless_angled h

mutual

theorem ClassForm.shorterUnless (c : ClassForm) :
    ShorterUnless c.Undivided (c.source (Text.afterLast '$')) (c.source id) := by
  match c with
  | .outermost package name arguments =>
    rw [ClassForm.Undivided, ClassForm.source, ClassForm.source]
    exact (shorterUnless_angled_arguments (shorterUnless_arguments arguments)).after _
  | .member outer name arguments =>
    rw [ClassForm.Undivided, ClassForm.source, ClassForm.source]
    have harguments := shorterUnless_angled_arguments (shorterUnless_arguments arguments)
    split
    · next hgeneric =>
      have hname := shorterUnless_afterLast '$' name.text
      rw [Identifier.text, String.toList_ofList] at hname
      have hfront := (outer.shorterUnless.before ".").append hname
      exact (hfront.append harguments).congr (by simp [hgeneric])
    · next hgeneric => exact (harguments.after _).congr (by simp [hgeneric])

theorem ArgumentForm.shorterUnless (a : ArgumentForm) :
    ShorterUnless a.Undivided (a.source (Text.afterLast '$')) (a.source id) := by
  match a with
  | .anything => exact .same _
  | .bounded true bound => exact bound.shorterUnless.after _
  | .bounded false bound => exact bound.shorterUnless.after _
  | .exactly type => exact type.shorterUnless

theorem shorterUnless_arguments (as : List ArgumentForm) :
    ∀ a ∈ as, ShorterUnless a.Undivided (a.source (Text.afterLast '$')) (a.source id) := by
  match as with
  | [] => exact nofun
  | a :: as => exact List.forall_mem_cons.2 ⟨a.shorterUnless, shorterUnless_arguments as⟩

theorem ReferenceForm.shorterUnless (r : ReferenceForm) :
    ShorterUnless r.Undivided (r.source (Text.afterLast '$')) (r.source id) := by
  match r with
  | .named type => exact type.shorterUnless
  | .array dimensions component => exact component.shorterUnless.before _
  | .primitiveArray dimensions p => exact .same _

theorem NamedForm.shorterUnless (t : NamedForm) :
    ShorterUnless t.Undivided (t.source (Text.afterLast '$')) (t.source id) := by
  match t with
  | .typeVariable name => exact .same _
  | .classType type => exact type.shorterUnless

end

/-- A type that is read is displayed with each simple name that follows a generic class cut to
what stands after its last `$`, so in the syntax of source code exactly if nothing is cut. -/
theorem display_of_parseField (classScope : List String) (r : ReferenceForm) :
    (r.levels ≤ Nested.signature.limit → ∃ t, parseField classScope r.text = .ok t)
    ∧ ∀ t, parseField classScope r.text = .ok t →
      t.display = r.source (Text.afterLast '$') ∧ (t.display = r.source id ↔ r.Undivided) := by
  constructor
  · intro h
    exact ⟨r.ty classScope, r.parseField_text classScope h⟩
  · intro t ht
    rw [r.eq_ty_of_parseField ht, r.display_ty classScope]
    exact ⟨rfl, r.shorterUnless.eq_iff⟩

def Identifier.of (text : String) (h : text.toList ≠ [] ∧ ∀ c ∈ text.toList, c ∉
    ['.', ';', '[', '/', '<', '>', ':'] := by simp) : Identifier :=
  ⟨text.toList, h.1, h.2⟩

def genericMember : ReferenceForm :=
  .named (.classType (.member (.member (.outermost [.of "p"] (.of "A$B") []) (.of "C")
    [.exactly (.named (.typeVariable (.of "T"))), .anything]) (.of "D")
    [.bounded true (.primitiveArray (.of 3) .int),
      .bounded false (.named (.classType (.outermost [] (.of "E") [])))]))

theorem display_of_parseField_genericMember :
    genericMember.text = "Lp/A$B.C<TT;*>.D<+[[[I-LE;>;"
    ∧ ∃ t, parseField ["T"] genericMember.text = .ok t
      ∧ t.display = "p.A$B$C<T, ?>.D<? extends int[][][], ? super E>"
      ∧ genericMember.Undivided := by
  obtain ⟨hread, hdisplay⟩ := display_of_parseField ["T"] genericMember
  obtain ⟨t, ht⟩ := hread (by decide)
  obtain ⟨hshown, hsource⟩ := hdisplay t ht
  have hsame : genericMember.source (Text.afterLast '$') = genericMember.source id := by decide
  exact ⟨by decide, t, ht, hshown.trans (by decide), hsource.1 (hshown.trans hsame)⟩

def dividedMember : ReferenceForm :=
  .named (.classType (.member (.outermost [] (.of "Outer")
    [.exactly (.named (.typeVariable (.of "T")))]) (.of "In$ner") []))

theorem not_display_source_dividedMember :
    dividedMember.text = "LOuter<TT;>.In$ner;"
    ∧ ∃ t, parseField ["T"] dividedMember.text = .ok t
      ∧ t.display = "Outer<T>.ner"
      ∧ dividedMember.source id = "Outer<T>.In$ner"
      ∧ t.display ≠ dividedMember.source id := by
  have hread := dividedMember.parseField_text ["T"] (by decide)
  have hshown : (dividedMember.ty ["T"]).display = "Outer<T>.ner" := by decide
  have hsource : dividedMember.source id = "Outer<T>.In$ner" := by decide
  refine ⟨by decide, _, hread, hshown, hsource, ?_⟩
  rw [hshown, hsource]
  decide

end ClassCatalog.ClassFile.Signature
