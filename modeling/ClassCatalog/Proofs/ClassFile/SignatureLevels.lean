import ClassCatalog.Proofs.ClassFile.Signature
import ClassCatalog.Proofs.ClassFile.SignatureRoundTrip

/-! Where more levels of nesting are allowed, what was read is read as before. So the text of a
type is read as this type or not at all, however deep the type is. -/

namespace ClassCatalog.ClassFile.Signature

open Signature.Parser

variable {α β : Type}

def Extends (p q : Parser α) : Prop :=
  ∀ s a s', p.run s = .ok (a, s') → q.run s = .ok (a, s')

namespace Extends

theorem same (p : Parser α) : Extends p p := fun _ _ _ h => h

theorem trans {p q r : Parser α} (hq : Extends p q) (hr : Extends q r) : Extends p r :=
  fun s a s' h => hr s a s' (hq s a s' h)

theorem bind {p q : Parser α} {j k : α → Parser β} (hp : Extends p q)
    (hk : ∀ a, Extends (j a) (k a)) : Extends (p >>= j) (q >>= k) := by
  intro s b s' h
  rw [StateT.run_bind] at h
  obtain ⟨⟨a, s₁⟩, ha, hb⟩ := bind_eq_ok h
  rw [run_bind_of_ok (hp s a s₁ ha)]
  exact hk a s₁ b s' hb

theorem after {p : Parser α} {j k : α → Parser β} (hk : ∀ a, Extends (j a) (k a)) :
    Extends (p >>= j) (p >>= k) :=
  (same p).bind hk

theorem map {p q : Parser α} (f : α → β) (h : Extends p q) :
    Extends (do return f (← p)) (do return f (← q)) :=
  h.bind fun _ => same _

theorem ite {c : Prop} [Decidable c] {p q p' q' : Parser α} (hp : Extends p p')
    (hq : Extends q q') : Extends (if c then p else q) (if c then p' else q') := by
  split
  · exact hp
  · exact hq

end Extends

variable {less more : Parser (Ty String)}

theorem extends_repeatWhile {again : Parser Bool} {item item' : Parser α}
    (h : Extends item item') : Extends (repeatWhile again item) (repeatWhile again item') := by
  refine Extends.after fun s => ?_
  generalize s.rest.length + 1 = fuel
  induction fuel with
  | zero => exact Extends.same _
  | succ fuel ih =>
    exact Extends.after fun _ => Extends.ite (h.bind fun _ => ih.map _) (Extends.same _)

theorem extends_typeArgument (h : Extends less more) :
    Extends (typeArgument less) (typeArgument more) := by
  refine Extends.after fun _ => Extends.ite (Extends.same _) ?_
  refine Extends.after fun _ => Extends.ite (h.map _) ?_
  refine Extends.after fun _ => Extends.ite (h.map _) (Extends.after fun next => ?_)
  cases next with
  | none => exact Extends.same _
  | some c => exact h

theorem extends_typeArguments (h : Extends less more) :
    Extends (typeArguments less) (typeArguments more) := by
  refine Extends.after fun _ => Extends.ite ?_ (Extends.same _)
  exact (extends_repeatWhile (extends_typeArgument h)).bind fun _ => Extends.same _

theorem extends_segments (h : Extends less more) (fuel : Nat) (internal : String)
    (outer : Option (Ty String)) :
    Extends (segments less fuel internal outer) (segments more fuel internal outer) := by
  induction fuel generalizing internal outer with
  | zero => exact Extends.same _
  | succ fuel ih =>
    refine (extends_typeArguments h).bind fun _ => Extends.after fun _ => ?_
    exact Extends.ite (Extends.after fun _ => ih _ _) (Extends.same _)

theorem extends_classType (h : Extends less more) :
    Extends (classType less) (classType more) := by
  refine Extends.after fun _ => Extends.after fun _ => Extends.after fun _ => ?_
  exact (extends_segments h _ _ _).bind fun _ => Extends.same _

theorem extends_javaType (h : Extends less more) : Extends (javaType less) (javaType more) := by
  refine Extends.after fun next => ?_
  cases next.bind Primitive.ofLetter? with
  | none => exact h
  | some p => exact Extends.same _

theorem extends_succ (levels : Nat) :
    Extends (referenceType levels) (referenceType (levels + 1)) := by
  induction levels with
  | zero => exact nofun
  | succ levels ih =>
    refine Extends.after fun next => ?_
    split
    · exact extends_classType ih
    · exact Extends.same _
    · exact Extends.after fun _ => (extends_javaType ih).map _
    · exact Extends.same _

theorem extends_of_le {levels levels' : Nat} (h : levels ≤ levels') :
    Extends (referenceType levels) (referenceType levels') := by
  induction h with
  | refl => exact Extends.same _
  | step _ ih => exact ih.trans (extends_succ _)

theorem ReferenceForm.eq_ty_of_parseField {classScope : List String} {r : ReferenceForm}
    {t : Ty String} (h : parseField classScope r.text = .ok t) : t = r.ty classScope := by
  obtain ⟨u, hu, heq⟩ := bind_eq_ok h
  cases heq
  obtain ⟨s, hs⟩ := run_eq_ok hu
  rw [text, String.toList_ofList] at hs
  have hdeeper : Extends fieldBody (do
      let ty ← referenceType (max Nested.signature.limit r.levels)
      finish
      return ty) :=
    (extends_of_le (Nat.le_max_left _ _)).bind fun _ => Extends.same _
  have hreads : Reads (do
      let ty ← referenceType (max Nested.signature.limit r.levels)
      finish
      return ty) r.chars [] (r.ty []) :=
    Reads.last (r.reads (Nat.le_max_right _ _) [])
      (Reads.last reads_finish (Reads.pure _ []))
  obtain ⟨stop, hstop⟩ := hreads 0
  rw [List.append_nil, hdeeper _ _ _ hs] at hstop
  cases hstop
  exact r.bindIn_ty classScope

end ClassCatalog.ClassFile.Signature
