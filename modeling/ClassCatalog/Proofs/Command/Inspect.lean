import Mathlib.Tactic.SplitIfs
import ClassCatalog.Command.Arguments

/-! The arguments of `inspect`: one path and the flag, in any order. -/

namespace ClassCatalog.Command.InspectOptions

theorem addAll_some_eq_ok_iff {path : String} {visible : Bool} {arguments : List String}
    {o : InspectOptions} : addAll (some path) visible arguments = .ok o
      ↔ o.path = path ∧ (∀ a ∈ arguments, a = "--no-invisible")
        ∧ o.includeInvisible = (visible && arguments.isEmpty) := by
  induction arguments generalizing visible with
  | nil =>
    obtain ⟨found, includeInvisible⟩ := o
    simp [addAll, eq_comm]
  | cons argument rest ih =>
    rw [addAll]
    by_cases hflag : argument = "--no-invisible"
    · rw [if_pos hflag, ih, List.forall_mem_cons]
      simp [hflag]
    · rw [if_neg hflag]
      have hrefused : ¬ ∀ a ∈ argument :: rest, a = "--no-invisible" :=
        fun h => hflag (h argument List.mem_cons_self)
      simp only [hrefused, false_and, and_false, iff_false]
      split_ifs
      · exact nofun
      · next hpath => cases hpath
      · exact nofun

theorem exists_cons_eq_append_iff {α : Type} {a p : α} {rest : List α}
    {holds : List α → List α → Prop} :
    (∃ front back, a :: rest = front ++ p :: back ∧ holds front back)
      ↔ (a = p ∧ holds [] rest)
        ∨ ∃ front back, rest = front ++ p :: back ∧ holds (a :: front) back := by
  constructor
  · rintro ⟨front, back, hwords, hholds⟩
    cases front with
    | nil =>
      obtain ⟨rfl, rfl⟩ := List.cons.inj hwords
      exact .inl ⟨rfl, hholds⟩
    | cons first front =>
      obtain ⟨rfl, rfl⟩ := List.cons.inj hwords
      exact .inr ⟨front, back, rfl, hholds⟩
  · rintro (⟨rfl, hholds⟩ | ⟨front, back, rfl, hholds⟩)
    · exact ⟨[], rest, rfl, hholds⟩
    · exact ⟨a :: front, back, rfl, hholds⟩

theorem addAll_none_eq_ok_iff {visible : Bool} {arguments : List String} {o : InspectOptions} :
    addAll none visible arguments = .ok o
      ↔ ∃ front back, arguments = front ++ o.path :: back ∧ startsWithDash o.path = false
        ∧ (∀ a ∈ front ++ back, a = "--no-invisible")
        ∧ o.includeInvisible = (visible && (front ++ back).isEmpty) := by
  induction arguments generalizing visible with
  | nil => simp [addAll]
  | cons argument rest ih =>
    rw [addAll, exists_cons_eq_append_iff]
    by_cases hflag : argument = "--no-invisible"
    · subst hflag
      rw [if_pos rfl, ih, or_iff_right]
      · simp
      · rintro ⟨hpath, hdash, _⟩
        rw [← hpath] at hdash
        exact absurd hdash (by decide)
    · rw [if_neg hflag, or_iff_left]
      · cases hdash : startsWithDash argument with
        | true =>
          rw [if_pos rfl]
          refine ⟨nofun, ?_⟩
          rintro ⟨rfl, hpath, _⟩
          rw [hdash] at hpath
          cases hpath
        | false =>
          rw [if_neg Bool.false_ne_true]
          change addAll (some argument) visible rest = .ok o ↔ _
          rw [addAll_some_eq_ok_iff]
          constructor
          · rintro ⟨rfl, hall, hvisible⟩
            exact ⟨rfl, hdash, hall, hvisible⟩
          · rintro ⟨rfl, _, hall, hvisible⟩
            exact ⟨rfl, hall, hvisible⟩
      · -- What is not the flag can only be the path.
        rintro ⟨front, back, _, _, hall, _⟩
        exact hflag (hall _ List.mem_cons_self)

theorem accepts_iff {arguments : List String} {o : InspectOptions} :
    parse arguments = .ok o ↔ ∃ front back, arguments = front ++ o.path :: back
      ∧ startsWithDash o.path = false ∧ (∀ a ∈ front ++ back, a = "--no-invisible")
      ∧ o.includeInvisible = (front ++ back).isEmpty := by
  rw [parse, addAll_none_eq_ok_iff]
  simp only [Bool.true_and]

end ClassCatalog.Command.InspectOptions
