import ClassCatalog.Proofs.Outcome

/-! Two runs over the bytes of an input: one over the input alone, the other over the same input
with more behind it. -/

namespace ClassCatalog

variable {α α' β β' ε : Type} {lost : ε → Prop} {R : α → α' → Prop} {Q : β → β' → Prop}

def Prolongs (lost : ε → Prop) (R : α → α' → Prop) (p : StateT Cursor (Except ε) α)
    (q : StateT Cursor (Except ε) α') : Prop :=
  ∀ front more offset,
    (∃ a a' rest offset', R a a' ∧ p.run ⟨front, offset⟩ = .ok (a, ⟨rest, offset'⟩)
        ∧ q.run ⟨front ++ more, offset⟩ = .ok (a', ⟨rest ++ more, offset'⟩))
      ∨ ∃ e, p.run ⟨front, offset⟩ = .error e
        ∧ (lost e ∨ q.run ⟨front ++ more, offset⟩ = .error e)

def Steady (lost : ε → Prop) (p : StateT Cursor (Except ε) α) : Prop := Prolongs lost Eq p p

namespace Prolongs

theorem pure {a : α} {a' : α'} (h : R a a') :
    Prolongs lost R (Pure.pure a : StateT Cursor (Except ε) α) (Pure.pure a') :=
  fun front _ offset => .inl ⟨a, a', front, offset, h, rfl, rfl⟩

theorem fail (e : ε) :
    Prolongs lost R (throw e : StateT Cursor (Except ε) α) (throw e) :=
  fun _ _ _ => .inr ⟨e, rfl, .inr rfl⟩

theorem bind {p : StateT Cursor (Except ε) α} {q : StateT Cursor (Except ε) α'}
    {f : α → StateT Cursor (Except ε) β} {g : α' → StateT Cursor (Except ε) β'}
    (hp : Prolongs lost R p q) (hf : ∀ a a', R a a' → Prolongs lost Q (f a) (g a')) :
    Prolongs lost Q (p >>= f) (q >>= g) := by
  intro front more offset
  rw [StateT.run_bind, StateT.run_bind]
  rcases hp front more offset with ⟨a, a', rest, offset', hr, hrun, hrun'⟩ | ⟨e, hrun, hcase⟩
  · rw [hrun, hrun']
    exact hf a a' hr rest more offset'
  · rw [hrun]
    refine .inr ⟨e, rfl, hcase.imp_right fun hrun' => ?_⟩
    rw [hrun']
    rfl

theorem run_same {p : StateT Cursor (Except ε) α} {q : StateT Cursor (Except ε) α'}
    (h : Prolongs lost R p q) (c : Cursor) :
    (∃ a a' d, R a a' ∧ p.run c = .ok (a, d) ∧ q.run c = .ok (a', d))
      ∨ ∃ e, p.run c = .error e ∧ (lost e ∨ q.run c = .error e) := by
  have hrun := h c.rest [] c.offset
  simp only [List.append_nil] at hrun
  refine hrun.imp_left ?_
  rintro ⟨a, a', rest, offset, hr, hp, hq⟩
  exact ⟨a, a', _, hr, hp, hq⟩

theorem error_of_run {p : StateT Cursor (Except ε) α} {q : StateT Cursor (Except ε) α'}
    (h : Prolongs lost R p q) {front more : List UInt8} {offset : Nat} {a' : α'} {c : Cursor}
    (hq : q.run ⟨front ++ more, offset⟩ = .ok (a', c)) (hend : c.rest = []) (hmore : more ≠ []) :
    ∃ e, lost e ∧ p.run ⟨front, offset⟩ = .error e := by
  rcases h front more offset with ⟨a, b, rest, offset', _, _, hrun'⟩ | ⟨e, hrun, hlost | hrun'⟩
  · rw [hq] at hrun'
    cases hrun'
    exact absurd (List.append_eq_nil_iff.1 hend).2 hmore
  · exact ⟨e, hlost, hrun⟩
  · rw [hq] at hrun'
    cases hrun'

theorem run_append {p : StateT Cursor (Except ε) α} {q : StateT Cursor (Except ε) α'}
    (h : Prolongs lost R p q) {front : List UInt8} {offset : Nat} {a : α} {c : Cursor}
    (hp : p.run ⟨front, offset⟩ = .ok (a, c)) (more : List UInt8) :
    ∃ a', R a a' ∧ q.run ⟨front ++ more, offset⟩ = .ok (a', ⟨c.rest ++ more, c.offset⟩) := by
  rcases h front more offset with ⟨b, a', rest, offset', hr, hrun, hrun'⟩ | ⟨e, hrun, _⟩
  · rw [hp] at hrun
    cases hrun
    exact ⟨a', hr, hrun'⟩
  · rw [hp] at hrun
    cases hrun

end Prolongs

namespace Steady

theorem pure (a : α) : Steady lost (Pure.pure a : StateT Cursor (Except ε) α) :=
  Prolongs.pure rfl

theorem fail (e : ε) : Steady lost (throw e : StateT Cursor (Except ε) α) := Prolongs.fail e

theorem bind {p : StateT Cursor (Except ε) α} {f : α → StateT Cursor (Except ε) β}
    (hp : Steady lost p) (hf : ∀ a, Steady lost (f a)) : Steady lost (p >>= f) := by
  refine Prolongs.bind hp ?_
  rintro a _ rfl
  exact hf a

theorem map {p : StateT Cursor (Except ε) α} (f : α → β) (h : Steady lost p) :
    Steady lost (do return f (← p)) :=
  h.bind fun a => pure (f a)

theorem mapped {p : StateT Cursor (Except ε) α} (f : α → β) (h : Steady lost p) :
    Steady lost (f <$> p) := by
  rw [← bind_pure_comp]
  exact h.map f

theorem lift (e : Except ε α) : Steady lost (liftM e : StateT Cursor (Except ε) α) := by
  cases e with
  | ok a => exact pure a
  | error e => exact fail e

theorem ite {c : Prop} [Decidable c] {p q : StateT Cursor (Except ε) α} (hp : Steady lost p)
    (hq : Steady lost q) : Steady lost (if c then p else q) := by
  split
  · exact hp
  · exact hq

theorem times {p : StateT Cursor (Except ε) α} (h : Steady lost p) (n : Nat) :
    Steady lost (ClassCatalog.times n p) := by
  induction n with
  | zero => exact pure []
  | succ n ih => exact h.bind fun a => ih.map (a :: ·)

theorem take {n : Nat} {p : StateT Cursor (Except ε) (List UInt8)}
    (hok : ∀ c r, c.take? n = some r → p.run c = .ok r)
    (hnone : ∀ c, c.take? n = none → ∃ e, lost e ∧ p.run c = .error e) : Steady lost p := by
  intro front more offset
  cases htake : Cursor.take? n ⟨front, offset⟩ with
  | none =>
    obtain ⟨e, he, hrun⟩ := hnone _ htake
    exact .inr ⟨e, hrun, .inl he⟩
  | some r =>
    obtain ⟨bytes, rest, offset'⟩ := r
    obtain ⟨hfront, rfl, hoffset⟩ := Cursor.take?_eq_some htake
    have hfront' : front = bytes ++ rest := hfront
    have hoffset' : offset' = offset + bytes.length := hoffset
    subst hfront' hoffset'
    -- The bytes that are wanted stand in front of what the shorter input leaves.
    refine .inl ⟨bytes, bytes, rest, _, rfl, hok _ _ htake, hok _ _ ?_⟩
    rw [List.append_assoc]
    exact Cursor.take?_append bytes (rest ++ more) offset

end Steady

end ClassCatalog
