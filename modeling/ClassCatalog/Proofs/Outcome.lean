import ClassCatalog.Bytes.Cursor

/-! What a computation gives when it does not fail. -/

namespace ClassCatalog

variable {α β ι σ ε : Type}

/-- Every result of `e` has the property `Q`. -/
def Gives (e : Except ε α) (Q : α → Prop) : Prop := ∀ a, e = .ok a → Q a

def Yields (p : StateT σ (Except ε) α) (Q : α → Prop) : Prop :=
  ∀ s a s', p.run s = .ok (a, s') → Q a

theorem bind_eq_ok {e : Except ε α} {f : α → Except ε β} {b : β} (h : (e >>= f) = .ok b) :
    ∃ a, e = .ok a ∧ f a = .ok b := by
  cases e with
  | error e => cases h
  | ok a => exact ⟨a, rfl, h⟩

theorem eq_ok_of_toOption {e : Except ε α} {a : α} (h : e.toOption = some a) : e = .ok a := by
  cases e with
  | error e => cases h
  | ok b =>
    cases h
    rfl

theorem run_bind_of_ok {p : StateT σ (Except ε) α} {k : α → StateT σ (Except ε) β} {s u : σ}
    {a : α} (h : p.run s = .ok (a, u)) : (p >>= k).run s = (k a).run u := by
  rw [StateT.run_bind, h]
  rfl

theorem run_lift_of_ok {x : Except ε α} {k : α → StateT σ (Except ε) β} {s : σ} {a : α}
    (h : x = .ok a) : ((liftM x : StateT σ (Except ε) α) >>= k).run s = (k a).run s := by
  rw [h]
  rfl

namespace Gives

variable {P : α → Prop} {Q : β → Prop}

theorem ok {a : α} (h : P a) : Gives (.ok a : Except ε α) P := by
  intro b hb
  cases hb
  exact h

theorem error (e : ε) : Gives (.error e : Except ε α) P := nofun

theorem any (e : Except ε α) : Gives e fun _ => True := fun _ _ => trivial

theorem bind {e : Except ε α} {f : α → Except ε β} (he : Gives e P)
    (hf : ∀ a, P a → Gives (f a) Q) : Gives (e >>= f) Q := by
  intro b hb
  obtain ⟨a, ha, hfa⟩ := bind_eq_ok hb
  exact hf a (he a ha) b hfa

theorem mapM {f : ι → Except ε α} {xs : List ι} (h : ∀ x ∈ xs, Gives (f x) P) :
    Gives (xs.mapM f) fun as => ∀ a ∈ as, P a := by
  induction xs with
  | nil => exact ok (by simp)
  | cons x xs ih =>
    rw [List.mapM_cons]
    refine (h x List.mem_cons_self).bind fun a ha => ?_
    refine (ih fun y hy => h y (List.mem_cons_of_mem x hy)).bind fun as has => ok ?_
    exact List.forall_mem_cons.2 ⟨ha, has⟩

theorem optionMapM {f : ι → Except ε α} {x : Option ι} (h : ∀ i ∈ x, Gives (f i) P) :
    Gives (x.mapM f) fun a => ∀ b ∈ a, P b := by
  cases x with
  | none => exact ok (by simp)
  | some i =>
    rw [Option.mapM_some, ← bind_pure_comp]
    refine (h i rfl).bind fun a ha => ok ?_
    intro b hb
    cases hb
    exact ha

end Gives

namespace Yields

variable {P : α → Prop} {Q : β → Prop}

theorem pure {a : α} (h : P a) : Yields (Pure.pure a : StateT σ (Except ε) α) P := by
  intro s b s' hb
  cases hb
  exact h

theorem any (p : StateT σ (Except ε) α) : Yields p fun _ => True := fun _ _ _ _ => trivial

theorem mono {P' : α → Prop} {p : StateT σ (Except ε) α} (hp : Yields p P)
    (h : ∀ a, P a → P' a) : Yields p P' := fun s a s' ha => h a (hp s a s' ha)

theorem fail (e : ε) : Yields (throw e : StateT σ (Except ε) α) P := nofun

theorem bind {p : StateT σ (Except ε) α} {f : α → StateT σ (Except ε) β} (hp : Yields p P)
    (hf : ∀ a, P a → Yields (f a) Q) : Yields (p >>= f) Q := by
  intro s b s' hb
  rw [StateT.run_bind] at hb
  obtain ⟨⟨a, s₁⟩, ha, hfa⟩ := bind_eq_ok hb
  exact hf a (hp s a s₁ ha) s₁ b s' hfa

theorem after {p : StateT σ (Except ε) α} {f : α → StateT σ (Except ε) β}
    (hf : ∀ a, Yields (f a) Q) : Yields (p >>= f) Q :=
  (any p).bind fun a _ => hf a

theorem map {p : StateT σ (Except ε) α} (f : α → β) (h : Yields p fun a => Q (f a)) :
    Yields (do return f (← p)) Q :=
  h.bind fun _ ha => pure ha

theorem mapped {p : StateT σ (Except ε) α} (f : α → β) (h : Yields p fun a => Q (f a)) :
    Yields (f <$> p) Q := by
  rw [← bind_pure_comp]
  exact h.map f

theorem lift {e : Except ε α} (h : Gives e P) : Yields (liftM e : StateT σ (Except ε) α) P := by
  intro s a s' ha
  have hrun : (liftM e : StateT σ (Except ε) α).run s = (e >>= fun a => .ok (a, s)) := rfl
  rw [hrun] at ha
  obtain ⟨b, hb, heq⟩ := bind_eq_ok ha
  cases heq
  exact h a hb

theorem ite {c : Prop} [Decidable c] {p q : StateT σ (Except ε) α} (hp : c → Yields p P)
    (hq : ¬ c → Yields q P) : Yields (if c then p else q) P := by
  split
  · next h => exact hp h
  · next h => exact hq h

theorem times {p : StateT σ (Except ε) α} (h : Yields p P) (n : Nat) :
    Yields (times n p) fun as => as.length = n ∧ ∀ a ∈ as, P a := by
  induction n with
  | zero => exact pure (by simp)
  | succ n ih =>
    refine h.bind fun a ha => ih.bind fun as has => pure ?_
    exact ⟨by rw [List.length_cons, has.1], List.forall_mem_cons.2 ⟨ha, has.2⟩⟩

end Yields

end ClassCatalog
