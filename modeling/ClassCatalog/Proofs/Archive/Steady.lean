import ClassCatalog.Archive.Read
import ClassCatalog.Proofs.Archive.Metering
import ClassCatalog.Proofs.Prolonged

/-! Reading an archive goes on as before when more bytes stand behind it and more type nodes may
be built. -/

namespace ClassCatalog

/-- The errors of an archive that stops too early: its end is met, or, since a shorter archive may
build fewer nodes, a type is too large for it. -/
def ArchiveError.IsShortage : ArchiveError → Prop
  | unexpectedEnd _ | typeTooLarge _ => True
  | _ => False

theorem ArchiveError.category_of_isShortage {e : ArchiveError} (h : e.IsShortage) :
    e.category = .malformedInput := by
  cases e <;> first | rfl | cases h

namespace Archive

open ArchiveError (IsShortage)

variable {α β ι : Type}

namespace Scanner

theorem steady_offset : Steady IsShortage offset := by
  intro front more start
  exact .inl ⟨start, start, front, start, rfl, rfl, rfl⟩

theorem steady_bytes (n : Nat) : Steady IsShortage (bytes n) := by
  apply Steady.take (n := n)
  · intro c r h
    rw [StateT.run, bytes, h]
  · intro c h
    refine ⟨.unexpectedEnd c.offset, trivial, ?_⟩
    rw [StateT.run, bytes, h]

theorem steady_byte : Steady IsShortage byte := by
  intro front more offset
  cases front with
  | nil => exact .inr ⟨.unexpectedEnd offset, rfl, .inl trivial⟩
  | cons b rest => exact .inl ⟨b, b, rest, offset + 1, rfl, rfl, rfl⟩

theorem steady_bool : Steady IsShortage bool := by
  refine steady_byte.bind fun b => ?_
  split
  · exact .pure false
  · exact .pure true
  · exact .fail _

theorem steady_digits (start n : Nat) : Steady IsShortage (digits start n) := by
  induction n with
  | zero => exact .fail _
  | succ n ih =>
    refine steady_byte.bind fun b => ?_
    have hmore : Steady IsShortage (if b.toNat < 128 then pure (b.toNat % 128) else do
        return b.toNat % 128 + 128 * (← digits start n)) := .ite (.pure _) (ih.map _)
    exact .ite ((Steady.fail _).bind fun _ => hmore) hmore

theorem steady_varint : Steady IsShortage varint :=
  steady_offset.bind fun start => steady_digits start 10

theorem steady_varintBelow (limit : Nat) : Steady IsShortage (varintBelow limit) :=
  steady_offset.bind fun _ => steady_varint.bind fun n => .ite (.pure n) (.fail _)

theorem steady_signed : Steady IsShortage signed := steady_varint.map _

theorem steady_signedIn (least greatest : Int) : Steady IsShortage (signedIn least greatest) :=
  steady_offset.bind fun _ => steady_signed.bind fun z => .ite (.pure z) (.fail _)

theorem steady_count : Steady IsShortage count := by
  refine steady_offset.bind fun start => steady_varint.bind fun n => ?_
  intro front more offset
  have hrun : ∀ c : Cursor, (do
      if ((← get).take? n).isSome then return n else throw (.unexpectedEnd start) : Scanner Nat).run c
        = if (c.take? n).isSome then .ok (n, c) else .error (.unexpectedEnd start) := by
    intro c
    show StateT.run (if (c.take? n).isSome then _ else _) c = _
    split <;> rfl
  rw [hrun, hrun]
  cases hfront : Cursor.take? n ⟨front, offset⟩ with
  -- A count that is too large for what is left may fit once more stands behind it.
  | none => exact .inr ⟨.unexpectedEnd start, rfl, .inl trivial⟩
  | some r =>
    have hmore : (Cursor.take? n ⟨front ++ more, offset⟩).isSome := by
      rw [← Option.ne_none_iff_isSome, ne_eq, Cursor.take?_eq_none_iff, List.length_append]
      have henough : ¬ front.length < n := fun hlt => by
        rw [(Cursor.take?_eq_none_iff n ⟨front, offset⟩).2 hlt] at hfront
        cases hfront
      omega
    exact .inl ⟨n, n, front, offset, rfl, rfl, if_pos hmore⟩

theorem steady_optional : Steady IsShortage optional := by
  refine steady_varint.bind fun n => ?_
  cases n with
  | zero => exact .pure none
  | succ n => exact .pure (some n)

theorem steady_single : Steady IsShortage single := (steady_bytes 4).map _

theorem steady_double : Steady IsShortage double := (steady_bytes 8).map _

theorem steady_text : Steady IsShortage text := by
  refine steady_count.bind fun length => steady_offset.bind fun start => ?_
  refine (steady_bytes length).bind fun bytes => ?_
  cases String.fromUTF8? ⟨bytes.toArray⟩ with
  | some s => exact .pure s
  | none => exact .fail _

theorem steady_counted {item : Scanner α} (h : Steady IsShortage item) :
    Steady IsShortage (counted item) := steady_count.bind h.times

end Scanner

namespace Metered

/-- `p` goes on as before, and with no less left to build. -/
def Persists (p : Metered α) : Prop :=
  ∀ budget budget', budget ≤ budget' →
    Prolongs IsShortage (fun r r' => r.1 = r'.1 ∧ r.2 ≤ r'.2) (p.run budget) (p.run budget')

namespace Persists

theorem pure (a : α) : Persists (Pure.pure a) := fun _ _ h => Prolongs.pure ⟨rfl, h⟩

theorem fail (e : ArchiveError) : Persists (throw e : Metered α) := fun _ _ _ => Prolongs.fail e

theorem bind {p : Metered α} {f : α → Metered β} (hp : Persists p) (hf : ∀ a, Persists (f a)) :
    Persists (p >>= f) := by
  intro budget budget' hle
  rw [StateT.run_bind, StateT.run_bind]
  refine Prolongs.bind (hp budget budget' hle) ?_
  rintro ⟨a, left⟩ ⟨_, left'⟩ ⟨rfl, hle'⟩
  exact hf a left left' hle'

theorem map {p : Metered α} (f : α → β) (h : Persists p) : Persists (do return f (← p)) :=
  h.bind fun a => pure (f a)

theorem lift {p : Scanner α} (h : Steady IsShortage p) :
    Persists (liftM p : Metered α) := by
  intro budget budget' hle
  have hrun : ∀ left : Nat, (liftM p : Metered α).run left = (p >>= fun a => return (a, left)) :=
    fun _ => rfl
  rw [hrun, hrun]
  refine Prolongs.bind h ?_
  rintro a _ rfl
  exact Prolongs.pure ⟨rfl, hle⟩

theorem liftExcept (e : Except ArchiveError α) : Persists (liftM e : Metered α) :=
  lift (Steady.lift e)

theorem ite {c : Prop} [Decidable c] {p q : Metered α} (hp : Persists p) (hq : Persists q) :
    Persists (if c then p else q) := by
  split
  · exact hp
  · exact hq

theorem times {p : Metered α} (h : Persists p) (n : Nat) : Persists (ClassCatalog.times n p) := by
  induction n with
  | zero => exact pure []
  | succ n ih => exact h.bind fun a => ih.map (a :: ·)

theorem counted {item : Metered α} (h : Persists item) : Persists (Archive.counted item) :=
  (lift Scanner.steady_count).bind h.times

theorem optionMapM {f : ι → Metered α} (h : ∀ i, Persists (f i)) (x : Option ι) :
    Persists (x.mapM f) := by
  cases x with
  | none => exact pure none
  | some i =>
    rw [Option.mapM_some, ← bind_pure_comp]
    exact (h i).map some

theorem within {p : Metered α} (h : Persists p) (body : List UInt8) :
    Persists (Archive.within body p) := by
  intro budget budget' hle front more offset
  rcases (h budget budget' hle).run_same ⟨body, 0⟩ with
    ⟨r, r', d, hr, hrun, hrun'⟩ | ⟨e, hrun, hcase⟩
  · exact .inl ⟨r, r', front, offset, hr, run_within_of_ok hrun _, run_within_of_ok hrun' _⟩
  · refine .inr ⟨e, run_within_of_error hrun _, hcase.imp_right fun hrun' => ?_⟩
    exact run_within_of_error hrun' _

end Persists

end Metered

end Archive

end ClassCatalog
