import ClassCatalog.Proofs.Archive.Scanning
import ClassCatalog.Proofs.Outcome

/-! Which bytes are read as a number in base 128, as which number, and with which error the others
are refused; and when a number is too large for what it is to be. -/

namespace ClassCatalog.Archive

namespace Varint

def value : List UInt8 → Nat
  | [] => 0
  | b :: bytes => b.toNat % 128 + 128 * value bytes

def Continue (bytes : List UInt8) : Prop := ∀ b ∈ bytes, 128 ≤ b.toNat

def Ended (bytes : List UInt8) : Prop :=
  ∃ more last, bytes = more ++ [last] ∧ Continue more ∧ last.toNat < 128

/-- The input ends before a number of at most `most` digits does. -/
def StopsShort (most : Nat) (bytes : List UInt8) : Prop := Continue bytes ∧ bytes.length < most

theorem not_continue_cons_of_lt {b : UInt8} (bytes : List UInt8) (hb : b.toNat < 128) :
    ¬ Continue (b :: bytes) :=
  fun h => Nat.not_lt.2 (h b List.mem_cons_self) hb

theorem continue_cons_iff {b : UInt8} {bytes : List UInt8} (hb : 128 ≤ b.toNat) :
    Continue (b :: bytes) ↔ Continue bytes := by
  rw [Continue, List.forall_mem_cons]
  exact and_iff_right hb

theorem not_ended_nil : ¬ Ended [] := by
  rintro ⟨more, last, h, _⟩
  simp at h

theorem ended_cons_iff_of_lt {b : UInt8} {bytes : List UInt8} (hb : b.toNat < 128) :
    Ended (b :: bytes) ↔ bytes = [] := by
  constructor
  · rintro ⟨more, last, h, hmore, _⟩
    cases more with
    | nil => exact (List.cons.inj h).2
    | cons c more =>
      obtain rfl := (List.cons.inj h).1
      exact absurd hmore (not_continue_cons_of_lt more hb)
  · rintro rfl
    exact ⟨[], b, rfl, nofun, hb⟩

theorem ended_cons_iff_of_le {b : UInt8} {bytes : List UInt8} (hb : 128 ≤ b.toNat) :
    Ended (b :: bytes) ↔ Ended bytes := by
  constructor
  · rintro ⟨more, last, h, hmore, hlast⟩
    cases more with
    | nil =>
      obtain rfl := (List.cons.inj h).1
      exact absurd hlast (Nat.not_lt.2 hb)
    | cons c more =>
      obtain rfl := (List.cons.inj h).1
      exact ⟨more, last, (List.cons.inj h).2, (continue_cons_iff hb).1 hmore, hlast⟩
  · rintro ⟨more, last, rfl, hmore, hlast⟩
    exact ⟨b :: more, last, rfl, (continue_cons_iff hb).2 hmore, hlast⟩

end Varint

namespace Scanner

open Varint (Continue Ended StopsShort value)

theorem digits_succ_run_cons (start k : Nat) (b : UInt8) (rest : List UInt8) (offset : Nat) :
    (digits start (k + 1)).run ⟨b :: rest, offset⟩
      = if k = 0 ∧ 1 < b.toNat % 128 then .error (.varintOverflow start)
        else if b.toNat < 128 then .ok (b.toNat % 128, ⟨rest, offset + 1⟩)
        else (do return b.toNat % 128 + 128 * (← digits start k) : Scanner Nat).run
          ⟨rest, offset + 1⟩ := by
  rw [digits, StateT.run_bind, run_byte]
  simp only [bind, Except.bind]
  split
  · rfl
  · split <;> rfl

/-- The front of `c` spells `n` with at most `most` digits, and `d` is the position after them. -/
def Spells (most : Nat) (c : Cursor) (n : Nat) (d : Cursor) : Prop :=
  ∃ front, c.rest = front ++ d.rest ∧ d.offset = c.offset + front.length
    ∧ Ended front ∧ front.length ≤ most ∧ value front = n

theorem not_spells_zero (c : Cursor) (n : Nat) (d : Cursor) : ¬ Spells 0 c n d := by
  rintro ⟨front, _, _, hended, hlength, _⟩
  obtain rfl := List.eq_nil_of_length_eq_zero (Nat.le_zero.1 hlength)
  exact Varint.not_ended_nil hended

theorem not_spells_nil (most offset n : Nat) (d : Cursor) : ¬ Spells most ⟨[], offset⟩ n d := by
  rintro ⟨front, hrest, _, hended, _⟩
  obtain rfl := (List.append_eq_nil_iff.1 hrest.symm).1
  exact Varint.not_ended_nil hended

theorem spells_cons_iff_of_lt {most n offset : Nat} {b : UInt8} {rest : List UInt8} {d : Cursor}
    (hb : b.toNat < 128) :
    Spells (most + 1) ⟨b :: rest, offset⟩ n d ↔ n = b.toNat % 128 ∧ d = ⟨rest, offset + 1⟩ := by
  constructor
  · rintro ⟨front, hrest, hoffset, hended, _, rfl⟩
    cases front with
    | nil => exact absurd hended Varint.not_ended_nil
    | cons c front =>
      obtain ⟨rfl, htail⟩ := List.cons.inj hrest
      obtain rfl := (Varint.ended_cons_iff_of_lt hb).1 hended
      obtain ⟨after, stop⟩ := d
      exact ⟨rfl, Cursor.mk.injEq .. ▸ ⟨htail.symm, hoffset⟩⟩
  · rintro ⟨rfl, rfl⟩
    exact ⟨[b], rfl, rfl, (Varint.ended_cons_iff_of_lt hb).2 rfl, Nat.le_add_left 1 most, rfl⟩

theorem spells_cons_iff_of_le {most n offset : Nat} {b : UInt8} {rest : List UInt8} {d : Cursor}
    (hb : 128 ≤ b.toNat) :
    Spells (most + 1) ⟨b :: rest, offset⟩ n d
      ↔ ∃ m, Spells most ⟨rest, offset + 1⟩ m d ∧ n = b.toNat % 128 + 128 * m := by
  constructor
  · rintro ⟨front, hrest, hoffset, hended, hlength, rfl⟩
    cases front with
    | nil => exact absurd hended Varint.not_ended_nil
    | cons c front =>
      obtain ⟨rfl, htail⟩ := List.cons.inj hrest
      have hended' := (Varint.ended_cons_iff_of_le hb).1 hended
      refine ⟨value front, ⟨front, htail, ?_, hended', Nat.le_of_succ_le_succ hlength, rfl⟩, rfl⟩
      rw [hoffset, List.length_cons, Nat.add_assoc, Nat.add_comm 1]
  · rintro ⟨m, ⟨front, hrest, hoffset, hended, hlength, rfl⟩, rfl⟩
    have hrest' : b :: rest = b :: front ++ d.rest := congrArg (b :: ·) hrest
    refine ⟨b :: front, hrest', ?_, (Varint.ended_cons_iff_of_le hb).2 hended,
      Nat.succ_le_succ hlength, rfl⟩
    rw [hoffset, List.length_cons]
    show offset + 1 + front.length = offset + (front.length + 1)
    omega

/-- What the digit that could be the last one may carry leaves room for `2 * Nat.pow 128 k` numbers. -/
theorem run_digits_eq_ok_iff (start k : Nat) (c : Cursor) (n : Nat) (d : Cursor) :
    (digits start (k + 1)).run c = .ok (n, d) ↔ Spells (k + 1) c n d ∧ n < 2 * Nat.pow 128 k := by
  induction k generalizing c n with
  | zero =>
    obtain ⟨rest, offset⟩ := c
    cases rest with
    | nil => exact ⟨nofun, fun h => absurd h.1 (not_spells_nil _ _ _ _)⟩
    | cons b rest =>
      show _ ↔ _ ∧ n < 2
      rw [digits_succ_run_cons]
      rcases Nat.lt_or_ge b.toNat 128 with hb | hb
      · rw [spells_cons_iff_of_lt hb, if_pos hb]
        split
        · next hlarge =>
          refine ⟨nofun, ?_⟩
          rintro ⟨⟨rfl, rfl⟩, hlt⟩
          omega
        · next hsmall =>
          constructor
          · intro h
            cases h
            exact ⟨⟨rfl, rfl⟩, by omega⟩
          · rintro ⟨⟨rfl, rfl⟩, _⟩
            rfl
      · rw [spells_cons_iff_of_le hb, if_neg (Nat.not_lt.2 hb)]
        refine ⟨fun h => ?_, fun ⟨⟨m, hspells, _⟩, _⟩ => absurd hspells (not_spells_zero _ _ _)⟩
        split at h
        · cases h
        · cases h
  | succ k ih =>
    obtain ⟨rest, offset⟩ := c
    cases rest with
    | nil => exact ⟨nofun, fun h => absurd h.1 (not_spells_nil _ _ _ _)⟩
    | cons b rest =>
      have hpow : Nat.pow 128 (k + 1) = Nat.pow 128 k * 128 := rfl
      have hlow : b.toNat % 128 < 128 := Nat.mod_lt _ (by decide)
      have hpos : 0 < Nat.pow 128 k := Nat.pow_pos (by decide)
      rw [digits_succ_run_cons, if_neg (by omega)]
      split
      · next hb =>
        rw [spells_cons_iff_of_lt hb]
        constructor
        · intro h
          cases h
          exact ⟨⟨rfl, rfl⟩, by omega⟩
        · rintro ⟨⟨rfl, rfl⟩, _⟩
          rfl
      · next hb =>
        rw [spells_cons_iff_of_le (Nat.not_lt.1 hb)]
        constructor
        · intro h
          obtain ⟨⟨m, e⟩, hrun, hpure⟩ := bind_eq_ok h
          cases hpure
          obtain ⟨hspells, hlt⟩ := (ih _ _).1 hrun
          exact ⟨⟨m, hspells, rfl⟩, by omega⟩
        · rintro ⟨⟨m, hspells, rfl⟩, hlt⟩
          have hrun := (ih ⟨rest, offset + 1⟩ m).2 ⟨hspells, by omega⟩
          rw [StateT.run_bind, hrun]
          rfl

theorem run_digits_of_short {start most : Nat} {c : Cursor} (h : StopsShort most c.rest) :
    (digits start most).run c = .error (.unexpectedEnd (c.offset + c.rest.length)) := by
  induction most generalizing c with
  | zero => exact absurd h.2 (Nat.not_lt_zero _)
  | succ k ih =>
    obtain ⟨rest, offset⟩ := c
    obtain ⟨hcontinue, hlength⟩ := h
    cases rest with
    | nil => rfl
    | cons b rest =>
      have hb : 128 ≤ b.toNat := hcontinue b List.mem_cons_self
      have hshort : rest.length < k := Nat.lt_of_succ_lt_succ hlength
      have hrest := ih (c := ⟨rest, offset + 1⟩) ⟨(Varint.continue_cons_iff hb).1 hcontinue, hshort⟩
      rw [digits_succ_run_cons, if_neg (by omega), if_neg (Nat.not_lt.2 hb), StateT.run_bind, hrest,
        List.length_cons, Nat.add_comm rest.length, ← Nat.add_assoc]
      rfl

theorem run_digits_error {start most : Nat} {c : Cursor} {e : ArchiveError}
    (h : (digits start most).run c = .error e) :
    StopsShort most c.rest ∨ e = .varintOverflow start := by
  induction most generalizing c with
  | zero =>
    cases h
    exact .inr rfl
  | succ k ih =>
    obtain ⟨rest, offset⟩ := c
    cases rest with
    | nil => exact .inl ⟨nofun, Nat.succ_pos k⟩
    | cons b rest =>
      rw [digits_succ_run_cons] at h
      split at h
      · cases h
        exact .inr rfl
      split at h
      · cases h
      · next hb =>
        have hb : 128 ≤ b.toNat := Nat.not_lt.1 hb
        have hrun : (digits start k).run ⟨rest, offset + 1⟩ = .error e := by
          cases hmore : (digits start k).run ⟨rest, offset + 1⟩ with
          | ok r =>
            rw [StateT.run_bind, hmore] at h
            cases h
          | error e' =>
            rw [StateT.run_bind, hmore] at h
            cases h
            rfl
        refine (ih hrun).imp (fun hshort => ?_) id
        exact ⟨(Varint.continue_cons_iff hb).2 hshort.1, Nat.succ_lt_succ hshort.2⟩

theorem run_varint_eq_ok_iff (c : Cursor) (n : Nat) (d : Cursor) :
    varint.run c = .ok (n, d) ↔ Spells 10 c n d ∧ n < UInt64.size := by
  rw [run_varint]
  exact run_digits_eq_ok_iff c.offset 9 c n d

theorem run_varint_eq_error_iff (c : Cursor) (e : ArchiveError) :
    varint.run c = .error e
      ↔ (StopsShort 10 c.rest ∧ e = .unexpectedEnd (c.offset + c.rest.length))
        ∨ (¬ StopsShort 10 c.rest ∧ (¬ ∃ n d, Spells 10 c n d ∧ n < UInt64.size)
          ∧ e = .varintOverflow c.offset) := by
  rw [run_varint]
  constructor
  · intro h
    by_cases hshort : StopsShort 10 c.rest
    · rw [run_digits_of_short hshort] at h
      cases h
      exact .inl ⟨hshort, rfl⟩
    · refine .inr ⟨hshort, ?_, (run_digits_error h).resolve_left hshort⟩
      rintro ⟨n, d, hspells⟩
      rw [(run_digits_eq_ok_iff c.offset 9 c n d).2 hspells] at h
      cases h
  · rintro (⟨hshort, rfl⟩ | ⟨hshort, hnone, rfl⟩)
    · exact run_digits_of_short hshort
    · cases hrun : (digits c.offset 10).run c with
      | ok r => exact absurd ⟨r.1, r.2, (run_digits_eq_ok_iff c.offset 9 c r.1 r.2).1 hrun⟩ hnone
      | error e => rw [(run_digits_error hrun).resolve_left hshort]

variable {α : Type}

structure Narrows (p q : Scanner α) (P : α → Prop) : Prop where
  ok : ∀ c a d, q.run c = .ok (a, d) ↔ p.run c = .ok (a, d) ∧ P a
  error : ∀ c e, q.run c = .error e
    ↔ p.run c = .error e ∨ ∃ a d, p.run c = .ok (a, d) ∧ ¬ P a ∧ e = .varintOverflow c.offset

theorem narrows_of_run {p q : Scanner α} {P : α → Prop} [DecidablePred P]
    (h : ∀ c, q.run c
      = (p.run c >>= fun r => if P r.1 then .ok r else .error (.varintOverflow c.offset))) :
    Narrows p q P := by
  constructor
  · intro c a d
    rw [h]
    cases p.run c with
    | error e => exact ⟨nofun, nofun⟩
    | ok r =>
      show (if P r.1 then _ else _) = _ ↔ _
      split
      · next hP =>
        refine ⟨fun heq => ?_, fun heq => heq.1⟩
        cases heq
        exact ⟨rfl, hP⟩
      · next hP =>
        refine ⟨nofun, fun ⟨heq, ha⟩ => ?_⟩
        cases heq
        exact absurd ha hP
  · intro c e
    rw [h]
    cases p.run c with
    | error e' =>
      refine ⟨.inl, fun heq => heq.resolve_right ?_⟩
      rintro ⟨_, _, heq, _⟩
      cases heq
    | ok r =>
      show (if P r.1 then _ else _) = _ ↔ _
      split
      · next hP =>
        refine ⟨nofun, ?_⟩
        rintro (heq | ⟨a, d, heq, ha, _⟩)
        · cases heq
        · cases heq
          exact absurd hP ha
      · next hP =>
        constructor
        · intro heq
          cases heq
          exact .inr ⟨r.1, r.2, rfl, hP, rfl⟩
        · rintro (heq | ⟨_, _, _, _, rfl⟩)
          · cases heq
          · rfl

theorem narrows_varintBelow (limit : Nat) : Narrows varint (varintBelow limit) (· < limit) := by
  apply narrows_of_run
  intro c
  show (varint.run c >>= fun r =>
    (if r.1 < limit then pure r.1 else throw (.varintOverflow c.offset) : Scanner Nat).run r.2) = _
  congr 1
  funext r
  split <;> rfl

theorem narrows_signedIn (least greatest : Int) :
    Narrows signed (signedIn least greatest) fun z => least ≤ z ∧ z ≤ greatest := by
  apply narrows_of_run
  intro c
  show (signed.run c >>= fun r =>
    (if least ≤ r.1 ∧ r.1 ≤ greatest then pure r.1 else throw (.varintOverflow c.offset) :
      Scanner Int).run r.2) = _
  congr 1
  funext r
  split <;> rfl

theorem run_signed (c : Cursor) :
    signed.run c = (varint.run c).map fun r => (Zigzag.decode r.1, r.2) := by
  show (varint.run c >>= fun r => .ok (Zigzag.decode r.1, r.2)) = _
  cases varint.run c <;> rfl

theorem run_optional (c : Cursor) :
    optional.run c = (varint.run c).map fun r => (if r.1 = 0 then none else some (r.1 - 1), r.2) := by
  rw [optional, StateT.run_bind]
  cases varint.run c with
  | error e => rfl
  | ok r =>
    obtain ⟨n, d⟩ := r
    cases n <;> rfl

end Scanner

end ClassCatalog.Archive
