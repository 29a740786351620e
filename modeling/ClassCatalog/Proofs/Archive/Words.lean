import Mathlib
import ClassCatalog.Proofs.Archive.Numbers

/-! Numbers of an archive as words of 64 bits. Digits are masked and shifted out of a word and
joined in one without the loss of a bit, and a sign is folded into the lowest bit and out again. -/

namespace ClassCatalog.Archive

namespace Varint

theorem toNat_shiftRight_seven (w : UInt64) : (w >>> 7).toNat = w.toNat / 128 := by
  rw [UInt64.toNat_shiftRight]
  exact Nat.shiftRight_eq_div_pow w.toNat 7

theorem shiftRight_seven_eq_zero_iff (w : UInt64) : w >>> 7 = 0 ↔ w.toNat < 128 := by
  rw [← UInt64.toNat_inj, toNat_shiftRight_seven]
  show w.toNat / 128 = 0 ↔ w.toNat < 128
  omega

/-- The digits of a word: seven bits are masked, and then shifted out, until none are left. -/
def ofWord (w : UInt64) : List UInt8 :=
  if w >>> 7 = 0 then [(w &&& 0x7F).toUInt8]
  else ((w &&& 0x7F).toUInt8 ||| 0x80) :: ofWord (w >>> 7)
termination_by w.toNat
decreasing_by
  next h =>
  rw [shiftRight_seven_eq_zero_iff] at h
  rw [toNat_shiftRight_seven]
  omega

theorem lowBits_eq (w : UInt64) : (w &&& 0x7F).toUInt8 = UInt8.ofNat (w.toNat % 128) := by
  have hmask : (0x7F : UInt64).toNat = 2 ^ 7 - 1 := rfl
  have hlow : (w &&& 0x7F).toNat = w.toNat % 128 := by
    rw [UInt64.toNat_and, hmask, Nat.and_two_pow_sub_one_eq_mod]
  rw [← UInt8.ofNat_toNat (x := (w &&& 0x7F).toUInt8), UInt64.toNat_toUInt8, hlow,
    Nat.mod_eq_of_lt (by omega)]

theorem ofNat_or_high {d : Nat} (h : d < 128) :
    UInt8.ofNat d ||| 0x80 = UInt8.ofNat (d + 128) := by
  have hd : (UInt8.ofNat d).toNat = d := UInt8.toNat_ofNat_of_lt (Nat.lt_trans h (by decide))
  have hsum : (UInt8.ofNat (d + 128)).toNat = d + 128 :=
    UInt8.toNat_ofNat_of_lt (Nat.add_lt_add_right h 128)
  have hhigh : (0x80 : UInt8).toNat = 2 ^ 7 * 1 := rfl
  rw [← UInt8.toNat_inj, UInt8.toNat_or, hd, hhigh, Nat.or_comm,
    ← Nat.two_pow_add_eq_or_of_lt h, hsum]
  omega

theorem ofWord_eq_digits {fuel : Nat} {w : UInt64} (h : w.toNat ≤ fuel) :
    ofWord w = digits fuel w.toNat := by
  induction fuel generalizing w with
  | zero =>
    rw [ofWord, if_pos ((shiftRight_seven_eq_zero_iff w).2 (by omega)), lowBits_eq, digits]
  | succ fuel ih =>
    rw [ofWord, digits, lowBits_eq]
    by_cases hlt : w.toNat < 128
    · rw [if_pos ((shiftRight_seven_eq_zero_iff w).2 hlt), if_pos hlt, Nat.mod_eq_of_lt hlt]
    · have hrest : (w >>> 7).toNat ≤ fuel := by
        rw [toNat_shiftRight_seven]
        omega
      rw [if_neg (mt (shiftRight_seven_eq_zero_iff w).1 hlt), if_neg hlt,
        ofNat_or_high (Nat.mod_lt _ (by decide)), ih hrest, toNat_shiftRight_seven]

theorem ofWord_eq_encode (w : UInt64) : ofWord w = encode w.toNat :=
  ofWord_eq_digits (Nat.le_refl _)

end Varint

namespace Zigzag

def foldWord (z : Int64) : UInt64 := ((z <<< 1) ^^^ (z >>> 63)).toUInt64

def unfoldWord (w : UInt64) : Int64 := (w >>> 1).toInt64 ^^^ -(w &&& 1).toInt64

theorem encode_of_nonneg {z : Int} (h : 0 ≤ z) : (encode z : Int) = 2 * z := by
  cases z with
  | ofNat n => rfl
  | negSucc n => omega

theorem encode_of_neg {z : Int} (h : z < 0) : (encode z : Int) = -2 * z - 1 := by
  cases z with
  | ofNat n => exact absurd h (Int.not_lt.2 (Int.natCast_nonneg n))
  | negSucc n =>
    simp only [encode]
    omega

theorem shiftRight_sign (z : Int64) : z >>> 63 = if z.toInt < 0 then -1 else 0 := by
  have hshift : (z >>> 63).toInt = z.toInt / 2 ^ 63 := by
    rw [← Int64.toInt_toBitVec, Int64.toBitVec_shiftRight]
    exact BitVec.toInt_sshiftRight.trans (Int.shiftRight_eq_div_pow _ _)
  have hleast := z.le_toInt
  have hmost := z.toInt_lt
  rw [← Int64.toInt_inj, hshift]
  split
  · show z.toInt / 2 ^ 63 = -1
    omega
  · show z.toInt / 2 ^ 63 = 0
    omega

theorem toInt_toUInt64 (z : Int64) :
    z.toInt = if z.toUInt64.toNat < 2 ^ 63 then (z.toUInt64.toNat : Int)
      else z.toUInt64.toNat - 2 ^ 64 := by
  have hcond := BitVec.toInt_eq_toNat_cond z.toBitVec
  have hnat : z.toBitVec.toNat = z.toUInt64.toNat := rfl
  rw [← Int64.toInt_toBitVec, hcond, hnat]
  split <;> split <;> omega

theorem toNat_foldWord (z : Int64) : (foldWord z).toNat = encode z.toInt := by
  have hdouble : (z <<< 1).toUInt64.toNat = z.toUInt64.toNat * 2 % 2 ^ 64 := by
    have hshift : (z <<< 1).toBitVec = z.toBitVec <<< 1 := Int64.toBitVec_shiftLeft z 1
    show (z <<< 1).toBitVec.toNat = z.toBitVec.toNat * 2 % 2 ^ 64
    rw [hshift, BitVec.toNat_shiftLeft, Nat.shiftLeft_eq]
  have hsign := toInt_toUInt64 z
  have hlt := z.toUInt64.toNat_lt
  have hsize : UInt64.size = 2 ^ 64 := rfl
  rw [foldWord, shiftRight_sign]
  split
  · next hneg =>
    have hencode := encode_of_neg hneg
    rw [Int64.xor_neg_one, Int64.toUInt64_not, UInt64.toNat_not, hdouble]
    split at hsign <;> omega
  · next hpos =>
    have hencode := encode_of_nonneg (Int.not_lt.1 hpos)
    rw [Int64.xor_zero, hdouble]
    split at hsign <;> omega

theorem toInt_unfoldWord (w : UInt64) : (unfoldWord w).toInt = decode w.toNat := by
  have hlt := w.toNat_lt
  have hhalf : (w >>> 1).toInt64.toUInt64.toNat = w.toNat / 2 := by
    rw [UInt64.toUInt64_toInt64, UInt64.toNat_shiftRight]
    exact Nat.shiftRight_eq_div_pow w.toNat 1
  have hlow : (w &&& 1).toNat = w.toNat % 2 := by
    rw [UInt64.toNat_and]
    exact Nat.and_two_pow_sub_one_eq_mod w.toNat 1
  have hint := toInt_toUInt64 (w >>> 1).toInt64
  rw [hhalf, if_pos (by omega)] at hint
  rw [unfoldWord, decode]
  split
  · next heven =>
    have hzero : w &&& 1 = 0 := by
      rw [← UInt64.toNat_inj, hlow, heven]
      rfl
    have hnone : -(0 : UInt64).toInt64 = 0 := rfl
    rw [hzero, hnone, Int64.xor_zero, hint]
    rfl
  · next hodd =>
    have hone : w &&& 1 = 1 := by
      rw [← UInt64.toNat_inj, hlow]
      show w.toNat % 2 = 1
      omega
    have hall : -(1 : UInt64).toInt64 = -1 := rfl
    rw [hone, hall, Int64.xor_neg_one, Int64.toInt_not, hint,
      Int.bmod_eq_of_le (by omega) (by omega)]
    omega

theorem mapsTo_encode :
    Set.MapsTo encode (Set.Ico (-2 ^ 63) (2 ^ 63)) (Set.Iio (2 ^ 64)) := by
  rintro z ⟨hleast, hmost⟩
  rw [Set.mem_Iio]
  rcases Int.lt_or_le z 0 with h | h
  · have hencode := encode_of_neg h
    omega
  · have hencode := encode_of_nonneg h
    omega

theorem mapsTo_decode :
    Set.MapsTo decode (Set.Iio (2 ^ 64)) (Set.Ico (-2 ^ 63) (2 ^ 63)) := by
  intro n hn
  rw [Set.mem_Iio] at hn
  rw [Set.mem_Ico, decode]
  split
  · rw [Int.ofNat_eq_natCast]
    omega
  · omega

theorem invOn : Set.InvOn decode encode (Set.Ico (-2 ^ 63) (2 ^ 63))
    (Set.Iio (2 ^ 64)) :=
  ⟨fun z _ => decode_encode z, fun n _ => encode_decode n⟩

end Zigzag

namespace Scanner

open Varint (StopsShort)

/-- Reads at most `left` more digits and joins their bits to `word`, shifted by `shift` and more. -/
def joinDigits (start : Nat) : Nat → Nat → UInt64 → Scanner UInt64
  | 0, _, _ => throw (.varintOverflow start)
  | left + 1, shift, word => do
    let b ← byte
    let bits := (b &&& 0x7F).toUInt64
    if left = 0 ∧ 1 < bits then throw (.varintOverflow start)
    let word := word ||| bits <<< UInt64.ofNat shift
    if b &&& 0x80 = 0 then return word
    joinDigits start left (shift + 7) word

def word : Scanner UInt64 := do joinDigits (← offset) 10 0 0

theorem toNat_lowBits (b : UInt8) : (b &&& 0x7F).toUInt64.toNat = b.toNat % 128 := by
  have hmask : (0x7F : UInt8).toNat = 2 ^ 7 - 1 := rfl
  rw [UInt8.toNat_toUInt64, UInt8.toNat_and, hmask, Nat.and_two_pow_sub_one_eq_mod]

theorem highBit_eq_zero_iff (b : UInt8) : b &&& 0x80 = 0 ↔ b.toNat < 128 := by
  have hbit : (b &&& 0x80).toNat = (b.toNat / 128 % 2) * 128 := by
    rw [UInt8.toNat_and]
    show b.toNat &&& 2 ^ 7 = _
    rw [Nat.and_two_pow, Nat.toNat_testBit]
    rfl
  have hlt := b.toNat_lt
  rw [← UInt8.toNat_inj, hbit]
  show b.toNat / 128 % 2 * 128 = 0 ↔ b.toNat < 128
  omega

theorem joinDigits_run_cons (start left shift : Nat) (w : UInt64) (b : UInt8) (rest : List UInt8)
    (offset : Nat) :
    (joinDigits start (left + 1) shift w).run ⟨b :: rest, offset⟩
      = if left = 0 ∧ 1 < b.toNat % 128 then .error (.varintOverflow start)
        else if b.toNat < 128 then
          .ok (w ||| (b &&& 0x7F).toUInt64 <<< UInt64.ofNat shift, ⟨rest, offset + 1⟩)
        else (joinDigits start left (shift + 7)
          (w ||| (b &&& 0x7F).toUInt64 <<< UInt64.ofNat shift)).run ⟨rest, offset + 1⟩ := by
  have hone : 1 < (b &&& 0x7F).toUInt64 ↔ 1 < b.toNat % 128 := by
    rw [UInt64.lt_iff_toNat_lt, toNat_lowBits]
    rfl
  rw [joinDigits, StateT.run_bind, run_byte]
  simp only [bind, Except.bind, hone, highBit_eq_zero_iff]
  split
  · rfl
  · split <;> rfl

theorem toNat_or_shiftLeft {w bits : UInt64} {shift : Nat} (hshift : shift < 64)
    (hw : w.toNat < 2 ^ shift) (hfits : 2 ^ shift * bits.toNat < 2 ^ 64) :
    (w ||| bits <<< UInt64.ofNat shift).toNat = w.toNat + 2 ^ shift * bits.toNat := by
  have hs : (UInt64.ofNat shift).toNat = shift :=
    UInt64.toNat_ofNat_of_lt (Nat.lt_trans hshift (by decide))
  have hshifted : (bits <<< UInt64.ofNat shift).toNat = 2 ^ shift * bits.toNat := by
    rw [UInt64.toNat_shiftLeft, hs, Nat.mod_eq_of_lt hshift, Nat.shiftLeft_eq, Nat.mul_comm,
      Nat.mod_eq_of_lt hfits]
  rw [UInt64.toNat_or, hshifted, Nat.or_comm, ← Nat.two_pow_add_eq_or_of_lt hw, Nat.add_comm]

theorem run_joinDigits (start : Nat) {left shift : Nat} {w : UInt64} (hroom : shift + 7 * left = 70)
    (hw : w.toNat < 2 ^ shift) (c : Cursor) :
    (joinDigits start left shift w).run c = ((digits start left).run c).map fun r =>
      (UInt64.ofNat (w.toNat + 2 ^ shift * r.1), r.2) := by
  induction left generalizing shift w c with
  | zero => rfl
  | succ left ih =>
    obtain ⟨rest, offset⟩ := c
    cases rest with
    | nil => rfl
    | cons b rest =>
      rw [joinDigits_run_cons, digits_succ_run_cons]
      split
      · rfl
      · next hsmall =>
        have hlow : b.toNat % 128 < 128 := Nat.mod_lt _ (by decide)
        have hfits : 2 ^ shift * (b.toNat % 128) < 2 ^ 64 := by
          -- The tenth digit is at most one, and any other one has room above it.
          rcases Nat.eq_zero_or_pos left with rfl | hpos
          · obtain rfl : shift = 63 := by omega
            omega
          · have hshift : 2 ^ shift ≤ 2 ^ 56 := Nat.pow_le_pow_right (by decide) (by omega)
            exact Nat.lt_of_le_of_lt (Nat.mul_le_mul hshift (Nat.le_of_lt hlow)) (by decide)
        have hjoin : (w ||| (b &&& 0x7F).toUInt64 <<< UInt64.ofNat shift).toNat
            = w.toNat + 2 ^ shift * (b.toNat % 128) := by
          rw [toNat_or_shiftLeft (by omega) hw (by rwa [toNat_lowBits]), toNat_lowBits]
        split
        · rw [← UInt64.ofNat_toNat (x := w ||| _), hjoin]
          rfl
        · have hnext : 2 ^ (shift + 7) = 2 ^ shift * 128 := pow_add 2 shift 7
          have hw' : (w ||| (b &&& 0x7F).toUInt64 <<< UInt64.ofNat shift).toNat
              < 2 ^ (shift + 7) := by
            have hdigit := Nat.mul_le_mul_left (2 ^ shift) (Nat.le_of_lt_succ hlow)
            omega
          rw [ih (by omega) hw', hjoin, StateT.run_bind]
          cases (digits start left).run ⟨rest, offset + 1⟩ with
          | error e => rfl
          | ok r =>
            have hsum : w.toNat + 2 ^ shift * (b.toNat % 128) + 2 ^ (shift + 7) * r.1
                = w.toNat + 2 ^ shift * (b.toNat % 128 + 128 * r.1) := by
              rw [hnext, Nat.mul_add, Nat.mul_assoc, Nat.add_assoc]
            simp only [Except.map, hsum]
            rfl

theorem run_word (c : Cursor) : word.run c = (joinDigits c.offset 10 0 0).run c := by
  simp only [word, offset, StateT.run_bind]
  rfl

theorem run_varint_eq_map_word (c : Cursor) :
    varint.run c = (word.run c).map fun r => (r.1.toNat, r.2) := by
  have hjoin : (joinDigits c.offset 10 0 0).run c = ((digits c.offset 10).run c).map fun r =>
      (UInt64.ofNat ((0 : UInt64).toNat + 2 ^ 0 * r.1), r.2) :=
    run_joinDigits c.offset rfl (by decide) c
  rw [run_word, hjoin, run_varint]
  cases h : (digits c.offset 10).run c with
  | error e => rfl
  | ok r =>
    obtain ⟨n, d⟩ := r
    have hlt : n < UInt64.size := ((run_digits_eq_ok_iff c.offset 9 c n d).1 h).2
    have hzero : (0 : UInt64).toNat + 2 ^ 0 * n = n := by
      rw [Nat.pow_zero, Nat.one_mul]
      exact Nat.zero_add n
    have hnat : (UInt64.ofNat n).toNat = n := UInt64.toNat_ofNat_of_lt' hlt
    simp only [Except.map, hzero, hnat]

/-- Every number of 64 bits is read back from its digits, whatever follows them. A byte string is
read as a number just when its first ten bytes or fewer spell one below `2 ^ 64`; when it stops
before that the input is too short, and in all other cases the number is too large. Working with
shifts and masks in words changes nothing. The signed numbers of 64 bits are folded one to one into
the unsigned ones, and narrower numbers are given just when they fit. -/
theorem numbers_exact :
    (∀ n < 2 ^ 64, varint.Takes (Varint.encode n) n)
      ∧ (∀ c n d, varint.run c = .ok (n, d) ↔ Spells 10 c n d ∧ n < 2 ^ 64)
      ∧ (∀ c e, varint.run c = .error e
        ↔ (StopsShort 10 c.rest ∧ e = .unexpectedEnd (c.offset + c.rest.length))
          ∨ (¬ StopsShort 10 c.rest ∧ (¬ ∃ n d, Spells 10 c n d ∧ n < 2 ^ 64)
            ∧ e = .varintOverflow c.offset))
      ∧ ((∀ w, Varint.ofWord w = Varint.encode w.toNat)
        ∧ ∀ c, varint.run c = (word.run c).map fun r => (r.1.toNat, r.2))
      ∧ (Set.BijOn Zigzag.encode (Set.Ico (-2 ^ 63) (2 ^ 63)) (Set.Iio (2 ^ 64))
        ∧ Set.InvOn Zigzag.decode Zigzag.encode (Set.Ico (-2 ^ 63) (2 ^ 63)) (Set.Iio (2 ^ 64))
        ∧ (∀ z, (Zigzag.foldWord z).toNat = Zigzag.encode z.toInt)
        ∧ ∀ w, (Zigzag.unfoldWord w).toInt = Zigzag.decode w.toNat)
      ∧ ((∀ limit, Narrows varint (varintBelow limit) (· < limit))
        ∧ (∀ c, signed.run c = (varint.run c).map fun r => (Zigzag.decode r.1, r.2))
        ∧ (∀ least greatest,
          Narrows signed (signedIn least greatest) fun z => least ≤ z ∧ z ≤ greatest)
        ∧ ∀ c, optional.run c
          = (varint.run c).map fun r => (if r.1 = 0 then none else some (r.1 - 1), r.2)) := by
  refine ⟨fun n hn => takes_varint hn, run_varint_eq_ok_iff, run_varint_eq_error_iff,
    ⟨Varint.ofWord_eq_encode, run_varint_eq_map_word⟩, ⟨?_, Zigzag.invOn, Zigzag.toNat_foldWord,
    Zigzag.toInt_unfoldWord⟩, narrows_varintBelow, run_signed, narrows_signedIn, run_optional⟩
  exact Zigzag.invOn.bijOn Zigzag.mapsTo_encode Zigzag.mapsTo_decode

theorem numbers_exact_extremes :
    (2 ^ 64 - 1 < 2 ^ 64 ∧ varint.Takes (Varint.encode (2 ^ 64 - 1)) (2 ^ 64 - 1))
      ∧ (-2 ^ 63 ∈ Set.Ico (-2 ^ 63 : Int) (2 ^ 63)
        ∧ Zigzag.decode (Zigzag.encode (-2 ^ 63)) = -2 ^ 63) := by
  obtain ⟨htakes, -, -, -, ⟨-, ⟨hleft, -⟩, -⟩, -⟩ := numbers_exact
  have hlt : 2 ^ 64 - 1 < 2 ^ 64 := by decide
  have hleast : -2 ^ 63 ∈ Set.Ico (-2 ^ 63 : Int) (2 ^ 63) := by simp
  exact ⟨⟨hlt, htakes _ hlt⟩, hleast, hleft hleast⟩

example : (varint.run (.ofBytes (List.replicate 9 0xFF ++ [1]))).toOption
    = some (2 ^ 64 - 1, ⟨[], 10⟩)
    ∧ (varint.run (.ofBytes (List.replicate 9 0xFF ++ [2]))).toOption = none := by decide

end Scanner

end ClassCatalog.Archive
