import ClassCatalog.Archive.Scanner
import ClassCatalog.Archive.Symbols
import ClassCatalog.Proofs.TextOrder

/-! Numbers and texts that were written are scanned back, whatever follows them. -/

namespace ClassCatalog.Archive

theorem Varint.digits_ne_nil (fuel n : Nat) : digits fuel n ≠ [] := by
  cases fuel with
  | zero => simp [digits]
  | succ fuel =>
    rw [digits]
    split <;> simp

theorem Varint.length_encode_pos (n : Nat) : 0 < (encode n).length :=
  List.length_pos_iff.2 (digits_ne_nil n n)

theorem Varint.length_digits_le (fuel n : Nat) : (digits fuel n).length ≤ fuel + 1 := by
  induction fuel generalizing n with
  | zero => exact Nat.le_refl _
  | succ fuel ih =>
    rw [digits]
    split
    · exact Nat.le_add_left _ _
    · exact Nat.succ_le_succ (ih (n / 128))

theorem Varint.length_encode_le (n : Nat) : (encode n).length ≤ n + 1 := length_digits_le n n

theorem length_littleEndianBytes (width n : Nat) : (littleEndianBytes width n).length = width := by
  induction width generalizing n with
  | zero => rfl
  | succ width ih => rw [littleEndianBytes, List.length_cons, ih]

theorem littleEndian_littleEndianBytes (width n : Nat) (h : n < Nat.pow 256 width) :
    littleEndian (littleEndianBytes width n) = n := by
  induction width generalizing n with
  | zero =>
    obtain rfl : n = 0 := Nat.lt_one_iff.1 h
    rfl
  | succ width ih =>
    have hpow : Nat.pow 256 (width + 1) = Nat.pow 256 width * 256 := rfl
    have hdiv : n / 256 < Nat.pow 256 width := by omega
    have hlow : (UInt8.ofNat (n % 256)).toNat = n % 256 :=
      UInt8.toNat_ofNat_of_lt (Nat.mod_lt n (by decide))
    rw [littleEndianBytes, littleEndian, ih _ hdiv, hlow]
    omega

namespace Scanner

variable {α β : Type}

/-- `p` takes `bytes` from the front of any input that starts with them, and gives `a`. -/
def Takes (p : Scanner α) (bytes : List UInt8) (a : α) : Prop :=
  ∀ rest offset, p.run ⟨bytes ++ rest, offset⟩ = .ok (a, ⟨rest, offset + bytes.length⟩)

theorem Takes.pure (a : α) : Takes (Pure.pure a : Scanner α) [] a := fun _ _ => rfl

theorem Takes.bind {p : Scanner α} {f : α → Scanner β} {front back : List UInt8} {a : α} {b : β}
    (hp : p.Takes front a) (hf : (f a).Takes back b) : (p >>= f).Takes (front ++ back) b := by
  intro rest offset
  rw [StateT.run_bind, List.append_assoc, hp, List.length_append, ← Nat.add_assoc]
  exact hf rest (offset + front.length)

theorem Takes.bind_check {p : Scanner α} {f : α → Scanner β} {bytes : List UInt8} {a : α} {b : β}
    (hp : p.Takes bytes a) (hf : (f a).Takes [] b) : (p >>= f).Takes bytes b := by
  have h := hp.bind hf
  rwa [List.append_nil] at h

theorem Takes.map {p : Scanner α} {bytes : List UInt8} {a : α} (f : α → β)
    (h : p.Takes bytes a) : (do return f (← p) : Scanner β).Takes bytes (f a) :=
  h.bind_check (Takes.pure (f a))

theorem Takes.of_offset {p : Nat → Scanner α} {bytes : List UInt8} {a : α}
    (h : ∀ start, (p start).Takes bytes a) : (offset >>= p).Takes bytes a :=
  fun rest start => h start rest start

theorem takes_byte (b : UInt8) : byte.Takes [b] b := fun _ _ => rfl

theorem takes_bytes (front : List UInt8) : (bytes front.length).Takes front front := by
  intro rest offset
  simp only [bytes, StateT.run, Cursor.take?_append]

theorem takes_bool (b : Bool) : bool.Takes [boolByte b] b := by
  intro rest offset
  cases b <;> rfl

theorem run_byte (b : UInt8) (rest : List UInt8) (offset : Nat) :
    byte.run ⟨b :: rest, offset⟩ = .ok (b, ⟨rest, offset + 1⟩) := rfl

theorem run_digits_last (start k : Nat) {d : Nat} (hd : d < 128) (hk : k = 0 → d ≤ 1)
    (rest : List UInt8) (offset : Nat) :
    (digits start (k + 1)).run ⟨UInt8.ofNat d :: rest, offset⟩ = .ok (d, ⟨rest, offset + 1⟩) := by
  have hb : (UInt8.ofNat d).toNat = d := UInt8.toNat_ofNat_of_lt (Nat.lt_trans hd (by decide))
  have hmod : d % 128 = d := Nat.mod_eq_of_lt hd
  have hlast : ¬ (k = 0 ∧ 1 < d) := by omega
  rw [digits, StateT.run_bind, run_byte]
  simp only [bind, Except.bind, hb, hmod, if_neg hlast, if_pos hd]
  rfl

theorem run_digits_more (start k : Nat) {d : Nat} (hd : d < 128) (hk : k ≠ 0)
    (rest : List UInt8) (offset : Nat) :
    (digits start (k + 1)).run ⟨UInt8.ofNat (d + 128) :: rest, offset⟩
      = (do return d + 128 * (← digits start k) : Scanner Nat).run ⟨rest, offset + 1⟩ := by
  have hb : (UInt8.ofNat (d + 128)).toNat = d + 128 :=
    UInt8.toNat_ofNat_of_lt (Nat.add_lt_add_right hd 128)
  have hmod : (d + 128) % 128 = d := by omega
  have hfirst : ¬ (k = 0 ∧ 1 < d) := by omega
  have hlarge : ¬ d + 128 < 128 := by omega
  rw [digits, StateT.run_bind, run_byte]
  simp only [bind, Except.bind, hb, hmod, if_neg hfirst, if_neg hlarge]

/-- The digit that could be the tenth carries one bit, so `k` digits before it leave room for
`2 * 128 ^ k` numbers. -/
theorem run_digits (start k fuel n : Nat) (hn : n < 2 * Nat.pow 128 k) (hfuel : n ≤ fuel)
    (rest : List UInt8) (offset : Nat) :
    (digits start (k + 1)).run ⟨Varint.digits fuel n ++ rest, offset⟩
      = .ok (n, ⟨rest, offset + (Varint.digits fuel n).length⟩) := by
  induction k generalizing fuel n offset with
  | zero =>
    have hlt : n < 2 := hn
    have hone : Varint.digits fuel n = [UInt8.ofNat n] := by
      cases fuel with
      | zero => rw [Varint.digits, Nat.mod_eq_of_lt (by omega)]
      | succ fuel => rw [Varint.digits, if_pos (by omega)]
    rw [hone]
    exact run_digits_last start 0 (by omega) (by omega) rest offset
  | succ k ih =>
    cases fuel with
    | zero =>
      obtain rfl : n = 0 := by omega
      exact run_digits_last start (k + 1) (by omega) (by omega) rest offset
    | succ fuel =>
      rw [Varint.digits]
      split
      · exact run_digits_last start (k + 1) (by omega) (by omega) rest offset
      · next hlarge =>
        have hpow : Nat.pow 128 (k + 1) = Nat.pow 128 k * 128 := rfl
        have hdiv : n / 128 < 2 * Nat.pow 128 k := by omega
        have hjoin : n % 128 + 128 * (n / 128) = n := Nat.mod_add_div n 128
        rw [List.cons_append, run_digits_more start (k + 1) (by omega) (by omega),
          StateT.run_bind, ih fuel (n / 128) hdiv (by omega)]
        simp only [bind, Except.bind, hjoin, List.length_cons, Nat.add_right_comm, ← Nat.add_assoc]
        rfl

theorem run_varint (c : Cursor) : varint.run c = (digits c.offset 10).run c := by
  simp only [varint, offset, StateT.run_bind]
  rfl

theorem takes_varint {n : Nat} (hn : n < UInt64.size) : varint.Takes (Varint.encode n) n := by
  intro rest offset
  have hpow : 2 * Nat.pow 128 9 = UInt64.size := by decide
  rw [run_varint, Varint.encode]
  simpa only [Nat.reduceAdd] using
    run_digits offset 9 n n (by rw [hpow]; exact hn) (Nat.le_refl n) rest offset

theorem Takes.below {front : List UInt8} {n limit : Nat} (h : varint.Takes front n)
    (hn : n < limit) : (varintBelow limit).Takes front n := by
  apply Takes.of_offset
  intro start
  refine h.bind_check ?_
  show Takes (if n < limit then Pure.pure n else throw (.varintOverflow start)) [] n
  rw [if_pos hn]
  exact Takes.pure n

theorem takes_varintBelow {n limit : Nat} (hn : n < limit) (hlimit : limit ≤ UInt64.size) :
    (varintBelow limit).Takes (Varint.encode n) n :=
  (takes_varint (Nat.lt_of_lt_of_le hn hlimit)).below hn

theorem takes_signed {z : Int} (hz : Zigzag.encode z < UInt64.size) :
    signed.Takes (Varint.encode (Zigzag.encode z)) z := by
  have h := (takes_varint hz).map Zigzag.decode
  rwa [Zigzag.decode_encode] at h

theorem takes_signedIn {z least greatest : Int} (hz : Zigzag.encode z < UInt64.size) (hl : least ≤ z)
    (hg : z ≤ greatest) :
    (signedIn least greatest).Takes (Varint.encode (Zigzag.encode z)) z := by
  apply Takes.of_offset
  intro start
  refine (takes_signed hz).bind_check ?_
  show Takes (if least ≤ z ∧ z ≤ greatest then Pure.pure z else throw (.varintOverflow start)) [] z
  rw [if_pos ⟨hl, hg⟩]
  exact Takes.pure z

theorem takes_optional {slot : Option Nat} (h : ∀ n ∈ slot, n + 1 < UInt64.size) :
    optional.Takes (Symbols.optionalBytes slot) slot := by
  intro rest offset
  cases slot with
  | none =>
    rw [optional, StateT.run_bind, Symbols.optionalBytes, Option.elim_none,
      takes_varint (by decide)]
    rfl
  | some n =>
    rw [optional, StateT.run_bind, Symbols.optionalBytes, Option.elim_some,
      takes_varint (h n rfl)]
    rfl

theorem takes_single {n : Nat} (h : n < UInt32.size) : single.Takes (littleEndianBytes 4 n) n := by
  have hbytes := (takes_bytes (littleEndianBytes 4 n)).map littleEndian
  rwa [length_littleEndianBytes, littleEndian_littleEndianBytes 4 n h] at hbytes

theorem takes_double {n : Nat} (h : n < UInt64.size) : double.Takes (littleEndianBytes 8 n) n := by
  have hbytes := (takes_bytes (littleEndianBytes 8 n)).map littleEndian
  rwa [length_littleEndianBytes, littleEndian_littleEndianBytes 8 n h] at hbytes

theorem run_count {front rest : List UInt8} {n : Nat} (hn : varint.Takes front n)
    (hrest : n ≤ rest.length) (offset : Nat) :
    count.run ⟨front ++ rest, offset⟩ = .ok (n, ⟨rest, offset + front.length⟩) := by
  have htake : (Cursor.take? n ⟨rest, offset + front.length⟩).isSome = true := by
    rw [Option.isSome_iff_ne_none, ne_eq, Cursor.take?_eq_none_iff]
    exact Nat.not_lt.2 hrest
  have hrun : count.run ⟨front ++ rest, offset⟩
      = (varint.run ⟨front ++ rest, offset⟩ >>= fun r =>
          (if (r.2.take? r.1).isSome then Pure.pure r.1 else throw (.unexpectedEnd offset) :
            Scanner Nat).run r.2) := rfl
  rw [hrun, hn]
  simp only [bind, Except.bind, htake, if_true]
  rfl

theorem Takes.count_bind {f : Nat → Scanner β} {n : Nat} {front back : List UInt8} {b : β}
    (hn : varint.Takes front n) (hback : n ≤ back.length) (hf : (f n).Takes back b) :
    (count >>= f).Takes (front ++ back) b := by
  intro rest offset
  have hrest : n ≤ (back ++ rest).length := by
    rw [List.length_append]
    omega
  rw [StateT.run_bind, List.append_assoc, run_count hn hrest, List.length_append, ← Nat.add_assoc]
  exact hf rest (offset + front.length)

theorem takes_text {text : String} (h : (textBytes text).length < UInt64.size) :
    Scanner.text.Takes (textBytes text) text := by
  simp only [textBytes, List.length_append] at h
  refine (takes_varint (by omega)).count_bind (Nat.le_refl _) (Takes.of_offset fun start => ?_)
  refine (takes_bytes text.toUTF8.data.toList).bind_check ?_
  simp only [fromUTF8?_toUTF8]
  exact Takes.pure text

end Scanner

end ClassCatalog.Archive
