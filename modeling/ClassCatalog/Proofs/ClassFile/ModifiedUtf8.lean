import Mathlib.Data.Nat.Bitwise
import ClassCatalog.ClassFile.ModifiedUtf8

/-! Which byte strings are texts in the encoding of class files, and which text each of them is:
those that divide into groups of one, two or three bytes whose units are valid UTF-16. -/

namespace ClassCatalog.ModifiedUtf8

def Continues (b : UInt8) : Prop := 0x80 ≤ b.toNat ∧ b.toNat ≤ 0xBF

/-- The bytes of one unit, with its bits as they are laid out in them. A group may be longer than
its unit needs. -/
inductive Group : List UInt8 → Nat → Prop
  | one {b : UInt8} (h : 0x01 ≤ b.toNat ∧ b.toNat ≤ 0x7F) : Group [b] b.toNat
  | two {b c : UInt8} (h : 0xC0 ≤ b.toNat ∧ b.toNat ≤ 0xDF) (hc : Continues c) :
    Group [b, c] ((b &&& 0x1F).toNat <<< 6 ||| (c &&& 0x3F).toNat)
  | three {b c d : UInt8} (h : 0xE0 ≤ b.toNat ∧ b.toNat ≤ 0xEF) (hc : Continues c)
    (hd : Continues d) : Group [b, c, d]
      ((b &&& 0x0F).toNat <<< 12 ||| (c &&& 0x3F).toNat <<< 6 ||| (d &&& 0x3F).toNat)

inductive Splits : List UInt8 → List Nat → Prop
  | nil : Splits [] []
  | cons {front back : List UInt8} {u : Nat} {us : List Nat} (h : Group front u)
    (hback : Splits back us) : Splits (front ++ back) (u :: us)

/-- Bytes that no group stands in front of. -/
inductive Stuck : List UInt8 → Prop
  | nul (rest : List UInt8) : Stuck (0 :: rest)
  | stray {b : UInt8} (h : Continues b) (rest : List UInt8) : Stuck (b :: rest)
  | longLead {b : UInt8} (h : 0xF0 ≤ b.toNat) (rest : List UInt8) : Stuck (b :: rest)
  | lead {b : UInt8} (h : 0xC0 ≤ b.toNat) : Stuck [b]
  | cutThree {b : UInt8} (h : 0xE0 ≤ b.toNat) (c : UInt8) : Stuck [b, c]
  | second {b c : UInt8} (h : 0xC0 ≤ b.toNat) (hc : ¬ Continues c) (rest : List UInt8) :
    Stuck (b :: c :: rest)
  | third {b c d : UInt8} (h : 0xE0 ≤ b.toNat) (hd : ¬ Continues d) (rest : List UInt8) :
    Stuck (b :: c :: d :: rest)

/-- No surrogate stands alone: after each high one comes a low one, and before each low one there
is a high one. -/
def Paired (us : List Nat) : Prop :=
  ∀ front u back, us = front ++ u :: back →
    (isHigh u → ∃ v ∈ back.head?, isLow v) ∧ (isLow u → ∃ v ∈ front.getLast?, isHigh v)

theorem toNat_and_low (b : UInt8) (width : Nat) {mask : UInt8} (h : mask.toNat = 2 ^ width - 1) :
    (b &&& mask).toNat = b.toNat % 2 ^ width := by
  rw [UInt8.toNat_and, h, Nat.and_two_pow_sub_one_eq_mod]

theorem two_bits {b c : UInt8} (h : 0xC0 ≤ b.toNat ∧ b.toNat ≤ 0xDF) (hc : Continues c) :
    (b &&& 0x1F).toNat <<< 6 ||| (c &&& 0x3F).toNat
      = (b.toNat - 0xC0) * 64 + (c.toNat - 0x80) := by
  obtain ⟨hc1, hc2⟩ := hc
  have hhigh : (b &&& 0x1F).toNat = b.toNat % 2 ^ 5 := toNat_and_low b 5 rfl
  have hlow : (c &&& 0x3F).toNat = c.toNat % 2 ^ 6 := toNat_and_low c 6 rfl
  rw [hhigh, hlow, ← Nat.shiftLeft_add_eq_or_of_lt (by omega), Nat.shiftLeft_eq]
  omega

theorem three_bits {b c d : UInt8} (h : 0xE0 ≤ b.toNat ∧ b.toNat ≤ 0xEF) (hc : Continues c)
    (hd : Continues d) :
    (b &&& 0x0F).toNat <<< 12 ||| (c &&& 0x3F).toNat <<< 6 ||| (d &&& 0x3F).toNat
      = (b.toNat - 0xE0) * 4096 + (c.toNat - 0x80) * 64 + (d.toNat - 0x80) := by
  obtain ⟨hc1, hc2⟩ := hc
  obtain ⟨hd1, hd2⟩ := hd
  have hhigh : (b &&& 0x0F).toNat = b.toNat % 2 ^ 4 := toNat_and_low b 4 rfl
  have hmiddle : (c &&& 0x3F).toNat = c.toNat % 2 ^ 6 := toNat_and_low c 6 rfl
  have hlow : (d &&& 0x3F).toNat = d.toNat % 2 ^ 6 := toNat_and_low d 6 rfl
  have hfront : (b &&& 0x0F).toNat <<< 12 ||| (c &&& 0x3F).toNat <<< 6
      = (b.toNat % 2 ^ 4 * 2 ^ 6 + c.toNat % 2 ^ 6) <<< 6 := by
    rw [hhigh, hmiddle, ← Nat.shiftLeft_add_eq_or_of_lt (by rw [Nat.shiftLeft_eq]; omega),
      Nat.shiftLeft_eq, Nat.shiftLeft_eq, Nat.shiftLeft_eq]
    omega
  rw [hfront, hlow, ← Nat.shiftLeft_add_eq_or_of_lt (by omega), Nat.shiftLeft_eq]
  omega

theorem continuation?_of_continues {b : UInt8} (h : Continues b) :
    continuation? b = some (b.toNat - 0x80) := if_pos ⟨h.1, Nat.lt_succ_of_le h.2⟩

theorem continuation?_of_not_continues {b : UInt8} (h : ¬ Continues b) : continuation? b = none :=
  if_neg fun hb => h ⟨hb.1, Nat.le_of_lt_succ hb.2⟩

section Lead

variable {b : UInt8}

theorem units?_single (h : 1 ≤ b.toNat ∧ b.toNat < 0x80) (rest : List UInt8) :
    units? (b :: rest) = (units? rest).map (b.toNat :: ·) :=
  (units?.eq_def _).trans (if_pos h)

theorem units?_leadTwo (h : 0xC0 ≤ b.toNat ∧ b.toNat < 0xE0) (c : UInt8) (rest : List UInt8) :
    units? (b :: c :: rest) = (continuation? c).bind fun low =>
      (units? rest).bind fun us => some (((b.toNat - 0xC0) * 64 + low) :: us) :=
  (units?.eq_def _).trans ((if_neg (by omega)).trans (if_pos h))

theorem units?_leadThree (h : 0xE0 ≤ b.toNat ∧ b.toNat < 0xF0) (c d : UInt8)
    (rest : List UInt8) :
    units? (b :: c :: d :: rest) = (continuation? c).bind fun middle =>
      (continuation? d).bind fun low => (units? rest).bind fun us =>
        some (((b.toNat - 0xE0) * 4096 + middle * 64 + low) :: us) :=
  (units?.eq_def _).trans ((if_neg (by omega)).trans ((if_neg (by omega)).trans (if_pos h)))

theorem units?_noLead (h : b.toNat = 0 ∨ Continues b ∨ 0xF0 ≤ b.toNat) (rest : List UInt8) :
    units? (b :: rest) = none := by
  have hcases : b.toNat = 0 ∨ 0x80 ≤ b.toNat ∧ b.toNat ≤ 0xBF ∨ 0xF0 ≤ b.toNat := h
  refine (units?.eq_def _).trans ((if_neg (by omega)).trans ((if_neg (by omega)).trans ?_))
  exact if_neg (by omega)

theorem units?_cutTwo (h : 0xC0 ≤ b.toNat) : units? [b] = none := by
  rw [units?.eq_def]
  simp only [show ¬ (1 ≤ b.toNat ∧ b.toNat < 0x80) by omega, if_false, ite_self]

theorem units?_cutThree (h : 0xE0 ≤ b.toNat) (c : UInt8) : units? [b, c] = none := by
  rw [units?.eq_def]
  simp only [show ¬ (1 ≤ b.toNat ∧ b.toNat < 0x80) by omega,
    show ¬ (0xC0 ≤ b.toNat ∧ b.toNat < 0xE0) by omega, if_false, ite_self]

end Lead

theorem Group.units?_append {front : List UInt8} {u : Nat} (h : Group front u)
    (back : List UInt8) : units? (front ++ back) = (units? back).map (u :: ·) := by
  cases h with
  | one h => exact units?_single (by omega) back
  | two h hc =>
    rw [List.cons_append, List.singleton_append, units?_leadTwo (by omega),
      continuation?_of_continues hc, two_bits h hc, Option.map_eq_bind]
    rfl
  | three h hc hd =>
    rw [List.cons_append, List.cons_append, List.singleton_append, units?_leadThree (by omega),
      continuation?_of_continues hc, Option.bind_some, continuation?_of_continues hd,
      three_bits h hc hd, Option.map_eq_bind]
    rfl

theorem units?_append_of_splits {front : List UInt8} {us : List Nat} (h : Splits front us)
    (back : List UInt8) : units? (front ++ back) = (units? back).map (us ++ ·) := by
  induction h with
  | nil => simp
  | cons hgroup _ ih =>
    rw [List.append_assoc, hgroup.units?_append, ih, Option.map_map]
    rfl

/-- What does not begin with a group has no units: each lead byte is looked at with what the
bytes behind it lack. -/
theorem Stuck.units?_eq_none {bytes : List UInt8} (h : Stuck bytes) : units? bytes = none := by
  cases h with
  | nul rest => exact units?_noLead (.inl rfl) rest
  | stray h rest => exact units?_noLead (.inr (.inl h)) rest
  | longLead h rest => exact units?_noLead (.inr (.inr h)) rest
  | lead h => exact units?_cutTwo h
  | cutThree h c => exact units?_cutThree h c
  | @second b c h hc rest =>
    by_cases htwo : b.toNat < 0xE0
    · rw [units?_leadTwo ⟨h, htwo⟩, continuation?_of_not_continues hc, Option.bind_none]
    by_cases hthree : b.toNat < 0xF0
    · cases rest with
      | nil => exact units?_cutThree (by omega) c
      | cons d rest =>
        rw [units?_leadThree (by omega), continuation?_of_not_continues hc, Option.bind_none]
    · exact units?_noLead (.inr (.inr (by omega))) _
  | @third b c d h hd rest =>
    by_cases hthree : b.toNat < 0xF0
    · rw [units?_leadThree ⟨h, hthree⟩, continuation?_of_not_continues hd]
      simp
    · exact units?_noLead (.inr (.inr (by omega))) _

theorem group_or_stuck (b : UInt8) (rest : List UInt8) :
    (∃ front u back, b :: rest = front ++ back ∧ front ≠ [] ∧ Group front u)
      ∨ Stuck (b :: rest) := by
  by_cases hplain : 0x01 ≤ b.toNat ∧ b.toNat ≤ 0x7F
  · exact .inl ⟨[b], _, rest, rfl, by simp, .one hplain⟩
  by_cases hstray : Continues b
  · exact .inr (.stray hstray rest)
  have hb : b.toNat = 0 ∨ 0xC0 ≤ b.toNat := by
    unfold Continues at hstray
    omega
  rcases hb with hnul | hlead
  · obtain rfl : b = 0 := UInt8.toNat_inj.1 hnul
    exact .inr (.nul rest)
  match rest with
  | [] => exact .inr (.lead hlead)
  | c :: rest =>
    by_cases hc : Continues c
    case neg => exact .inr (.second hlead hc rest)
    by_cases htwo : b.toNat ≤ 0xDF
    · exact .inl ⟨[b, c], _, rest, rfl, by simp, .two ⟨hlead, htwo⟩ hc⟩
    match rest with
    | [] => exact .inr (.cutThree (by omega) c)
    | d :: rest =>
      by_cases hd : Continues d
      case neg => exact .inr (.third (by omega) hd rest)
      by_cases hthree : b.toNat ≤ 0xEF
      · exact .inl ⟨[b, c, d], _, rest, rfl, by simp, .three ⟨by omega, hthree⟩ hc hd⟩
      · exact .inr (.longLead (by omega) _)

theorem splits_or_stuck (bytes : List UInt8) :
    (∃ us, Splits bytes us)
      ∨ ∃ front us rest, bytes = front ++ rest ∧ Splits front us ∧ Stuck rest := by
  match bytes with
  | [] => exact .inl ⟨[], .nil⟩
  | b :: rest =>
    rcases group_or_stuck b rest with ⟨group, u, back, hbytes, hne, hgroup⟩ | hstuck
    case inr => exact .inr ⟨[], [], _, rfl, .nil, hstuck⟩
    have hshorter : back.length < (b :: rest).length := by
      rw [hbytes, List.length_append]
      have hpos := List.length_pos_iff.2 hne
      omega
    rw [hbytes]
    rcases splits_or_stuck back with ⟨us, hus⟩ | ⟨front, us, stuck, rfl, hus, hstuck⟩
    · exact .inl ⟨u :: us, .cons hgroup hus⟩
    · exact .inr ⟨group ++ front, u :: us, stuck, by rw [List.append_assoc],
        .cons hgroup hus, hstuck⟩
termination_by bytes.length
decreasing_by exact hshorter

theorem units?_eq_some_iff {bytes : List UInt8} {us : List Nat} :
    units? bytes = some us ↔ Splits bytes us := by
  have hread : ∀ vs, Splits bytes vs → units? bytes = some vs := by
    intro vs h
    have hnil := units?_append_of_splits h []
    rwa [List.append_nil, units?, Option.map_some, List.append_nil] at hnil
  constructor
  · intro h
    rcases splits_or_stuck bytes with ⟨vs, hvs⟩ | ⟨front, vs, rest, rfl, hvs, hstuck⟩
    · rwa [Option.some.inj (h.symm.trans (hread vs hvs))]
    · rw [units?_append_of_splits hvs, hstuck.units?_eq_none] at h
      cases h
  · exact hread us

theorem units?_eq_none_iff {bytes : List UInt8} :
    units? bytes = none
      ↔ ∃ front us rest, bytes = front ++ rest ∧ Splits front us ∧ Stuck rest := by
  constructor
  · intro h
    refine (splits_or_stuck bytes).resolve_left ?_
    rintro ⟨us, hus⟩
    rw [units?_eq_some_iff.2 hus] at h
    cases h
  · rintro ⟨front, us, rest, rfl, hus, hstuck⟩
    rw [units?_append_of_splits hus, hstuck.units?_eq_none, Option.map_none]

theorem isHigh_iff {u : Nat} : isHigh u ↔ 0xD800 ≤ u ∧ u < 0xDC00 := by simp [isHigh]

theorem isLow_iff {u : Nat} : isLow u ↔ 0xDC00 ≤ u ∧ u < 0xE000 := by simp [isLow]

theorem toNat_ofNat {n : Nat} (h : n < 0xD800 ∨ 0xDFFF < n ∧ n < 0x110000) :
    (Char.ofNat n).toNat = n := by
  rw [Char.ofNat, dif_pos h]
  rfl

theorem charUnits_cases (c : Char) :
    (∃ u, charUnits c = [u] ∧ u < 0x10000 ∧ ¬ isHigh u ∧ ¬ isLow u ∧ Char.ofNat u = c)
      ∨ ∃ u v, charUnits c = [u, v] ∧ isHigh u ∧ isLow v
        ∧ Char.ofNat (0x10000 + (u - 0xD800) * 1024 + (v - 0xDC00)) = c := by
  have hvalid : c.toNat < 0xD800 ∨ 0xDFFF < c.toNat ∧ c.toNat < 0x110000 := c.valid
  by_cases hc : c.toNat < 0x10000
  · refine .inl ⟨c.toNat, if_pos hc, hc, ?_, ?_, Char.ofNat_toNat c⟩
    · rw [isHigh_iff]
      omega
    · rw [isLow_iff]
      omega
  · refine .inr ⟨_, _, if_neg hc, ?_, ?_, ?_⟩
    · rw [isHigh_iff]
      omega
    · rw [isLow_iff]
      omega
    · have hback : 0x10000 + (0xD800 + (c.toNat - 0x10000) / 1024 - 0xD800) * 1024
          + (0xDC00 + (c.toNat - 0x10000) % 1024 - 0xDC00) = c.toNat := by omega
      rw [hback, Char.ofNat_toNat]

theorem chars?_plain {u : Nat} (hhigh : ¬ isHigh u) (hlow : ¬ isLow u) (us : List Nat) :
    chars? (u :: us) = (chars? us).map (Char.ofNat u :: ·) := by
  rw [chars?.eq_def]
  exact (if_neg hhigh).trans (if_neg hlow)

theorem chars?_pair {u v : Nat} (hhigh : isHigh u) (hlow : isLow v) (us : List Nat) :
    chars? (u :: v :: us) = (chars? us).map
      (Char.ofNat (0x10000 + (u - 0xD800) * 1024 + (v - 0xDC00)) :: ·) := by
  rw [chars?.eq_def]
  exact (if_pos hhigh).trans (if_pos hlow)

theorem chars?_flatMap_charUnits (cs : List Char) : chars? (cs.flatMap charUnits) = some cs := by
  induction cs with
  | nil => rfl
  | cons c cs ih =>
    rw [List.flatMap_cons]
    rcases charUnits_cases c with ⟨u, hc, -, hhigh, hlow, rfl⟩ | ⟨u, v, hc, hhigh, hlow, rfl⟩
    · rw [hc, List.singleton_append, chars?_plain hhigh hlow, ih, Option.map_some]
    · rw [hc, List.cons_append, List.singleton_append, chars?_pair hhigh hlow, ih,
        Option.map_some]

theorem charUnits_ofNat {u : Nat} (hlt : u < 0x10000) (hhigh : ¬ isHigh u) (hlow : ¬ isLow u) :
    charUnits (Char.ofNat u) = [u] := by
  rw [isHigh_iff] at hhigh
  rw [isLow_iff] at hlow
  have hnat : (Char.ofNat u).toNat = u := toNat_ofNat (by omega)
  rw [charUnits, hnat, if_pos hlt]

theorem charUnits_pair {u v : Nat} (hhigh : isHigh u) (hlow : isLow v) :
    charUnits (Char.ofNat (0x10000 + (u - 0xD800) * 1024 + (v - 0xDC00))) = [u, v] := by
  rw [isHigh_iff] at hhigh
  rw [isLow_iff] at hlow
  generalize hn : 0x10000 + (u - 0xD800) * 1024 + (v - 0xDC00) = n
  have hnat : (Char.ofNat n).toNat = n := toNat_ofNat (by omega)
  have hu : 0xD800 + (n - 0x10000) / 1024 = u := by omega
  have hv : 0xDC00 + (n - 0x10000) % 1024 = v := by omega
  rw [charUnits, hnat, if_neg (by omega), hu, hv]

theorem flatMap_charUnits_of_chars? {us : List Nat} {cs : List Char} (hlt : ∀ u ∈ us, u < 0x10000)
    (h : chars? us = some cs) : us = cs.flatMap charUnits := by
  fun_induction chars? us generalizing cs with
  | case1 =>
    cases h
    rfl
  | case2 u hhigh v rest hlow ih =>
    obtain ⟨found, hfound, rfl⟩ := Option.map_eq_some_iff.1 h
    rw [List.flatMap_cons, charUnits_pair hhigh hlow, List.cons_append, List.singleton_append,
      ← ih (fun w hw => hlt w (by simp [hw])) hfound]
  | case6 u rest hhigh hlow ih =>
    obtain ⟨found, hfound, rfl⟩ := Option.map_eq_some_iff.1 h
    rw [List.flatMap_cons, charUnits_ofNat (hlt u List.mem_cons_self) hhigh hlow,
      List.singleton_append, ← ih (fun w hw => hlt w (by simp [hw])) hfound]
  | case3 | case4 | case5 => cases h

theorem not_isLow_of_isHigh {u : Nat} (h : isHigh u) : ¬ isLow u := by
  rw [isHigh_iff] at h
  rw [isLow_iff]
  omega

theorem paired_append (head : List Nat) (hhead : Paired head)
    (hend : ∀ w ∈ head.getLast?, ¬ isHigh w) (us : List Nat) :
    Paired (head ++ us) ↔ Paired us := by
  constructor
  · intro h front u back hus
    obtain ⟨hhigh, hlow⟩ := h (head ++ front) u back (by rw [hus, List.append_assoc])
    refine ⟨hhigh, fun hu => ?_⟩
    obtain ⟨v, hv, hhighv⟩ := hlow hu
    rcases List.eq_nil_or_concat front with rfl | ⟨front, w, rfl⟩
    · rw [List.append_nil] at hv
      exact absurd hhighv (hend v hv)
    · exact ⟨v, by simpa using hv, hhighv⟩
  · intro h front u back hus
    rcases List.append_eq_append_iff.1 hus with ⟨front', rfl, hback⟩ | ⟨back', hfront, hback⟩
    · obtain ⟨hhigh, hlow⟩ := h front' u back hback
      refine ⟨hhigh, fun hu => ?_⟩
      obtain ⟨v, hv, hhighv⟩ := hlow hu
      exact ⟨v, by rw [List.getLast?_append, hv]; rfl, hhighv⟩
    · cases back' with
      | nil =>
        obtain ⟨hhigh, hlow⟩ := h [] u back hback.symm
        refine ⟨hhigh, fun hu => ?_⟩
        obtain ⟨v, hv, _⟩ := hlow hu
        cases hv
      | cons w back' =>
        obtain ⟨rfl, rfl⟩ := List.cons.inj hback
        obtain ⟨hhigh, hlow⟩ := hhead front u back' hfront
        refine ⟨fun hu => ?_, hlow⟩
        obtain ⟨v, hv, hlowv⟩ := hhigh hu
        have hhead : v ∈ (back' ++ us).head? := by rw [List.head?_append, hv]; rfl
        exact ⟨v, hhead, hlowv⟩

theorem paired_plain {u : Nat} (hhigh : ¬ isHigh u) (hlow : ¬ isLow u) (us : List Nat) :
    Paired (u :: us) ↔ Paired us := by
  refine paired_append [u] ?_ ?_ us
  · intro front w back hone
    obtain ⟨rfl, hback⟩ | ⟨front', rfl, hnil⟩ := List.cons_eq_append_iff.1 hone
    · cases hback
      exact ⟨fun h => absurd h hhigh, fun h => absurd h hlow⟩
    · simp at hnil
  · intro w hw
    cases hw
    exact hhigh

theorem paired_pair {u v : Nat} (hhigh : isHigh u) (hlow : isLow v) (us : List Nat) :
    Paired (u :: v :: us) ↔ Paired us := by
  have hv : ¬ isHigh v := fun h => not_isLow_of_isHigh h hlow
  refine paired_append [u, v] ?_ ?_ us
  · intro front w back htwo
    match front with
    | [] =>
      cases htwo
      exact ⟨fun _ => ⟨v, rfl, hlow⟩, fun h => absurd h (not_isLow_of_isHigh hhigh)⟩
    | [x] =>
      cases htwo
      exact ⟨fun h => absurd h hv, fun _ => ⟨u, rfl, hhigh⟩⟩
    | x :: y :: front => simp at htwo
  · intro w hw
    cases hw
    exact hv

theorem exists_chars?_iff {us : List Nat} : (∃ cs, chars? us = some cs) ↔ Paired us := by
  fun_induction chars? us with
  | case1 =>
    refine ⟨fun _ front u back h => ?_, fun _ => ⟨[], rfl⟩⟩
    simp at h
  | case2 u hhigh v rest hlow ih => rw [paired_pair hhigh hlow, ← ih]; simp
  | case3 u hhigh v rest hlow =>
    refine ⟨nofun, fun h => ?_⟩
    obtain ⟨w, hw, hlow'⟩ := (h [] u (v :: rest) rfl).1 hhigh
    cases hw
    exact absurd hlow' hlow
  | case4 u hhigh =>
    refine ⟨nofun, fun h => ?_⟩
    obtain ⟨w, hw, _⟩ := (h [] u [] rfl).1 hhigh
    cases hw
  | case5 u rest hhigh hlow =>
    refine ⟨nofun, fun h => ?_⟩
    obtain ⟨w, hw, _⟩ := (h [] u rest rfl).2 hlow
    cases hw
  | case6 u rest hhigh hlow ih => rw [paired_plain hhigh hlow, ← ih]; simp

theorem Group.unit_lt {front : List UInt8} {u : Nat} (h : Group front u) : u < 0x10000 := by
  cases h with
  | one h => omega
  | two h hc =>
    rw [two_bits h hc]
    obtain ⟨_, _⟩ := hc
    omega
  | three h hc hd =>
    rw [three_bits h hc hd]
    obtain ⟨_, _⟩ := hc
    obtain ⟨_, _⟩ := hd
    omega

theorem Splits.unit_lt {bytes : List UInt8} {us : List Nat} (h : Splits bytes us) :
    ∀ u ∈ us, u < 0x10000 := by
  induction h with
  | nil => simp
  | cons hgroup _ ih => exact List.forall_mem_cons.2 ⟨hgroup.unit_lt, ih⟩

theorem decodeUnits_eq_some_iff {bytes : List UInt8} {text : String} :
    decodeUnits bytes = some text ↔ Splits bytes (text.toList.flatMap charUnits) := by
  constructor
  · intro h
    obtain ⟨us, hus, h⟩ := Option.bind_eq_some_iff.1 h
    obtain ⟨cs, hcs, h⟩ := Option.bind_eq_some_iff.1 h
    cases h
    have hsplits := units?_eq_some_iff.1 hus
    rwa [String.toList_ofList, ← flatMap_charUnits_of_chars? hsplits.unit_lt hcs]
  · intro h
    rw [decodeUnits, units?_eq_some_iff.2 h]
    show (chars? _ >>= _) = _
    rw [chars?_flatMap_charUnits]
    exact congrArg some String.ofList_toList

theorem splits_of_plain {bytes : List UInt8} (h : bytes.all isPlain) :
    Splits bytes ((bytes.map fun b => Char.ofNat b.toNat).flatMap charUnits) := by
  induction bytes with
  | nil => exact .nil
  | cons b bytes ih =>
    rw [List.all_cons, Bool.and_eq_true] at h
    have hb : 0 < b.toNat ∧ b.toNat < 0x80 := by simpa [isPlain] using h.1
    have hunits : charUnits (Char.ofNat b.toNat) = [b.toNat] := by
      refine charUnits_ofNat (by omega) ?_ ?_
      · rw [isHigh_iff]
        omega
      · rw [isLow_iff]
        omega
    rw [List.map_cons, List.flatMap_cons, hunits]
    exact .cons (.one (by omega)) (ih h.2)

theorem decode_eq_decodeUnits (bytes : List UInt8) : decode bytes = decodeUnits bytes := by
  unfold decode
  split
  · next h =>
    refine (decodeUnits_eq_some_iff.2 ?_).symm
    rw [String.toList_ofList]
    exact splits_of_plain h
  · rfl

theorem toNat_ofNat_add (base n : Nat) (h : base + n < 0x100) :
    (UInt8.ofNat (base + n)).toNat = base + n := UInt8.toNat_ofNat_of_lt' h

theorem group_encodeUnit {u : Nat} (h : u < 0x10000) : Group (encodeUnit u) u := by
  unfold encodeUnit
  split_ifs with hone htwo
  · have hu : (UInt8.ofNat u).toNat = u :=
      UInt8.toNat_ofNat_of_lt' (Nat.lt_trans hone.2 (by decide))
    have hgroup : Group [UInt8.ofNat u] (UInt8.ofNat u).toNat := .one (by omega)
    rwa [hu] at hgroup
  · have hb := toNat_ofNat_add 0xC0 (u / 64) (by omega)
    have hc := toNat_ofNat_add 0x80 (u % 64) (by omega)
    have hlead : 0xC0 ≤ (UInt8.ofNat (0xC0 + u / 64)).toNat
        ∧ (UInt8.ofNat (0xC0 + u / 64)).toNat ≤ 0xDF := by omega
    have hnext : Continues (UInt8.ofNat (0x80 + u % 64)) := by
      unfold Continues
      omega
    have hgroup := Group.two hlead hnext
    rw [two_bits hlead hnext, hb, hc] at hgroup
    convert hgroup using 1
    omega
  · have hb := toNat_ofNat_add 0xE0 (u / 4096) (by omega)
    have hc := toNat_ofNat_add 0x80 (u / 64 % 64) (by omega)
    have hd := toNat_ofNat_add 0x80 (u % 64) (by omega)
    have hlead : 0xE0 ≤ (UInt8.ofNat (0xE0 + u / 4096)).toNat
        ∧ (UInt8.ofNat (0xE0 + u / 4096)).toNat ≤ 0xEF := by omega
    have hnext : Continues (UInt8.ofNat (0x80 + u / 64 % 64)) := by
      unfold Continues
      omega
    have hlast : Continues (UInt8.ofNat (0x80 + u % 64)) := by
      unfold Continues
      omega
    have hgroup := Group.three hlead hnext hlast
    rw [three_bits hlead hnext hlast, hb, hc, hd] at hgroup
    convert hgroup using 1
    omega

theorem unit_lt_of_mem_charUnits {c : Char} {u : Nat} (h : u ∈ charUnits c) : u < 0x10000 := by
  rcases charUnits_cases c with ⟨v, hc, hlt, _⟩ | ⟨v, w, hc, hhigh, hlow, _⟩
  · rw [hc, List.mem_singleton] at h
    rwa [h]
  · rw [isHigh_iff] at hhigh
    rw [isLow_iff] at hlow
    rw [hc] at h
    rcases List.mem_cons.1 h with rfl | h
    · omega
    · rw [List.mem_singleton.1 h]
      omega

theorem splits_flatMap_encodeUnit {us : List Nat} (h : ∀ u ∈ us, u < 0x10000) :
    Splits (us.flatMap encodeUnit) us := by
  induction us with
  | nil => exact .nil
  | cons u us ih =>
    rw [List.flatMap_cons]
    exact .cons (group_encodeUnit (h u List.mem_cons_self))
      (ih fun v hv => h v (List.mem_cons_of_mem u hv))

theorem splits_encode (text : String) :
    Splits (encode text) (text.toList.flatMap charUnits) := by
  refine splits_flatMap_encodeUnit fun u hu => ?_
  obtain ⟨c, _, hc⟩ := List.mem_flatMap.1 hu
  exact unit_lt_of_mem_charUnits hc

theorem Group.byte_range {front : List UInt8} {u : Nat} (h : Group front u) :
    ∀ b ∈ front, 0x01 ≤ b.toNat ∧ b.toNat ≤ 0xEF := by
  have hnext : ∀ {b : UInt8}, Continues b → 0x01 ≤ b.toNat ∧ b.toNat ≤ 0xEF := by
    rintro b ⟨_, _⟩
    omega
  cases h with
  | one h => exact List.forall_mem_singleton.2 (by omega)
  | two h hc =>
    exact List.forall_mem_cons.2 ⟨by omega, List.forall_mem_singleton.2 (hnext hc)⟩
  | three h hc hd =>
    refine List.forall_mem_cons.2 ⟨by omega, List.forall_mem_cons.2 ⟨hnext hc, ?_⟩⟩
    exact List.forall_mem_singleton.2 (hnext hd)

theorem Splits.byte_range {bytes : List UInt8} {us : List Nat} (h : Splits bytes us) :
    ∀ b ∈ bytes, 0x01 ≤ b.toNat ∧ b.toNat ≤ 0xEF := by
  induction h with
  | nil => simp
  | cons hgroup _ ih => exact List.forall_mem_append.2 ⟨hgroup.byte_range, ih⟩

theorem paired_iff {us : List Nat} (hlt : ∀ u ∈ us, u < 0x10000) :
    Paired us ↔ ∃ text : String, us = text.toList.flatMap charUnits := by
  rw [← exists_chars?_iff]
  constructor
  · rintro ⟨cs, hcs⟩
    refine ⟨String.ofList cs, ?_⟩
    rw [String.toList_ofList]
    exact flatMap_charUnits_of_chars? hlt hcs
  · rintro ⟨text, rfl⟩
    exact ⟨text.toList, chars?_flatMap_charUnits _⟩

theorem decode_eq_some_iff {bytes : List UInt8} {text : String} :
    decode bytes = some text ↔ Splits bytes (text.toList.flatMap charUnits) := by
  rw [decode_eq_decodeUnits, decodeUnits_eq_some_iff]

theorem exists_decode_iff {bytes : List UInt8} :
    (∃ text, decode bytes = some text) ↔ ∃ us, Splits bytes us ∧ Paired us := by
  constructor
  · rintro ⟨text, h⟩
    have hsplits := decode_eq_some_iff.1 h
    exact ⟨_, hsplits, (paired_iff hsplits.unit_lt).2 ⟨text, rfl⟩⟩
  · rintro ⟨us, hsplits, hpaired⟩
    obtain ⟨text, rfl⟩ := (paired_iff hsplits.unit_lt).1 hpaired
    exact ⟨text, decode_eq_some_iff.2 hsplits⟩

theorem decode_eq_none_iff {bytes : List UInt8} :
    decode bytes = none ↔ (∃ us, Splits bytes us ∧ ¬ Paired us)
      ∨ ∃ front us rest, bytes = front ++ rest ∧ Splits front us ∧ Stuck rest := by
  rw [← units?_eq_none_iff, Option.eq_none_iff_forall_ne_some]
  constructor
  · intro h
    cases hunits : units? bytes with
    | none => exact .inr rfl
    | some us =>
      have hsplits := units?_eq_some_iff.1 hunits
      refine .inl ⟨us, hsplits, fun hpaired => ?_⟩
      obtain ⟨text, htext⟩ := exists_decode_iff.2 ⟨us, hsplits, hpaired⟩
      exact h text htext
  · intro h text htext
    obtain ⟨vs, hvs, hpaired⟩ := exists_decode_iff.1 ⟨text, htext⟩
    have hread := units?_eq_some_iff.2 hvs
    rcases h with ⟨us, hus, hunpaired⟩ | hnone
    · obtain rfl := Option.some.inj (hread.symm.trans (units?_eq_some_iff.2 hus))
      exact hunpaired hpaired
    · rw [hread] at hnone
      cases hnone

/-- Decoding gives back every text that was encoded, does plain ASCII no differently from all
else, and takes just the byte strings that divide into groups with valid UTF-16 in them, each as
the text of its units. It refuses the others: those with a surrogate that stands alone, and those
that are stuck behind some groups, as with a zero or the lead of four bytes anywhere. -/
theorem decode_exactly_groups :
    (∀ text, decode (encode text) = some text)
      ∧ (∀ bytes, decode bytes = decodeUnits bytes)
      ∧ (∀ bytes text, decode bytes = some text
        ↔ ∃ us, Splits bytes us ∧ Paired us ∧ us = text.toList.flatMap charUnits)
      ∧ (∀ bytes, (∃ text, decode bytes = some text) ↔ ∃ us, Splits bytes us ∧ Paired us)
      ∧ (∀ bytes, decode bytes = none ↔ (∃ us, Splits bytes us ∧ ¬ Paired us)
        ∨ ∃ front us rest, bytes = front ++ rest ∧ Splits front us ∧ Stuck rest)
      ∧ ∀ bytes, (∃ b ∈ bytes, b = 0 ∨ 0xF0 ≤ b.toNat) → decode bytes = none := by
  refine ⟨fun text => ?_, decode_eq_decodeUnits, fun bytes text => ?_,
    fun bytes => exists_decode_iff, fun bytes => decode_eq_none_iff, fun bytes hb => ?_⟩
  · exact decode_eq_some_iff.2 (splits_encode text)
  · rw [decode_eq_some_iff]
    constructor
    · intro h
      exact ⟨_, h, (paired_iff h.unit_lt).2 ⟨text, rfl⟩, rfl⟩
    · rintro ⟨us, h, _, rfl⟩
      exact h
  · obtain ⟨b, hmem, hb⟩ := hb
    rw [Option.eq_none_iff_forall_ne_some]
    intro text htext
    obtain ⟨hleast, hgreatest⟩ := (decode_eq_some_iff.1 htext).byte_range b hmem
    rcases hb with rfl | hb
    · exact absurd hleast (by decide)
    · omega

/-- A long form is taken as the short one is, and a zero behind it is refused. -/
theorem decode_exactly_groups_longForm :
    (Splits [0xE0, 0x81, 0x81] [0x41] ∧ Paired [0x41] ∧ decode [0xE0, 0x81, 0x81] = some "A")
      ∧ (∃ b ∈ ([0xE0, 0x81, 0x81, 0] : List UInt8), b = 0 ∨ 0xF0 ≤ b.toNat)
      ∧ decode [0xE0, 0x81, 0x81, 0] = none := by
  obtain ⟨-, -, htext, -, -, hrefused⟩ := decode_exactly_groups
  have hnext : Continues 0x81 := ⟨by decide, by decide⟩
  have hsplits : Splits [0xE0, 0x81, 0x81] [0x41] := .cons (.three (by decide) hnext hnext) .nil
  have hpaired : Paired [0x41] := exists_chars?_iff.1 ⟨['A'], by decide⟩
  have hzero : ∃ b ∈ ([0xE0, 0x81, 0x81, 0] : List UInt8), b = 0 ∨ 0xF0 ≤ b.toNat :=
    ⟨0, by decide, .inl rfl⟩
  exact ⟨⟨hsplits, hpaired, (htext _ "A").2 ⟨[0x41], hsplits, hpaired, by decide⟩⟩, hzero,
    hrefused _ hzero⟩

example : decode [0xED, 0xA0, 0xBD, 0xED, 0xB8, 0x80] = some "😀" := by decide

end ClassCatalog.ModifiedUtf8
