/-! Texts in the order of their characters are in the order of their UTF-8 bytes. -/

namespace ClassCatalog

def utf8 (text : String) : List UInt8 := text.toUTF8.data.toList

theorem utf8_eq_flatMap (text : String) :
    utf8 text = text.toList.flatMap String.utf8EncodeChar := by
  have hbytes : text.toList.utf8Encode = text.toByteArray := String.utf8Encode_toList
  rw [utf8, String.toUTF8_eq_toByteArray, ← hbytes, List.utf8Encode]
  simp

theorem fromUTF8?_toUTF8 (text : String) :
    String.fromUTF8? ⟨text.toUTF8.data.toList.toArray⟩ = some text := by
  simp only [String.toUTF8_eq_toByteArray, Array.toArray_toList]
  rw [String.fromUTF8?, dif_pos text.isValidUTF8]
  rfl

theorem digits_lt {v w : Nat} (h : v < w) :
    v / 262144 < w / 262144 ∨ v / 262144 = w / 262144 ∧
      (v / 4096 % 64 < w / 4096 % 64 ∨ v / 4096 % 64 = w / 4096 % 64 ∧
        (v / 64 % 64 < w / 64 % 64 ∨ v / 64 % 64 = w / 64 % 64 ∧ v % 64 < w % 64)) := by
  have hstep : ∀ {m n : Nat}, m < n → m / 64 < n / 64 ∨ m / 64 = n / 64 ∧ m % 64 < n % 64 := by
    omega
  have hfirst : ∀ n : Nat, n / 262144 = n / 64 / 64 / 64 := by omega
  have hsecond : ∀ n : Nat, n / 4096 = n / 64 / 64 := by omega
  rw [hfirst v, hfirst w, hsecond v, hsecond w]
  rcases hstep h with hlow | ⟨heq, hlow⟩
  · rcases hstep hlow with hmid | ⟨heq, hmid⟩
    · rcases hstep hmid with hhigh | ⟨heq, hhigh⟩
      · exact .inl hhigh
      · exact .inr ⟨heq, .inl hhigh⟩
    · rw [heq]
      exact .inr ⟨rfl, .inr ⟨rfl, .inl hmid⟩⟩
  · rw [heq]
    exact .inr ⟨rfl, .inr ⟨rfl, .inr ⟨rfl, hlow⟩⟩⟩

theorem utf8EncodeChar_append_lt {c d : Char} (h : c < d) (xs ys : List UInt8) :
    String.utf8EncodeChar c ++ xs < String.utf8EncodeChar d ++ ys := by
  have hlt : c.val.toNat < d.val.toNat := h
  have hmax : d.val.toNat < 0x110000 := by
    rcases d.valid with hsmall | ⟨_, hlarge⟩
    · exact Nat.lt_trans hsmall (by decide)
    · exact hlarge
  have hdigits := digits_lt hlt
  unfold String.utf8EncodeChar
  generalize c.val.toNat = v at *
  generalize d.val.toNat = w at *
  have htrail : ∀ n, (UInt8.ofNat (n % 64 + 128)).toNat = n % 64 + 128 := fun n =>
    UInt8.toNat_ofNat_of_lt (show n % 64 + 128 < 256 by omega)
  have hlead : ∀ n, (UInt8.ofNat (n % 8 + 240)).toNat = n % 8 + 240 := fun n =>
    UInt8.toNat_ofNat_of_lt (show n % 8 + 240 < 256 by omega)
  have hv : v / 262144 % 8 = v / 262144 := Nat.mod_eq_of_lt (by omega)
  have hw : w / 262144 % 8 = w / 262144 := Nat.mod_eq_of_lt (by omega)
  dsimp only
  repeat' split
  all_goals
    simp only [List.cons_append, List.nil_append, List.cons_lt_cons_iff, UInt8.lt_iff_toNat_lt,
      ← UInt8.toNat_inj, htrail, hlead, UInt8.toNat_ofNat']
    omega

theorem flatMap_utf8_lt {cs ds : List Char} (h : cs < ds) :
    cs.flatMap String.utf8EncodeChar < ds.flatMap String.utf8EncodeChar := by
  induction cs generalizing ds with
  | nil =>
    cases ds with
    | nil => exact absurd h (List.not_lt_nil [])
    | cons d ds =>
      have hne := String.utf8EncodeChar_ne_nil (c := d)
      obtain ⟨b, bs, hbytes⟩ := List.exists_cons_of_ne_nil hne
      rw [List.flatMap_nil, List.flatMap_cons, hbytes]
      exact List.nil_lt_cons _ _
  | cons c cs ih =>
    cases ds with
    | nil => exact absurd h (List.not_lt_nil _)
    | cons d ds =>
      rw [List.flatMap_cons, List.flatMap_cons]
      rcases List.cons_lt_cons_iff.1 h with hlt | ⟨rfl, hrest⟩
      · exact utf8EncodeChar_append_lt hlt _ _
      · exact List.append_left_lt (ih hrest)

theorem utf8_lt_of_compare {a b : String} (h : compare a b = .lt) : utf8 a < utf8 b := by
  have hlt : a < b := compareOfLessAndEq_eq_lt.1 h
  rw [utf8_eq_flatMap, utf8_eq_flatMap]
  exact flatMap_utf8_lt hlt

end ClassCatalog
