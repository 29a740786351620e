import ClassCatalog.Proofs.TextOrder

/-! Positions in the bytes of a text. Those between two characters are the ones that a text can be
cut at; a byte below 128 is a character of its own, so searching one in the bytes finds such a
position. -/

namespace ClassCatalog

def encode (cs : List Char) : List UInt8 := cs.flatMap String.utf8EncodeChar

def ascii (c : Char) : UInt8 := UInt8.ofNat c.toNat

theorem encode_nil : encode [] = [] := rfl

theorem encode_cons (c : Char) (cs : List Char) :
    encode (c :: cs) = String.utf8EncodeChar c ++ encode cs := List.flatMap_cons

theorem encode_append (cs ds : List Char) : encode (cs ++ ds) = encode cs ++ encode ds :=
  List.flatMap_append

theorem utf8_ofList (cs : List Char) : utf8 (String.ofList cs) = encode cs := by
  rw [utf8_eq_flatMap, String.toList_ofList]
  rfl

theorem length_encode (cs : List Char) : (encode cs).length = (String.ofList cs).utf8ByteSize := by
  rw [← utf8_ofList, utf8, Array.length_toList, String.toUTF8_eq_toByteArray]
  exact String.size_toByteArray

theorem length_encode_singleton (c : Char) : (encode [c]).length = c.utf8Size := by
  rw [encode_cons, encode_nil, List.append_nil, String.length_utf8EncodeChar]

theorem encode_eq_nil_iff {cs : List Char} : encode cs = [] ↔ cs = [] := by
  cases cs with
  | nil => simp [encode_nil]
  | cons c cs => simp [encode_cons, String.utf8EncodeChar_ne_nil]

theorem length_encode_pos {cs : List Char} (h : cs ≠ []) : 0 < (encode cs).length :=
  List.length_pos_iff.2 (mt encode_eq_nil_iff.1 h)

theorem utf8EncodeChar_cases (c : Char) :
    c.toNat < 128 ∧ String.utf8EncodeChar c = [ascii c]
      ∨ 128 ≤ c.toNat ∧ ∀ b ∈ String.utf8EncodeChar c, 128 ≤ b.toNat := by
  have hval : c.toNat = c.val.toNat := rfl
  rw [hval, ascii, hval]
  unfold String.utf8EncodeChar
  generalize c.val.toNat = v
  have hhigh : ∀ n, 128 ≤ n → n < 256 → 128 ≤ (UInt8.ofNat n).toNat := by
    intro n hle hlt
    rwa [UInt8.toNat_ofNat', Nat.mod_eq_of_lt hlt]
  dsimp only
  repeat' split
  · exact .inl ⟨by omega, rfl⟩
  all_goals
    refine .inr ⟨by omega, ?_⟩
    simp only [List.mem_cons, List.not_mem_nil, or_false, forall_eq_or_imp, forall_eq]
    repeat' constructor
    all_goals exact hhigh _ (by omega) (by omega)

theorem ascii_toNat {c : Char} (h : c.toNat < 128) : (ascii c).toNat = c.toNat :=
  UInt8.toNat_ofNat_of_lt (Nat.lt_trans h (by decide))

theorem ascii_inj {c d : Char} (hc : c.toNat < 128) (hd : d.toNat < 128) :
    ascii c = ascii d ↔ c = d := by
  rw [← UInt8.toNat_inj, ascii_toNat hc, ascii_toNat hd, Char.toNat_inj]

theorem utf8Size_of_lt {c : Char} (h : c.toNat < 128) : c.utf8Size = 1 :=
  Char.utf8Size_eq_one_iff.2 (Nat.le_of_lt_succ h)

def firstByte (c : Char) : UInt8 := (String.utf8EncodeChar c).headD 0

theorem head?_encode (cs : List Char) : (encode cs).head? = cs.head?.map firstByte := by
  cases cs with
  | nil => rfl
  | cons c cs =>
    obtain ⟨b, bs, hbytes⟩ := List.exists_cons_of_ne_nil (String.utf8EncodeChar_ne_nil (c := c))
    rw [encode_cons, List.head?_cons, Option.map_some, firstByte, hbytes]
    rfl

theorem firstByte_cases (c : Char) :
    c.toNat < 128 ∧ firstByte c = ascii c ∨ 128 ≤ c.toNat ∧ 128 ≤ (firstByte c).toNat := by
  obtain ⟨b, bs, hbytes⟩ := List.exists_cons_of_ne_nil (String.utf8EncodeChar_ne_nil (c := c))
  have hfirst : firstByte c = b := by rw [firstByte, hbytes, List.headD_cons]
  rw [hfirst]
  rcases utf8EncodeChar_cases c with ⟨hlt, heq⟩ | ⟨hle, hhigh⟩
  · rw [hbytes] at heq
    exact .inl ⟨hlt, (List.cons.inj heq).1⟩
  · exact .inr ⟨hle, hhigh b (by rw [hbytes]; exact List.mem_cons_self)⟩

theorem firstByte_eq_ascii_iff {c d : Char} (hd : d.toNat < 128) :
    firstByte c = ascii d ↔ c = d := by
  rcases firstByte_cases c with ⟨hlt, heq⟩ | ⟨hle, hhigh⟩
  · rw [heq, ascii_inj hlt hd]
  · constructor
    · intro h
      rw [h, ascii_toNat hd] at hhigh
      omega
    · rintro rfl
      omega

theorem map_firstByte_eq_iff {o : Option Char} {d : Char} (hd : d.toNat < 128) :
    o.map firstByte = some (ascii d) ↔ o = some d := by
  cases o with
  | none => simp
  | some c => simp [firstByte_eq_ascii_iff hd]

def stopByte (stops : List Char) (b : UInt8) : Bool := (stops.map ascii).contains b

theorem stopByte_ascii {stops : List Char} (hstops : ∀ d ∈ stops, d.toNat < 128) {c : Char}
    (hc : c.toNat < 128) : stopByte stops (ascii c) = stops.contains c := by
  rw [stopByte, Bool.eq_iff_iff, List.contains_iff_mem, List.contains_iff_mem, List.mem_map]
  constructor
  · rintro ⟨d, hd, heq⟩
    rwa [← (ascii_inj (hstops d hd) hc).1 heq]
  · exact fun h => ⟨c, h, rfl⟩

theorem stopByte_of_le {stops : List Char} (hstops : ∀ d ∈ stops, d.toNat < 128) {b : UInt8}
    (hb : 128 ≤ b.toNat) : stopByte stops b = false := by
  rw [stopByte, ← Bool.not_eq_true, List.contains_iff_mem, List.mem_map]
  rintro ⟨d, hd, rfl⟩
  rw [ascii_toNat (hstops d hd)] at hb
  exact absurd (hstops d hd) (Nat.not_lt.2 hb)

theorem stopByte_encode {stops name : List Char} (hstops : ∀ d ∈ stops, d.toNat < 128)
    (hname : ∀ c ∈ name, c ∉ stops) : ∀ b ∈ encode name, stopByte stops b = false := by
  intro b hb
  obtain ⟨c, hc, hbc⟩ := List.mem_flatMap.1 hb
  rcases utf8EncodeChar_cases c with ⟨hlt, heq⟩ | ⟨_, hhigh⟩
  · obtain rfl : b = ascii c := by simpa [heq] using hbc
    rw [stopByte_ascii hstops hlt]
    simpa using hname c hc
  · exact stopByte_of_le hstops (hhigh b hbc)

theorem findIdx?_encode {stops name rest : List Char} (hstops : ∀ d ∈ stops, d.toNat < 128)
    (hname : ∀ c ∈ name, c ∉ stops) (hrest : ∀ c ∈ rest.head?, c ∈ stops) :
    (encode (name ++ rest)).findIdx? (stopByte stops)
      = if rest = [] then none else some (encode name).length := by
  have hnone : (encode name).findIdx? (stopByte stops) = none :=
    List.findIdx?_eq_none_iff.2 (stopByte_encode hstops hname)
  rw [encode_append, List.findIdx?_append, hnone, Option.none_or]
  cases rest with
  | nil => rfl
  | cons c rest =>
    have hc : c ∈ stops := hrest c rfl
    have hlt : c.toNat < 128 := hstops c hc
    have hbyte : String.utf8EncodeChar c = [ascii c] := by
      rcases utf8EncodeChar_cases c with ⟨_, heq⟩ | ⟨hle, _⟩
      · exact heq
      · omega
    have hstop : stopByte stops (ascii c) = true := by
      rw [stopByte_ascii hstops hlt]
      simpa using hc
    simp [encode_cons, hbyte, List.findIdx?_cons, hstop]

def Stands (text : String) (cs : List Char) (pos : Nat) : Prop :=
  ∃ front, text.toList = front ++ cs ∧ pos = (encode front).length

def IsBoundary (text : String) (pos : Nat) : Prop := (⟨pos⟩ : String.Pos.Raw).IsValid text

instance (text : String) (pos : Nat) : Decidable (IsBoundary text pos) :=
  inferInstanceAs (Decidable ((⟨pos⟩ : String.Pos.Raw).IsValid text))

theorem isBoundary_iff_stands {text : String} {pos : Nat} :
    IsBoundary text pos ↔ ∃ cs, Stands text cs pos := by
  rw [IsBoundary, String.Pos.Raw.isValid_iff_exists_take_toList]
  constructor
  · rintro ⟨i, hi⟩
    refine ⟨text.toList.drop i, text.toList.take i, (List.take_append_drop i _).symm, ?_⟩
    rw [length_encode]
    exact hi
  · rintro ⟨cs, front, htext, rfl⟩
    refine ⟨front.length, ?_⟩
    rw [htext, List.take_left, length_encode]

example : IsBoundary "é" 2 ∧ ¬ IsBoundary "é" 1 := by decide

section

variable {text : String} {cs : List Char} {pos : Nat}

theorem stands_start (text : String) : Stands text text.toList 0 := ⟨[], rfl, rfl⟩

theorem Stands.isBoundary (h : Stands text cs pos) : IsBoundary text pos :=
  isBoundary_iff_stands.2 ⟨cs, h⟩

theorem Stands.step {taken rest : List Char} (h : Stands text cs pos) (hcs : cs = taken ++ rest) :
    Stands text rest (pos + (encode taken).length) := by
  obtain ⟨front, htext, rfl⟩ := h
  refine ⟨front ++ taken, ?_, ?_⟩
  · rw [htext, hcs, List.append_assoc]
  · rw [encode_append, List.length_append]

theorem Stands.next {c : Char} (h : Stands text (c :: cs) pos) (hc : c.toNat < 128) :
    Stands text cs (pos + 1) := by
  have hstep := h.step (show c :: cs = [c] ++ cs from rfl)
  rwa [length_encode_singleton, utf8Size_of_lt hc] at hstep

theorem Stands.drop_utf8 (h : Stands text cs pos) : (utf8 text).drop pos = encode cs := by
  obtain ⟨front, htext, rfl⟩ := h
  have hbytes : utf8 text = encode front ++ encode cs := by
    rw [utf8_eq_flatMap, htext]
    exact encode_append front cs
  rw [hbytes, List.drop_left]

theorem Stands.length_utf8 (h : Stands text cs pos) :
    (utf8 text).length = pos + (encode cs).length := by
  obtain ⟨front, htext, rfl⟩ := h
  rw [utf8_eq_flatMap, htext, ← List.length_append]
  exact congrArg List.length (encode_append front cs)

theorem Stands.le_length (h : Stands text cs pos) : pos ≤ (utf8 text).length := by
  rw [h.length_utf8]
  exact Nat.le_add_right _ _

theorem Stands.getElem?_utf8 (h : Stands text cs pos) :
    (utf8 text)[pos]? = cs.head?.map firstByte := by
  rw [← head?_encode, ← h.drop_utf8, List.head?_drop]

theorem Stands.eq_nil_iff (h : Stands text cs pos) : cs = [] ↔ (utf8 text).length ≤ pos := by
  rw [h.length_utf8, ← encode_eq_nil_iff, ← List.length_eq_zero_iff]
  omega

end

end ClassCatalog
