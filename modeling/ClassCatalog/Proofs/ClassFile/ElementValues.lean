import Mathlib.Tactic.Push
import ClassCatalog.Proofs.Archive.Records
import ClassCatalog.Proofs.ClassFile.ElementForms
import ClassCatalog.Proofs.ClassFile.PoolNumbers

/-! Annotations and their values are read back from their bytes, unless they nest too deep. -/

namespace ClassCatalog

namespace Value

variable {ν : Type}

theorem depth_pos (v : Value ν) : 0 < v.depth := by
  cases v <;> simp only [depth] <;> omega

/-- A value in `v`, or `v` itself, lies at this depth, if `v` lies at `top`. -/
inductive LiesAt : Nat → Value ν → Nat → Prop where
  | here (top : Nat) (v : Value ν) : LiesAt top v top
  | member {top depth : Nat} {name : ν} {visible : Bool} {members : List (ν × Value ν)}
    {m : ν × Value ν} (hm : m ∈ members) (h : LiesAt (top + 1) m.2 depth) :
    LiesAt top (nested name visible members) depth
  | element {top depth : Nat} {elements : List (Value ν)} {w : Value ν} (hw : w ∈ elements)
    (h : LiesAt (top + 1) w depth) : LiesAt top (array elements) depth

theorem LiesAt.lt {v : Value ν} {top d : Nat} (h : LiesAt top v d) : d < top + v.depth := by
  induction h with
  | here top v => exact Nat.lt_add_of_pos_right v.depth_pos
  | @member top d name visible members m hm _ ih =>
    have hmost := (membersDepth_le_iff members _).1 (Nat.le_refl _) m hm
    rw [depth]
    omega
  | @element top d elements w hw _ ih =>
    have hmost := (elementsDepth_le_iff elements _).1 (Nat.le_refl _) w hw
    rw [depth]
    omega

theorem exists_liesAt {v : Value ν} {n : Nat} (top : Nat) (h : n < v.depth) :
    LiesAt top v (top + n) := by
  induction n generalizing top v with
  | zero => exact .here top v
  | succ n ih =>
    rw [← Nat.succ_add_eq_add_succ]
    cases v with
    | nested name visible members =>
      have hdeep : ¬ membersDepth members ≤ n := by
        rw [depth] at h
        omega
      rw [membersDepth_le_iff] at hdeep
      push Not at hdeep
      obtain ⟨m, hm, hn⟩ := hdeep
      exact .member hm (ih (top + 1) hn)
    | array elements =>
      have hdeep : ¬ elementsDepth elements ≤ n := by
        rw [depth] at h
        omega
      rw [elementsDepth_le_iff] at hdeep
      push Not at hdeep
      obtain ⟨w, hw, hn⟩ := hdeep
      exact .element hw (ih (top + 1) hn)
    | _ => exact absurd (Nat.lt_of_succ_lt_succ h) (Nat.not_lt_zero n)

theorem depth_le_iff_liesAt (v : Value ν) (top n : Nat) :
    v.depth ≤ n ↔ ∀ d, LiesAt top v d → d < top + n := by
  constructor
  · exact fun h d hd => Nat.lt_of_lt_of_le hd.lt (Nat.add_le_add_left h top)
  · intro h
    by_contra hdeep
    exact Nat.lt_irrefl _ (h _ (exists_liesAt top (Nat.not_le.1 hdeep)))

end Value

namespace ClassFile

namespace Reader

variable {α β ι : Type} {P Q : Prop} {p : Reader α} {k : α → Reader β} {front back : List UInt8}
  {a : α} {b : β} {e : DecodeError}

def Refuses (p : Reader α) (bytes : List UInt8) (e : DecodeError) : Prop :=
  ∀ rest offset, p.run ⟨bytes ++ rest, offset⟩ = .error e

theorem run_bind_of_error {s : Cursor} (h : p.run s = .error e) : (p >>= k).run s = .error e := by
  rw [StateT.run_bind, h]
  rfl

/-- If `P` holds, `p` takes `bytes` and gives `a`, and otherwise it fails. -/
structure TakesIf (P : Prop) (p : Reader α) (bytes : List UInt8) (a : α) (e : DecodeError) :
    Prop where
  takes : P → p.Takes bytes a
  refuses : ¬ P → p.Refuses bytes e

namespace TakesIf

theorem of_takes (h : p.Takes front a) : TakesIf True p front a e :=
  ⟨fun _ => h, fun hnot => absurd trivial hnot⟩

theorem congr (h : TakesIf P p front a e) (hiff : P ↔ Q) : TakesIf Q p front a e :=
  ⟨fun hQ => h.takes (hiff.2 hQ), fun hQ => h.refuses (mt hiff.1 hQ)⟩

theorem bind (hp : TakesIf P p front a e) (hk : TakesIf Q (k a) back b e) :
    TakesIf (P ∧ Q) (p >>= k) (front ++ back) b e where
  takes h := (hp.takes h.1).bind (hk.takes h.2)
  refuses hnot rest offset := by
    rw [List.append_assoc]
    by_cases hP : P
    · rw [run_bind_of_ok (hp.takes hP (back ++ rest) offset)]
      exact hk.refuses (fun hQ => hnot ⟨hP, hQ⟩) rest _
    · exact run_bind_of_error (hp.refuses hP (back ++ rest) offset)

theorem after (hp : p.Takes front a) (hk : TakesIf Q (k a) back b e) :
    TakesIf Q (p >>= k) (front ++ back) b e :=
  ((of_takes hp).bind hk).congr ⟨And.right, And.intro trivial⟩

theorem bind_last (hp : TakesIf P p front a e) (hk : (k a).Takes [] b) :
    TakesIf P (p >>= k) front b e := by
  have h := (hp.bind (of_takes hk)).congr ⟨And.left, fun hP => ⟨hP, trivial⟩⟩
  rwa [List.append_nil] at h

theorem lift_bind {x : Except DecodeError α} (hx : x = .ok a) (hk : TakesIf Q (k a) back b e) :
    TakesIf Q (liftM x >>= k : Reader β) back b e := by
  rw [hx]
  exact hk

theorem check {x : Except DecodeError α} (hok : P → x = .ok a) (herror : ¬ P → x = .error e) :
    TakesIf P (liftM x : Reader α) [] a e where
  takes h := by
    rw [hok h]
    exact takes_pure a
  refuses h := by
    rw [herror h]
    exact fun _ _ => rfl

theorem times {enc : ι → List UInt8} {val : ι → α} {within : ι → Prop} {xs : List ι}
    (h : ∀ x ∈ xs, TakesIf (within x) p (enc x) (val x) e) :
    TakesIf (∀ x ∈ xs, within x) (times xs.length p) (xs.flatMap enc) (xs.map val) e := by
  induction xs with
  | nil => exact (of_takes (takes_pure [])).congr (by simp)
  | cons x xs ih =>
    have htail := ih fun y hy => h y (List.mem_cons_of_mem x hy)
    have hcons := takes_pure (val x :: xs.map val)
    refine ((h x List.mem_cons_self).bind (htail.bind_last hcons)).congr ?_
    exact List.forall_mem_cons.symm

theorem counted {enc : ι → List UInt8} {val : ι → α} {within : ι → Prop} {xs : List ι}
    (hfits : xs.length < UInt16.size) (h : ∀ x ∈ xs, TakesIf (within x) p (enc x) (val x) e) :
    TakesIf (∀ x ∈ xs, within x) (counted p) (countedBytes enc xs) (xs.map val) e :=
  after (takes_number 2 hfits) (times h)

end TakesIf

theorem takes_byte (b : UInt8) : byte.Takes [b] b := by
  have hbyte := (takes_u1 b).mapped UInt8.ofNat
  rwa [UInt8.ofNat_toNat] at hbyte

end Reader

open Reader (TakesIf takes_byte takes_u2 takes_pure)

theorem Descriptor.parseReturn_resultChars (type : Option FieldForm) :
    parseReturn (String.ofList (MethodForm.resultChars type))
      = .ok (MethodForm.resultTy type) := by
  rw [parseReturn, orMalformed_eq_ok_iff, complete_eq_some_iff, returnType_eq_some_iff]
  exact ⟨type, by rw [List.append_nil, String.toList_ofList], rfl⟩

variable {pool : ConstantPool} {w : UInt16}

namespace PlainForm.HeldBy

theorem utf8 {text : String} (h : (PlainForm.string text).HeldBy pool w) :
    pool.utf8 w.toNat = .ok text := by
  obtain ⟨c, hget, hsaid⟩ := h
  cases hsaid with
  | string h => exact utf8_of_get hget h

end PlainForm.HeldBy

namespace ElementValue

theorem integer_of_get {index : Nat} {n : Int32} (h : pool.get index = .ok (.integer n)) :
    pool.integer index = .ok n := by
  rw [ConstantPool.integer, h]
  rfl

theorem takesIf_narrow {n : Int32} (h : pool.get w.toNat = .ok (.integer n)) (tag : Char)
    (least greatest : Int) (f : Int → Value String) :
    TakesIf (least ≤ n.toInt ∧ n.toInt ≤ greatest)
      (do return f (← integerIn pool tag least greatest (← Reader.u2))) (wordBytes w) (f n.toInt)
      (.constantOutOfRange tag n.toInt) := by
  have hint : integerIn pool tag least greatest w.toNat
      = if least ≤ n.toInt ∧ n.toInt ≤ greatest then .ok n.toInt
        else .error (.constantOutOfRange tag n.toInt) := by
    rw [integerIn, integer_of_get h]
    rfl
  have hcheck : TakesIf (least ≤ n.toInt ∧ n.toInt ≤ greatest)
      (liftM (integerIn pool tag least greatest w.toNat) : Reader Int) [] n.toInt
      (.constantOutOfRange tag n.toInt) :=
    .check (fun hfits => hint.trans (if_pos hfits)) (fun hfits => hint.trans (if_neg hfits))
  rw [← List.append_nil (wordBytes w)]
  exact .after (takes_u2 w) (hcheck.bind_last (takes_pure (f n.toInt)))

variable {visible : Bool} {levels : Nat}

theorem ofInt_toNat (unit : UInt16) : UInt16.ofInt unit.toNat = unit := by
  have hmod : ((unit.toNat : Int) % 2 ^ 16).toNat = unit.toNat := by
    have hunit := unit.toNat_lt
    omega
  rw [UInt16.ofInt, hmod, UInt16.ofNat_toNat]

theorem takes_plain {v : Numbered PlainForm} (h : v.item.HeldBy pool v.index) :
    (read pool visible (levels + 1)).Takes (ElementForm.plain v).bytes v.item.value := by
  obtain ⟨index, form⟩ := v
  obtain ⟨c, hget, hsaid⟩ := h
  cases hsaid with
  | @byte v n hn =>
    have hread := takesIf_narrow hget 'B' (-128) 127 fun i => .byte (Int8.ofInt i)
    rw [hn, Int8.ofInt_toInt] at hread
    exact (takes_byte 66).bind (hread.takes ⟨v.le_toInt, Int.lt_add_one_iff.1 v.toInt_lt⟩)
  | @char unit n hn =>
    have hread := takesIf_narrow hget 'C' 0 65535 fun i => .char (UInt16.ofInt i)
    have hunit := unit.toNat_lt
    rw [hn, ofInt_toNat] at hread
    exact (takes_byte 67).bind (hread.takes (by omega))
  | @short v n hn =>
    have hread := takesIf_narrow hget 'S' (-32768) 32767 fun i => .short (Int16.ofInt i)
    rw [hn, Int16.ofInt_toInt] at hread
    exact (takes_byte 83).bind (hread.takes ⟨v.le_toInt, Int.lt_add_one_iff.1 v.toInt_lt⟩)
  | int v =>
    refine (takes_byte 73).bind ((takes_u2 index).bind_last ?_)
    exact .lift_bind (integer_of_get hget) (takes_pure _)
  | long v =>
    refine (takes_byte 74).bind ((takes_u2 index).bind_last ?_)
    exact .lift_bind (by rw [ConstantPool.long, hget]; rfl) (takes_pure _)
  | float v =>
    refine (takes_byte 70).bind ((takes_u2 index).bind_last ?_)
    exact .lift_bind (by rw [ConstantPool.float, hget]; rfl) (takes_pure _)
  | double v =>
    refine (takes_byte 68).bind ((takes_u2 index).bind_last ?_)
    exact .lift_bind (by rw [ConstantPool.double, hget]; rfl) (takes_pure _)
  | boolean n =>
    refine (takes_byte 90).bind ((takes_u2 index).bind_last ?_)
    exact .lift_bind (integer_of_get hget) (takes_pure _)
  | string htext =>
    refine (takes_byte 115).bind ((takes_u2 index).bind_last ?_)
    exact .lift_bind (utf8_of_get hget htext) (takes_pure _)
  | @classLiteral type _ htext =>
    refine (takes_byte 99).bind ((takes_u2 index).bind_last ?_)
    exact .lift_bind (utf8_of_get hget htext)
      (.lift_bind (Descriptor.parseReturn_resultChars type) (takes_pure _))

theorem takesIf_body (visible : Bool) {element : Reader (Value String)} {a : AnnotationForm}
    {within : Numbered String × ElementForm → Prop} {e : DecodeError}
    (htype : (PlainForm.string a.type.item.descriptor).HeldBy pool a.type.index)
    (hfits : a.members.length < UInt16.size)
    (h : ∀ m ∈ a.members, (PlainForm.string m.1.item).HeldBy pool m.1.index
      ∧ TakesIf (within m) element m.2.bytes (m.2.value visible) e) :
    TakesIf (∀ m ∈ a.members, within m) (body pool element) a.bytes
      (a.type.item.binary, a.members.map (ElementForm.memberValue visible)) e := by
  refine .after (takes_u2 a.type.index) (.lift_bind htype.utf8 ?_)
  refine .lift_bind a.type.item.parseClass_descriptor ?_
  refine TakesIf.bind_last (.counted hfits fun m hm => ?_) (takes_pure _)
  obtain ⟨hname, hvalue⟩ := h m hm
  exact .after (takes_u2 m.1.index) (.lift_bind hname.utf8 (hvalue.bind_last (takes_pure _)))

/-- Each value is read back if none in it is too deep, and the first that is too deep is refused,
whatever its bytes are. -/
theorem takesIf_read {f : ElementForm} (h : f.WellFormed pool levels) :
    TakesIf ((f.value visible).depth ≤ levels) (read pool visible levels) f.bytes (f.value visible)
      (.nestingTooDeep .elementValue) := by
  induction levels generalizing f with
  | zero =>
    have hdeep : ¬ (f.value visible).depth ≤ 0 := Nat.not_le.2 (Value.depth_pos _)
    exact ⟨fun h => absurd h hdeep, fun _ _ _ => rfl⟩
  | succ levels ih =>
    cases f with
    | plain v =>
      have hdepth : v.item.value.depth ≤ levels + 1 := by
        cases v.item <;> exact Nat.succ_le_succ (Nat.zero_le levels)
      exact (TakesIf.of_takes (takes_plain h)).congr ⟨fun _ => hdepth, fun _ => trivial⟩
    | enumConstant type constant =>
      obtain ⟨htype, hconstant⟩ := h
      have hdepth : 1 ≤ levels + 1 := Nat.succ_le_succ (Nat.zero_le levels)
      refine (TakesIf.of_takes ?_).congr ⟨fun _ => hdepth, fun _ => trivial⟩
      refine (takes_byte 101).bind ((takes_u2 type.index).bind (.lift_bind htype.utf8 ?_))
      refine .lift_bind type.item.parseClass_descriptor ((takes_u2 constant.index).bind_last ?_)
      exact .lift_bind hconstant.utf8 (takes_pure _)
    | nested type members =>
      obtain ⟨htype, hfits, hmembers⟩ := h
      have hbody := takesIf_body visible (a := ⟨type, members⟩) htype hfits
        fun m hm => ⟨(hmembers m hm).1, ih (hmembers m hm).2⟩
      have hdepth : ((ElementForm.nested type members).value visible).depth ≤ levels + 1
          ↔ ∀ m ∈ members, (m.2.value visible).depth ≤ levels := by
        rw [ElementForm.value_nested, Value.depth, Nat.add_comm, Nat.succ_le_succ_iff,
          Value.membersDepth_le_iff, List.forall_mem_map]
        rfl
      rw [hdepth, ElementForm.bytes_nested, ElementForm.value_nested]
      exact .after (takes_byte 64) (hbody.bind_last (takes_pure _))
    | array elements =>
      obtain ⟨hfits, helements⟩ := h
      have hread := TakesIf.counted hfits fun f hf => ih (helements f hf)
      have hdepth : ((ElementForm.array elements).value visible).depth ≤ levels + 1
          ↔ ∀ f ∈ elements, (f.value visible).depth ≤ levels := by
        rw [ElementForm.value_array, Value.depth, Nat.add_comm, Nat.succ_le_succ_iff,
          Value.elementsDepth_le_iff, List.forall_mem_map]
      rw [hdepth, ElementForm.bytes_array, ElementForm.value_array]
      refine .after (takes_byte 91) ?_
      exact TakesIf.bind_last hread (takes_pure _)

end ElementValue

/-- Values and annotations are read back from their bytes, whatever comes after these, unless some
value lies at depth 128 or more; values that deep are not looked at. Narrow integers are read
exactly if they fit. -/
theorem element_values_read_back :
    (∀ (pool : ConstantPool) (visible : Bool) (f : ElementForm),
      f.WellFormed pool Nested.elementValue.limit →
        TakesIf (∀ depth, Value.LiesAt 0 (f.value visible) depth → depth < 128)
          (ElementValue.read pool visible Nested.elementValue.limit) f.bytes (f.value visible)
          (.nestingTooDeep .elementValue))
      ∧ (∀ (pool : ConstantPool) (visible : Bool) (a : AnnotationForm),
        a.WellFormed pool (Nested.elementValue.limit - 1) →
          TakesIf (∀ m ∈ a.members, ∀ depth,
              Value.LiesAt 1 (m.2.value visible) depth → depth < 128)
            (Annotations.readOne pool visible) a.bytes (a.use visible)
            (.nestingTooDeep .elementValue))
      ∧ ∀ (pool : ConstantPool) (visible : Bool) (levels : Nat) (w : UInt16) (n : Int32),
        pool.get w.toNat = .ok (.integer n) →
          TakesIf (-128 ≤ n.toInt ∧ n.toInt ≤ 127) (ElementValue.read pool visible (levels + 1))
              (letterByte 'B' :: wordBytes w) (.byte (Int8.ofInt n.toInt))
              (.constantOutOfRange 'B' n.toInt)
            ∧ TakesIf (0 ≤ n.toInt ∧ n.toInt ≤ 65535)
              (ElementValue.read pool visible (levels + 1)) (letterByte 'C' :: wordBytes w)
              (.char (UInt16.ofInt n.toInt)) (.constantOutOfRange 'C' n.toInt)
            ∧ TakesIf (-32768 ≤ n.toInt ∧ n.toInt ≤ 32767)
              (ElementValue.read pool visible (levels + 1)) (letterByte 'S' :: wordBytes w)
              (.short (Int16.ofInt n.toInt)) (.constantOutOfRange 'S' n.toInt) := by
  refine ⟨?_, ?_, ?_⟩
  · intro pool visible f h
    have hdepth := (f.value visible).depth_le_iff_liesAt 0 Nested.elementValue.limit
    exact (ElementValue.takesIf_read h).congr hdepth
  · intro pool visible a h
    have hbody := ElementValue.takesIf_body visible h.type h.fits
      fun m hm => ⟨(h.members m hm).1, ElementValue.takesIf_read (h.members m hm).2⟩
    refine TakesIf.congr (hbody.bind_last (takes_pure _)) ?_
    refine forall₂_congr fun m _ => ?_
    exact (m.2.value visible).depth_le_iff_liesAt 1 (Nested.elementValue.limit - 1)
  · intro pool visible levels w n hget
    refine ⟨?_, ?_, ?_⟩
    · exact .after (takes_byte 66) (ElementValue.takesIf_narrow hget 'B' _ _ fun i =>
        .byte (Int8.ofInt i))
    · exact .after (takes_byte 67) (ElementValue.takesIf_narrow hget 'C' _ _ fun i =>
        .char (UInt16.ofInt i))
    · exact .after (takes_byte 83) (ElementValue.takesIf_narrow hget 'S' _ _ fun i =>
        .short (Int16.ofInt i))

namespace ElementForm

def switchPool : ConstantPool :=
  ⟨#[none, some (.utf8 [76, 65, 59]), some (.utf8 [118]), some (.integer 7),
    some (.utf8 [76, 69, 59]), some (.utf8 [79, 78])]⟩

def switch : AnnotationForm where
  type := ⟨1, ⟨['A'], by decide, by decide⟩⟩
  members :=
    [(⟨2, "v"⟩, array [plain ⟨3, .byte 7⟩,
      enumConstant ⟨4, ⟨['E'], by decide, by decide⟩⟩ ⟨5, "ON"⟩])]

theorem wellFormed_switch (levels : Nat) : switch.WellFormed switchPool (levels + 2) where
  type := ⟨_, rfl, .string (by decide)⟩
  fits := by decide
  members := by
    refine List.forall_mem_singleton.2 ⟨⟨_, rfl, .string (by decide)⟩, by decide, ?_⟩
    refine List.forall_mem_cons.2 ⟨⟨_, rfl, .byte (by decide)⟩, List.forall_mem_singleton.2 ?_⟩
    exact ⟨⟨_, rfl, .string (by decide)⟩, ⟨_, rfl, .string (by decide)⟩⟩

theorem wellFormed_nested_switch (levels : Nat) :
    (nested switch.type switch.members).WellFormed switchPool (levels + 3) :=
  have h := wellFormed_switch levels
  ⟨h.type, h.fits, h.members⟩

def tower : Nat → ElementForm
  | 0 => plain ⟨0, .boolean true⟩
  | n + 1 => array [tower n]

theorem wellFormed_tower (pool : ConstantPool) (n : Nat) : (tower n).WellFormed pool n := by
  induction n with
  | zero => exact trivial
  | succ n ih => exact ⟨(by decide : 1 < UInt16.size), List.forall_mem_singleton.2 ih⟩

theorem liesAt_tower (visible : Bool) (top n : Nat) :
    Value.LiesAt top ((tower n).value visible) (top + n) := by
  induction n generalizing top with
  | zero => exact .here _ _
  | succ n ih =>
    have hinner := ih (top + 1)
    rw [Nat.succ_add_eq_add_succ] at hinner
    exact .element (List.mem_singleton.2 rfl) hinner

end ElementForm

theorem element_values_read_back_switch :
    (Annotations.readOne ElementForm.switchPool false).Takes
        [0, 1, 0, 1, 0, 2, 91, 0, 2, 66, 0, 3, 101, 0, 4, 0, 5]
        ⟨"A", false, none, [("v", .array [.byte 7, .enumConstant "E" "ON"])]⟩
      ∧ (ElementValue.readDefault ElementForm.switchPool).Takes
        [64, 0, 1, 0, 1, 0, 2, 91, 0, 2, 66, 0, 3, 101, 0, 4, 0, 5]
        (.nested "A" true [("v", .array [.byte 7, .enumConstant "E" "ON"])])
      ∧ (ElementValue.readDefault ElementForm.switchPool).Refuses (ElementForm.tower 128).bytes
        (.nestingTooDeep .elementValue)
      ∧ (ElementValue.readDefault ElementForm.switchPool).Takes [66, 0, 3] (.byte 7) := by
  obtain ⟨hvalue, hannotation, hnarrow⟩ := element_values_read_back
  refine ⟨?_, ?_, ?_, ?_⟩
  · have h := hannotation _ false _ (ElementForm.wellFormed_switch 125)
    refine h.takes (List.forall_mem_singleton.2 ?_)
    exact (Value.depth_le_iff_liesAt _ 1 127).1 (by decide)
  · have h := hvalue _ true _ (ElementForm.wellFormed_nested_switch 125)
    exact h.takes ((Value.depth_le_iff_liesAt _ 0 128).1 (by decide))
  · have h := hvalue _ true _ (ElementForm.wellFormed_tower ElementForm.switchPool 128)
    have hdeep := ElementForm.liesAt_tower true 0 128
    exact h.refuses fun hshallow => Nat.lt_irrefl 128 (hshallow 128 hdeep)
  · exact (hnarrow _ true 127 3 7 rfl).1.takes (by decide)

end ClassFile

end ClassCatalog
