import ClassCatalog.Proofs.ClassFile.SignatureBytes

/-! The walks over the bytes of signatures and descriptors come to an end, between two characters
and behind where they began. -/

namespace ClassCatalog.ClassFile

variable {α : Type} {text : String}

namespace ByteParser

theorem run_eat_bind_of_head {c : Char} {cs : List Char} {pos : Nat} (hc : c.toNat < 128)
    (hs : Stands text (c :: cs) pos) (k : Bool → ByteParser α) :
    ((eat text c >>= k).run pos).run = ((k true).run (pos + 1)).run := by
  rw [eat_bind, run_peek_bind hs, List.head?_cons,
    if_pos ((map_firstByte_eq_iff hc).2 rfl)]
  exact run_bind_of_value (run_skip pos)

theorem run_eat_bind_of_ne {c : Char} {cs : List Char} {pos : Nat} (hc : c.toNat < 128)
    (hs : Stands text cs pos) (hne : cs.head? ≠ some c) (k : Bool → ByteParser α) :
    ((eat text c >>= k).run pos).run = ((k false).run pos).run := by
  rw [eat_bind, run_peek_bind hs, if_neg (mt (map_firstByte_eq_iff hc).1 hne)]

theorem run_bracketsFrom {n count pos : Nat} {rest : List Char} (e : DecodeError)
    (hs : Stands text (List.replicate n '[' ++ rest) pos) (hrest : rest.head? ≠ some '[')
    (hcount : count ≤ 255) :
    ((bracketsFrom text (fun _ => e) count).run pos).run
      = .some (if count + n ≤ 255 then .ok (count + n, pos + n) else .error (.fault e)) := by
  rw [bracketsFrom_eq]
  induction n generalizing count pos with
  | zero =>
    rw [run_eat_bind_of_ne (by decide) hs hrest]
    exact congrArg Part.some (if_pos hcount).symm
  | succ n ih =>
    have hnext : Stands text (List.replicate n '[' ++ rest) (pos + 1) := hs.next (by decide)
    rw [run_eat_bind_of_head (by decide) hs, if_pos rfl]
    by_cases hlt : count < 255
    · rw [if_pos hlt, bracketsFrom_eq, ih hnext (show count + 1 ≤ 255 from hlt), Nat.add_assoc,
        Nat.add_assoc, Nat.add_comm 1 n]
    · rw [if_neg hlt, run_refuse, if_neg (by omega)]

end ByteParser

namespace Descriptor

/-- From a position the walk gives what was read in front of the characters that are left, and
stands where they begin; where nothing was read it refuses the text. -/
def ComesTo (text : String) (p : ByteParser α) (pos : Nat) : Option (α × List Char) → Prop
  | some (a, rest) =>
    ∃ stop, (p.run pos).run = .some (.ok (a, stop)) ∧ pos < stop ∧ Stands text rest stop
  | none => (p.run pos).run = .some (.error (.fault (.invalidDescriptor text)))

theorem baseType_of_ne {c : Char} (h : c ≠ 'L') (cs : List Char) :
    baseType (c :: cs) = (Primitive.ofLetter? c).map fun p => (.primitive p, cs) := by
  unfold baseType
  split
  · next heq => exact absurd (List.cons.inj heq).1 h
  · next heq =>
    cases heq
    rfl
  · next heq => cases heq

theorem run_bump_nil {pos : Nat} (hs : Stands text [] pos) :
    ((Bytewise.bump text).run pos).run = .some (.ok (none, pos)) :=
  ByteParser.run_peek_bind hs _

theorem run_bump_cons {c : Char} {cs : List Char} {pos : Nat} (hs : Stands text (c :: cs) pos) :
    ((Bytewise.bump text).run pos).run = .some (.ok (some (firstByte c), pos + 1)) :=
  (ByteParser.run_peek_bind hs _).trans (ByteParser.run_bind_of_value (ByteParser.run_skip pos))

theorem run_className {name rest : List Char} {pos : Nat} (hs : Stands text (name ++ rest) pos)
    (hname : ∀ c ∈ name, c ∉ [';']) (hrest : ∀ c ∈ rest.head?, c ∈ [';']) :
    ((Bytewise.className text).run pos).run
      = .some (if rest = [] then .error (.fault (.invalidDescriptor text))
        else if name = [] then .error (.fault (.invalidDescriptor text))
        else .ok (String.ofList name, pos + (encode name).length + 1)) := by
  have hrestText : ((Bytewise.restText text).run pos).run
      = .some (.ok (encode (name ++ rest), pos)) := by
    rw [Bytewise.restText, ByteParser.run_bind_of_value (ByteParser.run_get pos),
      if_pos hs.isBoundary, hs.drop_utf8]
    rfl
  have hfind := findIdx?_encode (by simp) hname hrest
  rw [Bytewise.className, ByteParser.run_bind_of_value (ByteParser.run_get pos),
    ByteParser.run_bind_of_value hrestText, hfind]
  by_cases hnil : rest = []
  · simp only [hnil, if_true]
    exact ByteParser.run_refuse _ pos
  simp only [hnil, if_false]
  by_cases hempty : name = []
  · simp only [hempty, if_true]
    exact ByteParser.run_refuse _ pos
  · have hslice := ByteParser.run_slice hs (pos + (encode name).length + 1)
    rw [if_neg hempty]
    obtain ⟨k, hk⟩ := Nat.exists_eq_add_one.2 (length_encode_pos hempty)
    rw [hk] at hslice ⊢
    exact (ByteParser.run_bind_of_value (ByteParser.run_set pos _)).trans hslice

theorem baseType_class {name rest : List Char} (hname : ∀ c ∈ name, c ∉ [';'])
    (hrest : ∀ c ∈ rest.head?, c ∈ [';']) :
    baseType ('L' :: (name ++ rest))
      = if rest = [] then none else if name = [] then none
        else some (.named (binaryName (String.ofList name)), rest.tail) := by
  obtain ⟨htake, hdrop⟩ : (name ++ rest).takeWhile (· != ';') = name
      ∧ (name ++ rest).dropWhile (· != ';') = rest :=
    Text.cut_append (by simpa using hname) (by simpa using hrest)
  rw [baseType, htake, hdrop]
  cases rest with
  | nil => cases name <;> rfl
  | cons c rest =>
    obtain rfl := List.mem_singleton.1 (hrest c rfl)
    cases name <;> rfl

theorem comesTo_class {cs : List Char} {pos : Nat} (hs : Stands text ('L' :: cs) pos) :
    ComesTo text (Bytewise.baseType text) pos (baseType ('L' :: cs)) := by
  obtain ⟨name, rest, rfl, hname, hrest⟩ := Signature.exists_cut [';'] cs
  have hletter : firstByte 'L' = ascii 'L' := (firstByte_eq_ascii_iff (by decide)).2 rfl
  have hnext : Stands text (name ++ rest) (pos + 1) := hs.next (by decide)
  have hrun := run_className hnext hname hrest
  have hwalk : ((Bytewise.baseType text).run pos).run
      = ((do return .named (binaryName (← Bytewise.className text)) : ByteParser (Ty String)).run
        (pos + 1)).run := by
    refine (ByteParser.run_bind_of_value (run_bump_cons hs)).trans ?_
    simp only [hletter, if_true]
  rw [baseType_class hname hrest]
  by_cases hnil : rest = []
  · rw [if_pos hnil] at hrun ⊢
    exact hwalk.trans (ByteParser.run_bind_of_stop hrun)
  by_cases hempty : name = []
  · rw [if_neg hnil, if_pos hempty] at hrun ⊢
    exact hwalk.trans (ByteParser.run_bind_of_stop hrun)
  rw [if_neg hnil, if_neg hempty] at hrun ⊢
  obtain ⟨d, tail, rfl⟩ := List.exists_cons_of_ne_nil hnil
  obtain rfl := List.mem_singleton.1 (hrest d rfl)
  exact ⟨_, hwalk.trans (ByteParser.run_bind_of_value hrun), by omega,
    (hnext.step rfl).next (by decide)⟩

theorem comesTo_primitive {c : Char} (hc : c ≠ 'L') {cs : List Char} {pos : Nat}
    (hs : Stands text (c :: cs) pos) :
    ComesTo text (Bytewise.baseType text) pos (baseType (c :: cs)) := by
  have hletter : firstByte c ≠ ascii 'L' := mt (firstByte_eq_ascii_iff (by decide)).1 hc
  have hwalk : ((Bytewise.baseType text).run pos).run
      = ((Bytewise.primitive text (firstByte c)).run (pos + 1)).run := by
    refine (ByteParser.run_bind_of_value (run_bump_cons hs)).trans ?_
    simp only [hletter, if_false]
  rw [Bytewise.primitive, ofLetter?_firstByte] at hwalk
  rw [baseType_of_ne hc]
  cases hread : Primitive.ofLetter? c with
  | none =>
    rw [hread] at hwalk
    exact hwalk.trans (ByteParser.run_refuse _ _)
  | some p =>
    rw [hread] at hwalk
    obtain rfl := letter_of_ofLetter? hread
    exact ⟨pos + 1, hwalk, Nat.lt_succ_self pos, hs.next (by cases p <;> decide)⟩

theorem comesTo_baseType {cs : List Char} {pos : Nat} (hs : Stands text cs pos) :
    ComesTo text (Bytewise.baseType text) pos (baseType cs) := by
  cases cs with
  | nil =>
    exact (ByteParser.run_bind_of_value (run_bump_nil hs)).trans (ByteParser.run_refuse _ pos)
  | cons c cs =>
    by_cases hc : c = 'L'
    · subst hc
      exact comesTo_class hs
    · exact comesTo_primitive hc hs

theorem exists_brackets (cs : List Char) :
    ∃ n rest, cs = List.replicate n '[' ++ rest ∧ rest.head? ≠ some '[' := by
  refine ⟨(cs.takeWhile (· == '[')).length, cs.dropWhile (· == '['), ?_, ?_⟩
  · rw [← takeWhile_bracket, List.takeWhile_append_dropWhile]
  · intro h
    have hhead := List.head?_dropWhile_not (· == '[') cs
    rw [h] at hhead
    simp at hhead

theorem fieldType_brackets (n : Nat) {rest : List Char} (hrest : rest.head? ≠ some '[') :
    fieldType (List.replicate n '[' ++ rest)
      = if 255 < n then none
        else do
          let (base, tail) ← baseType rest
          return (if n = 0 then base else base.arrayOf (UInt8.ofNat n), tail) := by
  obtain ⟨htake, hdrop⟩ := cut_replicate n hrest
  rw [fieldType, htake, hdrop, List.length_replicate]

theorem stands_behind_brackets {n pos : Nat} {rest : List Char}
    (hs : Stands text (List.replicate n '[' ++ rest) pos) : Stands text rest (pos + n) := by
  induction n generalizing pos with
  | zero => exact hs
  | succ n ih =>
    have hmore := ih (hs.next (by decide))
    rwa [Nat.add_assoc, Nat.add_comm 1 n] at hmore

theorem comesTo_fieldType {cs : List Char} {pos : Nat} (hs : Stands text cs pos) :
    ComesTo text (Bytewise.fieldType text) pos (fieldType cs) := by
  obtain ⟨n, rest, rfl, hrest⟩ := exists_brackets cs
  have hcount := ByteParser.run_bracketsFrom (.invalidDescriptor text) hs hrest (Nat.zero_le 255)
  rw [Nat.zero_add] at hcount
  rw [fieldType_brackets n hrest]
  by_cases hmost : n ≤ 255
  · rw [if_pos hmost] at hcount
    rw [if_neg (Nat.not_lt.2 hmost)]
    have hwalk := (ByteParser.run_bind_of_value hcount :
      ((Bytewise.fieldType text).run pos).run = _)
    have hbase := comesTo_baseType (stands_behind_brackets hs)
    cases hread : baseType rest with
    | none =>
      rw [hread] at hbase
      exact hwalk.trans (ByteParser.run_bind_of_stop hbase)
    | some r =>
      rw [hread] at hbase
      obtain ⟨stop, hrun, hlt, hstop⟩ := hbase
      exact ⟨stop, hwalk.trans (ByteParser.run_bind_of_value hrun), by omega, hstop⟩
  · rw [if_neg hmost] at hcount
    rw [if_pos (Nat.lt_of_not_le hmost)]
    exact ByteParser.run_bind_of_stop hcount

end Descriptor

/-- From every position between two characters the walk comes to an end: with a result, forward at
such a position that is not behind the end of the text, or because it refuses the text. -/
def Proceeds (text : String) (p : ByteParser α) : Prop :=
  ∀ pos, IsBoundary text pos →
    (∃ a stop, (p.run pos).run = .some (.ok (a, stop)) ∧ pos < stop
      ∧ stop ≤ (utf8 text).length ∧ IsBoundary text stop)
    ∨ ∃ e, (p.run pos).run = .some (.error (.fault e))

theorem proceeds_of_tracks {β : Type} {f : β → α} {p : ByteParser α} {q : Signature.Parser β}
    (h : Signature.Tracks text 1 f p q) : Proceeds text p := by
  intro pos hpos
  obtain ⟨cs, hstands⟩ := isBoundary_iff_stands.1 hpos
  have hs : (⟨cs, pos⟩ : Signature.Scan).In text := hstands
  obtain ⟨hrun, htakes⟩ := h ⟨cs, pos⟩ hs
  cases hq : q.run ⟨cs, pos⟩ with
  | error e =>
    rw [hq] at hrun
    exact .inr ⟨_, hrun⟩
  | ok r =>
    obtain ⟨a, u⟩ := r
    rw [hq] at hrun
    have htaken := htakes a u hq
    have hu : Stands text u.rest u.offset := hs.taken htaken
    exact .inl ⟨f a, u.offset, hrun, htaken.lt_offset, hu.le_length, hu.isBoundary⟩

theorem proceeds_fieldType : Proceeds text (Descriptor.Bytewise.fieldType text) := by
  intro pos hpos
  obtain ⟨cs, hs⟩ := isBoundary_iff_stands.1 hpos
  have hread := Descriptor.comesTo_fieldType hs
  cases hfield : Descriptor.fieldType cs with
  | none =>
    rw [hfield] at hread
    exact .inr ⟨_, hread⟩
  | some r =>
    rw [hfield] at hread
    obtain ⟨stop, hrun, hlt, hstop⟩ := hread
    exact .inl ⟨r.1, stop, hrun, hlt, hstop.le_length, hstop.isBoundary⟩

section

open Signature

/-- The walks go forward from boundary to boundary, they come to what the parsers come to, and no
whole signature makes them leave the text or cut a character. -/
theorem parsing_keeps_boundaries (text : String) (scope : List String) (levels : Nat) :
    (Proceeds text (Bytewise.typeParameter text (Bytewise.referenceType text scope levels))
      ∧ Proceeds text (Bytewise.javaType text (Bytewise.referenceType text scope levels))
      ∧ Proceeds text (Bytewise.referenceType text scope levels)
      ∧ Proceeds text (Bytewise.classType text (Bytewise.referenceType text scope levels))
      ∧ Proceeds text (Bytewise.typeVariable text scope)
      ∧ Proceeds text (Descriptor.Bytewise.fieldType text))
    ∧ (Tracks text 1 (Ty.bindIn scope)
          (Bytewise.typeParameter text (Bytewise.referenceType text scope levels))
          (typeParameter (referenceType levels))
      ∧ Tracks text 1 (Ty.bindIn scope)
          (Bytewise.javaType text (Bytewise.referenceType text scope levels))
          (javaType (referenceType levels))
      ∧ Tracks text 1 (Ty.bindIn scope) (Bytewise.referenceType text scope levels)
          (referenceType levels)
      ∧ Tracks text 1 (Ty.bindIn scope)
          (Bytewise.classType text (Bytewise.referenceType text scope levels))
          (classType (referenceType levels))
      ∧ Tracks text 1 (Ty.bindIn scope) (Bytewise.typeVariable text scope) typeVariable
      ∧ ∀ cs pos, Stands text cs pos → Descriptor.ComesTo text (Descriptor.Bytewise.fieldType text)
          pos (Descriptor.fieldType cs))
    ∧ (Bytewise.parseClass text).run = .some ((parseClass text).mapError .fault)
    ∧ (Bytewise.parseMethod text scope).run = .some ((parseMethod scope text).mapError .fault)
    ∧ (Bytewise.parseField text scope).run = .some ((parseField scope text).mapError .fault) := by
  have href : Tracks text 1 (Ty.bindIn scope) _ _ := tracks_referenceType levels
  have hparameter := tracks_typeParameter href
  have hjava := tracks_javaType href
  have hclass := tracks_classType href
  have hvariable : Tracks text 1 (Ty.bindIn scope) _ _ := tracks_typeVariable
  refine ⟨⟨proceeds_of_tracks hparameter, proceeds_of_tracks hjava, proceeds_of_tracks href,
    proceeds_of_tracks hclass, proceeds_of_tracks hvariable, proceeds_fieldType⟩, ?_, ?_⟩
  · exact ⟨hparameter, hjava, href, hclass, hvariable, fun _ _ => Descriptor.comesTo_fieldType⟩
  · exact ⟨parseClass_eq, parseMethod_eq, parseField_eq⟩

theorem parsing_keeps_boundaries_behindLetter :
    IsBoundary "é[I" 2 ∧ Stands "é[I" ['[', 'I'] 2
      ∧ ∃ stop, ((Descriptor.Bytewise.fieldType "é[I").run 2).run
          = .some (.ok (.array 1 (.primitive .int), stop))
        ∧ 2 < stop ∧ Stands "é[I" [] stop := by
  have hs : Stands "é[I" ['[', 'I'] 2 := ⟨['é'], by decide, by decide⟩
  obtain ⟨-, ⟨-, -, -, -, -, hfield⟩, -⟩ := parsing_keeps_boundaries "é[I" [] 0
  exact ⟨hs.isBoundary, hs, hfield _ _ hs⟩

end

end ClassCatalog.ClassFile
