/-! Cutting a text at the first or last occurrence of a character. -/

namespace ClassCatalog.Text

def splitLast (c : Char) : List Char → Option (List Char × List Char)
  | [] => none
  | x :: xs =>
    match splitLast c xs with
    | some (before, after) => some (x :: before, after)
    | none => if x = c then some ([], xs) else none

def splitFirst (c : Char) : List Char → Option (List Char × List Char)
  | [] => none
  | x :: xs =>
    if x = c then some ([], xs)
    else (splitFirst c xs).map fun (before, after) => (x :: before, after)

def afterLast (c : Char) (text : String) : String :=
  match splitLast c text.toList with
  | some (_, after) => String.ofList after
  | none => text

def beforeLast? (c : Char) (text : String) : Option String :=
  (splitLast c text.toList).map fun (before, _) => String.ofList before

def replace (c d : Char) (text : String) : String :=
  String.ofList (text.toList.map fun x => if x = c then d else x)

theorem splitLast_eq_none_iff {c : Char} {cs : List Char} : splitLast c cs = none ↔ c ∉ cs := by
  induction cs with
  | nil => simp [splitLast]
  | cons x xs ih =>
    rw [splitLast]
    split
    · next b a hxs =>
      have hmem : c ∈ xs := by simpa [hxs] using ih
      simp [hmem]
    · next hxs =>
      have hmem : c ∉ xs := ih.1 hxs
      split
      · next hx => simp [hx]
      · next hx => simpa [hmem] using fun h => hx h.symm

theorem splitLast_eq_some {c : Char} {cs before after : List Char}
    (h : splitLast c cs = some (before, after)) : cs = before ++ c :: after ∧ c ∉ after := by
  induction cs generalizing before with
  | nil => cases h
  | cons x xs ih =>
    rw [splitLast] at h
    split at h
    · next b a hxs =>
      cases h
      obtain ⟨rfl, ha⟩ := ih hxs
      exact ⟨rfl, ha⟩
    · next hxs =>
      split at h
      · next hx =>
        cases h
        exact ⟨by rw [hx, List.nil_append], splitLast_eq_none_iff.1 hxs⟩
      · cases h

theorem splitFirst_append_cons {c : Char} {front : List Char} (h : c ∉ front) (back : List Char) :
    splitFirst c (front ++ c :: back) = some (front, back) := by
  induction front with
  | nil => exact if_pos rfl
  | cons x front ih =>
    obtain ⟨hx, hfront⟩ := not_or.1 (mt List.mem_cons.2 h)
    rw [List.cons_append, splitFirst, if_neg (Ne.symm hx), ih hfront, Option.map_some]

theorem splitFirst_eq_some {c : Char} {cs before after : List Char}
    (h : splitFirst c cs = some (before, after)) : cs = before ++ c :: after := by
  induction cs generalizing before with
  | nil => cases h
  | cons x xs ih =>
    rw [splitFirst] at h
    split at h
    · next hx =>
      cases h
      rw [hx, List.nil_append]
    · obtain ⟨⟨front, back⟩, hcut, heq⟩ := Option.map_eq_some_iff.1 h
      cases heq
      rw [List.cons_append, ← ih hcut]

theorem splitLast_append_cons (c : Char) (front back : List Char) :
    splitLast c (front ++ c :: back) =
      some ((splitLast c back).elim (front, back) fun (b, a) => (front ++ c :: b, a)) := by
  induction front with
  | nil =>
    rw [List.nil_append, splitLast]
    cases splitLast c back with
    | none => simp
    | some cut => rfl
  | cons x front ih =>
    rw [List.cons_append, splitLast, ih]
    cases splitLast c back with
    | none => rfl
    | some cut => rfl

theorem afterLast_append_cons (c : Char) (front back : List Char) :
    afterLast c (String.ofList (front ++ c :: back)) = afterLast c (String.ofList back) := by
  rw [afterLast, afterLast, String.toList_ofList, String.toList_ofList, splitLast_append_cons]
  cases splitLast c back with
  | none => rfl
  | some cut => rfl

theorem afterLast_eq_self {c : Char} {text : String} (h : c ∉ text.toList) :
    afterLast c text = text := by
  rw [afterLast, splitLast_eq_none_iff.2 h]

theorem length_afterLast_lt {c : Char} {text : String} (h : c ∈ text.toList) :
    (afterLast c text).length < text.length := by
  rw [afterLast]
  split
  · next before after hsplit =>
    have hlength := congrArg List.length (splitLast_eq_some hsplit).1
    simp only [String.length_toList, List.length_append, List.length_cons] at hlength
    rw [String.length_ofList]
    omega
  · next hsplit => exact absurd h (splitLast_eq_none_iff.1 hsplit)

theorem cut_append {p : Char → Bool} {front back : List Char} (hfront : ∀ c ∈ front, p c = true)
    (hback : ∀ c ∈ back.head?, p c = false) :
    (front ++ back).takeWhile p = front ∧ (front ++ back).dropWhile p = back := by
  rw [List.takeWhile_append_of_pos hfront, List.dropWhile_append_of_pos hfront]
  cases back with
  | nil => simp
  | cons c back => simp [hback c rfl]

end ClassCatalog.Text
