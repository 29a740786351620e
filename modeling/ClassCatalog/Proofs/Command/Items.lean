import ClassCatalog.Command.Arguments

/-! The items that the arguments of `index` are made of, each one argument or two. No other items
have the same arguments. -/

namespace ClassCatalog.Command

def Setting.flag : Setting → String
  | output => "--output"
  | formatVersion => "--format-version"
  | threads => "--threads"

/-- What an argument says, or two of them together. -/
inductive Item where
  | input (path : String)
  | noInvisible (value : Option String)
  | short (value : String)
  | apart (setting : Setting) (value : String)
  | joined (setting : Setting) (value : String)

namespace Item

def words : Item → List String
  | input path => [path]
  | noInvisible none => ["--no-invisible"]
  | noInvisible (some value) => ["--no-invisible" ++ "=" ++ value]
  | short value => ["-o", value]
  | apart setting value => [setting.flag, value]
  | joined setting value => [setting.flag ++ "=" ++ value]

/-- A path does not look like an option. -/
def Valid : Item → Prop
  | input path => startsWithDash path = false ∨ path = "-"
  | _ => True

/-- The flag without a value stands alone. -/
def Documented : Item → Prop
  | noInvisible value => value = none
  | _ => True

def head : Item → String × Option String
  | input path => (path, none)
  | noInvisible value => ("--no-invisible", value)
  | short _ => ("-o", none)
  | apart setting _ => (setting.flag, none)
  | joined setting value => (setting.flag, some value)

end Item

theorem splitFlag_joined {flag : String} (hdash : ['-', '-'] <+: flag.toList)
    (hplain : '=' ∉ flag.toList) (value : String) :
    splitFlag (flag ++ "=" ++ value) = (flag, some value) := by
  obtain ⟨name, hname⟩ := hdash
  have hlist : (flag ++ "=" ++ value).toList = '-' :: '-' :: (name ++ '=' :: value.toList) := by
    simp [← hname]
  have hcut : Text.splitFirst '=' (flag ++ "=" ++ value).toList
      = some (flag.toList, value.toList) := by
    have hsplit := Text.splitFirst_append_cons hplain value.toList
    simpa using hsplit
  rw [splitFlag, hcut, hlist]
  simp only [String.ofList_toList]

theorem splitFlag_cases (argument : String) :
    splitFlag argument = (argument, none)
      ∨ ∃ flag value, splitFlag argument = (flag, some value)
        ∧ argument = flag ++ "=" ++ value := by
  unfold splitFlag
  split
  · split
    · next flag value hcut =>
      refine .inr ⟨_, _, rfl, ?_⟩
      apply String.toList_inj.1
      rw [Text.splitFirst_eq_some hcut]
      simp
    · exact .inl rfl
  · exact .inl rfl

theorem eq_of_splitFlag_none {argument flag : String} (h : splitFlag argument = (flag, none)) :
    flag = argument := by
  rcases splitFlag_cases argument with hnone | ⟨_, _, hsome, _⟩
  · exact (Prod.mk.inj (h.symm.trans hnone)).1
  · cases h.symm.trans hsome

theorem eq_of_splitFlag_some {argument flag value : String}
    (h : splitFlag argument = (flag, some value)) : argument = flag ++ "=" ++ value := by
  rcases splitFlag_cases argument with hnone | ⟨_, _, hsome, hargument⟩
  · cases h.symm.trans hnone
  · obtain ⟨rfl, hvalue⟩ := Prod.mk.inj (h.symm.trans hsome)
    cases hvalue
    exact hargument

theorem Setting.splitFlag_flag (setting : Setting) :
    splitFlag setting.flag = (setting.flag, none) := by
  cases setting <;> decide

theorem Setting.splitFlag_joined (setting : Setting) (value : String) :
    splitFlag (setting.flag ++ "=" ++ value) = (setting.flag, some value) := by
  cases setting <;> exact Command.splitFlag_joined (by decide) (by decide) value

theorem splitFlag_alone : splitFlag "--no-invisible" = ("--no-invisible", none) := by decide

theorem splitFlag_short : splitFlag "-o" = ("-o", none) := by decide

theorem splitFlag_noInvisible (value : String) :
    splitFlag ("--no-invisible" ++ "=" ++ value) = ("--no-invisible", some value) :=
  splitFlag_joined (by decide) (by decide) value

theorem Setting.ofFlag?_flag (setting : Setting) : ofFlag? setting.flag = some setting := by
  cases setting <;> rfl

theorem Setting.eq_of_ofFlag? {flag : String} {setting : Setting}
    (h : ofFlag? flag = some setting) :
    flag = "-o" ∧ setting = .output ∨ flag = setting.flag := by
  unfold ofFlag? at h
  split at h
  · cases h
    exact .inl ⟨rfl, rfl⟩
  all_goals
    cases h
    try exact .inr rfl

theorem ofFlag?_eq_none {flag : String} (h : ∀ setting : Setting, flag ≠ setting.flag)
    (ho : flag ≠ "-o") : Setting.ofFlag? flag = none := by
  cases hflag : Setting.ofFlag? flag with
  | none => rfl
  | some setting =>
    rcases Setting.eq_of_ofFlag? hflag with ⟨rfl, _⟩ | hlong
    · exact absurd rfl ho
    · exact absurd hlong (h setting)

theorem splitFlag_of_not_dash {argument : String}
    (h : startsWithDash argument = false ∨ argument = "-") :
    splitFlag argument = (argument, none) := by
  rcases h with h | rfl
  · unfold splitFlag
    split
    · next rest hlist => simp [startsWithDash, hlist] at h
    · rfl
  · decide

namespace Item

theorem splitFlag_head {item : Item} (h : item.Valid) :
    ∃ first rest, item.words = first :: rest ∧ splitFlag first = item.head := by
  cases item with
  | input path => exact ⟨path, [], rfl, splitFlag_of_not_dash h⟩
  | noInvisible value =>
    cases value with
    | none => exact ⟨_, [], rfl, splitFlag_alone⟩
    | some value => exact ⟨_, [], rfl, splitFlag_noInvisible value⟩
  | short value => exact ⟨_, [value], rfl, splitFlag_short⟩
  | apart setting value => exact ⟨_, [value], rfl, setting.splitFlag_flag⟩
  | joined setting value => exact ⟨_, [], rfl, setting.splitFlag_joined value⟩

end Item

theorem Setting.flag_ne (setting : Setting) :
    setting.flag ≠ "-o" ∧ setting.flag ≠ "--no-invisible" := by
  cases setting <;> decide

theorem Setting.flag_injective {setting other : Setting} (h : setting.flag = other.flag) :
    setting = other := by
  have hsome := setting.ofFlag?_flag
  rw [h, other.ofFlag?_flag] at hsome
  exact (Option.some.inj hsome).symm

theorem dash_of_valid {path : String} (h : startsWithDash path = false ∨ path = "-") :
    path ≠ "-o" ∧ path ≠ "--no-invisible" ∧ ∀ setting : Setting, path ≠ setting.flag := by
  refine ⟨?_, ?_, fun setting => ?_⟩
  · rintro rfl
    revert h
    decide
  · rintro rfl
    revert h
    decide
  · rintro rfl
    revert h
    cases setting <;> decide

namespace Item

theorem cases_of_head_eq {item other : Item} (hitem : item.Valid) (hother : other.Valid)
    (h : item.head = other.head) :
    item = other ∨ (∃ v w, item = .short v ∧ other = .short w)
      ∨ ∃ setting v w, item = .apart setting v ∧ other = .apart setting w := by
  cases item <;> cases other <;> simp only [head, Prod.mk.injEq] at h <;>
    grind [Valid, dash_of_valid, Setting.flag_ne, Setting.flag_injective]

theorem eq_of_words_append {item other : Item} (hitem : item.Valid) (hother : other.Valid)
    {back more : List String} (h : item.words ++ back = other.words ++ more) :
    item = other ∧ back = more := by
  obtain ⟨first, rest, hwords, hhead⟩ := item.splitFlag_head hitem
  obtain ⟨first', rest', hwords', hhead'⟩ := other.splitFlag_head hother
  have hfirst : first = first' := by
    rw [hwords, hwords'] at h
    exact (List.cons.inj h).1
  have hheads : item.head = other.head := by rw [← hhead, ← hhead', hfirst]
  rcases cases_of_head_eq hitem hother hheads with
    rfl | ⟨v, w, rfl, rfl⟩ | ⟨setting, v, w, rfl, rfl⟩
  · exact ⟨rfl, List.append_cancel_left h⟩
  · cases h
    exact ⟨rfl, rfl⟩
  · have htail := (List.cons.inj h).2
    cases htail
    exact ⟨rfl, rfl⟩

theorem words_ne_nil (item : Item) : item.words ≠ [] := by
  rcases item with _ | (_ | _) | _ | _ | _ <;> exact List.cons_ne_nil _ _

theorem exists_of_words_append {items front : List Item} (hitems : ∀ item ∈ items, item.Valid)
    (hfront : ∀ item ∈ front, item.Valid) {rest : List String}
    (h : items.flatMap words = front.flatMap words ++ rest) :
    ∃ others, items = front ++ others ∧ rest = others.flatMap words := by
  induction front generalizing items with
  | nil => exact ⟨items, rfl, h.symm⟩
  | cons first front ih =>
    cases items with
    | nil =>
      have hnil := (List.append_eq_nil_iff.1 h.symm).1
      exact absurd (List.append_eq_nil_iff.1 hnil).1 first.words_ne_nil
    | cons item items =>
      obtain ⟨hitem, hrest⟩ := List.forall_mem_cons.1 hitems
      obtain ⟨hfirst, hmore⟩ := List.forall_mem_cons.1 hfront
      rw [List.flatMap_cons, List.flatMap_cons, List.append_assoc] at h
      obtain ⟨rfl, hback⟩ := eq_of_words_append hitem hfirst h
      obtain ⟨others, rfl, hothers⟩ := ih hrest hmore hback
      exact ⟨others, rfl, hothers⟩

theorem words_injective {items others : List Item} (hitems : ∀ item ∈ items, item.Valid)
    (hothers : ∀ item ∈ others, item.Valid)
    (h : items.flatMap words = others.flatMap words) : items = others := by
  have hend : items.flatMap words = others.flatMap words ++ [] := by rw [h, List.append_nil]
  obtain ⟨rest, rfl, hnil⟩ := exists_of_words_append hitems hothers hend
  cases rest with
  | nil => exact List.append_nil others
  | cons item rest => exact absurd (List.append_eq_nil_iff.1 hnil.symm).1 item.words_ne_nil

end Item

end ClassCatalog.Command
