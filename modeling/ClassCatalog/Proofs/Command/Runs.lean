import ClassCatalog.Proofs.Command.Denotation

/-! Arguments are taken up item by item, up to the first that begins none. -/

namespace ClassCatalog.Command

def WantsValue (argument : String) : Prop :=
  argument = "-o" ∨ ∃ setting : Setting, argument = setting.flag

/-- An argument that looks like an option but begins no item. -/
structure Foreign (argument : String) : Prop where
  dash : startsWithDash argument = true
  ne_dash : argument ≠ "-"
  begins : ∀ item : Item, item.Valid → item.words.head? ≠ some argument

namespace IndexOptions

section Step

variable {argument flag : String} {setting : Setting} (o : IndexOptions)

theorem addAll_plain {value : Option String} (h : splitFlag argument = (flag, value))
    (hflag : Setting.ofFlag? flag = none) (rest : List String) :
    o.addAll (argument :: rest) = o.plain argument flag >>= fun o => o.addAll rest := by
  rw [addAll, h]
  simp only [hflag]

theorem addAll_inline {value : String} (h : splitFlag argument = (flag, some value))
    (hflag : Setting.ofFlag? flag = some setting) (rest : List String) :
    o.addAll (argument :: rest) = setting.apply o value >>= fun o => o.addAll rest := by
  rw [addAll, h]
  simp only [hflag]

theorem addAll_next (h : splitFlag argument = (flag, none))
    (hflag : Setting.ofFlag? flag = some setting) (value : String) (rest : List String) :
    o.addAll (argument :: value :: rest) = setting.apply o value >>= fun o => o.addAll rest := by
  rw [addAll, h]
  simp only [hflag]

theorem addAll_missing (h : splitFlag argument = (flag, none))
    (hflag : Setting.ofFlag? flag = some setting) :
    o.addAll [argument] = .error (.missingValue flag) := by
  rw [addAll, h]
  simp only [hflag]

end Step

theorem plain_of_valid (o : IndexOptions) {path : String}
    (h : startsWithDash path = false ∨ path = "-") :
    o.plain path path = .ok { o with inputs := o.inputs ++ [path] } := by
  have hne : path ≠ "--no-invisible" := by
    rintro rfl
    revert h
    decide
  have hdash : (startsWithDash path && decide (path ≠ "-")) = false := by
    rcases h with h | rfl
    · rw [h, Bool.false_and]
    · decide
  rw [plain, if_neg hne, hdash]
  rfl

theorem ofFlag?_of_valid {path : String} (h : startsWithDash path = false ∨ path = "-") :
    Setting.ofFlag? path = none := by
  refine ofFlag?_eq_none ?_ ?_
  · rintro setting rfl
    revert h
    cases setting <;> decide
  · rintro rfl
    revert h
    decide

theorem addAll_item {item : Item} (h : item.Valid) (o : IndexOptions) (rest : List String) :
    o.addAll (item.words ++ rest) = item.apply o >>= fun o => o.addAll rest := by
  cases item with
  | input path =>
    have hflag := ofFlag?_of_valid h
    have hstep := o.addAll_plain (splitFlag_of_not_dash h) hflag rest
    rw [plain_of_valid o h] at hstep
    exact hstep
  | noInvisible value =>
    cases value with
    | none => exact o.addAll_plain splitFlag_alone rfl rest
    | some value => exact o.addAll_plain (splitFlag_noInvisible value) rfl rest
  | short value => exact o.addAll_next splitFlag_short rfl value rest
  | apart setting value =>
    exact o.addAll_next setting.splitFlag_flag setting.ofFlag?_flag value rest
  | joined setting value =>
    exact o.addAll_inline (setting.splitFlag_joined value) setting.ofFlag?_flag rest

theorem addAll_items {items : List Item} (h : ∀ item ∈ items, item.Valid) (o : IndexOptions)
    (rest : List String) :
    o.addAll (items.flatMap Item.words ++ rest)
      = items.foldlM Item.apply o >>= fun o => o.addAll rest := by
  induction items generalizing o with
  | nil => rfl
  | cons item items ih =>
    rw [List.flatMap_cons, List.append_assoc, addAll_item (h item List.mem_cons_self),
      List.foldlM_cons, bind_assoc]
    congr 1
    funext next
    exact ih (fun i hi => h i (List.mem_cons_of_mem item hi)) next

theorem addAll_wantsValue (o : IndexOptions) {argument : String} (h : WantsValue argument) :
    o.addAll [argument] = .error (.missingValue argument) := by
  rcases h with rfl | ⟨setting, rfl⟩
  · exact o.addAll_missing splitFlag_short rfl
  · exact o.addAll_missing setting.splitFlag_flag setting.ofFlag?_flag

theorem splitFlag_ne_short {argument value : String} : splitFlag argument ≠ ("-o", some value) := by
  intro h
  obtain rfl := eq_of_splitFlag_some h
  have hlist : ("-o" ++ "=" ++ value).toList = '-' :: 'o' :: '=' :: value.toList := by simp
  rw [splitFlag, hlist] at h
  cases (Prod.mk.inj h).2

theorem foreign_of_splitFlag {argument flag : String} {value : Option String}
    (h : splitFlag argument = (flag, value)) (hflag : Setting.ofFlag? flag = none)
    (halone : flag ≠ "--no-invisible") (hdash : startsWithDash argument = true)
    (hne : argument ≠ "-") : Foreign argument := by
  refine ⟨hdash, hne, fun item hitem hbegins => ?_⟩
  obtain ⟨first, rest, hwords, hsplit⟩ := item.splitFlag_head hitem
  rw [hwords, List.head?_cons] at hbegins
  cases hbegins
  rw [h] at hsplit
  cases item with
  | input path =>
    cases hwords
    rcases hitem with hpath | rfl
    · rw [hpath] at hdash
      cases hdash
    · exact hne rfl
  | noInvisible value => exact halone (Prod.mk.inj hsplit).1
  | short value =>
    rw [(Prod.mk.inj hsplit).1] at hflag
    cases hflag
  | apart setting value | joined setting value =>
    rw [(Prod.mk.inj hsplit).1, setting.ofFlag?_flag] at hflag
    cases hflag

theorem item_or_refused (argument : String) (rest : List String) :
    (∃ (item : Item) (back : List String), argument :: rest = item.words ++ back ∧ item.Valid)
      ∨ (Foreign argument ∧ ∀ o, addAll o (argument :: rest) = .error (.unknownOption argument))
      ∨ (WantsValue argument ∧ rest = []) := by
  obtain ⟨⟨flag, value⟩, hsplit⟩ : ∃ p, splitFlag argument = p := ⟨_, rfl⟩
  cases hflag : Setting.ofFlag? flag with
  | some setting =>
    rcases Setting.eq_of_ofFlag? hflag with ⟨rfl, rfl⟩ | rfl
    · cases value with
      | some v => exact absurd hsplit splitFlag_ne_short
      | none =>
        obtain rfl := eq_of_splitFlag_none hsplit
        cases rest with
        | nil => exact .inr (.inr ⟨.inl rfl, rfl⟩)
        | cons v rest => exact .inl ⟨.short v, rest, rfl, trivial⟩
    · cases value with
      | some v => exact .inl ⟨.joined setting v, rest, by rw [eq_of_splitFlag_some hsplit]; rfl, trivial⟩
      | none =>
        obtain rfl := eq_of_splitFlag_none hsplit
        cases rest with
        | nil => exact .inr (.inr ⟨.inr ⟨setting, rfl⟩, rfl⟩)
        | cons v rest => exact .inl ⟨.apart setting v, rest, rfl, trivial⟩
  | none =>
    by_cases halone : flag = "--no-invisible"
    · subst halone
      refine .inl ⟨.noInvisible value, rest, ?_, trivial⟩
      cases value with
      | none => rw [← eq_of_splitFlag_none hsplit]; rfl
      | some v => rw [eq_of_splitFlag_some hsplit]; rfl
    by_cases hpath : startsWithDash argument = false ∨ argument = "-"
    · exact .inl ⟨.input argument, rest, rfl, hpath⟩
    obtain ⟨hdash, hne⟩ := not_or.1 hpath
    rw [Bool.not_eq_false] at hdash
    refine .inr (.inl ⟨foreign_of_splitFlag hsplit hflag halone hdash hne, fun o => ?_⟩)
    have hplain : o.plain argument flag = .error (.unknownOption argument) := by
      rw [plain, if_neg halone, hdash, if_pos (by simpa using hne)]
    rw [o.addAll_plain hsplit hflag, hplain]
    rfl

theorem addAll_foreign (o : IndexOptions) {argument : String} (h : Foreign argument)
    (rest : List String) : o.addAll (argument :: rest) = .error (.unknownOption argument) := by
  rcases item_or_refused argument rest with ⟨item, back, hwords, hvalid⟩ | ⟨_, hrun⟩ | ⟨hwants, _⟩
  · refine absurd ?_ (h.begins item hvalid)
    obtain ⟨first, others, hitem, _⟩ := item.splitFlag_head hvalid
    rw [hitem] at hwords ⊢
    cases hwords
    rfl
  · exact hrun o
  · rcases hwants with rfl | ⟨setting, rfl⟩
    · exact absurd rfl (h.begins (.short "") trivial)
    · exact absurd rfl (h.begins (.apart setting "") trivial)

/-- All arguments are items, or there are items up to an argument that is refused. -/
theorem items_or_refused (arguments : List String) :
    ∃ items : List Item, (∀ item ∈ items, item.Valid)
      ∧ (arguments = items.flatMap Item.words
        ∨ (∃ argument rest, arguments = items.flatMap Item.words ++ argument :: rest
          ∧ Foreign argument)
        ∨ ∃ argument, arguments = items.flatMap Item.words ++ [argument]
          ∧ WantsValue argument) := by
  match arguments with
  | [] => exact ⟨[], nofun, .inl rfl⟩
  | argument :: rest =>
    rcases item_or_refused argument rest with
      ⟨item, back, hwords, hvalid⟩ | ⟨hforeign, _⟩ | ⟨hwants, rfl⟩
    · have hshorter : back.length < (argument :: rest).length := by
        obtain ⟨first, others, hitem, _⟩ := item.splitFlag_head hvalid
        rw [hwords, hitem, List.length_append, List.length_cons]
        omega
      obtain ⟨items, hitems, hcases⟩ := items_or_refused back
      refine ⟨item :: items, List.forall_mem_cons.2 ⟨hvalid, hitems⟩, ?_⟩
      rw [hwords, List.flatMap_cons]
      rcases hcases with rfl | ⟨next, more, rfl, hforeign⟩ | ⟨next, rfl, hwants⟩
      · exact .inl rfl
      · exact .inr (.inl ⟨next, more, by rw [List.append_assoc], hforeign⟩)
      · exact .inr (.inr ⟨next, by rw [List.append_assoc], hwants⟩)
    · exact ⟨[], nofun, .inr (.inl ⟨argument, rest, rfl, hforeign⟩)⟩
    · exact ⟨[], nofun, .inr (.inr ⟨argument, rfl, hwants⟩)⟩
termination_by arguments.length
decreasing_by exact hshorter

theorem accepts_iff {arguments : List String} {o : IndexOptions} :
    parse arguments = .ok o ↔ ∃ items : List Item, arguments = items.flatMap Item.words
      ∧ (∀ item ∈ items, item.Valid) ∧ Denotes default items o ∧ o.inputs ≠ [] := by
  constructor
  · intro h
    obtain ⟨found, hall, h⟩ := bind_eq_ok h
    obtain ⟨items, hvalid, hcases⟩ := items_or_refused arguments
    have hinputs : found.inputs.isEmpty = false ∧ found = o := by
      cases hempty : found.inputs.isEmpty with
      | true =>
        rw [hempty] at h
        cases h
      | false =>
        rw [hempty] at h
        cases h
        exact ⟨rfl, rfl⟩
    obtain ⟨hne, rfl⟩ := hinputs
    rcases hcases with rfl | ⟨argument, rest, rfl, hforeign⟩ | ⟨argument, rfl, hwants⟩
    · have hrun := addAll_items hvalid default []
      rw [List.append_nil, hall] at hrun
      obtain ⟨next, hfold, hnext⟩ := bind_eq_ok hrun.symm
      cases hnext
      exact ⟨items, rfl, hvalid, foldlM_apply_eq_ok_iff.1 hfold, List.isEmpty_eq_false_iff.1 hne⟩
    · rw [addAll_items hvalid] at hall
      obtain ⟨next, _, hnext⟩ := bind_eq_ok hall
      rw [addAll_foreign next hforeign] at hnext
      cases hnext
    · rw [addAll_items hvalid] at hall
      obtain ⟨next, _, hnext⟩ := bind_eq_ok hall
      rw [addAll_wantsValue next hwants] at hnext
      cases hnext
  · rintro ⟨items, rfl, hvalid, hdenotes, hne⟩
    have hall : default.addAll (items.flatMap Item.words) = .ok o := by
      have hrun := addAll_items hvalid default []
      rw [List.append_nil, foldlM_apply_eq_ok_iff.2 hdenotes] at hrun
      exact hrun
    rw [parse, hall]
    show (if o.inputs.isEmpty then _ else _) = _
    rw [List.isEmpty_eq_false_iff.2 hne]
    rfl

/-- After items, arguments that are refused make a usage error, their own if the values of the
items are in order. All arguments that are refused alike make the same one. -/
theorem parse_of_refused {items : List Item} (hvalid : ∀ item ∈ items, item.Valid)
    (misuse : Misuse) :
    ∃ found, (∀ rest, (∀ o, addAll o rest = .error misuse) →
        parse (items.flatMap Item.words ++ rest) = .error found)
      ∧ ((∃ o, Denotes default items o) → found = misuse) := by
  cases hfold : items.foldlM Item.apply default with
  | error found =>
    refine ⟨found, fun rest _ => ?_, ?_⟩
    · rw [parse, addAll_items hvalid, hfold]
      rfl
    · rintro ⟨o, ho⟩
      rw [foldlM_apply_eq_ok_iff.2 ho] at hfold
      cases hfold
  | ok o =>
    refine ⟨misuse, fun rest hrest => ?_, fun _ => rfl⟩
    rw [parse, addAll_items hvalid, hfold]
    show (addAll o rest >>= _) = _
    rw [hrest]
    rfl

theorem parse_respelled {items : List Item} (hvalid : ∀ item ∈ items, item.Valid)
    (setting : Setting) (value : String) (rest : List String) :
    parse (items.flatMap Item.words ++ setting.flag :: value :: rest)
      = parse (items.flatMap Item.words ++ (setting.flag ++ "=" ++ value) :: rest) := by
  have hsame : ∀ o : IndexOptions, o.addAll (setting.flag :: value :: rest)
      = o.addAll ((setting.flag ++ "=" ++ value) :: rest) := by
    intro o
    have happart : (Item.apart setting value).Valid := trivial
    have hjoined : (Item.joined setting value).Valid := trivial
    exact (addAll_item happart o rest).trans (addAll_item hjoined o rest).symm
  rw [parse, parse, addAll_items hvalid, addAll_items hvalid]
  simp only [hsame]

theorem documented_iff {arguments : List String} {o : IndexOptions}
    (h : parse arguments = .ok o) :
    (∃ items : List Item, arguments = items.flatMap Item.words
        ∧ ∀ item ∈ items, item.Valid ∧ item.Documented)
      ↔ ¬ ∃ (front : List Item) (value : String) (back : List String),
        (∀ item ∈ front, item.Valid)
          ∧ arguments = front.flatMap Item.words ++ ("--no-invisible" ++ "=" ++ value) :: back := by
  constructor
  · rintro ⟨items, rfl, hitems⟩ ⟨front, value, back, hfront, hwords⟩
    obtain ⟨others, rfl, hothers⟩ :=
      Item.exists_of_words_append (fun item hitem => (hitems item hitem).1) hfront hwords
    cases others with
    | nil => cases hothers
    | cons item others =>
      obtain ⟨hvalid, hdocumented⟩ := hitems item (by simp)
      have hgiven : (Item.noInvisible (some value)).Valid := trivial
      obtain ⟨rfl, _⟩ := Item.eq_of_words_append hgiven hvalid hothers
      cases hdocumented
  · intro hnone
    obtain ⟨items, rfl, hvalid, _, _⟩ := accepts_iff.1 h
    refine ⟨items, rfl, fun item hitem => ⟨hvalid item hitem, ?_⟩⟩
    cases item with
    | noInvisible value =>
      cases value with
      | none => exact rfl
      | some value =>
        obtain ⟨front, back, rfl⟩ := List.append_of_mem hitem
        refine absurd ⟨front, value, back.flatMap Item.words, ?_, ?_⟩ hnone
        · exact fun other hother => hvalid other (List.mem_append_left _ hother)
        · rw [List.flatMap_append, List.flatMap_cons]
          rfl
    | input path => trivial
    | short value => trivial
    | apart setting value => trivial
    | joined setting value => trivial

end IndexOptions

end ClassCatalog.Command
