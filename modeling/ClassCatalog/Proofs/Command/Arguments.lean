import ClassCatalog.Proofs.Command.Inspect
import ClassCatalog.Proofs.Command.Runs

/-! Which arguments the commands accept, and what the accepted ones mean. -/

namespace ClassCatalog.Command

/-- The arguments of `index` are accepted exactly if they are items with readable values and a
path among them; the division into items is unique, the paths keep their order, and of each
setting the last value counts. All items are documented ones unless the flag without a value is
given one after all. Arguments that begin no item are refused, whatever follows them, as is a flag
whose value is missing, and a long flag and its value may as well be joined. The arguments of
`inspect` are accepted exactly if one is a path and all others are the flag alone. -/
theorem arguments_are_items (arguments : List String) :
    (∀ o, IndexOptions.parse arguments = .ok o ↔ ∃ items : List Item,
        arguments = items.flatMap Item.words ∧ (∀ item ∈ items, item.Valid)
          ∧ Denotes .default items o ∧ o.inputs ≠ [])
      ∧ (∀ items others : List Item, (∀ item ∈ items, item.Valid) → (∀ item ∈ others, item.Valid) →
        arguments = items.flatMap Item.words → arguments = others.flatMap Item.words →
          items = others)
      ∧ (∀ o, IndexOptions.parse arguments = .ok o →
        ((∃ items : List Item, arguments = items.flatMap Item.words
            ∧ ∀ item ∈ items, item.Valid ∧ item.Documented)
          ↔ ¬ ∃ (front : List Item) (value : String) (back : List String),
            (∀ item ∈ front, item.Valid)
              ∧ arguments
                = front.flatMap Item.words ++ ("--no-invisible" ++ "=" ++ value) :: back))
      ∧ (∀ (items : List Item) (argument : String) (rest : List String),
        (∀ item ∈ items, item.Valid) → Foreign argument →
        arguments = items.flatMap Item.words ++ argument :: rest →
        ∃ misuse, IndexOptions.parse arguments = .error misuse
          ∧ (∀ others, IndexOptions.parse (items.flatMap Item.words ++ argument :: others)
            = .error misuse)
          ∧ ((∃ o, Denotes .default items o) → misuse = .unknownOption argument))
      ∧ (∀ (items : List Item) (argument : String),
        (∀ item ∈ items, item.Valid) → WantsValue argument →
        arguments = items.flatMap Item.words ++ [argument] →
        ∃ misuse, IndexOptions.parse arguments = .error misuse
          ∧ ((∃ o, Denotes .default items o) → misuse = .missingValue argument))
      ∧ (∀ (items : List Item) (setting : Setting) (value : String) (rest : List String),
        (∀ item ∈ items, item.Valid) →
        arguments = items.flatMap Item.words ++ setting.flag :: value :: rest →
        IndexOptions.parse arguments = IndexOptions.parse
          (items.flatMap Item.words ++ (setting.flag ++ "=" ++ value) :: rest))
      ∧ (∀ o, InspectOptions.parse arguments = .ok o ↔ ∃ front back,
        arguments = front ++ o.path :: back ∧ startsWithDash o.path = false
          ∧ (∀ a ∈ front ++ back, a = "--no-invisible")
          ∧ o.includeInvisible = (front ++ back).isEmpty) := by
  refine ⟨fun _ => IndexOptions.accepts_iff, fun items others hitems hothers h h' => ?_,
    fun _ => IndexOptions.documented_iff, ?_, ?_, ?_, fun _ => InspectOptions.accepts_iff⟩
  · exact Item.words_injective hitems hothers (h.symm.trans h')
  · rintro items argument rest hvalid hforeign rfl
    obtain ⟨misuse, hrefused, hown⟩ :=
      IndexOptions.parse_of_refused hvalid (.unknownOption argument)
    have hparse : ∀ others,
        IndexOptions.parse (items.flatMap Item.words ++ argument :: others) = .error misuse :=
      fun others => hrefused _ fun o => IndexOptions.addAll_foreign o hforeign others
    exact ⟨misuse, hparse rest, hparse, hown⟩
  · rintro items argument hvalid hwants rfl
    obtain ⟨misuse, hrefused, hown⟩ :=
      IndexOptions.parse_of_refused hvalid (.missingValue argument)
    exact ⟨misuse, hrefused _ fun o => IndexOptions.addAll_wantsValue o hwants, hown⟩
  · rintro items setting value rest hvalid rfl
    exact IndexOptions.parse_respelled hvalid setting value rest

/-- Behind a path: an option that is none, a flag without its value, and a flag whose value looks
like the next flag. -/
theorem arguments_are_items_afterPath :
    (Item.input "a").Valid
      ∧ (Foreign "-x" ∧ IndexOptions.parse ["a", "-x", "b"] = .error (.unknownOption "-x"))
      ∧ (WantsValue "-o" ∧ IndexOptions.parse ["a", "-o"] = .error (.missingValue "-o"))
      ∧ IndexOptions.parse ["a", "--output", "--threads"]
        = IndexOptions.parse ["a", "--output=--threads"] := by
  have hvalid : (Item.input "a").Valid := .inl (by decide)
  have hitems : ∀ item ∈ [Item.input "a"], item.Valid := List.forall_mem_singleton.2 hvalid
  have hdenotes : Denotes .default [Item.input "a"] ⟨["a"], "index.clsp", .current, true, 0⟩ :=
    ⟨rfl, rfl, ⟨[], .nil, rfl⟩, ⟨[], .nil, rfl⟩, by simp [IndexOptions.default]⟩
  have hsplit : splitFlag "-x" = ("-x", none) := by decide
  have hforeign : Foreign "-x" :=
    IndexOptions.foreign_of_splitFlag hsplit (by decide) (by decide) (by decide) (by decide)
  have hwants : WantsValue "-o" := .inl rfl
  obtain ⟨-, -, -, hstranger, -⟩ := arguments_are_items ["a", "-x", "b"]
  obtain ⟨-, -, -, -, hmissing, -⟩ := arguments_are_items ["a", "-o"]
  obtain ⟨-, -, -, -, -, hrespelled, -⟩ := arguments_are_items ["a", "--output", "--threads"]
  obtain ⟨_, hunknown, -, hown⟩ := hstranger [.input "a"] "-x" ["b"] hitems hforeign rfl
  obtain ⟨_, hbare, hown'⟩ := hmissing [.input "a"] "-o" hitems hwants rfl
  rw [hown ⟨_, hdenotes⟩] at hunknown
  rw [hown' ⟨_, hdenotes⟩] at hbare
  exact ⟨hvalid, ⟨hforeign, hunknown⟩, ⟨hwants, hbare⟩,
    hrespelled [.input "a"] .output "--threads" [] hitems rfl⟩

/-- The value that is given to the flag without a value is dropped, where `inspect` refuses it. -/
theorem noInvisible_with_value_accepted :
    (∃ o, IndexOptions.parse ["--no-invisible=x", "a"] = .ok o)
      ∧ (¬ ∃ items : List Item, ["--no-invisible=x", "a"] = items.flatMap Item.words
        ∧ ∀ item ∈ items, item.Valid ∧ item.Documented)
      ∧ InspectOptions.parse ["--no-invisible=x", "a"]
        = .error (.unknownOption "--no-invisible=x") := by
  have hparse : ∃ o, IndexOptions.parse ["--no-invisible=x", "a"] = .ok o :=
    ⟨⟨["a"], "index.clsp", .current, false, 0⟩, by decide⟩
  refine ⟨hparse, fun hitems => ?_, by decide⟩
  obtain ⟨o, ho⟩ := hparse
  exact (IndexOptions.documented_iff ho).1 hitems ⟨[], "x", ["a"], nofun, rfl⟩

end ClassCatalog.Command
