import Mathlib.Data.List.Induction
import Mathlib.Data.List.Nodup
import ClassCatalog.Index.Handles
import ClassCatalog.Index.Indexer
import ClassCatalog.Proofs.Index.ClassTable
import ClassCatalog.Proofs.NameTable

/-! Several classes are added together or not at all. A table that is changed in place is restored
by removing the names that were added, which is right because none of them was there before. -/

namespace ClassCatalog

variable {α σ τ : Type}

def AllNew (find : α → Option (ClassDecl α)) (cs : List (ClassDecl α)) : Prop :=
  (∀ c ∈ cs, find c.name = none) ∧ (cs.map (·.name)).Nodup

/-- `c` is the first class whose name is taken, from the start or by a class in front of it. -/
def FirstTaken (find : α → Option (ClassDecl α)) (cs : List (ClassDecl α)) (c : ClassDecl α) :
    Prop :=
  ∃ front back, cs = front ++ c :: back ∧ AllNew find front
    ∧ ((find c.name).isSome ∨ c.name ∈ front.map (·.name))

/-- What adding `cs` to the classes of `find` comes to: a state in which all are found, or the error
of the first class whose name is taken. -/
structure BulkOutcome [DecidableEq α] (text : α → String) (find : α → Option (ClassDecl α))
    (cs : List (ClassDecl α)) (findIn : σ → α → Option (ClassDecl α))
    (outcome : Except IndexError σ) : Prop where
  added : AllNew find cs → ∃ s, outcome = .ok s
    ∧ ∀ n, findIn s n = (cs.find? (·.name = n)).or (find n)
  refused : ∀ c, FirstTaken find cs c → outcome = .error (.duplicateClass (text c.name))
  decided : AllNew find cs ∨ ∃ c, FirstTaken find cs c

theorem allNew_or_firstTaken (find : α → Option (ClassDecl α)) (cs : List (ClassDecl α)) :
    AllNew find cs ∨ ∃ c, FirstTaken find cs c := by
  induction cs using List.reverseRecOn with
  | nil => exact .inl ⟨nofun, List.nodup_nil⟩
  | append_singleton cs c ih =>
    rcases ih with hnew | ⟨d, front, back, rfl, htaken⟩
    · by_cases htaken : (find c.name).isSome ∨ c.name ∈ cs.map (·.name)
      · exact .inr ⟨c, cs, [], rfl, hnew, htaken⟩
      · obtain ⟨hfind, hnames⟩ := not_or.1 htaken
        refine .inl ⟨?_, ?_⟩
        · intro d hd
          rcases List.mem_append.1 hd with hd | hd
          · exact hnew.1 d hd
          · rw [List.mem_singleton.1 hd]
            exact Option.not_isSome_iff_eq_none.1 hfind
        · rw [List.map_append, List.map_singleton, ← List.concat_eq_append]
          exact hnew.2.concat hnames
    · exact .inr ⟨d, front, back ++ [c], by simp, htaken⟩

structure InsertsNew [DecidableEq α] (text : α → String) (findIn : σ → α → Option (ClassDecl α))
    (insert : σ → ClassDecl α → Except IndexError σ) : Prop where
  taken : ∀ s c, (findIn s c.name).isSome → insert s c = .error (.duplicateClass (text c.name))
  fresh : ∀ s c, findIn s c.name = none → ∃ s', insert s c = .ok s'
    ∧ ∀ n, findIn s' n = if c.name = n then some c else findIn s n

namespace InsertsNew

variable [DecidableEq α] {text : α → String} {findIn : σ → α → Option (ClassDecl α)}
  {insert : σ → ClassDecl α → Except IndexError σ} (h : InsertsNew text findIn insert)

include h

theorem foldlM_of_allNew {cs : List (ClassDecl α)} {s : σ} (hnew : AllNew (findIn s) cs) :
    ∃ s', cs.foldlM insert s = .ok s'
      ∧ ∀ n, findIn s' n = (cs.find? (·.name = n)).or (findIn s n) := by
  induction cs generalizing s with
  | nil => exact ⟨s, rfl, fun n => rfl⟩
  | cons c cs ih =>
    obtain ⟨hfind, hnodup⟩ := hnew
    obtain ⟨hout, hnodup⟩ := List.nodup_cons.1 hnodup
    obtain ⟨s₁, hinsert, hfind₁⟩ := h.fresh s c (hfind c List.mem_cons_self)
    have hne : ∀ d ∈ cs, c.name ≠ d.name := fun d hd heq =>
      hout (List.mem_map.2 ⟨d, hd, heq.symm⟩)
    have hnew₁ : AllNew (findIn s₁) cs := by
      refine ⟨fun d hd => ?_, hnodup⟩
      rw [hfind₁, if_neg (hne d hd)]
      exact hfind d (List.mem_cons_of_mem c hd)
    obtain ⟨s', hall, hfind'⟩ := ih hnew₁
    refine ⟨s', ?_, fun n => ?_⟩
    · rw [List.foldlM_cons, hinsert]
      exact hall
    · rw [hfind', hfind₁, List.find?_cons]
      by_cases heq : c.name = n
      · have hnone : cs.find? (·.name = n) = none := by
          rw [List.find?_eq_none]
          intro d hd
          have hd' := hne d hd
          rw [heq] at hd'
          simpa using hd'.symm
        simp [heq, hnone]
      · simp [heq]

theorem foldlM_of_firstTaken {cs : List (ClassDecl α)} {s : σ} {c : ClassDecl α}
    (htaken : FirstTaken (findIn s) cs c) :
    cs.foldlM insert s = .error (.duplicateClass (text c.name)) := by
  obtain ⟨front, back, rfl, hnew, hc⟩ := htaken
  obtain ⟨s', hfront, hfind⟩ := h.foldlM_of_allNew hnew
  have hsome : (findIn s' c.name).isSome := by
    rw [hfind, Option.isSome_or, Bool.or_eq_true]
    refine hc.symm.imp_left fun hmem => ?_
    obtain ⟨d, hd, hname⟩ := List.mem_map.1 hmem
    exact List.find?_isSome.2 ⟨d, hd, decide_eq_true hname⟩
  have hback : (c :: back).foldlM insert s' = .error (.duplicateClass (text c.name)) := by
    rw [List.foldlM_cons, h.taken s' c hsome]
    rfl
  rw [List.foldlM_append, hfront]
  exact hback

theorem bulkOutcome (s : σ) (cs : List (ClassDecl α)) :
    BulkOutcome text (findIn s) cs findIn (cs.foldlM insert s) where
  added := h.foldlM_of_allNew
  refused _ := h.foldlM_of_firstTaken
  decided := allNew_or_firstTaken _ cs

end InsertsNew

theorem BulkOutcome.map [DecidableEq α] {text : α → String} {find : α → Option (ClassDecl α)}
    {cs : List (ClassDecl α)} {findIn : σ → α → Option (ClassDecl α)}
    {findIn' : τ → α → Option (ClassDecl α)} {outcome : Except IndexError σ}
    (h : BulkOutcome text find cs findIn outcome) {f : σ → τ}
    (hf : ∀ s, findIn' (f s) = findIn s) : BulkOutcome text find cs findIn' (outcome.map f) where
  added hnew := by
    obtain ⟨s, hs, hfind⟩ := h.added hnew
    refine ⟨f s, by rw [hs]; rfl, fun n => ?_⟩
    rw [hf, hfind]
  refused c hc := by
    rw [h.refused c hc]
    rfl
  decided := h.decided

theorem ClassTable.insertsNew : InsertsNew id ClassTable.find? ClassTable.insert where
  taken t c hsome := by
    have hcontains : t.contains c.name := by
      rw [contains, Std.TreeMap.contains_eq_isSome_getElem?]
      exact hsome
    rw [insert, if_pos hcontains]
    rfl
  fresh _ _ := insert_of_new

namespace HandleTable

theorem insertsNew (t : NameTable) :
    InsertsNew t.text (fun table => table.get?) (insertNew t) where
  taken table c hsome := by
    have hcontains : table.contains c.name := by
      rw [Std.HashMap.contains_eq_isSome_getElem?]
      exact hsome
    rw [insertNew, if_pos hcontains]
  fresh table c hnone := by
    have hnew : ¬ table.contains c.name := by
      rw [Std.HashMap.contains_eq_isSome_getElem?]
      exact Option.not_isSome_iff_eq_none.2 hnone
    refine ⟨_, if_neg hnew, fun n => ?_⟩
    show (table.insert c.name c)[n]? = _
    rw [Std.HashMap.getElem?_insert]
    simp only [beq_iff_eq]
    rfl

/-- `table` is `base` with classes under the handles `added`, none of which was taken. -/
structure Added (base : HandleTable) (added : List Name) (table : HandleTable) : Prop where
  absent : ∀ n ∈ added, base[n]? = none
  kept : ∀ n ∉ added, table[n]? = base[n]?

variable {base table : HandleTable} {added : List Name} {t : NameTable}

theorem Added.insert (h : Added base added table) {c : ClassDecl Name}
    (hnew : ¬ table.contains c.name) : Added base (c.name :: added) (table.insert c.name c) where
  absent := by
    intro n hn
    by_cases hold : n ∈ added
    · exact h.absent n hold
    · obtain rfl : n = c.name := (List.mem_cons.1 hn).resolve_right hold
      rw [← h.kept _ hold]
      exact Std.HashMap.getElem?_eq_none (by rwa [Std.HashMap.mem_iff_contains])
  kept := by
    intro n hn
    have hne : c.name ≠ n := (List.ne_of_not_mem_cons hn).symm
    rw [Std.HashMap.getElem?_insert, if_neg (by simpa using hne),
      h.kept n (List.not_mem_of_not_mem_cons hn)]

theorem getElem?_foldl_erase (added : List Name) (table : HandleTable) (n : Name) :
    (added.foldl (·.erase ·) table)[n]? = if n ∈ added then none else table[n]? := by
  induction added generalizing table with
  | nil => rfl
  | cons m added ih =>
    rw [List.foldl_cons, ih, Std.HashMap.getElem?_erase]
    by_cases hold : n ∈ added
    · simp [hold]
    · by_cases heq : m = n
      · simp [heq]
      · simp [hold, heq, Ne.symm heq]

theorem Added.equiv_of_erase (h : Added base added table) :
    (added.foldl (·.erase ·) table).Equiv base := by
  refine Std.HashMap.Equiv.of_forall_getElem?_eq fun n => ?_
  rw [getElem?_foldl_erase]
  by_cases hold : n ∈ added
  · rw [if_pos hold, h.absent n hold]
  · rw [if_neg hold, h.kept n hold]

theorem run_insertFrom_cons (t : NameTable) (added : List Name) (c : ClassDecl Name)
    (cs : List (ClassDecl Name)) (table : HandleTable) :
    (insertFrom t added (c :: cs)).run.run table
      = if table.contains c.name then
          (.error (.duplicateClass (t.text c.name)), added.foldl (·.erase ·) table)
        else (insertFrom t (c.name :: added) cs).run.run (table.insert c.name c) := by
  have hrun : (insertFrom t added (c :: cs)).run.run table
      = ((if table.contains c.name then do
            set (added.foldl (·.erase ·) table)
            throw (.duplicateClass (t.text c.name))
          else do
            set (table.insert c.name c)
            insertFrom t (c.name :: added) cs :
          ExceptT IndexError (StateM HandleTable) Unit)).run.run table := rfl
  rw [hrun]
  split
  · rfl
  · rfl

/-- Adding in place does what adding to a new table does, and a failure leaves what was there. -/
theorem Added.run_insertFrom (h : Added base added table) (cs : List (ClassDecl Name)) :
    (∃ table', cs.foldlM (insertNew t) table = .ok table'
        ∧ (insertFrom t added cs).run.run table = (.ok (), table'))
      ∨ ∃ e table', cs.foldlM (insertNew t) table = .error e
        ∧ (insertFrom t added cs).run.run table = (.error e, table') ∧ table'.Equiv base := by
  induction cs generalizing added table with
  | nil => exact .inl ⟨table, rfl, rfl⟩
  | cons c cs ih =>
    rw [run_insertFrom_cons, List.foldlM_cons, insertNew]
    by_cases hold : table.contains c.name
    · rw [if_pos hold, if_pos hold]
      exact .inr ⟨_, _, rfl, rfl, h.equiv_of_erase⟩
    · rw [if_neg hold, if_neg hold]
      exact ih (h.insert hold)

theorem run_insertAll (t : NameTable) (table : HandleTable) (cs : List (ClassDecl Name)) :
    (∃ table', cs.foldlM (insertNew t) table = .ok table'
        ∧ (insertAll t cs).run.run table = (.ok (), table'))
      ∨ ∃ e table', cs.foldlM (insertNew t) table = .error e
        ∧ (insertAll t cs).run.run table = (.error e, table') ∧ table'.Equiv table :=
  Added.run_insertFrom ⟨fun _ hn => absurd hn List.not_mem_nil, fun _ _ => rfl⟩ cs

structure AddedTogether (t : NameTable) (table : HandleTable) (cs : List (ClassDecl Name))
    (outcome : Except IndexError Unit) (table' : HandleTable) : Prop where
  result : BulkOutcome t.text table.get? cs (fun table => table.get?) (outcome.map fun _ => table')
  restored : ∀ e, outcome = .error e → table'.Equiv table

theorem AddedTogether.of_firstTaken {t : NameTable} {table table' : HandleTable}
    {cs : List (ClassDecl Name)} {outcome : Except IndexError Unit} {c : ClassDecl Name}
    (h : AddedTogether t table cs outcome table') (hc : FirstTaken table.get? cs c) :
    outcome = .error (.duplicateClass (t.text c.name)) ∧ table'.Equiv table := by
  have hrefused := h.result.refused c hc
  cases outcome with
  | ok done => cases hrefused
  | error e => exact ⟨congrArg Except.error (Except.error.inj hrefused), h.restored e rfl⟩

theorem addedTogether_insertAll (t : NameTable) (table : HandleTable)
    (cs : List (ClassDecl Name)) :
    AddedTogether t table cs ((insertAll t cs).run.run table).1
      ((insertAll t cs).run.run table).2 := by
  have hbulk := (insertsNew t).bulkOutcome table cs
  rcases run_insertAll t table cs with ⟨table', hfold, hrun⟩ | ⟨e, table', hfold, hrun, hequiv⟩
  · rw [hfold] at hbulk
    rw [hrun]
    exact ⟨hbulk, nofun⟩
  · rw [hfold] at hbulk
    rw [hrun]
    exact ⟨hbulk, fun _ _ => hequiv⟩

end HandleTable

theorem HandleIndex.extend_eq (t : NameTable) (table : HandleTable) (cs : List (ClassDecl Name)) :
    extend t table cs = (cs.foldlM (HandleTable.insertNew t) table).map (build t) := by
  rw [extend]
  rcases HandleTable.run_insertAll t table cs with
    ⟨table', hfold, hrun⟩ | ⟨e, table', hfold, hrun, _⟩
  · rw [hfold, hrun]
    rfl
  · rw [hfold, hrun]
    rfl

theorem HandleIndex.withClasses_of_ofClasses {t : NameTable} {xs : List (ClassDecl Name)}
    {i : HandleIndex} (h : ofClasses t xs = .ok i) (ys : List (ClassDecl Name)) :
    i.withClasses ys = ofClasses t (xs ++ ys) := by
  rw [ofClasses, extend_eq] at h
  cases htable : xs.foldlM (HandleTable.insertNew t) ∅ with
  | error e =>
    rw [htable] at h
    cases h
  | ok table =>
    rw [htable] at h
    cases h
    rw [ofClasses, extend_eq, List.foldlM_append, htable]
    exact extend_eq t table ys

theorem Index.withClasses_of_ofClasses {xs : List (ClassDecl String)} {i : Index}
    (h : ofClasses xs = .ok i) (ys : List (ClassDecl String)) :
    i.withClasses ys = ofClasses (xs ++ ys) := by
  rw [ofClasses, ClassTable.insertAll] at h
  cases htable : xs.foldlM ClassTable.insert ClassTable.empty with
  | error e =>
    rw [htable] at h
    cases h
  | ok table =>
    rw [htable] at h
    cases h
    rw [ofClasses, ClassTable.insertAll, List.foldlM_append, htable]
    rfl

theorem Indexer.run_addClasses (cs : List (ClassDecl Name)) (s : Indexer) :
    (addClasses cs).run.run s
      = (((HandleTable.insertAll s.names cs).run.run s.table).1,
          { s with table := ((HandleTable.insertAll s.names cs).run.run s.table).2 }) := rfl

/-- Several classes are added together or, at the first whose name is taken, none of them; and to
add them to an index of others is to make one index of all. -/
theorem several_classes_all_or_none :
    (∀ (t : NameTable) (table : HandleTable) (cs : List (ClassDecl Name)),
      HandleTable.AddedTogether t table cs ((HandleTable.insertAll t cs).run.run table).1
        ((HandleTable.insertAll t cs).run.run table).2)
      ∧ (∀ (s : Indexer) (cs : List (ClassDecl Name)),
        ∃ outcome table, (Indexer.addClasses cs).run.run s = (outcome, { s with table := table })
          ∧ HandleTable.AddedTogether s.names s.table cs outcome table)
      ∧ (∀ (i : HandleIndex) (cs : List (ClassDecl Name)),
        BulkOutcome i.names.text i.classByName cs HandleIndex.classByName (i.withClasses cs))
      ∧ (∀ (t : NameTable) (xs ys : List (ClassDecl Name)) (i : HandleIndex),
        HandleIndex.ofClasses t xs = .ok i →
          i.withClasses ys = HandleIndex.ofClasses t (xs ++ ys))
      ∧ (∀ (b : Builder) (cs : List (ClassDecl String)),
        BulkOutcome id b.table.find? cs (·.table.find?) (b.addAll cs))
      ∧ (∀ (i : Index) (cs : List (ClassDecl String)),
        BulkOutcome id i.find? cs Index.find? (i.withClasses cs))
      ∧ ∀ (xs ys : List (ClassDecl String)) (i : Index),
        Index.ofClasses xs = .ok i → i.withClasses ys = Index.ofClasses (xs ++ ys) := by
  refine ⟨HandleTable.addedTogether_insertAll, ?_, ?_, ?_, ?_, ?_, ?_⟩
  · intro s cs
    exact ⟨_, _, Indexer.run_addClasses cs s, HandleTable.addedTogether_insertAll _ _ cs⟩
  · intro i cs
    rw [HandleIndex.withClasses, HandleIndex.extend_eq]
    exact ((HandleTable.insertsNew i.names).bulkOutcome i.table cs).map fun _ => rfl
  · intro t xs ys i hi
    exact HandleIndex.withClasses_of_ofClasses hi ys
  · intro b cs
    exact (ClassTable.insertsNew.bulkOutcome b.table cs).map fun _ => rfl
  · intro i cs
    exact (ClassTable.insertsNew.bulkOutcome i.table cs).map fun _ => rfl
  · intro xs ys i hi
    exact Index.withClasses_of_ofClasses hi ys

theorem firstTaken_twice {find : α → Option (ClassDecl α)} {b c : ClassDecl α}
    (hb : find b.name = none) (hc : find c.name = none) (hne : b.name ≠ c.name) :
    FirstTaken find [b, c, c] c :=
  ⟨[b, c], [], rfl, ⟨by simp [hb, hc], by simp [hne]⟩, .inr (by simp)⟩

/-- Of two classes of one name not even the first is added, nor the class before them: what was in
the table already is all that is left in it. -/
theorem several_classes_all_or_none_twice :
    (∃ (t : NameTable) (m k n : Name) (table table' : HandleTable),
      table[m]? = some (.bare m ⟨0x21⟩)
        ∧ (HandleTable.insertAll t [.bare k ⟨0x21⟩, .bare n ⟨0x21⟩, .bare n ⟨0x21⟩]).run.run table
          = (.error (.duplicateClass "B"), table')
        ∧ table'[m]? = some (.bare m ⟨0x21⟩) ∧ table'[k]? = none ∧ table'[n]? = none)
      ∧ (∃ t m n i, HandleIndex.ofClasses t [ClassDecl.bare m ⟨0x21⟩] = .ok i
        ∧ i.withClasses [.bare n ⟨0x21⟩, .bare n ⟨0x21⟩] = .error (.duplicateClass "B"))
      ∧ ∃ i, Index.ofClasses [.bare "A" ⟨0x21⟩] = .ok i
        ∧ i.withClasses [.bare "B" ⟨0x21⟩, .bare "B" ⟨0x21⟩] = .error (.duplicateClass "B") := by
  obtain ⟨htogether, -, hhandles, hhandles', -, htexts, htexts'⟩ := several_classes_all_or_none
  let t := NameTable.fresh.enter ["A", "C", "B"]
  let m := (NameTable.fresh.intern "A").1
  let k := ((NameTable.fresh.enter ["A"]).intern "C").1
  let n := ((NameTable.fresh.enter ["A", "C"]).intern "B").1
  have hmk : m ≠ k := fun heq =>
    absurd (congrArg Name.shard heq : NameTable.shardOf "A" = NameTable.shardOf "C") (by decide)
  have hmn : m ≠ n := fun heq =>
    absurd (congrArg Name.shard heq : NameTable.shardOf "A" = NameTable.shardOf "B") (by decide)
  have hkn : k ≠ n := fun heq =>
    absurd (congrArg Name.shard heq : NameTable.shardOf "C" = NameTable.shardOf "B") (by decide)
  have htext : t.text n = "B" :=
    congrArg (Option.getD · "") ((NameTable.fresh.enter ["A", "C"]).text?_intern_self "B")
  refine ⟨?_, ?_, ?_⟩
  · let table : HandleTable := Std.HashMap.insert ∅ m (.bare m ⟨0x21⟩)
    have hm : table[m]? = some (.bare m ⟨0x21⟩) := Std.HashMap.getElem?_insert_self
    have hother : ∀ o, m ≠ o → table[o]? = none := by
      intro o ho
      rw [Std.HashMap.getElem?_insert, if_neg (by simpa using ho)]
      exact Std.HashMap.getElem?_empty
    have htaken : FirstTaken table.get? [.bare k ⟨0x21⟩, .bare n ⟨0x21⟩, .bare n ⟨0x21⟩]
        (.bare n ⟨0x21⟩) := firstTaken_twice (hother k hmk) (hother n hmn) hkn
    obtain ⟨herror, hrestored⟩ := (htogether t table _).of_firstTaken htaken
    have hname : t.text (ClassDecl.bare n ⟨0x21⟩).name = "B" := htext
    rw [hname] at herror
    refine ⟨t, m, k, n, table, _, hm, Prod.ext herror rfl, ?_⟩
    rw [hrestored.getElem?_eq, hrestored.getElem?_eq, hrestored.getElem?_eq]
    exact ⟨hm, hother k hmk, hother n hmn⟩
  · have hnone : ∀ n, (HandleIndex.build t ∅).classByName n = none := fun _ =>
      Std.HashMap.getElem?_empty
    obtain ⟨i, hi, -⟩ := (hhandles (.build t ∅) [.bare m ⟨0x21⟩]).added
      ⟨fun _ _ => hnone _, List.nodup_singleton _⟩
    have hrefused := (hhandles (.build t ∅) _).refused (.bare n ⟨0x21⟩)
      (firstTaken_twice (b := .bare m ⟨0x21⟩) (hnone _) (hnone _) hmn)
    refine ⟨t, m, n, i, hi, ?_⟩
    rw [hhandles' t _ _ i hi, ← htext]
    exact hrefused
  · have hnone : ∀ name, Index.empty.find? name = none := fun _ => Std.TreeMap.getElem?_emptyc
    obtain ⟨i, hi, -⟩ := (htexts .empty [.bare "A" ⟨0x21⟩]).added
      ⟨fun _ _ => hnone _, List.nodup_singleton _⟩
    have hrefused := (htexts .empty _).refused (.bare "B" ⟨0x21⟩)
      (firstTaken_twice (b := .bare "A" ⟨0x21⟩) (hnone _) (hnone _) (by decide))
    refine ⟨i, hi, ?_⟩
    rw [htexts' _ _ i hi]
    exact hrefused

end ClassCatalog
