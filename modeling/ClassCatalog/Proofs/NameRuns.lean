import ClassCatalog.Proofs.Archive.Delimited
import ClassCatalog.Proofs.Independence
import ClassCatalog.Proofs.Names

/-! Whole runs of a name table. Whatever is asked of it, and whatever fails, a text has one handle
and a handle one text, for good. -/

namespace ClassCatalog

open NameTable (Entry)

/-- What can be asked of a name table. `met` are the texts that decoding or reading comes by on its
way; these are interned also when it fails, and nothing is assumed of them. -/
inductive NameOp where
  | intern (text : String)
  | internOwned (text : String)
  | lookup (n : Name)
  | decode (met : List String) (config : ClassFile.Config) (bytes : List UInt8)
  | read (met : List String) (bytes : List UInt8)

inductive NameAnswer where
  | issued (n : Name)
  | text (text : Option String)
  | decoded (result : Except DecodeError (ClassDecl Name))
  | read (result : Except ArchiveError (List (ClassDecl Name)))

namespace NameOp

def step : NameOp → NameTable → NameAnswer × NameTable
  | intern text, t => (t.intern text).map .issued id
  | internOwned text, t => (t.internOwned text).map .issued id
  | lookup n, t => (.text (t.text? n), t)
  | decode met config bytes, t =>
    ((ClassFile.decodeInto config bytes).run.run (t.enter met)).map .decoded id
  | read met bytes, t => ((Archive.readInto bytes).run.run (t.enter met)).map .read id

def texts : NameOp → List String
  | intern text => [text]
  | internOwned text => [text]
  | lookup _ => []
  | decode met config bytes => met ++
    match ClassFile.draft config bytes with
    | .ok d => MethodDecl.constructorName :: d.names
    | .error _ => []
  | read met bytes => met ++
    match Archive.readClasses bytes with
    | .ok cs => cs.flatMap ClassDecl.names
    | .error _ => []

end NameOp

theorem ClassFile.Draft.run_intern (d : Draft String) (t : NameTable) :
    (d.intern.run t).2 = t.enter d.names :=
  d.visits_names NameTable.intern t

theorem run_internAll (cs : List (ClassDecl String)) (t : NameTable) :
    ((internAll cs).run t).2 = t.enter (cs.flatMap ClassDecl.names) :=
  Visits.mapM (fun c => c.visits_names NameTable.intern) cs t

theorem run_decodeInto_of_ok {config : ClassFile.Config} {bytes : List UInt8}
    {d : ClassFile.Draft String} (h : ClassFile.draft config bytes = .ok d) (t : NameTable) :
    (ClassFile.decodeInto config bytes).run.run t =
      (.ok ((d.intern.run (t.intern MethodDecl.constructorName).2).1.finish
          (t.intern MethodDecl.constructorName).1
          (d.intern.run (t.intern MethodDecl.constructorName).2).2.text),
        (d.intern.run (t.intern MethodDecl.constructorName).2).2) := by
  rw [ClassFile.decodeInto, h]
  rfl

/-- Every operation leaves the table with its texts interned, whether it succeeds or not. -/
theorem NameOp.step_eq_enter (op : NameOp) (t : NameTable) : (op.step t).2 = t.enter op.texts := by
  cases op with
  | intern text => rfl
  | internOwned text => exact congrArg Prod.snd (t.internOwned_eq_intern text)
  | lookup n => rfl
  | decode met config bytes =>
    rw [texts, NameTable.enter_append]
    cases h : ClassFile.draft config bytes with
    | error e =>
      simp only [step, ClassFile.decodeInto, h]
      rfl
    | ok d =>
      simp only [step, run_decodeInto_of_ok h]
      exact d.run_intern _
  | read met bytes =>
    rw [texts, NameTable.enter_append]
    cases h : Archive.readClasses bytes with
    | error e =>
      simp only [step, Archive.readInto, h]
      rfl
    | ok cs =>
      simp only [step, run_readInto_of_ok h]
      exact run_internAll cs _

section Answers

variable {t u : NameTable} {config : ClassFile.Config} {bytes : List UInt8}

theorem exists_handles_of_decodeInto {r : Except DecodeError (ClassDecl Name)}
    (h : (ClassFile.decodeInto config bytes).run.run t = (r, u)) :
    ∃ k : Except DecodeError (ClassDecl u.Entry), k.map (ClassDecl.rename Entry.name) = r := by
  cases hdraft : ClassFile.draft config bytes with
  | error e =>
    rw [ClassFile.decodeInto, hdraft] at h
    obtain ⟨rfl, rfl⟩ := Prod.mk.inj h
    exact ⟨.error e, rfl⟩
  | ok d =>
    rw [run_decodeInto_of_ok hdraft] at h
    obtain ⟨rfl, rfl⟩ := Prod.mk.inj h
    obtain ⟨hext, hentries⟩ := d.interns (t.intern MethodDecl.constructorName).2
    obtain ⟨k, _, hname⟩ := hentries _ (.refl _)
    obtain ⟨e, _, hinit⟩ := (Interns.name MethodDecl.constructorName t).2 _ hext
    have hfinish := k.finish_rename Entry.name_injective Entry.text_name e
    rw [hname, hinit] at hfinish
    exact ⟨.ok (k.finish e Entry.text), congrArg Except.ok hfinish.symm⟩

theorem exists_handles_of_readInto {r : Except ArchiveError (List (ClassDecl Name))}
    (h : (Archive.readInto bytes).run.run t = (r, u)) :
    ∃ k : Except ArchiveError (List (ClassDecl u.Entry)),
      k.map (List.map (ClassDecl.rename Entry.name)) = r := by
  cases hread : Archive.readClasses bytes with
  | error e =>
    rw [Archive.readInto, hread] at h
    obtain ⟨rfl, rfl⟩ := Prod.mk.inj h
    exact ⟨.error e, rfl⟩
  | ok cs =>
    rw [run_readInto_of_ok hread] at h
    obtain ⟨rfl, rfl⟩ := Prod.mk.inj h
    obtain ⟨ks, _, hname⟩ := (interns_all cs t).2 _ (.refl _)
    rw [← hname]
    cases htable : HandleTable.ofClasses ((internAll cs).run t).2
        (ks.map (ClassDecl.rename Entry.name)) with
    | error e => exact ⟨.error (.indexing e), rfl⟩
    | ok table =>
      obtain ⟨js, hjs⟩ := (HandleTable.valid_ofClasses htable).exists_rename
      exact ⟨.ok js, congrArg Except.ok hjs⟩

theorem exists_entries_of_decodeInto {r : Except DecodeError (ClassDecl Name)}
    (h : (ClassFile.decodeInto config bytes).run.run t = (r, u)) :
    ∃ k : Except DecodeError (ClassDecl u.Entry),
      k.map (ClassDecl.rename Entry.text) = ClassFile.decode config bytes
        ∧ k.map (ClassDecl.rename Entry.name) = r := by
  obtain ⟨k, hname⟩ := exists_handles_of_decodeInto h
  refine ⟨k, ?_, hname⟩
  rw [← textOutcome_decodeInto config bytes t, textOutcome, h, ← hname]
  cases k with
  | error e => rfl
  | ok k => exact congrArg Except.ok k.resolve_rename.symm

theorem exists_entries_of_readInto {r : Except ArchiveError (List (ClassDecl Name))}
    (h : (Archive.readInto bytes).run.run t = (r, u)) :
    ∃ k : Except ArchiveError (List (ClassDecl u.Entry)),
      k.map (List.map (ClassDecl.rename Entry.text)) = (Archive.read bytes).map Index.classes
        ∧ k.map (List.map (ClassDecl.rename Entry.name)) = r := by
  obtain ⟨k, hname⟩ := exists_handles_of_readInto h
  refine ⟨k, ?_, hname⟩
  rw [← textOutcome_readInto bytes t, textOutcome, h, ← hname]
  cases k with
  | error e => rfl
  | ok ks =>
    have hresolve : (ks.map (ClassDecl.rename Entry.name)).map (·.resolve u)
        = ks.map (ClassDecl.rename Entry.text) := by
      rw [List.map_map]
      exact List.map_congr_left fun k _ => k.resolve_rename
    exact congrArg Except.ok hresolve.symm

end Answers

structure NameEvent where
  op : NameOp
  answer : NameAnswer
  table : NameTable

/-- The answer is right for the table afterwards. A class that was decoded or read has, at every
place of a name, the handle of the text that is there when no table is used at all. -/
def NameEvent.Sound (e : NameEvent) : Prop :=
  match e.op with
  | .intern text | .internOwned text => ∃ n, e.answer = .issued n ∧ e.table.text? n = some text
  | .lookup n => e.answer = .text (e.table.text? n)
  | .decode _ config bytes => ∃ k : Except DecodeError (ClassDecl e.table.Entry),
    k.map (ClassDecl.rename Entry.text) = ClassFile.decode config bytes
      ∧ e.answer = .decoded (k.map (ClassDecl.rename Entry.name))
  | .read _ bytes => ∃ k : Except ArchiveError (List (ClassDecl e.table.Entry)),
    k.map (List.map (ClassDecl.rename Entry.text)) = (Archive.read bytes).map Index.classes
      ∧ e.answer = .read (k.map (List.map (ClassDecl.rename Entry.name)))

namespace NameOp

def event (op : NameOp) (t : NameTable) : NameEvent := ⟨op, (op.step t).1, (op.step t).2⟩

theorem sound_event (op : NameOp) (t : NameTable) : (op.event t).Sound := by
  cases op with
  | intern text => exact ⟨_, rfl, t.text?_intern_self text⟩
  | internOwned text =>
    have hstep : (internOwned text).step t = (intern text).step t := by
      simp only [step, t.internOwned_eq_intern]
    rw [event, hstep]
    exact ⟨_, rfl, t.text?_intern_self text⟩
  | lookup n => rfl
  | decode met config bytes =>
    obtain ⟨k, htext, hname⟩ := exists_entries_of_decodeInto
      (Prod.eta ((ClassFile.decodeInto config bytes).run.run (t.enter met))).symm
    exact ⟨k, htext, congrArg NameAnswer.decoded hname.symm⟩
  | read met bytes =>
    obtain ⟨k, htext, hname⟩ := exists_entries_of_readInto
      (Prod.eta ((Archive.readInto bytes).run.run (t.enter met))).symm
    exact ⟨k, htext, congrArg NameAnswer.read hname.symm⟩

def history : List NameOp → NameTable → List NameEvent
  | [], _ => []
  | op :: ops, t => op.event t :: history ops (op.step t).2

def after (ops : List NameOp) (t : NameTable) : NameTable :=
  ops.foldl (fun t op => (op.step t).2) t

theorem after_append (ops more : List NameOp) (t : NameTable) :
    after (ops ++ more) t = after more (after ops t) :=
  List.foldl_append

theorem after_eq_enter (ops : List NameOp) (t : NameTable) :
    after ops t = t.enter (ops.flatMap texts) := by
  induction ops generalizing t with
  | nil => rfl
  | cons op ops ih =>
    have hstep : after (op :: ops) t = after ops (op.step t).2 := rfl
    rw [hstep, ih, op.step_eq_enter, List.flatMap_cons, NameTable.enter_append]

theorem exists_of_mem_history {ops : List NameOp} {t : NameTable} {e : NameEvent}
    (h : e ∈ history ops t) :
    ∃ earlier op later, ops = earlier ++ op :: later ∧ e = op.event (after earlier t) := by
  induction ops generalizing t with
  | nil => cases h
  | cons op ops ih =>
    rcases List.mem_cons.1 h with rfl | htail
    · exact ⟨[], op, ops, rfl, rfl⟩
    · obtain ⟨earlier, other, later, rfl, rfl⟩ := ih htail
      exact ⟨op :: earlier, other, later, rfl, rfl⟩

theorem extends_after (ops : List NameOp) (t : NameTable) : t.Extends (after ops t) := by
  rw [after_eq_enter]
  exact t.extends_enter _

theorem extends_of_mem_history {ops : List NameOp} {t : NameTable} {e : NameEvent}
    (h : e ∈ history ops t) : t.Extends e.table ∧ e.table.Extends (after ops t) := by
  obtain ⟨earlier, op, later, rfl, rfl⟩ := exists_of_mem_history h
  constructor
  · exact (extends_after earlier t).trans (extends_after [op] _)
  · rw [after_append]
    exact extends_after later _

theorem after_fresh_eq_enter (ops : List NameOp) :
    after ops .fresh = NameTable.empty.enter ("" :: NameTable.wellKnown ++ ops.flatMap texts) := by
  rw [after_eq_enter, NameTable.fresh_eq_enter, ← NameTable.enter_append]

theorem sharded_after (ops : List NameOp) : (after ops .fresh).Sharded := by
  rw [after_fresh_eq_enter]
  exact NameTable.sharded_empty.enter _

theorem text?_after_empty (ops : List NameOp) : (after ops .fresh).text? Name.empty = some "" :=
  extends_after ops .fresh _ _ NameTable.text?_fresh_empty

end NameOp

open NameOp (history after)

def NameEvent.Interned (e : NameEvent) (text : String) (n : Name) : Prop :=
  (e.op = .intern text ∨ e.op = .internOwned text) ∧ e.answer = .issued n

/-- What holds of a run that starts with a fresh table. Handles are compared as they are packed,
and those that were given out at different times in the last table, which has them all. -/
structure FaithfulRun (ops : List NameOp) : Prop where
  sound : ∀ e ∈ history ops .fresh, e.Sound
  kept : ∀ e ∈ history ops .fresh, e.table.Extends (after ops .fresh)
  interned : ∀ e ∈ history ops .fresh, ∀ e' ∈ history ops .fresh, ∀ n n' text text',
    e.Interned text n → e'.Interned text' n' → (n.packed = n'.packed ↔ text = text')
  lookup : ∀ earlier later, ops = earlier ++ later →
    ∀ n text, (after earlier .fresh).text? n = some text →
    ∀ e ∈ history later (after earlier .fresh), e.op = .lookup n → e.answer = .text (some text)
  one : ∀ n n' text text', (after ops .fresh).text? n = some text →
    (after ops .fresh).text? n' = some text' → (n.packed = n'.packed ↔ text = text')
  empty : (after ops .fresh).text? Name.empty = some "" ∧
    ∀ n text, (after ops .fresh).text? n = some text →
      (n.packed = Name.empty.packed ↔ text = "")
  packed : ∀ n text, (after ops .fresh).text? n = some text → Name.ofPacked n.packed = n
  size : (after ops .fresh).size
    = ("" :: NameTable.wellKnown ++ ops.flatMap NameOp.texts).dedup.length

theorem NameEvent.Sound.interned {e : NameEvent} (h : e.Sound) {text : String} {n : Name}
    (hn : e.Interned text n) : e.table.text? n = some text := by
  obtain ⟨hop, hanswer⟩ := hn
  have hheld : ∃ m, e.answer = .issued m ∧ e.table.text? m = some text := by
    rcases hop with hop | hop
    · simpa only [Sound, hop] using h
    · simpa only [Sound, hop] using h
  obtain ⟨m, hm, htext⟩ := hheld
  rw [hanswer, NameAnswer.issued.injEq] at hm
  rwa [hm]

theorem NameEvent.Sound.lookup {e : NameEvent} (h : e.Sound) {n : Name} (hop : e.op = .lookup n) :
    e.answer = .text (e.table.text? n) := by
  simpa only [Sound, hop] using h

theorem sound_of_mem_history {ops : List NameOp} {t : NameTable} {e : NameEvent}
    (h : e ∈ history ops t) : e.Sound := by
  obtain ⟨earlier, op, _, rfl, rfl⟩ := NameOp.exists_of_mem_history h
  exact op.sound_event _

/-- As long as no shard outgrows its slots, a text has one handle and a handle one text throughout
the run, and the table counts the different texts. -/
theorem faithfulRun_of_fits (ops : List NameOp) (h : (after ops .fresh).Fits) :
    FaithfulRun ops := by
  have hkept : ∀ e ∈ history ops .fresh, e.table.Extends (after ops .fresh) :=
    fun e he => (NameOp.extends_of_mem_history he).2
  have hone : ∀ n n' text text', (after ops .fresh).text? n = some text →
      (after ops .fresh).text? n' = some text' → (n.packed = n'.packed ↔ text = text') :=
    fun n n' text text' hn hn' => h.packed_eq_iff (NameOp.sharded_after ops) hn hn'
  have hempty := NameOp.text?_after_empty ops
  constructor
  case sound => exact fun e he => sound_of_mem_history he
  case kept => exact hkept
  case interned =>
    -- Both handles are still in the table at the end of the run.
    intro e he e' he' n n' text text' hn hn'
    have hheld := hkept e he n text ((sound_of_mem_history he).interned hn)
    have hheld' := hkept e' he' n' text' ((sound_of_mem_history he').interned hn')
    exact hone n n' text text' hheld hheld'
  case lookup =>
    rintro earlier later rfl n text hn e he hop
    have hheld := (NameOp.extends_of_mem_history he).1 n text hn
    rw [(sound_of_mem_history he).lookup hop, hheld]
  case one => exact hone
  case empty => exact ⟨hempty, fun n text hn => hone n Name.empty text "" hn hempty⟩
  case packed => exact fun n text hn => h.ofPacked_packed hn
  case size => rw [NameOp.after_fresh_eq_enter, NameTable.size_enter_empty]

def sampleRun : List NameOp :=
  [.intern "a.B", .internOwned "a.B", .decode ["a.C"] .standard [], .lookup Name.empty,
    .read [] Archive.describedArchive]

theorem faithfulRun_sampleRun : (after sampleRun .fresh).size = 14 ∧ FaithfulRun sampleRun := by
  have hsize : (after sampleRun .fresh).size = 14 := by
    rw [NameOp.after_fresh_eq_enter, NameTable.size_enter_empty]
    decide +kernel
  have hfits : (after sampleRun .fresh).Fits := NameTable.fits_of_size_le (by rw [hsize]; decide)
  exact ⟨hsize, faithfulRun_of_fits sampleRun hfits⟩

end ClassCatalog
