import ClassCatalog.Proofs.HandleTable

/-! What is read into a name table does not depend on what the table held before. -/

namespace ClassCatalog

open NameTable (Entry)

variable {α β ε : Type}

/-- What `p` gives when it starts from `t`, with texts in place of handles. -/
def textOutcome (p : ExceptT ε (StateM NameTable) α) (resolve : NameTable → α → β)
    (t : NameTable) : Except ε β :=
  (p.run.run t).1.map (resolve (p.run.run t).2)

/-- A draft is finished over the entries of its table, of which handles and texts are two views. -/
theorem resolve_finish {t : NameTable} (k : ClassFile.Draft t.Entry) (e : t.Entry) :
    ((k.rename Entry.name).finish e.name t.text).resolve t
      = (k.rename Entry.text).finish e.text id := by
  have htext : ∀ n : t.Entry, id n.text = n.text := fun _ => rfl
  rw [k.finish_rename Entry.name_injective Entry.text_name, ClassDecl.resolve_rename,
    k.finish_rename Entry.text_injective htext]

theorem textOutcome_decodeInto (config : ClassFile.Config) (bytes : List UInt8) (t : NameTable) :
    textOutcome (ClassFile.decodeInto config bytes) ClassDecl.resolve t
      = ClassFile.decode config bytes := by
  rw [textOutcome, ClassFile.decodeInto, ClassFile.decode]
  cases ClassFile.draft config bytes with
  | error e => rfl
  | ok d =>
    let start := (NameTable.intern MethodDecl.constructorName t).2
    let u := (d.intern.run start).2
    obtain ⟨hext, hdraft⟩ := d.interns start
    obtain ⟨k, htext, hname⟩ := hdraft u (.refl u)
    obtain ⟨e, hinit, hinit'⟩ := (Interns.name MethodDecl.constructorName t).2 u hext
    have hresolve := resolve_finish k e
    rw [htext, hname, hinit, hinit'] at hresolve
    exact congrArg Except.ok hresolve

theorem map_mapError {ε' : Type} (x : Except ε α) (f : ε → ε') (g : α → β) :
    (x.mapError f).map g = (x.map g).mapError f := by
  cases x <;> rfl

theorem run_readInto_of_ok {bytes : List UInt8} {cs : List (ClassDecl String)}
    (h : Archive.readClasses bytes = .ok cs) (t : NameTable) :
    (Archive.readInto bytes).run.run t
      = (((HandleTable.ofClasses ((internAll cs).run t).2 ((internAll cs).run t).1).mapError
          ArchiveError.indexing).map (HandleTable.classes ((internAll cs).run t).2),
        ((internAll cs).run t).2) := by
  rw [Archive.readInto, h]
  let u := ((internAll cs).run t).2
  show ExceptT.bindCont (m := StateM NameTable) (fun table => pure (table.classes u))
    ((HandleTable.ofClasses u ((internAll cs).run t).1).mapError ArchiveError.indexing) u = _
  cases HandleTable.ofClasses u ((internAll cs).run t).1 <;> rfl

theorem textOutcome_readInto (bytes : List UInt8) (t : NameTable) :
    textOutcome (Archive.readInto bytes) (fun u cs => cs.map (·.resolve u)) t
      = (Archive.read bytes).map Index.classes := by
  cases h : Archive.readClasses bytes with
  | error e =>
    rw [textOutcome, Archive.readInto, Archive.read, h]
    rfl
  | ok cs =>
    have hread : Archive.read bytes = (Index.ofClasses cs).mapError ArchiveError.indexing := by
      rw [Archive.read, h]
      rfl
    obtain ⟨ks, htext, hname⟩ := (interns_all cs t).2 _ (.refl _)
    have hclasses := HandleTable.map_classes_ofClasses ks
    rw [htext, hname] at hclasses
    rw [textOutcome, run_readInto_of_ok h, hread, map_mapError, map_mapError, map_mapError,
      ← hclasses]
    cases HandleTable.ofClasses ((internAll cs).run t).2 ((internAll cs).run t).1 <;> rfl

/-- Whatever two tables hold, decoding into them fails with the same error or gives the same
class, and reading an archive into them fails with the same error or gives the same classes. That
a table may be full is left out, as in `NameTable.intern`. -/
theorem textOutcome_independent (config : ClassFile.Config) (bytes : List UInt8)
    (t u : NameTable) :
    textOutcome (ClassFile.decodeInto config bytes) ClassDecl.resolve t
        = textOutcome (ClassFile.decodeInto config bytes) ClassDecl.resolve u
      ∧ textOutcome (Archive.readInto bytes) (fun w cs => cs.map (·.resolve w)) t
        = textOutcome (Archive.readInto bytes) (fun w cs => cs.map (·.resolve w)) u := by
  constructor
  · rw [textOutcome_decodeInto, textOutcome_decodeInto]
  · rw [textOutcome_readInto, textOutcome_readInto]

end ClassCatalog
