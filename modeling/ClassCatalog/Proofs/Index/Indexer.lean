import ClassCatalog.Index.Indexer
import ClassCatalog.Proofs.Index.Batch
import ClassCatalog.Proofs.Index.Scans
import ClassCatalog.Proofs.NameRuns

/-! Classes are collected under handles as they are under texts, and a batch comes to the same as
one call for each source, in whatever order the names of its sources get their handles. -/

namespace ClassCatalog

open NameTable (Entry)

variable {t u : NameTable}

def NameTable.Entry.lift (h : t.Extends u) (e : t.Entry) : u.Entry :=
  ⟨e.name, e.text, e.shard, h _ _ e.found⟩

namespace HandleTable

variable {texts : ClassTable} {table : HandleTable}

theorem Holds.extend {ks : List (ClassDecl t.Entry)} (h : Holds ks texts table)
    (hext : t.Extends u) : Holds (ks.map (ClassDecl.rename (Entry.lift hext))) texts table := by
  constructor
  · intro text
    rw [h.text, List.find?_map, Option.map_map]
    congr 1
    funext k
    exact (k.rename_rename (Entry.lift hext) Entry.text).symm
  · intro n
    rw [h.handle, List.find?_map, Option.map_map]
    congr 1
    funext k
    exact (k.rename_rename (Entry.lift hext) Entry.name).symm

theorem find?_eq_some_iff {α κ : Type} [DecidableEq κ] {nameOf : α → κ} {xs : List α}
    (h : (xs.map nameOf).Nodup) (name : κ) (x : α) :
    xs.find? (nameOf · = name) = some x ↔ x ∈ xs ∧ nameOf x = name := by
  constructor
  · intro hfind
    have hname := List.find?_some hfind
    exact ⟨List.mem_of_find?_eq_some hfind, of_decide_eq_true hname⟩
  · rintro ⟨hx, rfl⟩
    have hsome : (xs.find? (nameOf · = nameOf x)).isSome :=
      List.find?_isSome.2 ⟨x, hx, decide_eq_true rfl⟩
    obtain ⟨y, hy⟩ := Option.isSome_iff_exists.1 hsome
    have hname := List.find?_some hy
    rw [hy, List.inj_on_of_nodup_map h (List.mem_of_find?_eq_some hy) hx (of_decide_eq_true hname)]

theorem Valid.exists_holds (h : Valid t table) :
    ∃ (ks : List (ClassDecl t.Entry)) (texts : ClassTable), Holds ks texts table := by
  obtain ⟨ks, hks⟩ := h.exists_rename
  have hnodup : (ks.map (·.name)).Nodup := by
    have hnames := h.nodup_names
    rw [← hks, List.map_map] at hnames
    exact (List.Nodup.of_map Entry.name (by rwa [List.map_map]))
  have htext : (ks.map (·.name.text)).Nodup := by
    have hmap := hnodup.map Entry.text_injective
    rwa [List.map_map] at hmap
  have hname : (ks.map (·.name.name)).Nodup := by
    have hmap := hnodup.map Entry.name_injective
    rwa [List.map_map] at hmap
  have htexts : ((ks.map (ClassDecl.rename Entry.text)).map (·.name)).Nodup := by
    rwa [List.map_map]
  obtain ⟨i, _, hmem⟩ := Index.ofClasses_of_nodup htexts
  refine ⟨ks, i.table, fun text => Option.ext fun c => ?_, fun n => Option.ext fun c => ?_⟩
  · have hfind : i.table.find? text = some c ↔ c ∈ i.classes ∧ c.name = text :=
      i.find?_eq_some_iff text c
    rw [hfind, hmem, List.mem_map, Option.map_eq_some_iff]
    simp only [find?_eq_some_iff htext]
    constructor
    · rintro ⟨⟨k, hk, rfl⟩, rfl⟩
      exact ⟨k, ⟨hk, rfl⟩, rfl⟩
    · rintro ⟨k, ⟨hk, rfl⟩, rfl⟩
      exact ⟨⟨k, hk, rfl⟩, rfl⟩
  · rw [Option.map_eq_some_iff]
    simp only [find?_eq_some_iff hname]
    constructor
    · intro hc
      have hlist : c ∈ ks.map (ClassDecl.rename Entry.name) := by
        rw [hks]
        exact mem_classes_iff.2 ⟨n, hc⟩
      obtain ⟨k, hk, rfl⟩ := List.mem_map.1 hlist
      exact ⟨k, ⟨hk, h.keyed n _ hc⟩, rfl⟩
    · rintro ⟨k, ⟨hk, rfl⟩, rfl⟩
      have hlist : k.rename Entry.name ∈ table.classes t := by
        rw [← hks]
        exact List.mem_map_of_mem hk
      obtain ⟨n, hn⟩ := mem_classes_iff.1 hlist
      obtain rfl : k.name.name = n := h.keyed n _ hn
      exact hn

end HandleTable

theorem extends_decodeInto (config : ClassFile.Config) (bytes : List UInt8) (t : NameTable) :
    t.Extends ((ClassFile.decodeInto config bytes).run.run t).2 := by
  cases hdraft : ClassFile.draft config bytes with
  | error e =>
    rw [ClassFile.decodeInto, hdraft]
    exact .refl t
  | ok d =>
    rw [run_decodeInto_of_ok hdraft]
    exact (t.extends_intern _).trans (d.interns _).1

namespace Indexer

def Shows (s : Indexer) (b : Builder) : Prop :=
  s.config = b.config ∧ ∃ ks : List (ClassDecl s.names.Entry), HandleTable.Holds ks b.table s.table

variable {s : Indexer} {b : Builder}

theorem Shows.classTexts (h : s.Shows b) : s.classTexts = b.table.classes := by
  obtain ⟨_, ks, hold⟩ := h
  exact hold.map_resolve

theorem Shows.valid (h : s.Shows b) : HandleTable.Valid s.names s.table := by
  obtain ⟨_, ks, hold⟩ := h
  exact hold.valid

theorem Shows.extend (h : s.Shows b) (hext : s.names.Extends u) :
    ({ s with names := u } : Indexer).Shows b := by
  obtain ⟨hconfig, ks, hold⟩ := h
  exact ⟨hconfig, _, hold.extend hext⟩

theorem run_addClass (c : ClassDecl Name) (s : Indexer) : (addClass c).run.run s
    = match HandleTable.insertNew s.names s.table c with
      | .ok table => (.ok c.name, { s with table := table })
      | .error error => (.error error, s) := by
  have hrun : (addClass c).run.run s = ExceptT.bindCont (m := StateM Indexer)
      (fun table => (do set ({ s with table := table } : Indexer); return c.name :
        ExceptT IndexError (StateM Indexer) Name))
      (HandleTable.insertNew s.names s.table c) s := rfl
  rw [hrun]
  cases HandleTable.insertNew s.names s.table c <;> rfl

theorem Shows.addDecoded (h : s.Shows b) (k : Except DecodeError (ClassDecl s.names.Entry)) :
    (∃ (e : s.names.Entry) (table : HandleTable) (b' : Builder),
        (addDecoded (k.map (ClassDecl.rename Entry.name))).run.run s
          = (.ok e.name, { s with table := table })
        ∧ b.addDecoded (k.map (ClassDecl.rename Entry.text)) = .ok (e.text, b')
        ∧ ({ s with table := table } : Indexer).Shows b')
      ∨ ∃ error, (addDecoded (k.map (ClassDecl.rename Entry.name))).run.run s = (.error error, s)
        ∧ b.addDecoded (k.map (ClassDecl.rename Entry.text)) = .error error := by
  cases k with
  | error error => exact .inr ⟨.decode error, rfl, rfl⟩
  | ok k =>
    have hrun : (Indexer.addDecoded (.ok (k.rename Entry.name))).run.run s
        = (addClass (k.rename Entry.name)).run.run s := rfl
    have hadd : b.addDecoded (.ok (k.rename Entry.text)) = (do
        return (k.name.text, ← b.add (k.rename Entry.text))) := rfl
    obtain ⟨hconfig, ks, hold⟩ := h
    rcases hold.insert k with ⟨texts, table, htexts, htable, hold⟩ | ⟨error, htexts, htable⟩
    · refine .inl ⟨k.name, table, { b with table := texts }, ?_, ?_, hconfig, _, hold⟩
      · rw [Except.map, hrun, run_addClass, htable]
        rfl
      · rw [Except.map, hadd, Builder.add, htexts]
        rfl
    · refine .inr ⟨error, ?_, ?_⟩
      · rw [Except.map, hrun, run_addClass, htable]
      · rw [Except.map, hadd, Builder.add, htexts]
        rfl

theorem text_lift (h : t.Extends u) (e : t.Entry) : u.text e.name = e.text :=
  (e.lift h).text_name

theorem run_decode (bytes : List UInt8) (s : Indexer) : (decode bytes).run s
    = (((ClassFile.decodeInto s.config bytes).run.run s.names).1,
      { s with names := ((ClassFile.decodeInto s.config bytes).run.run s.names).2 }) := by
  rw [decode, StateT.run_bind]
  rfl

theorem run_indexClass (bytes : List UInt8) (s : Indexer) : (indexClass bytes).run.run s
    = (addDecoded ((decode bytes).run s).1).run.run ((decode bytes).run s).2 := by
  rw [indexClass, ExceptT.run_bind, ExceptT.run_lift, StateT.run_bind]
  rfl

theorem Shows.indexClass (h : s.Shows b) (source : ClassSource) :
    ∃ u, s.names.Extends u ∧
      ((∃ (e : u.Entry) (table : HandleTable) (b' : Builder),
          (indexClass source.bytes).run.run s = (.ok e.name, { s with names := u, table := table })
          ∧ b.call source = (.ok e.text, b')
          ∧ ({ s with names := u, table := table } : Indexer).Shows b')
        ∨ ∃ error, (indexClass source.bytes).run.run s = (.error error, { s with names := u })
          ∧ b.call source = (.error error, b)) := by
  let run := (ClassFile.decodeInto s.config source.bytes).run.run s.names
  have hext : s.names.Extends run.2 := extends_decodeInto _ _ _
  obtain ⟨k, htext, hname⟩ := exists_entries_of_decodeInto (r := run.1) (u := run.2) rfl
  have hshows : ({ s with names := run.2 } : Indexer).Shows b := h.extend hext
  have hcall : b.indexClass source.bytes = b.addDecoded (k.map (ClassDecl.rename Entry.text)) := by
    rw [htext, h.1]
    rfl
  have hrun : (Indexer.indexClass source.bytes).run.run s
      = (Indexer.addDecoded (k.map (ClassDecl.rename Entry.name))).run.run
        { s with names := run.2 } := by
    rw [run_indexClass, run_decode, hname]
  rcases hshows.addDecoded k with ⟨e, table, b', hadd, htexts, hshows'⟩ | ⟨error, hadd, htexts⟩
  · have hok := Builder.call_eq_ok (hcall.trans htexts)
    exact ⟨run.2, hext, .inl ⟨e, table, b', hrun.trans hadd, hok, hshows'⟩⟩
  · have herror := Builder.call_eq_error (hcall.trans htexts)
    exact ⟨run.2, hext, .inr ⟨error, hrun.trans hadd, herror⟩⟩

def callEach (sources : List ClassSource) : StateM Indexer (Calls Name) :=
  sources.mapM fun source => do return (source, ← (indexClass source.bytes).run)

theorem run_callEach_cons (source : ClassSource) (sources : List ClassSource) (s : Indexer) :
    (callEach (source :: sources)).run s
      = ((source, ((indexClass source.bytes).run.run s).1)
          :: ((callEach sources).run ((indexClass source.bytes).run.run s).2).1,
        ((callEach sources).run ((indexClass source.bytes).run.run s).2).2) := by
  rw [callEach, List.mapM_cons]
  rfl

def textCalls (t : NameTable) (calls : Calls Name) : Calls String :=
  calls.map fun (source, outcome) => (source, outcome.map t.text)

theorem Shows.callEach (h : s.Shows b) (sources : List ClassSource) :
    s.names.Extends ((callEach sources).run s).2.names
      ∧ ((callEach sources).run s).2.Shows (b.callEach sources).2
      ∧ textCalls ((callEach sources).run s).2.names ((callEach sources).run s).1
        = (b.callEach sources).1 := by
  induction sources generalizing s b with
  | nil => exact ⟨.refl _, h, rfl⟩
  | cons source sources ih =>
    rw [run_callEach_cons, Builder.callEach]
    obtain ⟨u, hext, ⟨e, table, b', hrun, hcall, hshows⟩ | ⟨error, hrun, hcall⟩⟩ :=
      h.indexClass source
    · rw [hrun, hcall]
      obtain ⟨hmore, hlast, hcalls⟩ := ih hshows
      refine ⟨hext.trans hmore, hlast, ?_⟩
      have hname : ((Indexer.callEach sources).run
          { s with names := u, table := table }).2.names.text e.name = e.text := text_lift hmore e
      exact congrArg₂ List.cons (congrArg (fun name => (source, Except.ok name)) hname) hcalls
    · rw [hrun, hcall]
      obtain ⟨hmore, hlast, hcalls⟩ := ih (h.extend hext)
      exact ⟨hext.trans hmore, hlast, congrArg _ hcalls⟩

/-- What decoding the sources comes to, in whatever order their names get their handles: the name
table has grown to `u`, and each outcome is the one of its source, under handles of `u`. -/
structure Decodes (s : Indexer) (sources : List ClassSource) (u : NameTable)
    (decoded : List (Except DecodeError (ClassDecl Name))) : Prop where
  grows : s.names.Extends u
  outcomes : ∃ ks : List (Except DecodeError (ClassDecl u.Entry)),
    ks.map (Except.map (ClassDecl.rename Entry.text))
        = sources.map (fun source => ClassFile.decode s.config source.bytes)
      ∧ ks.map (Except.map (ClassDecl.rename Entry.name)) = decoded

theorem decodes_mapM (sources : List ClassSource) (s : Indexer) :
    ∃ u decoded, s.Decodes sources u decoded
      ∧ (sources.mapM fun source => decode source.bytes).run s
        = (decoded, { s with names := u }) := by
  induction sources generalizing s with
  | nil => exact ⟨s.names, [], ⟨.refl _, [], rfl, rfl⟩, rfl⟩
  | cons source sources ih =>
    let run := (ClassFile.decodeInto s.config source.bytes).run.run s.names
    have hext : s.names.Extends run.2 := extends_decodeInto _ _ _
    obtain ⟨k, htext, hname⟩ := exists_entries_of_decodeInto (r := run.1) (u := run.2) rfl
    obtain ⟨u, decoded, ⟨hgrows, ks, htexts, hnames⟩, hrun⟩ := ih { s with names := run.2 }
    have hlift : ∀ {β : Type} (f : u.Entry → β) (g : run.2.Entry → β),
        (∀ e, f (Entry.lift hgrows e) = g e) →
        (k.map (ClassDecl.rename (Entry.lift hgrows))).map (ClassDecl.rename f)
          = k.map (ClassDecl.rename g) := by
      intro β f g hfg
      have hcomp : f ∘ Entry.lift hgrows = g := funext hfg
      cases k with
      | error e => rfl
      | ok k => exact congrArg Except.ok (hcomp ▸ k.rename_rename (Entry.lift hgrows) f)
    refine ⟨u, run.1 :: decoded, ⟨hext.trans hgrows,
      k.map (ClassDecl.rename (Entry.lift hgrows)) :: ks, ?_, ?_⟩, ?_⟩
    · rw [List.map_cons, List.map_cons, htexts, hlift Entry.text Entry.text fun _ => rfl, htext]
    · rw [List.map_cons, hnames, hlift Entry.name Entry.name fun _ => rfl, hname]
    · have hstep : ((source :: sources).mapM fun source => decode source.bytes).run s
          = (run.1 :: ((sources.mapM fun source => decode source.bytes).run
              { s with names := run.2 }).1,
            ((sources.mapM fun source => decode source.bytes).run { s with names := run.2 }).2) := by
        rw [List.mapM_cons]
        rfl
      rw [hstep, hrun]

theorem run_takeDecoded (report : HandleReport) (source : ClassSource)
    (decoded : Except DecodeError (ClassDecl Name)) (s : Indexer) :
    (takeDecoded report (source, decoded)).run s
      = (match ((addDecoded decoded).run.run s).1 with
        | .ok n => { report with indexed := report.indexed ++ [n] }
        | .error error =>
          { report with failures := report.failures ++ [⟨source.origin, error⟩] },
        ((addDecoded decoded).run.run s).2) := by
  have hrun : (takeDecoded report (source, decoded)).run s
      = ((match ((addDecoded decoded).run.run s).1 with
        | .ok n => pure { report with indexed := report.indexed ++ [n] }
        | .error error =>
          pure { report with failures := report.failures ++ [⟨source.origin, error⟩] }) :
            StateM Indexer HandleReport).run ((addDecoded decoded).run.run s).2 := rfl
  rw [hrun]
  cases ((addDecoded decoded).run.run s).1 <;> rfl

def ReportsAs (t : NameTable) (report : HandleReport) (texts : BatchReport) : Prop :=
  report.indexed.map t.text = texts.indexed ∧ report.failures = texts.failures

theorem Shows.takeDecoded (h : s.Shows b) {report : HandleReport} {texts : BatchReport}
    (hreport : ReportsAs s.names report texts) (source : ClassSource)
    (k : Except DecodeError (ClassDecl s.names.Entry)) :
    ∃ report' table texts' b',
      (takeDecoded report (source, k.map (ClassDecl.rename Entry.name))).run s
          = (report', { s with table := table })
        ∧ Builder.takeDecoded (texts, b) (source, k.map (ClassDecl.rename Entry.text))
          = (texts', b')
        ∧ ({ s with table := table } : Indexer).Shows b' ∧ ReportsAs s.names report' texts' := by
  obtain ⟨hindexed, hfailures⟩ := hreport
  rcases h.addDecoded k with ⟨e, table, b', hadd, htexts, hshows⟩ | ⟨error, hadd, htexts⟩
  · refine ⟨{ report with indexed := report.indexed ++ [e.name] }, table,
      { texts with indexed := texts.indexed ++ [e.text] }, b', ?_, ?_, hshows, ?_, hfailures⟩
    · rw [run_takeDecoded, hadd]
    · rw [Builder.takeDecoded, htexts]
    · rw [List.map_append, hindexed]
      exact congrArg (fun name => texts.indexed ++ [name]) e.text_name
  · refine ⟨{ report with failures := report.failures ++ [⟨source.origin, error⟩] }, s.table,
      { texts with failures := texts.failures ++ [⟨source.origin, error⟩] }, b, ?_, ?_, h, hindexed,
      ?_⟩
    · rw [run_takeDecoded, hadd]
    · rw [Builder.takeDecoded, htexts]
    · exact congrArg (· ++ [(⟨source.origin, error⟩ : BatchFailure)]) hfailures

theorem Shows.foldlM_takeDecoded (h : s.Shows b) {report : HandleReport} {texts : BatchReport}
    (hreport : ReportsAs s.names report texts) (sources : List ClassSource)
    (ks : List (Except DecodeError (ClassDecl s.names.Entry))) :
    ∃ report' table texts' b',
      ((sources.zip (ks.map (Except.map (ClassDecl.rename Entry.name)))).foldlM
            Indexer.takeDecoded report).run s = (report', { s with table := table })
        ∧ (sources.zip (ks.map (Except.map (ClassDecl.rename Entry.text)))).foldl
            Builder.takeDecoded (texts, b) = (texts', b')
        ∧ ({ s with table := table } : Indexer).Shows b' ∧ ReportsAs s.names report' texts' := by
  induction sources generalizing s b report texts with
  | nil => exact ⟨report, s.table, texts, b, rfl, rfl, h, hreport⟩
  | cons source sources ih =>
    cases ks with
    | nil => exact ⟨report, s.table, texts, b, rfl, rfl, h, hreport⟩
    | cons k ks =>
      obtain ⟨report₁, table₁, texts₁, b₁, hrun, htexts, hshows, hreport₁⟩ :=
        h.takeDecoded hreport source k
      obtain ⟨report₂, table₂, texts₂, b₂, hmore, htexts', hshows', hreport₂⟩ :=
        ih hshows hreport₁ ks
      refine ⟨report₂, table₂, texts₂, b₂, ?_, ?_, hshows', hreport₂⟩
      · simp only [List.map_cons, List.zip_cons_cons, List.foldlM_cons, StateT.run_bind]
        rw [hrun]
        exact hmore
      · rw [List.map_cons, List.zip_cons_cons, List.foldl_cons, htexts]
        exact htexts'

theorem Shows.addBatch (h : s.Shows b) {sources : List ClassSource}
    {decoded : List (Except DecodeError (ClassDecl Name))} (hdecodes : s.Decodes sources u decoded) :
    ∃ report table, (addBatch sources decoded).run { s with names := u }
        = (report, ⟨u, s.config, table⟩)
      ∧ (⟨u, s.config, table⟩ : Indexer).Shows (b.indexBatch sources).2
      ∧ ReportsAs u report (b.indexBatch sources).1 := by
  obtain ⟨hgrows, ks, htexts, hnames⟩ := hdecodes
  have hshows : ({ s with names := u } : Indexer).Shows b := h.extend hgrows
  have hempty : ReportsAs u ⟨[], []⟩ ⟨[], []⟩ := ⟨rfl, rfl⟩
  obtain ⟨report, table, texts, b', hrun, hfold, hlast, hreport⟩ :=
    hshows.foldlM_takeDecoded hempty sources ks
  have hbatch : b.indexBatch sources = (texts, b') := by
    rw [Builder.indexBatch, Builder.decodeAll, ← h.1, ← htexts]
    exact hfold
  rw [hnames] at hrun
  rw [hbatch]
  exact ⟨report, table, hrun, hlast, hreport⟩

theorem indexed_textCalls (t : NameTable) (calls : Calls Name) :
    (textCalls t calls).indexed = calls.indexed.map t.text := by
  induction calls with
  | nil => rfl
  | cons call calls ih =>
    obtain ⟨source, outcome⟩ := call
    cases outcome with
    | ok n => exact congrArg (t.text n :: ·) ih
    | error error => exact ih

theorem failures_textCalls (t : NameTable) (calls : Calls Name) :
    (textCalls t calls).failures = calls.failures := by
  induction calls with
  | nil => rfl
  | cons call calls ih =>
    obtain ⟨source, outcome⟩ := call
    cases outcome with
    | ok n => exact ih
    | error error => exact congrArg (_ :: ·) ih

/-- The batch over what was decoded leaves the classes that the calls leave and reports what they
gave, by text; and it does so as the builder does. -/
structure RefinesCalls (s : Indexer) (b : Builder) (sources : List ClassSource) (u : NameTable)
    (decoded : List (Except DecodeError (ClassDecl Name))) : Prop where
  classes : ((addBatch sources decoded).run { s with names := u }).2.classTexts
    = ((callEach sources).run s).2.classTexts
  indexed : ((addBatch sources decoded).run { s with names := u }).1.indexed.map u.text
    = ((callEach sources).run s).1.indexed.map ((callEach sources).run s).2.names.text
  failures : ((addBatch sources decoded).run { s with names := u }).1.failures
    = ((callEach sources).run s).1.failures
  calls : ((callEach sources).run s).1.map (·.1) = sources
  accounted : ((addBatch sources decoded).run { s with names := u }).1.indexed.length
    + ((addBatch sources decoded).run { s with names := u }).1.failures.length = sources.length
  names : ((addBatch sources decoded).run { s with names := u }).2.names = u
  shows : ((addBatch sources decoded).run { s with names := u }).2.Shows (b.indexBatch sources).2
  reports : ReportsAs u ((addBatch sources decoded).run { s with names := u }).1
    (b.indexBatch sources).1

theorem Shows.refinesCalls (h : s.Shows b) {sources : List ClassSource}
    {decoded : List (Except DecodeError (ClassDecl Name))} (hdecodes : s.Decodes sources u decoded) :
    s.RefinesCalls b sources u decoded := by
  obtain ⟨report, table, hrun, hshows, hindexed, hfailures⟩ := h.addBatch hdecodes
  obtain ⟨_, hlast, hcalls⟩ := h.callEach sources
  have hbatch := b.refinesCalls sources
  have hreport : (b.indexBatch sources).1
      = ⟨(b.callEach sources).1.indexed, (b.callEach sources).1.failures⟩ := by rw [hbatch.batch]
  have hlast' : (b.indexBatch sources).2 = (b.callEach sources).2 := by rw [hbatch.batch]
  have hsources := hbatch.calls
  have haccounted := hbatch.accounted
  rw [← hcalls, textCalls, List.map_map] at hsources
  rw [← hindexed, ← hfailures, List.length_map] at haccounted
  constructor
  · rw [hrun, hlast.classTexts, ← hlast', hshows.classTexts]
  · rw [hrun, hindexed, hreport, ← hcalls, indexed_textCalls]
  · rw [hrun, hfailures, hreport, ← hcalls, failures_textCalls]
  · exact hsources
  · rw [hrun]
    exact haccounted
  · rw [hrun]
  · rw [hrun]
    exact hshows
  · rw [hrun]
    exact ⟨hindexed, hfailures⟩

theorem exists_shows (h : HandleTable.Valid s.names s.table) : ∃ b : Builder, s.Shows b := by
  obtain ⟨ks, texts, hold⟩ := h.exists_holds
  exact ⟨⟨s.config, 0, texts⟩, rfl, ks, hold⟩

theorem addClass_of_error {c : ClassDecl Name} {error : IndexError} {s' : Indexer}
    (h : (addClass c).run.run s = (.error error, s')) : s' = s := by
  rw [run_addClass] at h
  split at h
  · cases h
  · cases h
    rfl

/-- A call that fails may leave names behind, but no class. -/
theorem Shows.indexClass_of_error (h : s.Shows b) {bytes : List UInt8} {error : IndexError}
    {s' : Indexer} (herror : (Indexer.indexClass bytes).run.run s = (.error error, s')) :
    s'.table = s.table ∧ s'.classTexts = s.classTexts := by
  obtain ⟨u, hext, ⟨e, table, b', hrun, _, _⟩ | ⟨error', hrun, _⟩⟩ := h.indexClass ⟨"", bytes⟩
  · rw [hrun] at herror
    cases herror
  · rw [hrun] at herror
    cases herror
    exact ⟨rfl, (h.extend hext).classTexts.trans h.classTexts.symm⟩

/-- A batch refines one call for each source, for classes under texts and, in whatever order names
get their handles, for classes under handles. A call that fails leaves the classes as they were.
That the name table may be full is left out, as in `NameTable.intern`. -/
theorem batch_refines_calls (sources : List ClassSource) :
    (∀ b : Builder, b.RefinesCalls sources)
      ∧ (∀ s : Indexer, HandleTable.Valid s.names s.table ↔ ∃ b, s.Shows b)
      ∧ ∀ (s : Indexer) (b : Builder), s.Shows b →
        (∀ c error s', (addClass c).run.run s = (.error error, s') → s' = s)
        ∧ (∀ bytes error s', (indexClass bytes).run.run s = (.error error, s') →
          s'.table = s.table ∧ s'.classTexts = s.classTexts)
        ∧ (∀ u decoded, s.Decodes sources u decoded → s.RefinesCalls b sources u decoded)
        ∧ ∃ u decoded, s.Decodes sources u decoded ∧ (indexBatch sources).run s
          = (addBatch sources decoded).run { s with names := u } := by
  refine ⟨fun b => b.refinesCalls sources, fun s => ⟨exists_shows, fun ⟨b, h⟩ => h.valid⟩,
    fun s b h => ?_⟩
  refine ⟨fun c error s' herror => addClass_of_error herror,
    fun bytes error s' herror => h.indexClass_of_error herror,
    fun u decoded hdecodes => h.refinesCalls hdecodes, ?_⟩
  obtain ⟨u, decoded, hdecodes, hrun⟩ := decodes_mapM sources s
  refine ⟨u, decoded, hdecodes, ?_⟩
  rw [indexBatch, StateT.run_bind, hrun]
  rfl

def threeSources : List ClassSource :=
  let file : List UInt8 := [0xCA, 0xFE, 0xBA, 0xBE, 0, 0, 0, 52, 0, 3, 1, 0, 1, 65, 7, 0, 1, 0, 0x21,
    0, 2, 0, 0, 0, 0, 0, 0, 0, 0, 0, 0]
  [⟨"first", file⟩, ⟨"broken", file.take 2⟩, ⟨"again", file⟩]

theorem batch_refines_calls_threeSources :
    ∃ report s, (indexBatch threeSources).run (start .fresh .standard) = (report, s)
      ∧ report.indexed.map s.names.text = ["A"]
      ∧ report.failures = [⟨"broken", .decode (.unexpectedEnd 0 2)⟩, ⟨"again", .duplicateClass "A"⟩]
      ∧ s.classTexts.map (·.name) = ["A"] := by
  have hshows : (start .fresh .standard).Shows (.start .standard 1) :=
    ⟨rfl, [], HandleTable.holds_empty⟩
  have hindexed : ((Builder.start .standard 1).indexBatch threeSources).1.indexed = ["A"] := by
    decide +kernel
  have hfailures : ((Builder.start .standard 1).indexBatch threeSources).1.failures
      = [⟨"broken", .decode (.unexpectedEnd 0 2)⟩, ⟨"again", .duplicateClass "A"⟩] := by
    decide +kernel
  have hclasses : ((Builder.start .standard 1).indexBatch threeSources).2.table.classes.map
      (·.name) = ["A"] := by
    decide +kernel
  obtain ⟨_, _, hcalls⟩ := batch_refines_calls threeSources
  obtain ⟨_, _, hrefines, u, decoded, hdecodes, hbatch⟩ := hcalls _ _ hshows
  obtain ⟨_, _, _, _, _, hnames, hlast, hreports⟩ := hrefines u decoded hdecodes
  rw [← hbatch] at hnames hlast hreports
  generalize (indexBatch threeSources).run (start .fresh .standard) = out at *
  obtain ⟨report, s⟩ := out
  refine ⟨report, s, rfl, ?_, ?_, ?_⟩
  · rw [hnames, hreports.1, hindexed]
  · rw [hreports.2, hfailures]
  · rw [hlast.classTexts, hclasses]

end Indexer

end ClassCatalog
