import Mathlib.Data.List.Forall2
import ClassCatalog.Proofs.Command.Items
import ClassCatalog.Proofs.Outcome

/-! The options that items stand for. -/

namespace ClassCatalog.Command

namespace Item

def path? : Item → Option String
  | input path => some path
  | _ => none

def value? (wanted : Setting) : Item → Option String
  | short value => if wanted = .output then some value else none
  | apart setting value | joined setting value => if setting = wanted then some value else none
  | _ => none

def apply (o : IndexOptions) : Item → Except Misuse IndexOptions
  | input path => .ok { o with inputs := o.inputs ++ [path] }
  | noInvisible _ => .ok { o with includeInvisible := false }
  | short value => Setting.output.apply o value
  | apart setting value | joined setting value => setting.apply o value

end Item

def valuesOf (setting : Setting) (items : List Item) : List String :=
  items.filterMap (Item.value? setting)

def ReadsVersion (text : String) (version : Archive.Version) : Prop :=
  ∃ n, number? UInt8.size text = some n ∧ Archive.Version.ofNumber n = .ok version

def ReadsCount (text : String) (count : Nat) : Prop := number? UInt64.size text = some count

/-- The options that items make of those in `start`: all paths in their order, and of each
setting the last value, though all values must be readable. -/
@[mk_iff]
structure Denotes (start : IndexOptions) (items : List Item) (o : IndexOptions) : Prop where
  inputs : o.inputs = start.inputs ++ items.filterMap Item.path?
  output : o.output = (valuesOf .output items).getLastD start.output
  version : ∃ versions, List.Forall₂ ReadsVersion (valuesOf .formatVersion items) versions
    ∧ o.version = versions.getLastD start.version
  threads : ∃ counts, List.Forall₂ ReadsCount (valuesOf .threads items) counts
    ∧ o.threads = counts.getLastD start.threads
  includeInvisible : o.includeInvisible = true
    ↔ start.includeInvisible = true ∧ ∀ value, Item.noInvisible value ∉ items

theorem Setting.apply_formatVersion_eq_ok {o next : IndexOptions} {value : String} :
    Setting.formatVersion.apply o value = .ok next
      ↔ ∃ version, ReadsVersion value version ∧ { o with version := version } = next := by
  unfold ReadsVersion
  rw [apply]
  split
  · next hnone => simp [hnone]
  · next n hn =>
    split
    · next version hversion => simp [hn, hversion]
    · next error herror => simp [hn, herror]

theorem Setting.apply_threads_eq_ok {o next : IndexOptions} {value : String} :
    Setting.threads.apply o value = .ok next
      ↔ ∃ count, ReadsCount value count ∧ { o with threads := count } = next := by
  unfold ReadsCount
  rw [apply]
  split
  · next hnone => simp [hnone]
  · next n hn => simp [hn]

section Denotes

variable {start o : IndexOptions} {item : Item} {items : List Item}

theorem denotes_nil : Denotes start [] o ↔ start = o := by
  constructor
  · rintro ⟨hinputs, houtput, ⟨versions, hversions, hversion⟩,
      ⟨counts, hcounts, hthreads⟩, hvisible⟩
    cases hversions
    cases hcounts
    obtain ⟨inputs, output, version, includeInvisible, threads⟩ := o
    obtain ⟨inputs', output', version', includeInvisible', threads'⟩ := start
    simp_all [valuesOf]
  · rintro rfl
    exact ⟨by simp, rfl, ⟨[], .nil, rfl⟩, ⟨[], .nil, rfl⟩, by simp⟩

theorem denotes_input {path : String} :
    Denotes start (.input path :: items) o
      ↔ Denotes { start with inputs := start.inputs ++ [path] } items o := by
  constructor
  · rintro ⟨hinputs, houtput, hversion, hthreads, hvisible⟩
    exact ⟨by simpa [Item.path?] using hinputs, houtput, hversion, hthreads,
      by simpa using hvisible⟩
  · rintro ⟨hinputs, houtput, hversion, hthreads, hvisible⟩
    exact ⟨by simpa [Item.path?] using hinputs, houtput, hversion, hthreads,
      by simpa using hvisible⟩

theorem denotes_noInvisible {value : Option String} :
    Denotes start (.noInvisible value :: items) o
      ↔ Denotes { start with includeInvisible := false } items o := by
  constructor
  · rintro ⟨hinputs, houtput, hversion, hthreads, hvisible⟩
    refine ⟨hinputs, houtput, hversion, hthreads, ?_⟩
    simp only [Bool.false_eq_true, false_and, iff_false]
    exact fun h => (hvisible.1 h).2 value List.mem_cons_self
  · rintro ⟨hinputs, houtput, hversion, hthreads, hvisible⟩
    refine ⟨hinputs, houtput, hversion, hthreads, ?_⟩
    simp only [Bool.false_eq_true, false_and, iff_false] at hvisible
    exact ⟨fun h => absurd h hvisible, fun h => absurd List.mem_cons_self (h.2 value)⟩

theorem denotes_value {setting : Setting} {value : String} (hpath : item.path? = none)
    (hvalue : ∀ wanted, item.value? wanted = if setting = wanted then some value else none)
    (hvisible : ∀ text, item ≠ .noInvisible text) :
    Denotes start (item :: items) o
      ↔ ∃ next, setting.apply start value = .ok next ∧ Denotes next items o := by
  have hpaths : (item :: items).filterMap Item.path? = items.filterMap Item.path? := by
    rw [List.filterMap_cons, hpath]
  have hvalues : ∀ wanted, valuesOf wanted (item :: items)
      = if setting = wanted then value :: valuesOf wanted items else valuesOf wanted items := by
    intro wanted
    rw [valuesOf, List.filterMap_cons, hvalue]
    split_ifs <;> rfl
  have hflags : (∀ text, Item.noInvisible text ∉ item :: items)
      ↔ ∀ text, Item.noInvisible text ∉ items := by
    simp [List.mem_cons, fun text => (hvisible text).symm]
  rw [denotes_iff, hpaths, hvalues, hvalues, hvalues, hflags]
  cases setting with
  | output =>
    simp only [Setting.apply, if_true, reduceCtorEq, if_false, List.getLastD_cons,
      Except.ok.injEq, exists_eq_left', denotes_iff]
  | formatVersion =>
    simp only [Setting.apply_formatVersion_eq_ok, reduceCtorEq, if_false, if_true,
      List.forall₂_cons_left_iff]
    constructor
    · rintro ⟨hin, hout, ⟨_, ⟨version, versions, hread, hrest, rfl⟩, hlast⟩, hcounts, hvis⟩
      rw [List.getLastD_cons] at hlast
      exact ⟨_, ⟨version, hread, rfl⟩, hin, hout, ⟨versions, hrest, hlast⟩, hcounts, hvis⟩
    · rintro ⟨_, ⟨version, hread, rfl⟩, hin, hout, ⟨versions, hrest, hlast⟩, hcounts, hvis⟩
      refine ⟨hin, hout, ⟨version :: versions, ⟨version, versions, hread, hrest, rfl⟩, ?_⟩,
        hcounts, hvis⟩
      rwa [List.getLastD_cons]
  | threads =>
    simp only [Setting.apply_threads_eq_ok, reduceCtorEq, if_false, if_true,
      List.forall₂_cons_left_iff]
    constructor
    · rintro ⟨hin, hout, hversions, ⟨_, ⟨count, counts, hread, hrest, rfl⟩, hlast⟩, hvis⟩
      rw [List.getLastD_cons] at hlast
      exact ⟨_, ⟨count, hread, rfl⟩, hin, hout, hversions, ⟨counts, hrest, hlast⟩, hvis⟩
    · rintro ⟨_, ⟨count, hread, rfl⟩, hin, hout, hversions, ⟨counts, hrest, hlast⟩, hvis⟩
      refine ⟨hin, hout, hversions, ⟨count :: counts, ⟨count, counts, hread, hrest, rfl⟩, ?_⟩, hvis⟩
      rwa [List.getLastD_cons]

theorem denotes_cons :
    Denotes start (item :: items) o
      ↔ ∃ next, item.apply start = .ok next ∧ Denotes next items o := by
  cases item with
  | input path => simp [denotes_input, Item.apply]
  | noInvisible value => simp [denotes_noInvisible, Item.apply]
  | short value =>
    have hvalue : ∀ wanted, (Item.short value).value? wanted
        = if Setting.output = wanted then some value else none := by
      intro wanted
      simp only [Item.value?, eq_comm]
    exact denotes_value rfl hvalue (by simp)
  | apart setting value | joined setting value => exact denotes_value rfl (fun _ => rfl) (by simp)

theorem foldlM_apply_eq_ok_iff : items.foldlM Item.apply start = .ok o ↔ Denotes start items o := by
  induction items generalizing start with
  | nil =>
    rw [denotes_nil, List.foldlM_nil]
    exact ⟨Except.ok.inj, congrArg _⟩
  | cons item items ih =>
    rw [denotes_cons, List.foldlM_cons]
    constructor
    · intro h
      obtain ⟨next, happly, hrest⟩ := bind_eq_ok h
      exact ⟨next, happly, ih.1 hrest⟩
    · rintro ⟨next, happly, hrest⟩
      rw [happly]
      exact ih.2 hrest

end Denotes

end ClassCatalog.Command
