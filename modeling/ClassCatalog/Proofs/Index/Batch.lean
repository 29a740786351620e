import ClassCatalog.Index.Builder
import ClassCatalog.Proofs.Outcome

/-! A batch comes to the same as one call for each source. The batch decodes everything before it
adds anything, but adding a class does not change how the next source is decoded. -/

namespace ClassCatalog

abbrev Calls (ν : Type) := List (ClassSource × Except IndexError ν)

namespace Calls

variable {ν : Type}

def indexed (calls : Calls ν) : List ν := calls.filterMap fun call => call.2.toOption

def failures (calls : Calls ν) : List BatchFailure :=
  calls.filterMap fun (source, outcome) =>
    match outcome with
    | .ok _ => none
    | .error error => some ⟨source.origin, error⟩

def good (calls : Calls ν) : List ClassSource :=
  (calls.filter fun call => call.2.toOption.isSome).map (·.1)

section Cons

variable (source : ClassSource) (value : ν) (error : IndexError) (calls : Calls ν)

@[simp] theorem indexed_ok :
    indexed ((source, .ok value) :: calls) = value :: indexed calls := rfl

@[simp] theorem indexed_error :
    indexed ((source, .error error) :: calls) = indexed calls := rfl

@[simp] theorem failures_ok :
    failures ((source, .ok value) :: calls) = failures calls := rfl

@[simp] theorem failures_error :
    failures ((source, .error error) :: calls) = ⟨source.origin, error⟩ :: failures calls := rfl

@[simp] theorem good_ok : good ((source, .ok value) :: calls) = source :: good calls := rfl

@[simp] theorem good_error : good ((source, .error error) :: calls) = good calls := rfl

end Cons

theorem length_indexed_add_failures (calls : Calls ν) :
    (indexed calls).length + (failures calls).length = calls.length := by
  induction calls with
  | nil => rfl
  | cons call calls ih =>
    obtain ⟨source, outcome⟩ := call
    cases outcome with
    | ok value =>
      rw [indexed_ok, failures_ok, List.length_cons, List.length_cons]
      omega
    | error error =>
      rw [indexed_error, failures_error, List.length_cons, List.length_cons]
      omega

end Calls

namespace Builder

def call (b : Builder) (source : ClassSource) : Except IndexError String × Builder :=
  match b.indexClass source.bytes with
  | .ok (name, b') => (.ok name, b')
  | .error error => (.error error, b)

def callEach : Builder → List ClassSource → Calls String × Builder
  | b, [] => ([], b)
  | b, source :: sources =>
    ((source, (b.call source).1) :: ((b.call source).2.callEach sources).1,
      ((b.call source).2.callEach sources).2)

theorem config_of_addDecoded {b b' : Builder} {decoded : Except DecodeError (ClassDecl String)}
    {name : String} (h : b.addDecoded decoded = .ok (name, b')) : b'.config = b.config := by
  obtain ⟨c, _, hadd⟩ := bind_eq_ok h
  obtain ⟨b'', hadd, heq⟩ := bind_eq_ok hadd
  cases heq
  obtain ⟨table, _, heq⟩ := bind_eq_ok hadd
  cases heq
  rfl

theorem config_call (b : Builder) (source : ClassSource) : (b.call source).2.config = b.config := by
  unfold call
  split
  · next name b' h => exact config_of_addDecoded h
  · rfl

theorem call_eq_ok {b b' : Builder} {source : ClassSource} {name : String}
    (h : b.indexClass source.bytes = .ok (name, b')) : b.call source = (.ok name, b') := by
  rw [call, h]

theorem call_eq_error {b : Builder} {source : ClassSource} {error : IndexError}
    (h : b.indexClass source.bytes = .error error) : b.call source = (.error error, b) := by
  rw [call, h]

theorem call_of_error {b : Builder} {source : ClassSource} {error : IndexError}
    (h : (b.call source).1 = .error error) : (b.call source).2 = b := by
  unfold call at h ⊢
  split
  · next name b' hindex =>
    rw [hindex] at h
    cases h
  · rfl

theorem takeDecoded_eq (report : BatchReport) (b : Builder) (source : ClassSource)
    (calls : Calls String) :
    ∃ report', takeDecoded (report, b) (source, ClassFile.decode b.config source.bytes)
        = (report', (b.call source).2)
      ∧ report'.indexed ++ calls.indexed
        = report.indexed ++ Calls.indexed ((source, (b.call source).1) :: calls)
      ∧ report'.failures ++ calls.failures
        = report.failures ++ Calls.failures ((source, (b.call source).1) :: calls) := by
  unfold takeDecoded call indexClass
  dsimp only
  cases b.addDecoded (ClassFile.decode b.config source.bytes) with
  | ok result => exact ⟨_, rfl, by simp, by simp⟩
  | error error => exact ⟨_, rfl, by simp, by simp⟩

theorem foldl_takeDecoded (sources : List ClassSource) (report : BatchReport) (b : Builder) :
    (sources.zip (b.decodeAll sources)).foldl takeDecoded (report, b)
      = (⟨report.indexed ++ (b.callEach sources).1.indexed,
          report.failures ++ (b.callEach sources).1.failures⟩, (b.callEach sources).2) := by
  induction sources generalizing report b with
  | nil => simp [decodeAll, callEach, Calls.indexed, Calls.failures]
  | cons source sources ih =>
    -- The next sources were decoded with the settings of `b`, which the call does not change.
    have hdecode : b.decodeAll sources = (b.call source).2.decodeAll sources := by
      rw [decodeAll, decodeAll, config_call]
    have hzip : (source :: sources).zip (b.decodeAll (source :: sources))
        = (source, ClassFile.decode b.config source.bytes)
          :: sources.zip ((b.call source).2.decodeAll sources) := by
      rw [← hdecode]
      rfl
    obtain ⟨report', htake, hindexed, hfailures⟩ :=
      takeDecoded_eq report b source ((b.call source).2.callEach sources).1
    rw [hzip, List.foldl_cons, htake, ih, hindexed, hfailures]
    rfl

theorem indexBatch_eq_callEach (b : Builder) (sources : List ClassSource) :
    b.indexBatch sources = (⟨(b.callEach sources).1.indexed, (b.callEach sources).1.failures⟩,
      (b.callEach sources).2) := by
  rw [indexBatch, foldl_takeDecoded]
  rfl

theorem map_fst_callEach (b : Builder) (sources : List ClassSource) :
    (b.callEach sources).1.map (·.1) = sources := by
  induction sources generalizing b with
  | nil => rfl
  | cons source sources ih => exact congrArg (source :: ·) (ih _)

/-- Without the sources that fail, the other calls go as before, and none fails. -/
theorem callEach_good (b : Builder) (sources : List ClassSource) :
    (b.callEach (b.callEach sources).1.good).2 = (b.callEach sources).2
      ∧ (b.callEach (b.callEach sources).1.good).1.indexed = (b.callEach sources).1.indexed
      ∧ (b.callEach (b.callEach sources).1.good).1.failures = [] := by
  induction sources generalizing b with
  | nil => exact ⟨rfl, rfl, rfl⟩
  | cons source sources ih =>
    obtain ⟨hlast, hindexed, hfailures⟩ := ih (b.call source).2
    rw [callEach]
    cases hcall : (b.call source).1 with
    | ok name =>
      rw [Calls.good_ok, callEach, hcall, Calls.indexed_ok, Calls.indexed_ok, Calls.failures_ok]
      exact ⟨hlast, congrArg (name :: ·) hindexed, hfailures⟩
    | error error =>
      rw [call_of_error hcall] at hlast hindexed hfailures ⊢
      rw [Calls.good_error, Calls.indexed_error]
      exact ⟨hlast, hindexed, hfailures⟩

/-- The batch leaves the builder that the calls leave and reports what they gave. A source that
fails has no other effect than its failure. -/
structure RefinesCalls (b : Builder) (sources : List ClassSource) : Prop where
  batch : b.indexBatch sources = (⟨(b.callEach sources).1.indexed, (b.callEach sources).1.failures⟩,
    (b.callEach sources).2)
  calls : (b.callEach sources).1.map (·.1) = sources
  accounted : (b.indexBatch sources).1.indexed.length + (b.indexBatch sources).1.failures.length
    = sources.length
  withoutFailures : b.indexBatch (b.callEach sources).1.good
    = (⟨(b.callEach sources).1.indexed, []⟩, (b.callEach sources).2)

theorem refinesCalls (b : Builder) (sources : List ClassSource) : b.RefinesCalls sources where
  batch := b.indexBatch_eq_callEach sources
  calls := b.map_fst_callEach sources
  accounted := by
    have hlength := congrArg List.length (b.map_fst_callEach sources)
    rw [List.length_map] at hlength
    rw [indexBatch_eq_callEach]
    exact (Calls.length_indexed_add_failures _).trans hlength
  withoutFailures := by
    obtain ⟨hlast, hindexed, hfailures⟩ := b.callEach_good sources
    rw [indexBatch_eq_callEach, hlast, hindexed, hfailures]

end Builder

end ClassCatalog
