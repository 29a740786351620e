import ClassCatalog.Proofs.ClassFile.Annotations
import ClassCatalog.Proofs.ClassFile.DescriptorGrammar
import ClassCatalog.Proofs.ClassFile.SignatureRuns

/-! The texts of a class file are shorter than 65536 characters, since their lengths take two
bytes, and a method has no more parameters than its descriptor or signature has characters. -/

namespace ClassCatalog

namespace ModifiedUtf8

theorem length_units? {bytes : List UInt8} {us : List Nat} (h : units? bytes = some us) :
    us.length ≤ bytes.length := by
  fun_induction units? bytes generalizing us with
  | case1 =>
    cases h
    exact Nat.le_refl 0
  | case2 b rest _ ih =>
    obtain ⟨found, hfound, rfl⟩ := Option.map_eq_some_iff.1 h
    exact Nat.succ_le_succ (ih hfound)
  | case3 b b1 rest _ _ ih =>
    obtain ⟨low, _, h⟩ := Option.bind_eq_some_iff.1 h
    obtain ⟨found, hfound, h⟩ := Option.bind_eq_some_iff.1 h
    cases h
    have hrest := ih hfound
    simp only [List.length_cons]
    omega
  | case5 b b1 b2 rest _ _ _ ih =>
    obtain ⟨middle, _, h⟩ := Option.bind_eq_some_iff.1 h
    obtain ⟨low, _, h⟩ := Option.bind_eq_some_iff.1 h
    obtain ⟨found, hfound, h⟩ := Option.bind_eq_some_iff.1 h
    cases h
    have hrest := ih hfound
    simp only [List.length_cons]
    omega
  | case4 | case6 | case7 => cases h

theorem length_chars? {us : List Nat} {cs : List Char} (h : chars? us = some cs) :
    cs.length ≤ us.length := by
  fun_induction chars? us generalizing cs with
  | case1 =>
    cases h
    exact Nat.le_refl 0
  | case2 u _ v rest _ ih =>
    obtain ⟨found, hfound, rfl⟩ := Option.map_eq_some_iff.1 h
    have hrest := ih hfound
    simp only [List.length_cons]
    omega
  | case6 u rest _ _ ih =>
    obtain ⟨found, hfound, rfl⟩ := Option.map_eq_some_iff.1 h
    exact Nat.succ_le_succ (ih hfound)
  | case3 | case4 | case5 => cases h

theorem length_decode {bytes : List UInt8} {text : String} (h : decode bytes = some text) :
    text.toList.length ≤ bytes.length := by
  unfold decode at h
  split at h
  · cases h
    rw [String.toList_ofList]
    exact Nat.le_of_eq (List.length_map _)
  · obtain ⟨us, hus, h⟩ := Option.bind_eq_some_iff.1 h
    obtain ⟨cs, hcs, h⟩ := Option.bind_eq_some_iff.1 h
    cases h
    rw [String.toList_ofList]
    exact Nat.le_trans (length_chars? hcs) (length_units? hus)

end ModifiedUtf8

namespace ClassFile

def IsShort (text : String) : Prop := text.toList.length < UInt16.size

theorem Reader.yields_bytes (n : Nat) : Yields (Reader.bytes n) (·.length = n) := by
  intro c front d h
  simp only [Reader.bytes, StateT.run] at h
  split at h
  · next r hr =>
    cases h
    exact (Cursor.take?_eq_some hr).2.1
  · cases h

def Constant.IsShort : Constant → Prop
  | .utf8 bytes => bytes.length < UInt16.size
  | _ => True

theorem Constant.yields_read (index : Nat) : Yields (Constant.read index) Constant.IsShort := by
  refine Yields.after fun tag => ?_
  split
  · refine Reader.yields_u2.bind fun n hn => (Reader.yields_bytes n).bind fun bytes hbytes => ?_
    apply Yields.pure
    rw [Constant.IsShort, hbytes]
    exact hn
  iterate 9 exact Yields.after fun _ => Yields.pure trivial
  · exact Yields.after fun _ => Yields.after fun _ => Yields.pure trivial
  iterate 6 exact Yields.after fun _ => Yields.pure trivial
  · exact Yields.fail _

namespace ConstantPool

def IsShort (pool : ConstantPool) : Prop := ∀ c, some c ∈ pool.slots → c.IsShort

theorem yields_readFrom (count fuel : Nat) {slots : Array (Option Constant)}
    (h : ∀ c, some c ∈ slots → c.IsShort) :
    Yields (readFrom count fuel slots) fun found => ∀ c, some c ∈ found → c.IsShort := by
  induction fuel generalizing slots with
  | zero => exact Yields.pure h
  | succ fuel ih =>
    refine Yields.ite (fun _ => ?_) fun _ => Yields.pure h
    refine (Constant.yields_read _).bind fun entry hentry => ?_
    have hpush : ∀ c, some c ∈ slots.push (some entry) → c.IsShort := by
      intro c hc
      rcases Array.mem_push.1 hc with hold | hnew
      · exact h c hold
      · cases hnew
        exact hentry
    have hwide : ∀ c, some c ∈ (slots.push (some entry)).push none → c.IsShort := by
      intro c hc
      rcases Array.mem_push.1 hc with hold | hnew
      · exact hpush c hold
      · cases hnew
    exact Yields.ite (fun _ => Yields.ite (fun _ => ih hwide) fun _ => Yields.fail _)
      fun _ => ih hpush

theorem yields_read : Yields ConstantPool.read ConstantPool.IsShort := by
  refine Yields.after fun count => (yields_readFrom count count ?_).bind fun _ h => Yields.pure h
  intro c hc
  simp at hc

variable {pool : ConstantPool}

theorem IsShort.gives_get (h : pool.IsShort) (index : Nat) :
    Gives (pool.get index) Constant.IsShort := by
  unfold get
  split
  · next entry hentry => exact Gives.ok (h entry (Array.mem_of_getElem? hentry))
  · exact Gives.error _

theorem IsShort.gives_utf8 (h : pool.IsShort) (index : Nat) :
    Gives (pool.utf8 index) ClassFile.IsShort := by
  refine (h.gives_get index).bind fun c hc => ?_
  cases c with
  | utf8 bytes =>
    cases hdecode : ModifiedUtf8.decode bytes with
    | none =>
      simp only [hdecode]
      exact Gives.error _
    | some text =>
      simp only [hdecode]
      exact Gives.ok (Nat.lt_of_le_of_lt (ModifiedUtf8.length_decode hdecode) hc)
  | _ => exact Gives.error _

end ConstantPool

namespace Attributes

variable {pool : ConstantPool}

theorem gives_add (h : pool.IsShort) {attributes : Attributes}
    (hattributes : ∀ s ∈ attributes.signature, IsShort s) (name : String) (body : List UInt8) :
    Gives (attributes.add pool name body) fun found => ∀ s ∈ found.signature, IsShort s := by
  unfold add
  split
  · have htext : Gives (signatureText pool body) IsShort := by
      unfold signatureText
      split
      · exact h.gives_utf8 _
      · exact Gives.error _
    refine htext.bind fun text hshort => Gives.ok ?_
    intro s hs
    cases hs
    exact hshort
  · exact Gives.ok hattributes

theorem yields_readMore (h : pool.IsShort) (n : Nat) {attributes : Attributes}
    (hattributes : ∀ s ∈ attributes.signature, IsShort s) :
    Yields (readMore pool n attributes) fun found => ∀ s ∈ found.signature, IsShort s := by
  induction n generalizing attributes with
  | zero => exact Yields.pure hattributes
  | succ n ih =>
    refine Yields.after fun _ => Yields.after fun name => Yields.after fun body => ?_
    exact (Yields.lift (gives_add h hattributes name body)).bind fun found hfound => ih hfound

theorem yields_read (h : pool.IsShort) :
    Yields (Attributes.read pool) fun found => ∀ s ∈ found.signature, IsShort s :=
  Yields.after fun n => yields_readMore h n (by simp)

end Attributes

structure MemberLayout.IsShort (m : MemberLayout) : Prop where
  descriptor : ClassFile.IsShort m.descriptor
  signature : ∀ s ∈ m.attributes.signature, ClassFile.IsShort s

theorem MemberLayout.yields_read {pool : ConstantPool} (h : pool.IsShort) :
    Yields (MemberLayout.read pool) MemberLayout.IsShort := by
  refine Yields.after fun _ => Yields.after fun _ => Yields.after fun _ => Yields.after fun _ => ?_
  refine (Yields.lift (h.gives_utf8 _)).bind fun descriptor hdescriptor => ?_
  exact (Attributes.yields_read h).bind fun attributes hattributes =>
    Yields.pure ⟨hdescriptor, hattributes⟩

theorem Layout.gives_parse_short (config : Config) (bytes : List UInt8) :
    Gives (Layout.parse config bytes) fun layout => ∀ m ∈ layout.methods, m.IsShort := by
  have hread : Yields (Layout.read config) fun layout => ∀ m ∈ layout.methods, m.IsShort := by
    refine Yields.after fun _ => ConstantPool.yields_read.bind fun pool hpool => ?_
    refine Yields.after fun flags => Yields.after fun _ => Yields.after fun name => ?_
    refine Yields.after fun _ => Yields.after fun superName => Yields.after fun interfaces => ?_
    refine Yields.after fun fields => ?_
    refine (Reader.yields_counted (MemberLayout.yields_read hpool)).bind fun methods hmethods => ?_
    exact Yields.after fun _ => Yields.pure hmethods
  refine Gives.bind (fun r hr => hread _ r.1 r.2 hr) fun r hr => ?_
  dsimp only
  split
  · exact Gives.ok hr
  · exact Gives.error _

namespace Signature

open Signature.Parser

def Shrinks {α : Type} (p : Parser α) : Prop :=
  ∀ s a s', p.run s = .ok (a, s') → s'.rest.length ≤ s.rest.length

namespace Shrinks

variable {α β : Type}

theorem pure (a : α) : Shrinks (Pure.pure a) := by
  intro s b s' h
  cases h
  exact Nat.le_refl _

theorem fail (fault : SignatureFault) : Shrinks (Parser.fail fault : Parser α) := nofun

theorem get : Shrinks (MonadState.get : Parser Scan) := by
  intro s b s' h
  cases h
  exact Nat.le_refl _

theorem bind {p : Parser α} {k : α → Parser β} (hp : Shrinks p) (hk : ∀ a, Shrinks (k a)) :
    Shrinks (p >>= k) := by
  intro s b s' h
  rw [StateT.run_bind] at h
  obtain ⟨⟨a, s₁⟩, ha, hb⟩ := bind_eq_ok h
  exact Nat.le_trans (hk a s₁ b s' hb) (hp s a s₁ ha)

theorem map {p : Parser α} (f : α → β) (hp : Shrinks p) : Shrinks (do return f (← p)) :=
  hp.bind fun _ => pure _

theorem mapped {p : Parser α} {f : α → β} (hp : Shrinks p) : Shrinks (f <$> p) := by
  rw [← bind_pure_comp]
  exact hp.map f

theorem ite {c : Prop} [Decidable c] {p q : Parser α} (hp : Shrinks p) (hq : Shrinks q) :
    Shrinks (if c then p else q) := by
  split
  · exact hp
  · exact hq

end Shrinks

variable {α : Type} {reference : Parser (Ty String)}

theorem shrinks_peek : Shrinks peek := Shrinks.get.map _

theorem shrinks_eat (c : Char) : Shrinks (eat c) := by
  rintro ⟨rest, offset⟩ b s' h
  cases rest with
  | nil =>
    cases h
    exact Nat.le_refl _
  | cons d rest =>
    by_cases hd : d = c
    · rw [hd, run_eat_self] at h
      cases h
      exact Nat.le_succ _
    · rw [run_eat_of_ne hd] at h
      cases h
      exact Nat.le_refl _

theorem shrinks_expect (c : Char) (fault : SignatureFault) : Shrinks (expect c fault) :=
  (shrinks_eat c).bind fun _ => Shrinks.ite (Shrinks.pure _) (Shrinks.fail fault)

theorem shrinks_identifier (stops : List Char) : Shrinks (identifier stops) := by
  intro s text s' h
  unfold identifier at h
  rw [run_bind_of_ok (run_get s)] at h
  have hdrop := (List.dropWhile_suffix (l := s.rest) (!stops.contains ·)).length_le
  generalize s.rest.dropWhile (!stops.contains ·) = rest at h hdrop
  cases rest with
  | nil => cases h
  | cons c rest =>
    dsimp only at h
    split at h
    · cases h
    · cases h
      exact hdrop

theorem shrinks_whileFuel {again : Parser Bool} {item : Parser α} (hagain : Shrinks again)
    (hitem : Shrinks item) (fuel : Nat) : Shrinks (whileFuel again item fuel) := by
  induction fuel with
  | zero => exact Shrinks.fail _
  | succ fuel ih =>
    exact hagain.bind fun _ => Shrinks.ite (hitem.bind fun _ => ih.map _) (Shrinks.pure _)

theorem shrinks_repeatWhile {again : Parser Bool} {item : Parser α} (hagain : Shrinks again)
    (hitem : Shrinks item) : Shrinks (repeatWhile again item) :=
  Shrinks.get.bind fun _ => shrinks_whileFuel hagain hitem _

theorem shrinks_upTo {close : Char} {item : Parser α} (h : Shrinks item) :
    Shrinks (upTo close item) :=
  shrinks_repeatWhile ((shrinks_eat close).map _) h

theorem shrinks_typeVariable : Shrinks typeVariable := by
  refine (shrinks_expect _ _).bind fun _ => (shrinks_identifier _).bind fun _ => ?_
  exact (shrinks_eat _).bind fun _ => Shrinks.pure _

theorem shrinks_typeArgument (h : Shrinks reference) : Shrinks (typeArgument reference) := by
  refine (shrinks_eat _).bind fun _ => Shrinks.ite (Shrinks.pure _) ?_
  refine (shrinks_eat _).bind fun _ => Shrinks.ite (h.map _) ?_
  refine (shrinks_eat _).bind fun _ => Shrinks.ite (h.map _) ?_
  refine shrinks_peek.bind fun next => ?_
  cases next with
  | none => exact Shrinks.fail _
  | some c => exact h

theorem shrinks_typeArguments (h : Shrinks reference) : Shrinks (typeArguments reference) := by
  refine (shrinks_eat _).bind fun _ => Shrinks.ite ?_ (Shrinks.pure _)
  refine (shrinks_upTo (shrinks_typeArgument h)).bind fun _ => ?_
  exact Shrinks.ite (Shrinks.fail _) (Shrinks.pure _)

theorem shrinks_segments (h : Shrinks reference) (fuel : Nat) (internal : String)
    (outer : Option (Ty String)) : Shrinks (segments reference fuel internal outer) := by
  induction fuel generalizing internal outer with
  | zero => exact Shrinks.fail _
  | succ fuel ih =>
    refine (shrinks_typeArguments h).bind fun _ => (shrinks_eat _).bind fun _ => ?_
    exact Shrinks.ite ((shrinks_identifier _).bind fun _ => ih _ _) (Shrinks.pure _)

theorem shrinks_classType (h : Shrinks reference) : Shrinks (classType reference) := by
  refine (shrinks_expect _ _).bind fun _ => (shrinks_identifier _).bind fun _ => ?_
  refine Shrinks.get.bind fun _ => (shrinks_segments h _ _ _).bind fun _ => ?_
  exact (shrinks_expect _ _).bind fun _ => Shrinks.pure _

theorem shrinks_dimensions (fuel : Nat) : Shrinks (dimensions fuel) := by
  induction fuel with
  | zero =>
    exact (shrinks_eat _).bind fun _ => Shrinks.ite ((Shrinks.fail _).bind fun _ => Shrinks.pure _)
      (Shrinks.pure _)
  | succ fuel ih =>
    exact (shrinks_eat _).bind fun _ => Shrinks.ite (ih.map _) (Shrinks.pure _)

theorem shrinks_javaType (h : Shrinks reference) : Shrinks (javaType reference) := by
  refine shrinks_peek.bind fun next => ?_
  cases next.bind Primitive.ofLetter? with
  | none => exact h
  | some p => exact (shrinks_eat _).bind fun _ => Shrinks.pure _

theorem shrinks_referenceType (levels : Nat) : Shrinks (referenceType levels) := by
  induction levels with
  | zero => exact nofun
  | succ levels ih =>
    refine shrinks_peek.bind fun next => ?_
    split
    · exact shrinks_classType ih
    · exact shrinks_typeVariable
    · exact (shrinks_dimensions _).bind fun _ => (shrinks_javaType ih).map _
    · exact Shrinks.fail _

theorem shrinks_typeParameter (h : Shrinks reference) : Shrinks (typeParameter reference) := by
  refine (shrinks_identifier _).bind fun _ => (shrinks_expect _ _).bind fun _ => ?_
  refine shrinks_peek.bind fun _ => ?_
  have hothers : Shrinks (repeatWhile (eat ':') reference) :=
    shrinks_repeatWhile (shrinks_eat _) h
  refine Shrinks.ite ?_ ((Shrinks.pure _).bind fun _ => hothers.bind fun _ => Shrinks.pure _)
  exact h.mapped.bind fun _ => hothers.bind fun _ => Shrinks.pure _

theorem shrinks_typeParameters (h : Shrinks reference) : Shrinks (typeParameters reference) := by
  refine (shrinks_eat _).bind fun _ => Shrinks.ite ?_ (Shrinks.pure _)
  refine (shrinks_upTo (shrinks_typeParameter h)).bind fun _ => ?_
  exact Shrinks.ite (Shrinks.fail _) (Shrinks.pure _)

theorem yields_length_whileFuel (again : Parser Bool) (item : Parser α) (fuel : Nat) :
    Yields (whileFuel again item fuel) (·.length < fuel) := by
  induction fuel with
  | zero => exact yields_fail _
  | succ fuel ih =>
    refine Yields.after fun _ => Yields.ite (fun _ => Yields.after fun _ => ?_) fun _ => ?_
    · exact ih.bind fun _ has => Yields.pure (Nat.succ_lt_succ has)
    · exact Yields.pure (Nat.succ_pos fuel)

theorem length_upTo {close : Char} {item : Parser α} {s s' : Scan} {as : List α}
    (h : (upTo close item).run s = .ok (as, s')) : as.length ≤ s.rest.length := by
  unfold upTo repeatWhile at h
  rw [run_bind_of_ok (run_get s)] at h
  exact Nat.le_of_lt_succ (yields_length_whileFuel _ _ _ s as s' h)

theorem length_parameters_methodBody {s s' : Scan} {types : MethodSignature String}
    (h : methodBody.run s = .ok (types, s')) : types.parameters.length ≤ s.rest.length := by
  unfold methodBody at h
  rw [StateT.run_bind] at h
  obtain ⟨⟨typeParameters, s₁⟩, htypeParameters, h⟩ := bind_eq_ok h
  rw [StateT.run_bind] at h
  obtain ⟨⟨_, s₂⟩, hopen, h⟩ := bind_eq_ok h
  rw [StateT.run_bind] at h
  obtain ⟨⟨parameters, s₃⟩, hparameters, h⟩ := bind_eq_ok h
  have hsame : types.parameters = parameters := by
    refine (?_ : Yields _ fun t : MethodSignature String => t.parameters = parameters) _ _ _ h
    refine Yields.after fun _ => Yields.ite (fun _ => Yields.after fun _ => ?_) fun _ => ?_
    · exact Yields.after fun _ => Yields.after fun _ => Yields.pure rfl
    · exact Yields.after fun _ => Yields.after fun _ => Yields.after fun _ => Yields.pure rfl
  rw [hsame]
  have hfirst := shrinks_typeParameters (shrinks_referenceType _) _ _ _ htypeParameters
  have hsecond : s₂.rest.length ≤ s₁.rest.length := shrinks_expect _ _ _ _ _ hopen
  have hlast : parameters.length ≤ s₂.rest.length := length_upTo hparameters
  omega

end Signature

theorem Context.gives_length_methodTypes {m : MemberLayout} (h : m.IsShort)
    {erased : List (Ty String) × Ty String} (herased : erased.1.length < UInt16.size)
    (thrown : List (Ty String)) :
    Gives (methodTypes m.attributes.signature erased thrown)
      (·.parameters.length < UInt16.size) := by
  unfold methodTypes
  split
  · exact Gives.ok herased
  · next signature hsignature =>
    have hparameters : Gives (Signature.run Signature.methodBody signature) fun types =>
        types.parameters.length < UInt16.size := by
      intro types htypes
      obtain ⟨s, hs⟩ := Signature.run_eq_ok htypes
      exact Nat.lt_of_le_of_lt (Signature.length_parameters_methodBody hs)
        (h.signature signature hsignature)
    exact hparameters.bind fun types htypes => Gives.ok htypes

theorem Descriptor.gives_length_parseMethod {descriptor : String} (h : IsShort descriptor) :
    Gives (parseMethod descriptor) fun types => types.1.length < UInt16.size := by
  intro types htypes
  obtain ⟨m, rfl, rfl⟩ := (parseMethod_eq_ok_iff descriptor types).1 htypes
  rw [IsShort, MethodForm.text, String.toList_ofList, MethodForm.chars] at h
  have hparameters := length_le_length_flatMap fun f (_ : f ∈ m.parameters) => f.length_chars_pos
  have htypes : m.types.1.length = m.parameters.length := List.length_map _
  simp only [List.length_cons, List.length_append] at h
  omega

end ClassFile

end ClassCatalog
