import ClassCatalog.Proofs.ClassFile.SignatureFile
import ClassCatalog.Proofs.Prolonged

/-! A class file says itself where it ends: nothing shorter is one, and nothing may follow it. -/

namespace ClassCatalog.ClassFile

variable {α : Type}

def IsShortage (e : DecodeError) : Prop := ∃ offset needed, e = .unexpectedEnd offset needed

namespace Reader

theorem steady_bytes (n : Nat) : Steady IsShortage (bytes n) := by
  apply Steady.take (n := n)
  · intro c r h
    rw [StateT.run, bytes, h]
  · intro c h
    refine ⟨.unexpectedEnd c.offset (n - c.rest.length), ⟨_, _, rfl⟩, ?_⟩
    rw [StateT.run, bytes, h]

theorem steady_u1 : Steady IsShortage u1 := (steady_bytes 1).mapped _

theorem steady_u2 : Steady IsShortage u2 := (steady_bytes 2).mapped _

theorem steady_u4 : Steady IsShortage u4 := (steady_bytes 4).mapped _

theorem steady_u8 : Steady IsShortage u8 := (steady_bytes 8).mapped _

theorem steady_sized : Steady IsShortage sized := steady_u4.bind steady_bytes

theorem steady_counted {item : Reader α} (h : Steady IsShortage item) :
    Steady IsShortage (counted item) := steady_u2.bind h.times

end Reader

open Reader

theorem Constant.steady_readLink (size : Nat) (kind : LinkKind) :
    Steady IsShortage (readLink size kind) := ((steady_bytes size).bind fun _ => .pure ()).map _

theorem Constant.steady_read (index : Nat) : Steady IsShortage (read index) := by
  refine steady_u1.bind fun tag => ?_
  split
  case h_1 => exact steady_u2.bind fun n => (steady_bytes n).map _
  case h_2 => exact steady_u4.map _
  case h_3 => exact steady_u4.map _
  case h_4 => exact steady_u8.map _
  case h_5 => exact steady_u8.map _
  case h_6 => exact steady_u2.map _
  case h_11 => exact steady_u2.bind fun name => steady_u2.map _
  case h_18 => exact .fail _
  all_goals exact steady_readLink _ _

namespace ConstantPool

/-- Entries are read whole before it is asked whether their numbers are left. -/
theorem steady_readFrom (count fuel : Nat) (slots : Array (Option Constant)) :
    Steady IsShortage (readFrom count fuel slots) := by
  induction fuel generalizing slots with
  | zero => exact .pure slots
  | succ fuel ih =>
    refine .ite ?_ (.pure slots)
    refine (Constant.steady_read slots.size).bind fun entry => ?_
    exact .ite (.ite (ih _) (.fail _)) (ih _)

theorem steady_read : Steady IsShortage read :=
  steady_u2.bind fun count => (steady_readFrom count count #[none]).map _

end ConstantPool

namespace Attributes

theorem steady_readMore (pool : ConstantPool) (n : Nat) (attributes : Attributes) :
    Steady IsShortage (readMore pool n attributes) := by
  induction n generalizing attributes with
  | zero => exact .pure attributes
  | succ n ih =>
    refine steady_u2.bind fun index => (Steady.lift _).bind fun name => ?_
    exact steady_sized.bind fun body => (Steady.lift _).bind fun attributes => ih attributes

theorem steady_read (pool : ConstantPool) : Steady IsShortage (read pool) :=
  steady_u2.bind fun n => steady_readMore pool n _

end Attributes

theorem MemberLayout.steady_read (pool : ConstantPool) : Steady IsShortage (read pool) := by
  refine (steady_u2.mapped _).bind fun flags => ?_
  refine steady_u2.bind fun name => (Steady.lift _).bind fun name => ?_
  refine steady_u2.bind fun descriptor => (Steady.lift _).bind fun descriptor => ?_
  exact (Attributes.steady_read pool).map _

namespace Layout

theorem steady_readHeader (config : Config) : Steady IsShortage (readHeader config) := by
  refine steady_u4.bind fun found => ?_
  have hversion : Steady IsShortage (do
      let minor ← u2
      let major ← u2
      unless config.acceptsMajor major do throw (.unsupportedVersion major minor)) :=
    steady_u2.bind fun minor => steady_u2.bind fun major => .ite (.pure _) (.fail _)
  exact .ite hversion ((Steady.fail _).bind fun _ => hversion)

theorem steady_read (config : Config) : Steady IsShortage (read config) := by
  refine (steady_readHeader config).bind fun _ => ConstantPool.steady_read.bind fun pool => ?_
  refine (steady_u2.mapped _).bind fun flags => ?_
  refine steady_u2.bind fun name => (Steady.lift _).bind fun name => ?_
  refine steady_u2.bind fun superName => (Steady.lift _).bind fun superName => ?_
  refine (steady_counted (steady_u2.bind fun index => .lift _)).bind fun interfaces => ?_
  refine (steady_counted (MemberLayout.steady_read pool)).bind fun fields => ?_
  refine (steady_counted (MemberLayout.steady_read pool)).bind fun methods => ?_
  exact (Attributes.steady_read pool).map _

theorem parse_eq_ok {config : Config} {bytes : List UInt8} {layout : Layout}
    (h : parse config bytes = .ok layout) :
    ∃ offset, (read config).run (.ofBytes bytes) = .ok (layout, ⟨[], offset⟩) := by
  obtain ⟨⟨layout', rest, offset⟩, hrun, hend⟩ := bind_eq_ok h
  cases rest with
  | nil =>
    cases hend
    exact ⟨offset, hrun⟩
  | cons b rest => cases hend

end Layout

/-- No part of a class file that decoding accepts is accepted, since its end comes too early, and
neither is anything longer, since bytes are left over. -/
theorem delimited_of_decode {config : Config} {bytes : List UInt8} {c : ClassDecl String}
    (h : decode config bytes = .ok c) :
    (∀ front, front <+: bytes → front ≠ bytes →
        ∃ offset needed, decode config front = .error (.unexpectedEnd offset needed))
      ∧ ∀ more, more ≠ [] →
        decode config (bytes ++ more) = .error (.trailingBytes more.length) := by
  obtain ⟨d, hdraft, _⟩ := bind_eq_ok h
  obtain ⟨layout, hparse, _⟩ := bind_eq_ok hdraft
  obtain ⟨offset, hrun⟩ := Layout.parse_eq_ok hparse
  have hsteady := Layout.steady_read config
  constructor
  · rintro front ⟨more, rfl⟩ hne
    have hmore : more ≠ [] := fun hnil => hne (by rw [hnil, List.append_nil])
    obtain ⟨e, ⟨offset, needed, rfl⟩, herror⟩ := hsteady.error_of_run hrun rfl hmore
    refine ⟨offset, needed, ?_⟩
    have hfront : (Layout.read config).run (.ofBytes front) = _ := herror
    rw [decode, draft, Layout.parse, hfront]
    rfl
  · intro more hmore
    obtain ⟨_, rfl, hlong⟩ := hsteady.run_append hrun more
    have hlong' : (Layout.read config).run (.ofBytes (bytes ++ more)) = _ := hlong
    rw [decode, draft, Layout.parse, hlong']
    cases more with
    | nil => exact absurd rfl hmore
    | cons b more => rfl

theorem delimited_signatureFile :
    (∃ c, decode .standard (signatureFile [76, 65, 59]) = .ok c)
      ∧ (∃ offset needed, decode .standard (signatureFile [76, 65, 59]).dropLast
        = .error (.unexpectedEnd offset needed))
      ∧ decode .standard (signatureFile [76, 65, 59] ++ [0]) = .error (.trailingBytes 1) := by
  have htext : ModifiedUtf8.decode [76, 65, 59] = some "LA;" := by decide
  have hparse : Signature.parseClass "LA;" = .ok ⟨[], .named "A", []⟩ :=
    eq_ok_of_toOption (by decide +kernel)
  have hdecode := decode_signatureFile (by decide) htext hparse
  obtain ⟨hshort, hlong⟩ := delimited_of_decode hdecode
  refine ⟨⟨_, hdecode⟩, hshort _ (List.dropLast_prefix _) ?_, hlong [0] (by decide)⟩
  exact fun heq => absurd (congrArg List.length heq) (by decide)

end ClassCatalog.ClassFile
