import ClassCatalog.ClassFile.Decode
import ClassCatalog.Proofs.Outcome

/-! A class file that says nothing of its class but a signature. -/

namespace ClassCatalog.ClassFile

deriving instance DecidableEq for ClassSignature

def utf8Bytes (bytes : List UInt8) : List UInt8 :=
  1 :: UInt8.ofNat (bytes.length / 256) :: UInt8.ofNat (bytes.length % 256) :: bytes

def signatureTail : List UInt8 :=
  [0, 0x21, 0, 2, 0, 0, 0, 0, 0, 0, 0, 0, 0, 1, 0, 3, 0, 0, 0, 2, 0, 4]

def signatureFile (signature : List UInt8) : List UInt8 :=
  0xCA :: 0xFE :: 0xBA :: 0xBE :: 0 :: 0 :: 0 :: 52 :: 0 :: 5
    :: (utf8Bytes [88] ++ (7 :: 0 :: 1
      :: (utf8Bytes [83, 105, 103, 110, 97, 116, 117, 114, 101]
        ++ (utf8Bytes signature ++ signatureTail))))

theorem bigEndian_pair {n : Nat} (h : n < UInt16.size) :
    bigEndian [UInt8.ofNat (n / 256), UInt8.ofNat (n % 256)] = n := by
  have hn : n < 65536 := h
  have hhigh : (UInt8.ofNat (n / 256)).toNat = n / 256 :=
    UInt8.toNat_ofNat_of_lt' (Nat.div_lt_of_lt_mul hn)
  have hlow : (UInt8.ofNat (n % 256)).toNat = n % 256 :=
    UInt8.toNat_ofNat_of_lt' (Nat.mod_lt n (by decide))
  simp only [bigEndian, List.foldl_cons, List.foldl_nil, hhigh, hlow]
  omega

theorem run_bytes (front rest : List UInt8) (offset : Nat) :
    (Reader.bytes front.length).run ⟨front ++ rest, offset⟩
      = .ok (front, ⟨rest, offset + front.length⟩) := by
  simp only [Reader.bytes, StateT.run, Cursor.take?_append]

theorem run_utf8Bytes {bytes : List UInt8} (h : bytes.length < UInt16.size) (rest : List UInt8)
    (offset index : Nat) :
    (Constant.read index).run ⟨utf8Bytes bytes ++ rest, offset⟩
      = .ok (.utf8 bytes, ⟨rest, offset + 1 + 2 + bytes.length⟩) := by
  have hrun : (Constant.read index).run ⟨utf8Bytes bytes ++ rest, offset⟩
      = ((Reader.bytes (bigEndian [UInt8.ofNat (bytes.length / 256),
          UInt8.ofNat (bytes.length % 256)])).run ⟨bytes ++ rest, offset + 1 + 2⟩
        >>= fun r => .ok (.utf8 r.1, r.2)) := rfl
  rw [hrun, bigEndian_pair h, run_bytes]
  rfl

theorem run_readFrom_succ {count fuel : Nat} {slots : Array (Option Constant)} {entry : Constant}
    {c d : Cursor} (hsize : slots.size < count)
    (hentry : ∀ index, (Constant.read index).run c = .ok (entry, d)) (hwide : entry.isWide = false) :
    (ConstantPool.readFrom count (fuel + 1) slots).run c
      = (ConstantPool.readFrom count fuel (slots.push (some entry))).run d := by
  simp only [ConstantPool.readFrom, hsize, if_true, StateT.run_bind, hentry]
  simp [bind, Except.bind, hwide]

def signaturePool (signature : List UInt8) : ConstantPool :=
  ⟨#[none, some (.utf8 [88]), some (.classRef 1),
    some (.utf8 [83, 105, 103, 110, 97, 116, 117, 114, 101]), some (.utf8 signature)]⟩

theorem run_classRef (rest : List UInt8) (offset index : Nat) :
    (Constant.read index).run ⟨7 :: 0 :: 1 :: rest, offset⟩
      = .ok (.classRef 1, ⟨rest, offset + 1 + 2⟩) :=
  rfl

theorem run_signaturePool {signature : List UInt8} (h : signature.length < UInt16.size)
    (rest : List UInt8) :
    (ConstantPool.readFrom 5 5 #[none]).run ⟨utf8Bytes [88] ++ (7 :: 0 :: 1
        :: (utf8Bytes [83, 105, 103, 110, 97, 116, 117, 114, 101]
          ++ (utf8Bytes signature ++ rest))), 10⟩
      = .ok ((signaturePool signature).slots, ⟨rest, 29 + 1 + 2 + signature.length⟩) := by
  rw [run_readFrom_succ (by decide) (run_utf8Bytes (by decide) _ _) rfl,
    run_readFrom_succ (by decide) (run_classRef _ _) rfl,
    run_readFrom_succ (by decide) (run_utf8Bytes (by decide) _ _) rfl,
    run_readFrom_succ (by decide) (run_utf8Bytes h rest _) rfl]
  rfl

theorem utf8_of_get {pool : ConstantPool} {index : Nat} {bytes : List UInt8} {text : String}
    (hget : pool.get index = .ok (.utf8 bytes)) (h : ModifiedUtf8.decode bytes = some text) :
    pool.utf8 index = .ok text := by
  simp only [ConstantPool.utf8, hget, bind, Except.bind, h]
  rfl

theorem run_u2 (a b : UInt8) (rest : List UInt8) (offset : Nat) :
    Reader.u2.run ⟨a :: b :: rest, offset⟩ = .ok (bigEndian [a, b], ⟨rest, offset + 2⟩) :=
  rfl

theorem run_u4 (a b c d : UInt8) (rest : List UInt8) (offset : Nat) :
    Reader.u4.run ⟨a :: b :: c :: d :: rest, offset⟩
      = .ok (bigEndian [a, b, c, d], ⟨rest, offset + 4⟩) :=
  rfl

theorem run_signatureAttribute {signature : List UInt8} {text : String}
    (h : ModifiedUtf8.decode signature = some text) (offset : Nat) :
    (Attributes.read (signaturePool signature)).run ⟨[0, 1, 0, 3, 0, 0, 0, 2, 0, 4], offset⟩
      = .ok (⟨some text, []⟩, ⟨[], offset + 2 + 2 + 4 + 2⟩) := by
  have hname : (signaturePool signature).utf8 3 = .ok "Signature" :=
    utf8_of_get rfl (by decide)
  have htext : (signaturePool signature).utf8 4 = .ok text := utf8_of_get rfl h
  have hadd : Attributes.add (signaturePool signature) ⟨none, []⟩ "Signature" [0, 4]
      = .ok ⟨some text, []⟩ := by
    have hbody : Attributes.signatureText (signaturePool signature) [0, 4] = .ok text := htext
    simp only [Attributes.add, if_true, hbody]
    rfl
  have hsized : Reader.sized.run ⟨[0, 0, 0, 2, 0, 4], offset + 2 + 2⟩
      = .ok ([0, 4], ⟨[], offset + 2 + 2 + 4 + 2⟩) :=
    (run_bind_of_ok (run_u4 0 0 0 2 _ _)).trans (run_bytes [0, 4] [] _)
  refine (run_bind_of_ok (run_u2 0 1 _ _)).trans ?_
  refine (run_bind_of_ok (run_u2 0 3 _ _)).trans ?_
  refine (run_lift_of_ok hname).trans ?_
  refine (run_bind_of_ok hsized).trans ?_
  exact run_lift_of_ok hadd

def signatureLayout (signature : List UInt8) (text : String) : Layout :=
  ⟨signaturePool signature, ⟨0x21⟩, "X", none, [], [], [], ⟨some text, []⟩⟩

theorem run_signatureLayout {signature : List UInt8} {text : String}
    (hlen : signature.length < UInt16.size) (h : ModifiedUtf8.decode signature = some text) :
    ∃ offset, (Layout.read .standard).run (.ofBytes (signatureFile signature))
      = .ok (signatureLayout signature text, ⟨[], offset⟩) := by
  have hheader : (Layout.readHeader .standard).run (.ofBytes (signatureFile signature))
      = .ok ((), ⟨(signatureFile signature).drop 8, 8⟩) := rfl
  have hpool : ConstantPool.read.run ⟨(signatureFile signature).drop 8, 8⟩
      = .ok (signaturePool signature, ⟨signatureTail, 29 + 1 + 2 + signature.length⟩) :=
    (run_bind_of_ok (run_u2 0 5 _ _)).trans
      (run_bind_of_ok (run_signaturePool hlen signatureTail))
  have hutf8 : (signaturePool signature).utf8 1 = .ok "X" := utf8_of_get rfl (by decide)
  have hname : (signaturePool signature).className 2 = .ok "X" := hutf8
  have hsuper : (signaturePool signature).className? 0 = .ok none := rfl
  refine ⟨29 + 1 + 2 + signature.length + 22, ?_⟩
  refine (run_bind_of_ok hheader).trans ?_
  refine (run_bind_of_ok hpool).trans ?_
  refine (run_bind_of_ok (rfl : Reader.word.run ⟨signatureTail, _⟩ = .ok (0x21, _))).trans ?_
  refine (run_bind_of_ok (run_u2 0 2 _ _)).trans ?_
  refine (run_lift_of_ok hname).trans ?_
  refine (run_bind_of_ok (run_u2 0 0 _ _)).trans ?_
  refine (run_lift_of_ok hsuper).trans ?_
  refine (run_bind_of_ok (run_bind_of_ok (run_u2 0 0 _ _))).trans ?_
  refine (run_bind_of_ok (run_bind_of_ok (run_u2 0 0 _ _))).trans ?_
  refine (run_bind_of_ok (run_bind_of_ok (run_u2 0 0 _ _))).trans ?_
  exact run_bind_of_ok (run_signatureAttribute h _)

theorem parse_signatureFile {signature : List UInt8} {text : String}
    (hlen : signature.length < UInt16.size) (h : ModifiedUtf8.decode signature = some text) :
    Layout.parse .standard (signatureFile signature) = .ok (signatureLayout signature text) := by
  obtain ⟨offset, hrun⟩ := run_signatureLayout hlen h
  simp only [Layout.parse, hrun]
  rfl

theorem decode_signatureFile {signature : List UInt8} {text : String} {s : ClassSignature String}
    (hlen : signature.length < UInt16.size) (htext : ModifiedUtf8.decode signature = some text)
    (hs : Signature.parseClass text = .ok s) :
    decode .standard (signatureFile signature)
      = .ok { ClassDecl.bare "X" ⟨0x21⟩ with
          superType := some s.superclass
          interfaces := s.interfaces
          typeParameters := s.typeParameters } := by
  obtain ⟨raw, hraw, hbound⟩ := bind_eq_ok hs
  cases hbound
  have hname : binaryName "X" = "X" := by decide
  have hdraft : (signatureLayout signature text).draft true
      = (Signature.run Signature.classBody text >>= fun s => .ok
        ⟨binaryName "X", ⟨0x21⟩, none, ⟨s.typeParameters, some s.superclass, s.interfaces⟩, [], [],
          [], [], [], .topLevel⟩) := by
    have hsuper : (signatureLayout signature text).supertypes
        = (Signature.run Signature.classBody text >>= fun s => .ok
          ⟨s.typeParameters, some s.superclass, s.interfaces⟩) := rfl
    have hrest : (signatureLayout signature text).draft true
        = ((signatureLayout signature text).supertypes >>= fun types => .ok
          ⟨binaryName "X", ⟨0x21⟩, none, types, [], [], [], [], [], .topLevel⟩) := rfl
    rw [hrest, hsuper, hraw]
    rfl
  have hdecode : decode .standard (signatureFile signature)
      = ((signatureLayout signature text).draft true >>= fun d =>
        .ok (d.finish MethodDecl.constructorName id)) := by
    simp only [decode, draft, parse_signatureFile hlen htext]
    rfl
  rw [hdecode, hdraft, hraw, hname]
  rfl

end ClassCatalog.ClassFile
