import ClassCatalog.Proofs.ClassFile.Delimited
import ClassCatalog.Proofs.ClassFile.ParameterTables
import ClassCatalog.Proofs.ClassFile.Recovery

/-! A class file that decoding accepts is made of parts in one way only. What a reader has consumed
stands in front of what remains, and it is the bytes of an entry; and the bytes of an entry tell
where they end. -/

namespace ClassCatalog.ClassFile

open PoolEntry (At Spells NamesClass pool widths)
open Reader

variable {ι α β : Type}

theorem bigEndianBytes_bigEndian (bytes : List UInt8) :
    bigEndianBytes bytes.length (bigEndian bytes) = bytes := by
  induction bytes using List.reverseRecOn with
  | nil => rfl
  | append_singleton front b ih =>
    have hb := b.toNat_lt
    have hhigh : (bigEndian front * 256 + b.toNat) / 256 = bigEndian front := by omega
    have hlow : (bigEndian front * 256 + b.toNat) % 256 = b.toNat := by omega
    rw [List.length_append, List.length_singleton, bigEndian_concat, bigEndianBytes, hhigh, hlow,
      ih, UInt8.ofNat_toNat]

namespace Reader

/-- Whatever `p` gives, the bytes that it took from the input and its result have the property
`Q`. -/
def Consumes (p : Reader α) (Q : List UInt8 → α → Prop) : Prop :=
  ∀ c a d, p.run c = .ok (a, d) → ∃ front, c.rest = front ++ d.rest ∧ Q front a

namespace Consumes

variable {P Q : List UInt8 → α → Prop}

theorem pure {a : α} (h : Q [] a) : Consumes (Pure.pure a) Q := by
  intro c b d hrun
  cases hrun
  exact ⟨[], rfl, h⟩

theorem fail (e : DecodeError) : Consumes (throw e : Reader α) Q := nofun

theorem mono {p : Reader α} (hp : p.Consumes P) (h : ∀ front a, P front a → Q front a) :
    p.Consumes Q := by
  intro c a d hrun
  obtain ⟨front, hrest, hP⟩ := hp c a d hrun
  exact ⟨front, hrest, h front a hP⟩

theorem bind {p : Reader α} {k : α → Reader β} {Q : List UInt8 → β → Prop} (hp : p.Consumes P)
    (hk : ∀ front a, P front a → (k a).Consumes fun back b => Q (front ++ back) b) :
    (p >>= k).Consumes Q := by
  intro c b d hrun
  rw [StateT.run_bind] at hrun
  obtain ⟨⟨a, c'⟩, ha, hrun⟩ := bind_eq_ok hrun
  obtain ⟨front, hfront, hP⟩ := hp c a c' ha
  obtain ⟨back, hback, hQ⟩ := hk front a hP c' b d hrun
  exact ⟨front ++ back, by rw [hfront, hback, List.append_assoc], hQ⟩

theorem lift_bind {e : Except DecodeError α} {k : α → Reader β} {Q : List UInt8 → β → Prop}
    (hk : ∀ a, e = .ok a → (k a).Consumes Q) : (liftM e >>= k : Reader β).Consumes Q := by
  intro c b d hrun
  obtain ⟨a, ha, hrun⟩ := run_liftM_bind_eq_ok hrun
  exact hk a ha c b d hrun

theorem lift {e : Except DecodeError α} (h : ∀ a, e = .ok a → Q [] a) :
    Consumes (liftM e : Reader α) Q := by
  rw [← bind_pure (liftM e : Reader α)]
  exact .lift_bind fun a ha => .pure (h a ha)

theorem mapped {p : Reader α} {Q : List UInt8 → β → Prop} (f : α → β)
    (h : p.Consumes fun front a => Q front (f a)) : (f <$> p).Consumes Q := by
  intro c b d hrun
  obtain ⟨a, ha, rfl⟩ := run_map_eq_ok hrun
  exact h c a d ha

theorem ite {c : Prop} [Decidable c] {p q : Reader α} (hp : c → p.Consumes Q)
    (hq : ¬ c → q.Consumes Q) : (if c then p else q).Consumes Q := by
  split
  · next h => exact hp h
  · next h => exact hq h

theorem times {p : Reader α} {enc : ι → List UInt8} {R : ι → Prop}
    (h : p.Consumes fun front _ => ∃ x, front = enc x ∧ R x) (n : Nat) :
    (times n p).Consumes fun front _ =>
      ∃ xs : List ι, xs.length = n ∧ front = xs.flatMap enc ∧ ∀ x ∈ xs, R x := by
  induction n with
  | zero => exact .pure ⟨[], rfl, rfl, nofun⟩
  | succ n ih =>
    refine h.bind ?_
    rintro _ a ⟨x, rfl, hx⟩
    refine ih.bind ?_
    rintro _ as ⟨xs, rfl, rfl, hxs⟩
    refine .pure ⟨x :: xs, rfl, by rw [List.flatMap_cons, List.append_nil], ?_⟩
    exact List.forall_mem_cons.2 ⟨hx, hxs⟩

end Consumes

theorem consumes_bytes (n : Nat) :
    (bytes n).Consumes fun front a => front = a ∧ a.length = n := by
  intro c a d hrun
  simp only [bytes, StateT.run] at hrun
  split at hrun
  · next r hr =>
    cases hrun
    obtain ⟨hrest, hlength, _⟩ := Cursor.take?_eq_some hr
    exact ⟨a, hrest, rfl, hlength⟩
  · cases hrun

theorem consumes_number (width : Nat) :
    (bigEndian <$> bytes width : Reader Nat).Consumes fun front n =>
      front = bigEndianBytes width n ∧ n < Nat.pow 256 width := by
  refine .mapped _ ((consumes_bytes width).mono ?_)
  rintro front _ ⟨rfl, rfl⟩
  exact ⟨(bigEndianBytes_bigEndian front).symm, bigEndian_lt front⟩

theorem consumes_u1 : u1.Consumes fun front n => ∃ b : UInt8, front = [b] ∧ n = b.toNat := by
  refine (consumes_number 1).mono ?_
  rintro _ n ⟨rfl, hlt⟩
  have hn : (UInt8.ofNat n).toNat = n := UInt8.toNat_ofNat_of_lt hlt
  refine ⟨UInt8.ofNat n, ?_, hn.symm⟩
  rw [bigEndianBytes, bigEndianBytes, Nat.mod_eq_of_lt hlt, List.nil_append]

theorem consumes_u2 :
    u2.Consumes fun front n => ∃ w : UInt16, front = wordBytes w ∧ n = w.toNat := by
  refine (consumes_number 2).mono ?_
  rintro _ n ⟨rfl, hlt⟩
  have hn : (UInt16.ofNat n).toNat = n := UInt16.toNat_ofNat_of_lt hlt
  exact ⟨UInt16.ofNat n, by rw [wordBytes, hn], hn.symm⟩

theorem consumes_word : word.Consumes fun front w => front = wordBytes w := by
  refine .mapped _ (consumes_u2.mono ?_)
  rintro _ _ ⟨w, rfl, rfl⟩
  rw [UInt16.ofNat_toNat]

theorem consumes_sized : sized.Consumes fun front body =>
    front = bigEndianBytes 4 body.length ++ body ∧ body.length < UInt32.size := by
  refine (consumes_number 4).bind ?_
  rintro _ n ⟨rfl, hlt⟩
  refine (consumes_bytes n).mono ?_
  rintro _ body ⟨rfl, rfl⟩
  exact ⟨rfl, hlt⟩

theorem consumes_counted {p : Reader α} {enc : ι → List UInt8} {R : ι → Prop}
    (h : p.Consumes fun front _ => ∃ x, front = enc x ∧ R x) :
    (counted p).Consumes fun front _ => ∃ xs : List ι, front = countedBytes enc xs
      ∧ xs.length < UInt16.size ∧ ∀ x ∈ xs, R x := by
  refine (consumes_number 2).bind ?_
  rintro _ n ⟨rfl, hlt⟩
  refine (Consumes.times h n).mono ?_
  rintro _ as ⟨xs, rfl, rfl, hxs⟩
  exact ⟨xs, rfl, hlt, hxs⟩

end Reader

namespace PoolEntry

theorem consumes_readLink (kind : LinkKind) {b : UInt8} (hb : b = kind.tag) :
    (Constant.readLink kind.payloadSize kind).Consumes fun front c =>
      ∃ e : PoolEntry, [b] ++ front = e.bytes ∧ e.constant = c := by
  have hskip : (skip kind.payloadSize).Consumes fun front _ => front.length = kind.payloadSize :=
    (consumes_bytes _).bind fun front a h => .pure (by rw [List.append_nil, h.1, h.2])
  refine hskip.bind fun front _ hlength => .pure ?_
  exact ⟨.link kind front hlength, by rw [List.append_nil, hb]; rfl, rfl⟩

theorem consumes_read (index : Nat) :
    (Constant.read index).Consumes fun front c =>
      ∃ e : PoolEntry, front = e.bytes ∧ e.constant = c := by
  refine consumes_u1.bind ?_
  rintro _ _ ⟨b, rfl, rfl⟩
  have htag : ∀ {t : UInt8}, b.toNat = t.toNat → b = t := UInt8.toNat_inj.1
  split
  · next h =>
    obtain rfl := htag (t := 1) h
    refine (consumes_number 2).bind ?_
    rintro _ _ ⟨rfl, hlt⟩
    refine (consumes_bytes _).bind ?_
    rintro front _ ⟨rfl, rfl⟩
    exact .pure ⟨.utf8 front hlt, by rw [List.append_nil]; rfl, rfl⟩
  · next h =>
    obtain rfl := htag (t := 3) h
    refine (consumes_number 4).bind ?_
    rintro _ n ⟨rfl, hlt⟩
    have hn : (Int32.ofNat n).toUInt32.toNat = n := by
      rw [← UInt32.toInt32_ofNat', UInt32.toUInt32_toInt32]
      exact UInt32.toNat_ofNat_of_lt hlt
    exact .pure ⟨.integer (Int32.ofNat n), by rw [bytes, hn, List.append_nil]; rfl, rfl⟩
  · next h =>
    obtain rfl := htag (t := 4) h
    refine (consumes_number 4).bind ?_
    rintro _ n ⟨rfl, hlt⟩
    have hn : (UInt32.ofNat n).toNat = n := UInt32.toNat_ofNat_of_lt hlt
    exact .pure ⟨.float ⟨UInt32.ofNat n⟩, by rw [bytes, hn, List.append_nil]; rfl, rfl⟩
  · next h =>
    obtain rfl := htag (t := 5) h
    refine (consumes_number 8).bind ?_
    rintro _ n ⟨rfl, hlt⟩
    have hn : (Int64.ofNat n).toUInt64.toNat = n := by
      rw [← UInt64.toInt64_ofNat', UInt64.toUInt64_toInt64]
      exact UInt64.toNat_ofNat_of_lt hlt
    exact .pure ⟨.long (Int64.ofNat n), by rw [bytes, hn, List.append_nil]; rfl, rfl⟩
  · next h =>
    obtain rfl := htag (t := 6) h
    refine (consumes_number 8).bind ?_
    rintro _ n ⟨rfl, hlt⟩
    have hn : (UInt64.ofNat n).toNat = n := UInt64.toNat_ofNat_of_lt hlt
    exact .pure ⟨.double ⟨UInt64.ofNat n⟩, by rw [bytes, hn, List.append_nil]; rfl, rfl⟩
  · next h =>
    obtain rfl := htag (t := 7) h
    refine consumes_u2.bind ?_
    rintro _ _ ⟨name, rfl, rfl⟩
    exact .pure ⟨.classRef name, by rw [List.append_nil]; rfl, rfl⟩
  · next h => exact consumes_readLink .string (htag h)
  · next h => exact consumes_readLink .fieldRef (htag h)
  · next h => exact consumes_readLink .methodRef (htag h)
  · next h => exact consumes_readLink .interfaceMethodRef (htag h)
  · next h =>
    obtain rfl := htag (t := 12) h
    refine consumes_u2.bind ?_
    rintro _ _ ⟨name, rfl, rfl⟩
    refine consumes_u2.bind ?_
    rintro _ _ ⟨descriptor, rfl, rfl⟩
    exact .pure ⟨.nameAndType name descriptor, by rw [List.append_nil]; rfl, rfl⟩
  · next h => exact consumes_readLink .methodHandle (htag h)
  · next h => exact consumes_readLink .methodType (htag h)
  · next h => exact consumes_readLink .dynamic (htag h)
  · next h => exact consumes_readLink .invokeDynamic (htag h)
  · next h => exact consumes_readLink .module (htag h)
  · next h => exact consumes_readLink .package (htag h)
  · exact .fail _

theorem consumes_readFrom {count fuel : Nat} (slots : Array (Option Constant))
    (hsize : slots.size ≤ count) (hfuel : count ≤ slots.size + fuel) :
    (ConstantPool.readFrom count fuel slots).Consumes fun front found =>
      ∃ entries : List PoolEntry, front = entries.flatMap bytes
        ∧ found = ⟨slots.toList ++ entries.flatMap PoolEntry.slots⟩
        ∧ slots.size + widths entries = count := by
  have hdone : ∀ slots : Array (Option Constant), slots.size = count →
      (Pure.pure slots : Reader _).Consumes fun front found =>
        ∃ entries : List PoolEntry, front = entries.flatMap bytes
          ∧ found = ⟨slots.toList ++ entries.flatMap PoolEntry.slots⟩
          ∧ slots.size + widths entries = count :=
    fun _ heq => .pure ⟨[], rfl, by rw [List.flatMap_nil, List.append_nil], heq⟩
  induction fuel generalizing slots with
  | zero => exact hdone slots (Nat.le_antisymm hsize hfuel)
  | succ fuel ih =>
    refine .ite (fun hlt => ?_) fun hge => hdone slots (Nat.le_antisymm hsize (Nat.not_lt.1 hge))
    refine (consumes_read slots.size).bind ?_
    rintro _ _ ⟨e, rfl, rfl⟩
    have hwidth := e.width_eq
    refine .ite (fun hwide => .ite (fun hroom => ?_) fun _ => .fail _) fun hnarrow => ?_
    · rw [if_pos hwide] at hwidth
      refine (ih ((slots.push (some e.constant)).push none) ?_ ?_).mono ?_
      · rw [Array.size_push, Array.size_push]
        exact hroom
      · rw [Array.size_push, Array.size_push]
        omega
      rintro _ _ ⟨entries, rfl, rfl, hcount⟩
      refine ⟨e :: entries, by rw [List.flatMap_cons], ?_, ?_⟩
      · simp [PoolEntry.slots, hwide]
      · rw [Array.size_push, Array.size_push] at hcount
        rw [widths_cons]
        omega
    · rw [if_neg hnarrow] at hwidth
      refine (ih (slots.push (some e.constant)) ?_ ?_).mono ?_
      · rw [Array.size_push]
        exact hlt
      · rw [Array.size_push]
        omega
      rintro _ _ ⟨entries, rfl, rfl, hcount⟩
      refine ⟨e :: entries, by rw [List.flatMap_cons], ?_, ?_⟩
      · simp [PoolEntry.slots, hnarrow]
      · rw [Array.size_push] at hcount
        rw [widths_cons]
        omega

theorem consumes_pool : ConstantPool.read.Consumes fun front found =>
    ∃ entries : List PoolEntry, found = pool entries ∧ (entries ≠ [] →
      front = bigEndianBytes 2 (1 + widths entries) ++ entries.flatMap bytes
        ∧ widths entries < UInt16.size - 1) := by
  refine (consumes_number 2).bind ?_
  rintro _ count ⟨rfl, hlt⟩
  rcases Nat.eq_zero_or_pos count with rfl | hpos
  · exact .pure ⟨[], rfl, fun h => absurd rfl h⟩
  · refine (consumes_readFrom #[none] hpos (Nat.le_add_left _ _)).bind ?_
    rintro _ _ ⟨entries, rfl, rfl, rfl⟩
    refine .pure ⟨entries, rfl, fun _ => ⟨by rw [List.append_nil]; rfl, ?_⟩⟩
    have hcount : 1 + widths entries < UInt16.size := hlt
    omega

variable {entries : List PoolEntry} {index : Nat} {text : String}

theorem spells_of_utf8 (h : (pool entries).utf8 index = .ok text) : Spells entries index text := by
  obtain ⟨c, hget, h⟩ := bind_eq_ok h
  obtain ⟨e, hat, rfl⟩ := (get_pool_iff _ _ _).1 hget
  cases e with
  | utf8 bytes fits =>
    cases htext : ModifiedUtf8.decode bytes with
    | none =>
      simp only [constant, htext] at h
      cases h
    | some found =>
      simp only [constant, htext] at h
      cases h
      exact ⟨bytes, fits, hat, htext⟩
  | _ => cases h

theorem namesClass_of_className (h : (pool entries).className index = .ok text) :
    NamesClass entries index text := by
  obtain ⟨c, hget, h⟩ := bind_eq_ok h
  obtain ⟨e, hat, rfl⟩ := (get_pool_iff _ _ _).1 hget
  cases e with
  | classRef name => exact ⟨name, hat, spells_of_utf8 h⟩
  | _ => cases h

theorem NamesClass.entries_ne_nil (h : NamesClass entries index text) : entries ≠ [] := by
  obtain ⟨_, ⟨front, back, rfl, _⟩, _⟩ := h
  simp

end PoolEntry

variable {entries : List PoolEntry}

namespace AttributeEntry

theorem refers_of_add {attributes next : Attributes} {a : AttributeEntry} {name : String}
    (hname : Spells entries a.name.toNat name)
    (h : attributes.add (pool entries) name a.body = .ok next) : a.Refers entries := by
  refine ⟨name, hname, fun hsignature => ?_⟩
  rw [Attributes.add, if_pos hsignature] at h
  obtain ⟨text, htext, _⟩ := bind_eq_ok h
  rw [Attributes.signatureText] at htext
  split at htext
  · next hlength => exact ⟨hlength, text, PoolEntry.spells_of_utf8 htext⟩
  · cases htext

theorem consumes_readMore (n : Nat) (attributes : Attributes) :
    (Attributes.readMore (pool entries) n attributes).Consumes fun front _ =>
      ∃ table : List AttributeEntry, table.length = n ∧ front = table.flatMap bytes
        ∧ ∀ a ∈ table, a.Refers entries := by
  induction n generalizing attributes with
  | zero => exact .pure ⟨[], rfl, rfl, nofun⟩
  | succ n ih =>
    refine consumes_u2.bind ?_
    rintro _ _ ⟨index, rfl, rfl⟩
    refine .lift_bind fun name hname => consumes_sized.bind ?_
    rintro _ body ⟨rfl, hfits⟩
    refine .lift_bind fun next hadd => (ih next).mono ?_
    rintro _ _ ⟨table, rfl, rfl, htable⟩
    refine ⟨⟨index, body, hfits⟩ :: table, rfl, ?_, ?_⟩
    · simp only [List.flatMap_cons, bytes, List.append_assoc]
    · refine List.forall_mem_cons.2 ⟨?_, htable⟩
      exact refers_of_add (a := ⟨index, body, hfits⟩) (PoolEntry.spells_of_utf8 hname) hadd

theorem consumes_table : (Attributes.read (pool entries)).Consumes fun front _ =>
    ∃ table : List AttributeEntry, front = countedBytes bytes table
      ∧ table.length < UInt16.size ∧ ∀ a ∈ table, a.Refers entries := by
  refine (consumes_number 2).bind ?_
  rintro _ n ⟨rfl, hlt⟩
  refine (consumes_readMore n _).mono ?_
  rintro _ _ ⟨table, rfl, rfl, htable⟩
  exact ⟨table, rfl, hlt, htable⟩

end AttributeEntry

theorem MemberEntry.consumes_read : (MemberLayout.read (pool entries)).Consumes fun front _ =>
    ∃ m : MemberEntry, front = m.bytes ∧ m.Refers entries := by
  refine consumes_word.bind ?_
  rintro _ flags rfl
  refine consumes_u2.bind ?_
  rintro _ _ ⟨name, rfl, rfl⟩
  refine .lift_bind fun text htext => consumes_u2.bind ?_
  rintro _ _ ⟨descriptor, rfl, rfl⟩
  refine .lift_bind fun descriptorText hdescriptor => AttributeEntry.consumes_table.bind ?_
  rintro _ _ ⟨table, rfl, hfits, htable⟩
  refine .pure ⟨⟨flags, name, descriptor, table, hfits⟩, by rw [List.append_nil, bytes], ?_⟩
  exact ⟨⟨text, PoolEntry.spells_of_utf8 htext⟩,
    ⟨descriptorText, PoolEntry.spells_of_utf8 hdescriptor⟩, htable⟩

theorem consumes_className : (do (pool entries).className (← u2) : Reader String).Consumes
    fun front _ => ∃ index : UInt16, front = wordBytes index
      ∧ ∃ text, NamesClass entries index.toNat text := by
  refine consumes_u2.bind ?_
  rintro _ _ ⟨index, rfl, rfl⟩
  exact .lift fun text htext =>
    ⟨index, List.append_nil _, text, PoolEntry.namesClass_of_className htext⟩

theorem refers_of_className? {index : UInt16} {text : Option String}
    (h : (pool entries).className? index.toNat = .ok text) :
    ∃ superName : Option UInt16, superName.getD 0 = index
      ∧ ∀ index ∈ superName, ∃ text, NamesClass entries index.toNat text := by
  by_cases hzero : index.toNat = 0
  · exact ⟨none, UInt16.toNat_inj.1 hzero.symm, nofun⟩
  · rw [ConstantPool.className?, if_neg hzero] at h
    refine ⟨some index, rfl, ?_⟩
    rintro _ ⟨rfl⟩
    cases hname : (pool entries).className index.toNat with
    | error e =>
      rw [hname] at h
      cases h
    | ok text => exact ⟨text, PoolEntry.namesClass_of_className hname⟩

namespace Container

variable {config : Config}

theorem consumes_readHeader : (Layout.readHeader config).Consumes fun front _ =>
    ∃ minor major : UInt16, front = [0xCA, 0xFE, 0xBA, 0xBE] ++ (wordBytes minor ++ wordBytes major)
      ∧ config.acceptsMajor major.toNat := by
  refine (consumes_number 4).bind ?_
  rintro _ found ⟨rfl, _⟩
  refine .ite (fun hmagic => ?_) fun _ =>
    (Consumes.fail (Q := fun _ _ => False) _).bind fun _ _ => False.elim
  subst hmagic
  refine consumes_u2.bind ?_
  rintro _ _ ⟨minor, rfl, rfl⟩
  refine consumes_u2.bind ?_
  rintro _ _ ⟨major, rfl, rfl⟩
  refine .ite (fun hversion => .pure ⟨minor, major, ?_, hversion⟩) fun _ => .fail _
  rw [List.append_nil]
  rfl

theorem consumes_read : (Layout.read config).Consumes fun front layout =>
    ∃ file : Container, front = file.bytes ∧ file.Refers ∧ config.acceptsMajor file.major.toNat
      ∧ layout.pool = pool file.entries := by
  refine consumes_readHeader.bind ?_
  rintro _ _ ⟨minor, major, rfl, hversion⟩
  refine PoolEntry.consumes_pool.bind ?_
  rintro front _ ⟨entries, rfl, hpool⟩
  refine consumes_word.bind ?_
  rintro _ flags rfl
  refine consumes_u2.bind ?_
  rintro _ _ ⟨name, rfl, rfl⟩
  refine .lift_bind fun text htext => ?_
  have hname := PoolEntry.namesClass_of_className htext
  obtain ⟨rfl, hentries⟩ := hpool hname.entries_ne_nil
  refine consumes_u2.bind ?_
  rintro _ _ ⟨superIndex, rfl, rfl⟩
  refine .lift_bind fun superText hsuperText => ?_
  obtain ⟨superName, rfl, hsuper⟩ := refers_of_className? hsuperText
  refine (consumes_counted consumes_className).bind ?_
  rintro _ interfaceTexts ⟨interfaces, rfl, hinterfaces, hinterfacesRefer⟩
  refine (consumes_counted MemberEntry.consumes_read).bind ?_
  rintro _ fieldLayouts ⟨fields, rfl, hfields, hfieldsRefer⟩
  refine (consumes_counted MemberEntry.consumes_read).bind ?_
  rintro _ methodLayouts ⟨methods, rfl, hmethods, hmethodsRefer⟩
  refine AttributeEntry.consumes_table.bind ?_
  rintro _ attributes ⟨table, rfl, htable, htableRefers⟩
  refine .pure ⟨⟨minor, major, entries, flags, name, superName, interfaces, fields, methods, table,
    hentries, hinterfaces, hfields, hmethods, htable⟩, by rw [List.append_nil]; rfl, ?_, hversion,
    rfl⟩
  exact ⟨⟨text, hname⟩, hsuper, hinterfacesRefer, hfieldsRefer, hmethodsRefer, htableRefers⟩

end Container

/-- Whatever follows the bytes of an item, they are those of no other one. -/
def Delimits (enc : ι → List UInt8) : Prop :=
  ∀ x y r s, enc x ++ r = enc y ++ s → x = y ∧ r = s

theorem Reader.Takes.cancel {p : Reader α} {x y r s : List UInt8} {a b : α} (hx : p.Takes x a)
    (hy : p.Takes y b) (h : x ++ r = y ++ s) : a = b ∧ r = s := by
  have hrun := hx r 0
  rw [h, hy s 0] at hrun
  obtain ⟨hvalue, hcursor⟩ := Prod.mk.inj (Except.ok.inj hrun)
  exact ⟨hvalue.symm, (congrArg Cursor.rest hcursor).symm⟩

theorem delimits_wordBytes : Delimits wordBytes :=
  fun x y _ _ h => (takes_word x).cancel (takes_word y) h

theorem number_cancel (width : Nat) {m n : Nat} {r s : List UInt8} (hm : m < Nat.pow 256 width)
    (hn : n < Nat.pow 256 width) (h : bigEndianBytes width m ++ r = bigEndianBytes width n ++ s) :
    m = n ∧ r = s :=
  (takes_number width hm).cancel (takes_number width hn) h

theorem Delimits.flatMap {enc : ι → List UInt8} (henc : Delimits enc) {xs ys : List ι}
    {r s : List UInt8} (hlength : xs.length = ys.length)
    (h : xs.flatMap enc ++ r = ys.flatMap enc ++ s) : xs = ys ∧ r = s := by
  induction xs generalizing ys with
  | nil =>
    obtain rfl := List.length_eq_zero_iff.1 hlength.symm
    exact ⟨rfl, h⟩
  | cons x xs ih =>
    cases ys with
    | nil => cases hlength
    | cons y ys =>
      rw [List.flatMap_cons, List.flatMap_cons, List.append_assoc, List.append_assoc] at h
      obtain ⟨rfl, hrest⟩ := henc x y _ _ h
      obtain ⟨rfl, hend⟩ := ih (Nat.succ.inj hlength) hrest
      exact ⟨rfl, hend⟩

theorem Delimits.counted {enc : ι → List UInt8} (henc : Delimits enc) {xs ys : List ι}
    {r s : List UInt8} (hxs : xs.length < UInt16.size) (hys : ys.length < UInt16.size)
    (h : countedBytes enc xs ++ r = countedBytes enc ys ++ s) : xs = ys ∧ r = s := by
  rw [countedBytes, countedBytes, List.append_assoc, List.append_assoc] at h
  obtain ⟨hlength, h⟩ := number_cancel 2 hxs hys h
  exact henc.flatMap hlength h

/-- What is kept of an entry tells it from all others but for a payload that is stepped over. -/
theorem PoolEntry.delimits_bytes : Delimits PoolEntry.bytes := by
  intro e e' r s h
  obtain ⟨hconstant, rfl⟩ := (e.takes_read 0).cancel (e'.takes_read 0) h
  have hbytes := List.append_cancel_right h
  refine ⟨?_, rfl⟩
  cases e with
  | link kind payload fits =>
    cases e' with
    | link kind' payload' fits' =>
      obtain rfl := Constant.link.inj hconstant
      obtain rfl : payload = payload' := (List.cons.inj hbytes).2
      rfl
    | _ => cases hconstant
  | _ => cases e' <;> simp_all [constant, UInt16.toNat_inj]

theorem PoolEntry.count_lt {entries : List PoolEntry} (h : widths entries < UInt16.size - 1) :
    1 + widths entries < Nat.pow 256 2 := by
  have hsize : UInt16.size - 1 + 1 = Nat.pow 256 2 := by decide
  omega

theorem PoolEntry.entries_cancel {entries entries' : List PoolEntry} {r s : List UInt8}
    (hwidths : widths entries = widths entries')
    (h : entries.flatMap bytes ++ r = entries'.flatMap bytes ++ s) :
    entries = entries' ∧ r = s := by
  induction entries generalizing entries' with
  | nil =>
    cases entries' with
    | nil => exact ⟨rfl, h⟩
    | cons e' entries' =>
      have hpos := e'.width_pos
      rw [widths_cons] at hwidths
      exact absurd hwidths (Nat.ne_of_lt (Nat.add_pos_left hpos _))
  | cons e entries ih =>
    cases entries' with
    | nil =>
      have hpos := e.width_pos
      rw [widths_cons] at hwidths
      exact absurd hwidths.symm (Nat.ne_of_lt (Nat.add_pos_left hpos _))
    | cons e' entries' =>
      rw [List.flatMap_cons, List.flatMap_cons, List.append_assoc, List.append_assoc] at h
      obtain ⟨rfl, hrest⟩ := delimits_bytes e e' _ _ h
      rw [widths_cons, widths_cons] at hwidths
      obtain ⟨rfl, hend⟩ := ih (Nat.add_left_cancel hwidths) hrest
      exact ⟨rfl, hend⟩

theorem AttributeEntry.delimits_bytes : Delimits AttributeEntry.bytes := by
  rintro ⟨name, body, fits⟩ ⟨name', body', fits'⟩ r s h
  simp only [bytes, List.append_assoc] at h
  obtain ⟨rfl, hbody⟩ := delimits_wordBytes _ _ _ _ h
  obtain ⟨hlength, hbody⟩ := number_cancel 4 fits fits' hbody
  obtain ⟨rfl, hrest⟩ := List.append_inj hbody hlength
  exact ⟨rfl, hrest⟩

theorem MemberEntry.delimits_bytes : Delimits MemberEntry.bytes := by
  rintro ⟨flags, name, descriptor, table, fits⟩ ⟨flags', name', descriptor', table', fits'⟩ r s h
  simp only [bytes, List.append_assoc] at h
  obtain ⟨rfl, hname⟩ := delimits_wordBytes _ _ _ _ h
  obtain ⟨rfl, hdescriptor⟩ := delimits_wordBytes _ _ _ _ hname
  obtain ⟨rfl, htable⟩ := delimits_wordBytes _ _ _ _ hdescriptor
  obtain ⟨rfl, hrest⟩ := AttributeEntry.delimits_bytes.counted fits fits' htable
  exact ⟨rfl, hrest⟩

namespace Container

theorem superName_eq {superName superName' : Option UInt16}
    (h : ∀ index ∈ superName, ∃ text, NamesClass entries index.toNat text)
    (h' : ∀ index ∈ superName', ∃ text, NamesClass entries index.toNat text)
    (heq : superName.getD 0 = superName'.getD 0) : superName = superName' := by
  have hnonzero : ∀ index : UInt16, (∃ text, NamesClass entries index.toNat text) → index ≠ 0 := by
    rintro _ ⟨text, htext⟩ rfl
    exact htext.ne_zero rfl
  cases superName with
  | none =>
    cases superName' with
    | none => rfl
    | some index' => exact absurd heq.symm (hnonzero index' (h' index' rfl))
  | some index =>
    cases superName' with
    | none => exact absurd heq (hnonzero index (h index rfl))
    | some index' => exact congrArg some heq

theorem eq_of_bytes {file file' : Container} (hrefers : file.Refers) (hrefers' : file'.Refers)
    (h : file.bytes = file'.bytes) : file = file' := by
  have hsuper := hrefers.superName
  have hsuper' := hrefers'.superName
  clear hrefers hrefers'
  obtain ⟨minor, major, entries, flags, name, superName, interfaces, fields, methods, table,
    hentries, hinterfaces, hfields, hmethods, htable⟩ := file
  obtain ⟨minor', major', entries', flags', name', superName', interfaces', fields', methods',
    table', hentries', hinterfaces', hfields', hmethods', htable'⟩ := file'
  simp only [bytes, headerBytes, poolBytes, List.append_assoc, List.append_cancel_left_eq] at h
  dsimp only at hsuper hsuper'
  obtain ⟨rfl, h1⟩ := delimits_wordBytes _ _ _ _ h
  obtain ⟨rfl, h2⟩ := delimits_wordBytes _ _ _ _ h1
  obtain ⟨hwidths, h3⟩ := number_cancel 2 (PoolEntry.count_lt hentries)
    (PoolEntry.count_lt hentries') h2
  obtain ⟨rfl, h4⟩ := PoolEntry.entries_cancel (Nat.add_left_cancel hwidths) h3
  obtain ⟨rfl, h5⟩ := delimits_wordBytes _ _ _ _ h4
  obtain ⟨rfl, h6⟩ := delimits_wordBytes _ _ _ _ h5
  obtain ⟨hgetD, h7⟩ := delimits_wordBytes _ _ _ _ h6
  obtain rfl := superName_eq hsuper hsuper' hgetD
  obtain ⟨rfl, h8⟩ := delimits_wordBytes.counted hinterfaces hinterfaces' h7
  obtain ⟨rfl, h9⟩ := MemberEntry.delimits_bytes.counted hfields hfields' h8
  obtain ⟨rfl, h10⟩ := MemberEntry.delimits_bytes.counted hmethods hmethods' h9
  obtain ⟨rfl, _⟩ := AttributeEntry.delimits_bytes.counted (r := []) (s := []) htable htable'
    (congrArg (· ++ []) h10)
  rfl

/-- A class file that is split into parts is the bytes of one container whose numbers all lead
somewhere, and of no other. -/
theorem of_parse {config : Config} {bytes : List UInt8} {layout : Layout}
    (h : Layout.parse config bytes = .ok layout) :
    ∃ file : Container, (file.bytes = bytes ∧ file.Refers
        ∧ ∀ other : Container, other.bytes = bytes → other.Refers → other = file)
      ∧ config.acceptsMajor file.major.toNat ∧ layout.pool = pool file.entries
      ∧ file.Recovered layout := by
  obtain ⟨offset, hrun⟩ := Layout.parse_eq_ok h
  obtain ⟨_, hbytes, file, rfl, hrefers, hversion, hpool⟩ := consumes_read _ _ _ hrun
  obtain rfl : bytes = file.bytes := hbytes.trans (List.append_nil _)
  obtain ⟨layout', hparse, hrecovered⟩ := parse_bytes hversion hrefers
  obtain rfl := Except.ok.inj (h.symm.trans hparse)
  exact ⟨file, ⟨rfl, hrefers, fun other hother hothers => eq_of_bytes hothers hrefers hother⟩,
    hversion, hpool, hrecovered⟩

theorem parse_of_refers {config : Config} {file : Container}
    (hversion : config.acceptsMajor file.major.toNat) (h : file.Refers) :
    ∃ layout, Layout.parse config file.bytes = .ok layout ∧ layout.pool = pool file.entries
      ∧ file.Recovered layout := by
  obtain ⟨layout, hparse, hrecovered⟩ := parse_bytes hversion h
  obtain ⟨found, ⟨_, _, hunique⟩, _, hpool, _⟩ := of_parse hparse
  obtain rfl := hunique file rfl h
  exact ⟨layout, hparse, hpool, hrecovered⟩

end Container

end ClassCatalog.ClassFile
