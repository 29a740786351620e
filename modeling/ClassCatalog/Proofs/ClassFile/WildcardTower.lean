import ClassCatalog.Proofs.ClassFile.SignatureFile
import ClassCatalog.Proofs.ClassFile.SignatureRuns

/-! Class types and wildcards in turn, each the upper bound of the next. The nesting of a signature
counts the class types only, so that its type is twice as deep. -/

namespace ClassCatalog

namespace Ty

/-- The types `A`, `? extends A`, `A<? extends A>` and so on. -/
def tower : Nat → Ty String
  | 0 => .named "A"
  | n + 1 => if n % 2 = 0 then .bounded true (tower n) else .parameterized "A" [tower n]

theorem depth_tower (n : Nat) : (tower n).depth = n + 1 := by
  induction n with
  | zero => rfl
  | succ n ih =>
    rw [tower]
    split
    · rw [depth, ih, Nat.add_comm]
    · rw [depth, listDepth, listDepth, ih, Nat.max_eq_left (Nat.zero_le _), Nat.add_comm]

theorem tower_injective {m n : Nat} (h : tower m = tower n) : m = n := by
  have hdepth := congrArg depth h
  rw [depth_tower, depth_tower] at hdepth
  omega

theorem tower_double_succ (n : Nat) :
    tower (2 * (n + 1)) = .parameterized "A" [.bounded true (tower (2 * n))] := by
  have hodd : (2 * n + 1) % 2 ≠ 0 := by omega
  have heven : 2 * n % 2 = 0 := by omega
  rw [Nat.mul_succ, tower, if_neg hodd, tower, if_pos heven]

theorem bindIn_tower (scope : List String) (n : Nat) : (tower n).bindIn scope = tower n := by
  induction n with
  | zero => rfl
  | succ n ih =>
    rw [tower]
    split
    · rw [bindIn, ih]
    · rw [bindIn, listBindIn, listBindIn, ih]

end Ty

namespace ClassFile

namespace Signature

open Signature.Parser

theorem run_upTo_one {item : Parser (Ty String)} {close first : Char} (hne : first ≠ close)
    {tail rest : List Char} {t : Ty String} {start stop : Nat}
    (h : item.run ⟨first :: tail, start⟩ = .ok (t, ⟨close :: rest, stop⟩)) :
    (upTo close item).run ⟨first :: tail, start⟩
      = .ok ([t], ⟨rest, stop + close.utf8Size⟩) := by
  have hgo : (do return !(← eat close) : Parser Bool).run ⟨first :: tail, start⟩
      = .ok (true, ⟨first :: tail, start⟩) :=
    run_bind_of_ok (run_eat_of_ne hne tail start)
  have hstop : (do return !(← eat close) : Parser Bool).run ⟨close :: rest, stop⟩
      = .ok (false, ⟨rest, stop + close.utf8Size⟩) :=
    run_bind_of_ok (run_eat_self close rest stop)
  have hlast : (whileFuel (do return !(← eat close)) item (tail.length + 1)).run
      ⟨close :: rest, stop⟩ = .ok ([], ⟨rest, stop + close.utf8Size⟩) := run_bind_of_ok hstop
  show (whileFuel (do return !(← eat close)) item (tail.length + 1 + 1)).run
    ⟨first :: tail, start⟩ = _
  refine (run_bind_of_ok hgo).trans ?_
  refine (run_bind_of_ok h).trans ?_
  exact run_bind_of_ok hlast

theorem run_segments_plain (reference : Parser (Ty String)) (fuel : Nat) (name : String)
    (rest : List Char) (start : Nat) :
    (segments reference (fuel + 1) name none).run ⟨';' :: rest, start⟩
      = .ok (.named (binaryName name), ⟨';' :: rest, start⟩) :=
  rfl

theorem run_segments_wildcard {reference : Parser (Ty String)} {tail rest : List Char}
    {t : Ty String} {start stop : Nat} (fuel : Nat) (name : String)
    (h : reference.run ⟨tail, start + 1 + 1⟩ = .ok (t, ⟨'>' :: ';' :: rest, stop⟩)) :
    (segments reference (fuel + 1) name none).run ⟨'<' :: '+' :: tail, start⟩
      = .ok (.parameterized (binaryName name) [.bounded true t], ⟨';' :: rest, stop + 1⟩) := by
  have hargument : (typeArgument reference).run ⟨'+' :: tail, start + 1⟩
      = .ok (.bounded true t, ⟨'>' :: ';' :: rest, stop⟩) := by
    have hstar : (eat '*').run ⟨'+' :: tail, start + 1⟩
        = .ok (false, ⟨'+' :: tail, start + 1⟩) := rfl
    have hplus : (eat '+').run ⟨'+' :: tail, start + 1⟩
        = .ok (true, ⟨tail, start + 1 + 1⟩) := rfl
    refine (run_bind_of_ok hstar).trans ?_
    refine (run_bind_of_ok hplus).trans ?_
    exact run_bind_of_ok h
  have hopen : (eat '<').run ⟨'<' :: '+' :: tail, start⟩
      = .ok (true, ⟨'+' :: tail, start + 1⟩) := rfl
  have harguments : (typeArguments reference).run ⟨'<' :: '+' :: tail, start⟩
      = .ok ([.bounded true t], ⟨';' :: rest, stop + 1⟩) := by
    refine (run_bind_of_ok hopen).trans ?_
    exact run_bind_of_ok (run_upTo_one (by decide) hargument)
  exact run_bind_of_ok harguments

theorem run_classType {reference : Parser (Ty String)} {tail rest : List Char} {t : Ty String}
    {next : Char} (hnext : next = '<' ∨ next = ';') {start stop : Nat}
    (h : ∀ fuel, (segments reference (fuel + 1) "A" none).run ⟨next :: tail, start + 1 + 1⟩
      = .ok (t, ⟨';' :: rest, stop⟩)) :
    (classType reference).run ⟨'L' :: 'A' :: next :: tail, start⟩
      = .ok (t, ⟨rest, stop + 1⟩) := by
  have hopen : (expect 'L' .expectedClassType).run ⟨'L' :: 'A' :: next :: tail, start⟩
      = .ok ((), ⟨'A' :: next :: tail, start + 1⟩) := rfl
  have hname : (identifier ['<', '.', ';']).run ⟨'A' :: next :: tail, start + 1⟩
      = .ok ("A", ⟨next :: tail, start + 1 + 1⟩) := by
    rcases hnext with rfl | rfl
    · rfl
    · rfl
  have hclose : (expect ';' .missingSemicolon).run ⟨';' :: rest, stop⟩
      = .ok ((), ⟨rest, stop + 1⟩) := rfl
  refine (run_bind_of_ok hopen).trans ?_
  refine (run_bind_of_ok hname).trans ?_
  refine (run_bind_of_ok (run_get _)).trans ?_
  refine (run_bind_of_ok (h _)).trans ?_
  exact run_bind_of_ok hclose

def towerChars : Nat → List Char
  | 0 => ['L', 'A', ';']
  | n + 1 => 'L' :: 'A' :: '<' :: '+' :: (towerChars n ++ ['>', ';'])

theorem run_classType_tower {n levels : Nat} (h : n ≤ levels) (rest : List Char) (start : Nat) :
    ∃ stop, (classType (referenceType levels)).run ⟨towerChars n ++ rest, start⟩
      = .ok (Ty.tower (2 * n), ⟨rest, stop⟩) := by
  have hA : binaryName "A" = "A" := by decide
  induction n generalizing levels rest start with
  | zero =>
    refine ⟨start + 1 + 1 + 1, run_classType (.inr rfl) fun fuel => ?_⟩
    rw [run_segments_plain, hA]
    rfl
  | succ n ih =>
    cases levels with
    | zero => omega
    | succ levels =>
      obtain ⟨stop, hrun⟩ :=
        ih (Nat.le_of_succ_le_succ h) ('>' :: ';' :: rest) (start + 1 + 1 + 1 + 1)
      -- Both kinds of tower begin with the letter that `referenceType` looks for.
      have hreference : (referenceType (levels + 1)).run
          ⟨towerChars n ++ ('>' :: ';' :: rest), start + 1 + 1 + 1 + 1⟩
            = .ok (Ty.tower (2 * n), ⟨'>' :: ';' :: rest, stop⟩) := by
        cases n with
        | zero => exact hrun
        | succ n => exact hrun
      have hchars : towerChars (n + 1) ++ rest
          = 'L' :: 'A' :: '<' :: '+' :: (towerChars n ++ ('>' :: ';' :: rest)) := by
        simp [towerChars]
      rw [hchars, Ty.tower_double_succ]
      refine ⟨stop + 1 + 1, run_classType (.inl rfl) fun fuel => ?_⟩
      rw [run_segments_wildcard fuel "A" hreference, hA]

theorem parseClass_tower {n : Nat} (h : n ≤ 256) :
    parseClass (String.ofList (towerChars n)) = .ok ⟨[], Ty.tower (2 * n), []⟩ := by
  have hparameters : (typeParameters reference).run ⟨towerChars n, 0⟩
      = .ok ([], ⟨towerChars n, 0⟩) := by
    cases n with
    | zero => rfl
    | succ n => rfl
  obtain ⟨stop, htype⟩ := run_classType_tower h [] 0
  rw [List.append_nil] at htype
  have hbody : classBody.run ⟨towerChars n, 0⟩
      = .ok (⟨[], Ty.tower (2 * n), []⟩, ⟨[], stop⟩) := by
    refine (run_bind_of_ok hparameters).trans ?_
    exact run_bind_of_ok htype
  have hrun : Signature.run classBody (String.ofList (towerChars n))
      = .ok ⟨[], Ty.tower (2 * n), []⟩ := by
    rw [Signature.run, String.toList_ofList, hbody]
  rw [parseClass, hrun]
  show Except.ok (⟨[], (Ty.tower (2 * n)).bindIn [], []⟩ : ClassSignature String) = _
  rw [Ty.bindIn_tower]

end Signature

def towerFile (n : Nat) : List UInt8 :=
  signatureFile ((Signature.towerChars n).map fun c => UInt8.ofNat c.toNat)

def towerClass (n : Nat) : ClassDecl String :=
  { ClassDecl.bare "X" ⟨0x21⟩ with superType := some (Ty.tower n) }

open Signature (towerChars) in
theorem mem_towerChars {n : Nat} {c : Char} (h : c ∈ towerChars n) :
    c ∈ ['L', 'A', ';', '<', '+', '>'] := by
  induction n with
  | zero =>
    simp only [towerChars, List.mem_cons] at h ⊢
    grind
  | succ n ih =>
    simp only [towerChars, List.mem_cons, List.mem_append] at h ih ⊢
    grind

open Signature (towerChars) in
theorem decode_towerChars (n : Nat) :
    ModifiedUtf8.decode ((towerChars n).map fun c => UInt8.ofNat c.toNat)
      = some (String.ofList (towerChars n)) := by
  have hletters : ∀ c ∈ ['L', 'A', ';', '<', '+', '>'],
      ModifiedUtf8.isPlain (UInt8.ofNat c.toNat)
        ∧ Char.ofNat (UInt8.ofNat c.toNat).toNat = c := by
    simp only [List.forall_mem_cons]
    exact ⟨by decide, by decide, by decide, by decide, by decide, by decide, nofun⟩
  have hplain : ((towerChars n).map fun c => UInt8.ofNat c.toNat).all ModifiedUtf8.isPlain := by
    rw [List.all_map, List.all_eq_true]
    intro c hc
    exact (hletters c (mem_towerChars hc)).1
  have hback : ((towerChars n).map fun c => UInt8.ofNat c.toNat).map (fun b => Char.ofNat b.toNat)
      = towerChars n := by
    rw [List.map_map]
    refine (List.map_congr_left fun c hc => ?_).trans (List.map_id _)
    exact (hletters c (mem_towerChars hc)).2
  rw [ModifiedUtf8.decode, if_pos hplain, hback]

theorem decode_towerFile {n : Nat} (h : n ≤ 256) :
    decode .standard (towerFile n) = .ok (towerClass (2 * n)) := by
  have hlength : (Signature.towerChars n).length = 6 * n + 3 := by
    induction n with
    | zero => rfl
    | succ n ih =>
      have hn := ih (Nat.le_of_succ_le h)
      simp only [Signature.towerChars, List.length_cons, List.length_append, List.length_nil]
      omega
  refine decode_signatureFile ?_ (decode_towerChars n) (Signature.parseClass_tower h)
  rw [List.length_map, hlength]
  show 6 * n + 3 < 65536
  omega

end ClassFile

end ClassCatalog
