import Std.Data.HashSet

/-! The names that a search reaches. Steps may lead back to names that were seen, and the search
still ends, because there are only so many names to come to. -/

namespace ClassCatalog

/-- Steps from a name to others, all of which are among finitely many. -/
structure Steps (α : Type) where
  next : α → List α
  finite : ∃ targets : List α, ∀ a, ∀ b ∈ next a, b ∈ targets

def Steps.only {α : Type} (g : Steps α) (kind : α → Bool) : Steps α where
  next a := (g.next a).filter kind
  finite := by
    obtain ⟨targets, htargets⟩ := g.finite
    exact ⟨targets, fun a b hb => htargets a b (List.mem_filter.1 hb).1⟩

structure Reach (α : Type) [BEq α] [Hashable α] where
  seen : Std.HashSet α
  frontier : List α

namespace Reach

variable {α : Type} [BEq α] [Hashable α]

def absorbOne (r : Reach α) (a : α) : Reach α :=
  if r.seen.contains a then r else ⟨r.seen.insert a, a :: r.frontier⟩

def absorb (seen : Std.HashSet α) (names : List α) : Reach α :=
  names.foldl absorbOne ⟨seen, []⟩

def advance (g : Steps α) (r : Reach α) : Reach α := absorb r.seen (r.frontier.flatMap g.next)

def ahead (targets : List α) (r : Reach α) : Nat :=
  (targets.filter fun a => !r.seen.contains a).length + r.frontier.length

variable [LawfulBEq α] {targets : List α}

theorem ahead_absorbOne_le {a : α} (ha : a ∈ targets) (r : Reach α) :
    (r.absorbOne a).ahead targets ≤ r.ahead targets := by
  unfold absorbOne
  split
  · exact Nat.le_refl _
  · next hnew =>
    have hmem : a ∈ targets.filter fun b => !r.seen.contains b :=
      List.mem_filter.2 ⟨ha, by simpa using hnew⟩
    have hless : (targets.filter fun b => !(r.seen.insert a).contains b)
        = (targets.filter fun b => !r.seen.contains b).filter fun b => !(a == b) := by
      rw [List.filter_filter]
      congr 1
      funext b
      rw [Std.HashSet.contains_insert, Bool.not_or]
    have hlt : ((targets.filter fun b => !r.seen.contains b).filter fun b => !(a == b)).length
        < (targets.filter fun b => !r.seen.contains b).length :=
      List.length_filter_lt_length_iff_exists.2 ⟨a, hmem, by simp⟩
    simp only [ahead, List.length_cons, hless]
    omega

theorem ahead_foldl_le {names : List α} (h : ∀ a ∈ names, a ∈ targets) (r : Reach α) :
    (names.foldl absorbOne r).ahead targets ≤ r.ahead targets := by
  induction names generalizing r with
  | nil => exact Nat.le_refl _
  | cons a names ih =>
    have hrest := ih (fun b hb => h b (List.mem_cons_of_mem a hb)) (r.absorbOne a)
    exact Nat.le_trans hrest (ahead_absorbOne_le (h a List.mem_cons_self) r)

theorem ahead_advance_lt {g : Steps α} (h : ∀ a, ∀ b ∈ g.next a, b ∈ targets) {r : Reach α}
    (hfrontier : ¬ r.frontier.isEmpty) : (r.advance g).ahead targets < r.ahead targets := by
  have hnames : ∀ b ∈ r.frontier.flatMap g.next, b ∈ targets := by
    intro b hb
    obtain ⟨a, _, hab⟩ := List.mem_flatMap.1 hb
    exact h a b hab
  have hle := ahead_foldl_le hnames ⟨r.seen, []⟩
  have hpos : 0 < r.frontier.length := by
    rw [List.length_pos_iff]
    exact fun hnil => hfrontier (List.isEmpty_iff.2 hnil)
  have hstart : Reach.ahead targets ⟨r.seen, []⟩ + r.frontier.length = r.ahead targets := rfl
  unfold advance absorb
  omega

end Reach

namespace Steps

variable {α : Type} [BEq α] [Hashable α]

def grow [LawfulBEq α] (g : Steps α) (r : Reach α) : Std.HashSet α :=
  if r.frontier.isEmpty then r.seen else g.grow (r.advance g)
termination_by r.ahead g.finite.choose
decreasing_by
  next hfrontier => exact Reach.ahead_advance_lt g.finite.choose_spec hfrontier

def closure [LawfulBEq α] (g : Steps α) (start : List α) : Std.HashSet α :=
  g.grow (.absorb ∅ start)

end Steps

end ClassCatalog
