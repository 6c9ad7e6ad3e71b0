import AlgebraicEffects.Host.Agenda
import AlgebraicEffects.Host.EventLoop
import AlgebraicEffects.Proofs.Agreement.Plays
import AlgebraicEffects.Proofs.Queue.Agenda

/-!
Heaps of what is due, listed in order.

What is on a heap is due at a time and has a number. The heap is listed in the order of the times and,
among what is due together, of the numbers (`Lists`). The first of the list is what is popped, and what
gets the next number is placed into the list before what is due later.
-/

set_option autoImplicit false

namespace AlgebraicEffects

open Doubles (IsTime rank)

section Listing

variable {α : Type} {before : α → α → Bool} {due : α → Float} {number : α → ℕ} {P : α → Prop}
  {h : Heap α} {x : α} {xs : List α}

/-- What orders a heap: the time at which something is due, and its number among what is due together. -/
def dueKey (due : α → Float) (number : α → ℕ) (x : α) : ℤ ×ₗ ℕ := toLex (rank (due x), number x)

theorem dueKey_lt_iff {y : α} : dueKey due number x < dueKey due number y ↔
    rank (due x) < rank (due y) ∨ rank (due x) = rank (due y) ∧ number x < number y :=
  Prod.Lex.toLex_lt_toLex

/-- This is the heap, in order. -/
structure Lists (due : α → Float) (number : α → ℕ) (h : Heap α) (xs : List α) : Prop where
  sound : h.Sound (dueKey due number)
  perm : h.toList.Perm xs
  sorted : xs.Pairwise fun x y => dueKey due number x < dueKey due number y

namespace Lists

theorem empty : Lists due number (.empty : Heap α) [] := ⟨Heap.sound_empty, .nil, .nil⟩

/-- What has the greatest number is placed before what is due later. -/
theorem place_sorted (hxs : xs.Pairwise fun x y => dueKey due number x < dueKey due number y)
    (hnumber : ∀ y ∈ xs, number y < number x) :
    (place due x xs).Pairwise fun x y => dueKey due number x < dueKey due number y := by
  induction xs with
  | nil => exact List.pairwise_singleton _ _
  | cons y ys ih =>
    obtain ⟨hy, hys⟩ := List.pairwise_cons.1 hxs
    unfold place
    split
    · rename_i hlt
      refine List.pairwise_cons.2 ⟨fun z hz => ?_, hxs⟩
      have hxy : dueKey due number x < dueKey due number y := dueKey_lt_iff.2 (.inl hlt)
      rcases List.mem_cons.1 hz with rfl | hz
      · exact hxy
      · exact hxy.trans (hy z hz)
    · rename_i hnot
      refine List.pairwise_cons.2 ⟨fun z hz => ?_, ih hys fun z hz => hnumber z (List.mem_cons_of_mem y hz)⟩
      rcases List.mem_cons.1 ((place_perm due x ys).mem_iff.1 hz) with rfl | hz
      · rcases lt_or_eq_of_le (Int.not_lt.1 hnot) with hlt | heq
        · exact dueKey_lt_iff.2 (.inl hlt)
        · exact dueKey_lt_iff.2 (.inr ⟨heq, hnumber y List.mem_cons_self⟩)
      · exact hy z hz

theorem push (hlists : Lists due number h xs) (hgoes : GoesBy before (dueKey due number) P) (hx : P x)
    (hxs : ∀ y ∈ xs, P y) (hnumber : ∀ y ∈ xs, number y < number x) :
    Lists due number (h.push before x) (place due x xs) where
  sound := hlists.sound.push hgoes hx fun y hy => hxs y (hlists.perm.mem_iff.1 hy)
  perm := (Heap.toList_push before x h).trans ((hlists.perm.cons x).trans (place_perm due x xs).symm)
  sorted := place_sorted hlists.sorted hnumber

theorem pop_nil (hlists : Lists due number h []) : h.pop? before = none := by
  cases hpop : h.pop? before with
  | none => rfl
  | some found =>
    obtain ⟨x, rest⟩ := found
    have hperm := (Heap.toList_pop hpop).symm.trans hlists.perm
    exact absurd hperm.eq_nil (List.cons_ne_nil _ _)

/-- The first of the list is popped, and the others are left. -/
theorem pop (hlists : Lists due number h (x :: xs)) (hgoes : GoesBy before (dueKey due number) P)
    (hxs : ∀ y ∈ x :: xs, P y) : ∃ rest, h.pop? before = some (x, rest) ∧ Lists due number rest xs := by
  obtain ⟨hx, hsorted⟩ := List.pairwise_cons.1 hlists.sorted
  cases hpop : h.pop? before with
  | none =>
    have hperm := hlists.perm
    rw [hlists.sound.pop_none hpop] at hperm
    exact absurd hperm.nil_eq (List.cons_ne_nil _ _).symm
  | some found =>
    obtain ⟨y, rest⟩ := found
    have hperm := (Heap.toList_pop hpop).symm.trans hlists.perm
    obtain ⟨hsound, hleast⟩ :=
      hlists.sound.pop hgoes (fun z hz => hxs z (hlists.perm.mem_iff.1 hz)) hpop
    have hyx : y = x := by
      rcases List.mem_cons.1 (hperm.mem_iff.1 List.mem_cons_self) with rfl | hy
      · rfl
      · exact absurd (hleast x (hlists.perm.mem_iff.2 List.mem_cons_self)) (not_le_of_gt (hx y hy))
    subst hyx
    exact ⟨rest, rfl, hsound, hperm.cons_inv, hsorted⟩

/-- The first of the list stands at the top. -/
theorem peek (hlists : Lists due number h (x :: xs)) : h.peek? = some x := by
  obtain ⟨hx, -⟩ := List.pairwise_cons.1 hlists.sorted
  cases htop : h.tree.top? with
  | none =>
    have hempty : h.toList = [] := by
      rw [Heap.toList, HeapTree.toList_of_top?_none htop]
      rfl
    have hperm := hlists.perm
    rw [hempty] at hperm
    exact absurd hperm.nil_eq (List.cons_ne_nil _ _).symm
  | some y =>
    have hle : dueKey due number y ≤ dueKey due number x :=
      hlists.sound.ordered.le_of_top? htop (hlists.perm.mem_iff.2 List.mem_cons_self)
    have hy : y ∈ h.toList := by
      rw [Heap.toList, HeapTree.toList_of_top? htop]
      exact List.mem_cons_self
    rcases List.mem_cons.1 (hlists.perm.mem_iff.1 hy) with rfl | hy
    · exact htop
    · exact absurd hle (not_le_of_gt (hx y hy))

theorem peek_nil (hlists : Lists due number h []) : h.peek? = none := by
  cases htop : h.tree.top? with
  | none => exact htop
  | some y =>
    have hy : y ∈ h.toList := by
      rw [Heap.toList, HeapTree.toList_of_top? htop]
      exact List.mem_cons_self
    exact absurd (hlists.perm.mem_iff.1 hy) List.not_mem_nil

/-- The list is as long as the heap is great. -/
theorem size_eq (hlists : Lists due number h xs) (hgoes : GoesBy before (dueKey due number) P)
    (hxs : ∀ y ∈ xs, P y) : h.size = xs.length := by
  induction xs generalizing h with
  | nil =>
    have hempty : h.tree = .empty := by
      cases htree : h.tree with
      | empty => rfl
      | node top l r =>
        have hnil := hlists.perm.eq_nil
        rw [Heap.toList, htree, HeapTree.toList] at hnil
        exact absurd hnil (List.cons_ne_nil _ _)
    have houtlined := hlists.sound.outlined
    rw [hempty] at houtlined
    exact houtlined.eq_zero
  | cons x xs ih =>
    obtain ⟨rest, hpop, hrest⟩ := hlists.pop hgoes hxs
    have hpos : h.size ≠ 0 := by
      intro hzero
      have hempty := (hzero ▸ hlists.sound.outlined : HeapTree.Outlined 0 h.tree).eq_empty
      have hnil := hlists.perm.symm.mem_iff.1 List.mem_cons_self
      rw [Heap.toList, hempty] at hnil
      exact absurd hnil List.not_mem_nil
    have hsize := ih hrest fun y hy => hxs y (List.mem_cons_of_mem x hy)
    rw [Heap.size_pop hpop] at hsize
    rw [List.length_cons]
    omega

end Lists

end Listing

section Items

/-- The time at which a task is due that is due at a double. -/
def Task.due (t : Task) : Float :=
  match t.time with
  | .float x => x
  | .int _ => 0

theorem goesBy_task : GoesBy Task.before (dueKey Task.due Task.sequence) fun t =>
    t.time = .float t.due ∧ IsTime t.due := by
  have hmem {t : Task} (ht : t.time = .float t.due ∧ IsTime t.due) :
      TimeDomain.doubles.Mem t.time ∧ TimeDomain.doubles.key t = dueKey Task.due Task.sequence t := by
    refine ⟨⟨t.due, ht.1, ht.2.isNumber, lt_of_lt_of_le (by decide) ht.2.rank_nonneg⟩, ?_⟩
    unfold TimeDomain.key dueKey
    rw [ht.1]
    rfl
  intro t u ht hu
  rw [goesBy_before .doubles t u (hmem ht).1 (hmem hu).1, (hmem ht).2, (hmem hu).2]

theorem goesBy_timer : GoesBy Timer.before (dueKey Timer.due Timer.sequence) fun t => IsTime t.due := by
  intro t u ht hu
  rw [dueKey_lt_iff]
  unfold Timer.before
  by_cases hequal : (t.due == u.due) = true
  · have hrank := (Doubles.beq_iff ht.isNumber hu.isNumber).1 hequal
    rw [if_pos hequal, decide_eq_true_iff]
    exact ⟨fun hlt => .inr ⟨hrank, hlt⟩, fun h => h.elim (fun hlt => absurd hrank (ne_of_lt hlt)) And.right⟩
  · have hrank : rank t.due ≠ rank u.due :=
      fun h => hequal ((Doubles.beq_iff ht.isNumber hu.isNumber).2 h)
    rw [if_neg hequal, decide_eq_true_iff, Doubles.lt_iff ht.isNumber hu.isNumber]
    exact ⟨.inl, fun h => h.elim id fun heq => absurd heq.1 hrank⟩

end Items

end AlgebraicEffects
