import AlgebraicEffects.Host.Heap
import Mathlib.Data.List.Induction
import Mathlib.Order.Lattice

/-!
Heaps keep their order.

The items of a heap are ordered by a key if none lies above one with a smaller key. A heap also has the
outline that its size says: the places with the numbers up to its size are taken, and no others. Main
statements: pushing keeps both (`Heap.Sound.push`), popping keeps both and takes an item with the
least key (`Heap.Sound.pop`), and only an empty heap has nothing to pop (`Heap.Sound.pop_none`).
-/

set_option autoImplicit false

namespace AlgebraicEffects

variable {α κ : Type} [LinearOrder κ] {before : α → α → Bool} {key : α → κ} {x top : α}

/-- A comparison goes by a key, on some items. -/
def GoesBy (before : α → α → Bool) (key : α → κ) (P : α → Prop) : Prop :=
  ∀ a b, P a → P b → (before a b = true ↔ key a < key b)

namespace HeapTree

section Order

/-- No item lies above one with a smaller key. -/
def Ordered (key : α → κ) : HeapTree α → Prop
  | empty => True
  | node top l r =>
    (∀ y ∈ l.toList, key top ≤ key y) ∧ (∀ y ∈ r.toList, key top ≤ key y) ∧
      l.Ordered key ∧ r.Ordered key

/-- Where an item was placed among others, the order is kept. If it does not stand at the top, one of
the others does, which has no greater key. -/
inductive Placed.Sound (key : α → κ) (x : α) (items : List α) : Placed α → Prop where
  | atTop {l r : HeapTree α} : l.Ordered key → r.Ordered key →
      (l.toList ++ r.toList).Perm items → (∀ y ∈ items, key x ≤ key y) → Sound key x items (.atTop l r)
  | below {t : HeapTree α} : t.Ordered key → t.toList.Perm (x :: items) →
      (∃ y ∈ items, key y ≤ key x) → Sound key x items (.below t)

variable {items others : List α} {p : Placed α} {l r t : HeapTree α}

theorem Placed.Sound.perm (h : p.Sound key x items) (hperm : items.Perm others) :
    p.Sound key x others := by
  cases h with
  | atTop hl hr hitems hx =>
    exact .atTop hl hr (hitems.trans hperm) fun y hy => hx y (hperm.mem_iff.2 hy)
  | below ht hitems hex =>
    obtain ⟨y, hy, hle⟩ := hex
    exact .below ht (hitems.trans (hperm.cons x)) ⟨y, hperm.mem_iff.1 hy, hle⟩

theorem Placed.Sound.ordered (h : p.Sound key x items) : (p.tree x).Ordered key := by
  cases h with
  | atTop hl hr hitems hx =>
    refine ⟨fun y hy => hx y (hitems.mem_iff.1 ?_), fun y hy => hx y (hitems.mem_iff.1 ?_), hl, hr⟩
    · exact List.mem_append_left _ hy
    · exact List.mem_append_right _ hy
  | below ht _ _ => exact ht

/-- What is not above some item is not above an item that was placed below it. -/
theorem Placed.Sound.le_of_below (hex : ∃ y ∈ items, key y ≤ key x)
    (htop : ∀ y ∈ items, key top ≤ key y) : ∀ y ∈ x :: items, key top ≤ key y := by
  obtain ⟨z, hz, hle⟩ := hex
  intro y hy
  rcases List.mem_cons.1 hy with rfl | hy
  · exact le_trans (htop z hz) hle
  · exact htop y hy

theorem Placed.Sound.riseLeft (hgoes : before x top = true ↔ key x < key top)
    (h : p.Sound key x items) (hr : r.Ordered key) (hitems : ∀ y ∈ items, key top ≤ key y)
    (hright : ∀ y ∈ r.toList, key top ≤ key y) :
    (HeapTree.riseLeft before x top p r).Sound key x (top :: (items ++ r.toList)) := by
  cases h with
  | @atTop a b ha hb hperm hx =>
    have hab (y : α) (hy : y ∈ a.toList ++ b.toList) : key top ≤ key y :=
      hitems y (hperm.mem_iff.1 hy)
    by_cases hbefore : before x top = true
    · have hlt := hgoes.1 hbefore
      rw [HeapTree.riseLeft, if_pos hbefore]
      refine .atTop ⟨fun y hy => hab y (List.mem_append_left _ hy),
        fun y hy => hab y (List.mem_append_right _ hy), ha, hb⟩ hr
        ((hperm.append_right r.toList).cons top) fun y hy => ?_
      rcases List.mem_cons.1 hy with rfl | hy
      · exact le_of_lt hlt
      · rcases List.mem_append.1 hy with hy | hy
        · exact hx y hy
        · exact le_trans (le_of_lt hlt) (hright y hy)
    · have hle : key top ≤ key x := not_lt.1 fun hlt => hbefore (hgoes.2 hlt)
      rw [HeapTree.riseLeft, if_neg hbefore]
      refine .below ⟨fun y hy => ?_, hright, (Placed.Sound.atTop ha hb hperm hx).ordered, hr⟩ ?_
        ⟨top, List.mem_cons_self, hle⟩
      · rcases List.mem_cons.1 hy with rfl | hy
        · exact hle
        · exact hab y hy
      · exact (((hperm.append_right r.toList).cons x).cons top).trans (.swap x top _)
  | @below t ht hperm hex =>
    refine .below ⟨fun y hy => ?_, hright, ht, hr⟩ ?_ ?_
    · exact Placed.Sound.le_of_below hex hitems y (hperm.mem_iff.1 hy)
    · exact ((hperm.append_right r.toList).cons top).trans (.swap x top _)
    · obtain ⟨y, hy, hle⟩ := hex
      exact ⟨y, List.mem_cons_of_mem _ (List.mem_append_left _ hy), hle⟩

theorem Placed.Sound.riseRight (hgoes : before x top = true ↔ key x < key top)
    (h : p.Sound key x items) (hl : l.Ordered key) (hitems : ∀ y ∈ items, key top ≤ key y)
    (hleft : ∀ y ∈ l.toList, key top ≤ key y) :
    (HeapTree.riseRight before x top l p).Sound key x (top :: (l.toList ++ items)) := by
  cases h with
  | @atTop a b ha hb hperm hx =>
    have hab (y : α) (hy : y ∈ a.toList ++ b.toList) : key top ≤ key y :=
      hitems y (hperm.mem_iff.1 hy)
    by_cases hbefore : before x top = true
    · have hlt := hgoes.1 hbefore
      rw [HeapTree.riseRight, if_pos hbefore]
      refine .atTop hl ⟨fun y hy => hab y (List.mem_append_left _ hy),
        fun y hy => hab y (List.mem_append_right _ hy), ha, hb⟩ ?_ fun y hy => ?_
      · exact List.perm_middle.trans ((hperm.append_left l.toList).cons top)
      · rcases List.mem_cons.1 hy with rfl | hy
        · exact le_of_lt hlt
        · rcases List.mem_append.1 hy with hy | hy
          · exact le_trans (le_of_lt hlt) (hleft y hy)
          · exact hx y hy
    · have hle : key top ≤ key x := not_lt.1 fun hlt => hbefore (hgoes.2 hlt)
      rw [HeapTree.riseRight, if_neg hbefore]
      refine .below ⟨hleft, fun y hy => ?_, hl, (Placed.Sound.atTop ha hb hperm hx).ordered⟩ ?_
        ⟨top, List.mem_cons_self, hle⟩
      · rcases List.mem_cons.1 hy with rfl | hy
        · exact hle
        · exact hab y hy
      · refine (List.Perm.cons top ?_).trans (.swap x top _)
        exact List.perm_middle.trans ((hperm.append_left l.toList).cons x)
  | @below t ht hperm hex =>
    refine .below ⟨hleft, fun y hy => ?_, hl, ht⟩ ?_ ?_
    · exact Placed.Sound.le_of_below hex hitems y (hperm.mem_iff.1 hy)
    · refine (List.Perm.cons top ?_).trans (.swap x top _)
      exact (hperm.append_left l.toList).trans List.perm_middle
    · obtain ⟨y, hy, hle⟩ := hex
      exact ⟨y, List.mem_cons_of_mem _ (List.mem_append_right _ hy), hle⟩

variable {P : α → Prop}

theorem Ordered.insert (hgoes : GoesBy before key P) (hx : P x) (h : t.Ordered key)
    (ht : ∀ y ∈ t.toList, P y) (path : List Bool) :
    (t.insert before x path).Sound key x t.toList := by
  induction t generalizing path with
  | empty => cases path <;> exact .atTop trivial trivial .rfl fun y hy => absurd hy List.not_mem_nil
  | node top l r ihl ihr =>
    obtain ⟨htl, htr, hl, hr⟩ := h
    have htop := hgoes x top hx (ht top List.mem_cons_self)
    have hleft (p : List Bool) :=
      ihl hl (fun y hy => ht y (List.mem_cons_of_mem _ (List.mem_append_left _ hy))) p
    have hright (p : List Bool) :=
      ihr hr (fun y hy => ht y (List.mem_cons_of_mem _ (List.mem_append_right _ hy))) p
    rcases path with - | ⟨- | -, path⟩
    · exact (hleft []).riseLeft htop hr htl htr
    · exact (hleft path).riseLeft htop hr htl htr
    · exact (hright path).riseRight htop hl htr htl

theorem Ordered.le_of_top? {y z : α} (h : t.Ordered key) (hy : t.top? = some y)
    (hz : z ∈ t.toList) : key y ≤ key z := by
  cases t with
  | empty => cases hy
  | node top l r =>
    cases hy
    rcases List.mem_cons.1 hz with rfl | hz
    · exact le_refl _
    · rcases List.mem_append.1 hz with hz | hz
      · exact h.1 z hz
      · exact h.2.1 z hz

theorem toList_of_top?_none (h : t.top? = none) : t = empty := by
  cases t with
  | empty => rfl
  | node => cases h

/-- The top of the tree that goes first has no greater key than the items of the other. -/
theorem le_of_goesRight (hgoes : GoesBy before key P) (hl : l.Ordered key)
    (htl : ∀ y ∈ l.toList, P y) (htr : ∀ y ∈ r.toList, P y)
    (h : goesRight before l r = true) (htop : r.top? = some top) :
    ∀ y ∈ l.toList, key top ≤ key y := by
  intro y hy
  cases ha : l.top? with
  | none =>
    rw [toList_of_top?_none ha] at hy
    exact absurd hy List.not_mem_nil
  | some a =>
    have hal : a ∈ l.toList := by rw [toList_of_top? ha]; exact List.mem_cons_self
    have htopr : top ∈ r.toList := by rw [toList_of_top? htop]; exact List.mem_cons_self
    have hnot : ¬ before a top = true := by simpa [goesRight, ha, htop] using h
    have hle : key top ≤ key a :=
      not_lt.1 fun hlt => hnot ((hgoes a top (htl a hal) (htr top htopr)).2 hlt)
    exact le_trans hle (hl.le_of_top? ha hy)

theorem le_of_not_goesRight (hgoes : GoesBy before key P) (hr : r.Ordered key)
    (htl : ∀ y ∈ l.toList, P y) (htr : ∀ y ∈ r.toList, P y)
    (h : goesRight before l r = false) (htop : l.top? = some top) :
    ∀ y ∈ r.toList, key top ≤ key y := by
  intro y hy
  cases hb : r.top? with
  | none =>
    rw [toList_of_top?_none hb] at hy
    exact absurd hy List.not_mem_nil
  | some b =>
    have htopl : top ∈ l.toList := by rw [toList_of_top? htop]; exact List.mem_cons_self
    have hbr : b ∈ r.toList := by rw [toList_of_top? hb]; exact List.mem_cons_self
    have hbefore : before top b = true := by simpa [goesRight, hb, htop] using h
    have hlt := (hgoes top b (htl top htopl) (htr b hbr)).1 hbefore
    exact le_trans (le_of_lt hlt) (hr.le_of_top? hb hy)

theorem Ordered.sink (hgoes : GoesBy before key P) (hx : P x) (h : t.Ordered key)
    (ht : ∀ y ∈ t.toList, P y) : (t.sink before x).Sound key x t.belowTop := by
  induction t with
  | empty => exact .atTop trivial trivial .rfl fun y hy => absurd hy List.not_mem_nil
  | node a l r ihl ihr =>
    obtain ⟨-, -, hl, hr⟩ := h
    have htl (y : α) (hy : y ∈ l.toList) : P y :=
      ht y (List.mem_cons_of_mem _ (List.mem_append_left _ hy))
    have htr (y : α) (hy : y ∈ r.toList) : P y :=
      ht y (List.mem_cons_of_mem _ (List.mem_append_right _ hy))
    have below {s : HeapTree α} {top : α} (hs : s.Ordered key) (htop : s.top? = some top)
        (y : α) (hy : y ∈ s.belowTop) : key top ≤ key y :=
      hs.le_of_top? htop (by rw [toList_of_top? htop]; exact List.mem_cons_of_mem _ hy)
    unfold HeapTree.sink
    cases hright : goesRight before l r with
    | true =>
      rw [if_pos rfl]
      cases htop : r.top? with
      | none =>
        have hl' : l = HeapTree.empty := by
          cases ha : l.top? with
          | none => exact toList_of_top?_none ha
          | some b => simp [goesRight, ha, htop] at hright
        rw [toList_of_top?_none htop, hl']
        exact .atTop trivial trivial .rfl fun y hy => absurd hy List.not_mem_nil
      | some top =>
        have htopr : top ∈ r.toList := by rw [toList_of_top? htop]; exact List.mem_cons_self
        have hrise := (ihr hr htr).riseRight (hgoes x top hx (htr top htopr)) hl (below hr htop)
          (le_of_goesRight hgoes hl htl htr hright htop)
        refine hrise.perm ?_
        rw [belowTop, toList_of_top? htop]
        exact List.perm_middle.symm
    | false =>
      rw [if_neg Bool.false_ne_true]
      cases htop : l.top? with
      | none => simp [goesRight, htop] at hright
      | some top =>
        have htopl : top ∈ l.toList := by rw [toList_of_top? htop]; exact List.mem_cons_self
        have hrise := (ihl hl htl).riseLeft (hgoes x top hx (htl top htopl)) hr (below hl htop)
          (le_of_not_goesRight hgoes hr htl htr hright htop)
        rw [belowTop, toList_of_top? htop]
        exact hrise

end Order

section Outline

variable {l r t : HeapTree α} {p q : List Bool}

/-- Whether an item stands at the end of a path. -/
def holds (t : HeapTree α) (p : List Bool) : Bool := (t.at? p).isSome

@[simp] theorem holds_empty (p : List Bool) : (empty : HeapTree α).holds p = false := by
  cases p <;> rfl

@[simp] theorem holds_nil (top : α) (l r : HeapTree α) : (node top l r).holds [] = true := rfl

@[simp] theorem holds_false (top : α) (l r : HeapTree α) (p : List Bool) :
    (node top l r).holds (false :: p) = l.holds p := rfl

@[simp] theorem holds_true (top : α) (l r : HeapTree α) (p : List Bool) :
    (node top l r).holds (true :: p) = r.holds p := rfl

theorem eq_empty_of_not_holds (h : t.holds [] = false) : t = empty := by
  cases t with
  | empty => rfl
  | node top l r => cases h

/-- The item at the top does not matter. -/
theorem holds_node (a b : α) (l r : HeapTree α) (p : List Bool) :
    (node a l r).holds p = (node b l r).holds p := by
  rcases p with - | ⟨- | -, p⟩ <;> rfl

theorem holds_riseLeft (before : α → α → Bool) (x top : α) (left : Placed α) (r : HeapTree α)
    (p : List Bool) :
    ((riseLeft before x top left r).tree x).holds p = (node top (left.tree x) r).holds p := by
  cases left with
  | below l => rfl
  | atTop a b =>
    rw [riseLeft]
    split
    · rcases p with - | ⟨- | -, p⟩
      · rfl
      · exact holds_node top x a b p
      · rfl
    · rfl

theorem holds_riseRight (before : α → α → Bool) (x top : α) (l : HeapTree α) (right : Placed α)
    (p : List Bool) :
    ((riseRight before x top l right).tree x).holds p = (node top l (right.tree x)).holds p := by
  cases right with
  | below r => rfl
  | atTop a b =>
    rw [riseRight]
    split
    · rcases p with - | ⟨- | -, p⟩
      · rfl
      · rfl
      · exact holds_node top x a b p
    · rfl

/-- Sinking leaves the outline of a tree with a top. -/
theorem holds_sink (before : α → α → Bool) (x : α) (ht : t ≠ empty) (p : List Bool) :
    ((t.sink before x).tree x).holds p = t.holds p := by
  induction t generalizing p with
  | empty => exact absurd rfl ht
  | node top l r ihl ihr =>
    rw [sink]
    split
    · cases hr : r.top? with
      | none => exact holds_node x top l r p
      | some a =>
        have hne : r ≠ empty := by
          rintro rfl
          cases hr
        refine (holds_riseRight before x a l _ p).trans ?_
        rcases p with - | ⟨- | -, p⟩
        · rfl
        · rfl
        · exact ihr hne p
    · cases hl : l.top? with
      | none => exact holds_node x top l r p
      | some a =>
        have hne : l ≠ empty := by
          rintro rfl
          cases hl
        refine (holds_riseLeft before x a _ r p).trans ?_
        rcases p with - | ⟨- | -, p⟩
        · rfl
        · exact ihl hne p
        · rfl

/-- The path leads to the first place below the items of a tree. -/
inductive Gap : HeapTree α → List Bool → Prop where
  | here : Gap empty []
  | left {top : α} {l r : HeapTree α} {p : List Bool} : Gap l p → Gap (node top l r) (false :: p)
  | right {top : α} {l r : HeapTree α} {p : List Bool} : Gap r p → Gap (node top l r) (true :: p)

/-- The path leads to an item without any below it. -/
inductive Tip : HeapTree α → List Bool → Prop where
  | here {top : α} : Tip (node top empty empty) []
  | left {top : α} {l r : HeapTree α} {p : List Bool} : Tip l p → Tip (node top l r) (false :: p)
  | right {top : α} {l r : HeapTree α} {p : List Bool} : Tip r p → Tip (node top l r) (true :: p)

/-- An item that is inserted at a gap takes that place, and all others stay taken. -/
theorem Gap.holds_insert (h : Gap t p) (before : α → α → Bool) (x : α) (q : List Bool) :
    ((t.insert before x p).tree x).holds q = (t.holds q || q == p) := by
  induction h generalizing q with
  | here => rcases q with - | ⟨- | -, q⟩ <;> simp [insert, Placed.tree]
  | @left top l r p _ ih =>
    refine (holds_riseLeft before x top _ r q).trans ?_
    rcases q with - | ⟨- | -, q⟩
    · simp
    · simp [ih q]
    · simp
  | @right top l r p _ ih =>
    refine (holds_riseRight before x top l _ q).trans ?_
    rcases q with - | ⟨- | -, q⟩
    · simp
    · simp
    · simp [ih q]

/-- An item at a tip can be removed. All other places stay taken, the order is kept, and so is the
top, if it is not the item itself. -/
theorem Tip.exists_remove (key : α → κ) (h : Tip t p) :
    ∃ last rest, t.remove p = some (last, rest) ∧
      (∀ q, rest.holds q = (t.holds q && q != p)) ∧ (t.Ordered key → rest.Ordered key) ∧
      (p ≠ [] → rest.top? = t.top?) := by
  induction h with
  | @here top =>
    refine ⟨top, empty, rfl, fun q => ?_, fun _ => trivial, fun hp => absurd rfl hp⟩
    rcases q with - | ⟨- | -, q⟩ <;> simp
  | @left top l r p _ ih =>
    obtain ⟨last, rest, hremove, hholds, hordered, -⟩ := ih
    refine ⟨last, node top rest r, by simp [remove, hremove], fun q => ?_, ?_, fun _ => rfl⟩
    · rcases q with - | ⟨- | -, q⟩
      · rfl
      · simp [hholds q, bne]
      · simp
    · rintro ⟨htl, htr, hl, hr⟩
      refine ⟨fun y hy => htl y ?_, htr, hordered hl, hr⟩
      exact (toList_remove hremove).mem_iff.2 (List.mem_cons_of_mem _ hy)
  | @right top l r p _ ih =>
    obtain ⟨last, rest, hremove, hholds, hordered, -⟩ := ih
    refine ⟨last, node top l rest, by simp [remove, hremove], fun q => ?_, ?_, fun _ => rfl⟩
    · rcases q with - | ⟨- | -, q⟩
      · rfl
      · simp
      · simp [hholds q, bne]
    · rintro ⟨htl, htr, hl, hr⟩
      refine ⟨htl, fun y hy => htr y ?_, hl, hordered hr⟩
      exact (toList_remove hremove).mem_iff.2 (List.mem_cons_of_mem _ hy)

/-- The number of the place at the end of a path. -/
def number (p : List Bool) : Nat := p.foldl (fun k right => 2 * k + right.toNat) 1

@[simp] theorem number_concat (p : List Bool) (right : Bool) :
    number (p ++ [right]) = 2 * number p + right.toNat := by
  simp [number]

theorem number_pos (p : List Bool) : 0 < number p := by
  induction p using List.reverseRecOn with
  | nil => exact Nat.one_pos
  | append_singleton p right ih => rw [number_concat]; omega

/-- What lies below a place has a greater number. -/
theorem number_lt_append (p : List Bool) (hq : q ≠ []) : number p < number (p ++ q) := by
  induction q using List.reverseRecOn with
  | nil => exact absurd rfl hq
  | append_singleton q right ih =>
    have hpos := number_pos (p ++ q)
    have hle : number p ≤ number (p ++ q) := by
      by_cases hq : q = []
      · subst hq
        exact Nat.le_of_eq (by rw [List.append_nil])
      · exact Nat.le_of_lt (ih hq)
    rw [← List.append_assoc, number_concat]
    omega

theorem number_path {n : Nat} (hn : 0 < n) : number (path n) = n := by
  induction n using Nat.strongRecOn with
  | ind n ih =>
    rw [path]
    split
    · have hone : n = 1 := by omega
      exact hone.symm
    · have hhalf := ih (n / 2) (by omega) (by omega)
      rw [number_concat, hhalf]
      rcases Nat.mod_two_eq_zero_or_one n with h | h <;> simp [h] <;> omega

theorem path_number (p : List Bool) : path (number p) = p := by
  induction p using List.reverseRecOn with
  | nil => rw [number, List.foldl_nil, path, if_pos (Nat.le_refl 1)]
  | append_singleton p right ih =>
    have hpos := number_pos p
    rw [number_concat, path, if_neg (by omega)]
    cases right with
    | false =>
      rw [show (2 * number p + false.toNat) / 2 = number p by simp, ih]
      simp
    | true =>
      rw [show (2 * number p + true.toNat) / 2 = number p by simp; omega, ih]
      simp

/-- The places with the numbers up to `n` are taken, and no others. -/
def Outlined (n : Nat) (t : HeapTree α) : Prop := ∀ p, t.holds p = decide (number p ≤ n)

variable {n : Nat}

theorem outlined_empty : Outlined 0 (empty : HeapTree α) := by
  intro p
  have hpos := number_pos p
  rw [holds_empty, eq_comm, decide_eq_false_iff_not]
  omega

theorem Outlined.eq_empty (h : Outlined 0 t) : t = empty :=
  eq_empty_of_not_holds (h [])

theorem Outlined.eq_zero (h : Outlined n (empty : HeapTree α)) : n = 0 := by
  have hroot := h []
  rw [holds_empty, eq_comm, decide_eq_false_iff_not] at hroot
  have hone : number [] = 1 := rfl
  omega

/-- What is below a gap and above it decides where it is. -/
theorem gap_of (h : t.holds p = false) (habove : ∀ q s, p = q ++ s → s ≠ [] → t.holds q = true) :
    Gap t p := by
  induction p generalizing t with
  | nil => rw [eq_empty_of_not_holds h]; exact .here
  | cons right p ih =>
    cases t with
    | empty =>
      have hroot := habove [] (right :: p) rfl (List.cons_ne_nil right p)
      cases hroot
    | node top l r =>
      cases right with
      | false =>
        exact .left (ih h fun q s hp hs => habove (false :: q) s (by rw [hp, List.cons_append]) hs)
      | true =>
        exact .right (ih h fun q s hp hs => habove (true :: q) s (by rw [hp, List.cons_append]) hs)

theorem tip_of (h : t.holds p = true) (hbelow : ∀ right, t.holds (p ++ [right]) = false) :
    Tip t p := by
  induction p generalizing t with
  | nil =>
    cases t with
    | empty => cases h
    | node top l r =>
      rw [eq_empty_of_not_holds (hbelow false), eq_empty_of_not_holds (hbelow true)]
      exact .here
  | cons right p ih =>
    cases t with
    | empty => cases h
    | node top l r =>
      cases right with
      | false => exact .left (ih h hbelow)
      | true => exact .right (ih h hbelow)

theorem Outlined.gap (h : Outlined n t) : Gap t (path (n + 1)) := by
  have hnumber := number_path (Nat.succ_pos n)
  refine gap_of ?_ fun q s hp hs => ?_
  · rw [h, decide_eq_false_iff_not, hnumber]
    omega
  · have hlt := number_lt_append q hs
    rw [← hp, hnumber] at hlt
    rw [h, decide_eq_true_iff]
    omega

theorem Outlined.tip (h : Outlined n t) (hn : 0 < n) : Tip t (path n) := by
  have hnumber := number_path hn
  refine tip_of ?_ fun right => ?_
  · rw [h, decide_eq_true_iff]
    exact Nat.le_of_eq hnumber
  · rw [h, decide_eq_false_iff_not, number_concat, hnumber]
    omega

theorem eq_path_iff (hn : 0 < n) : q = path n ↔ number q = n := by
  constructor
  · rintro rfl
    exact number_path hn
  · rintro rfl
    exact (path_number q).symm

theorem Outlined.insert (h : Outlined n t) (before : α → α → Bool) (x : α) :
    Outlined (n + 1) ((t.insert before x (path (n + 1))).tree x) := by
  intro q
  have hiff := eq_path_iff (q := q) (Nat.succ_pos n)
  rw [h.gap.holds_insert, h q, Bool.eq_iff_iff, Bool.or_eq_true, decide_eq_true_iff, beq_iff_eq,
    hiff, decide_eq_true_iff]
  omega

end Outline

end HeapTree

namespace Heap

variable {P : α → Prop} {h rest : Heap α}

theorem size_pop (hpop : h.pop? before = some (x, rest)) : rest.size = h.size - 1 := by
  unfold pop? at hpop
  split at hpop
  · cases hpop
  · split at hpop <;> cases hpop <;> rfl

/-- The items of a heap lie in order, and its outline is that of its size. -/
structure Sound (key : α → κ) (h : Heap α) : Prop where
  ordered : h.tree.Ordered key
  outlined : HeapTree.Outlined h.size h.tree

theorem sound_empty : (Heap.empty : Heap α).Sound key := ⟨trivial, HeapTree.outlined_empty⟩

theorem Sound.push (hgoes : GoesBy before key P) (hsound : h.Sound key) (hx : P x)
    (hitems : ∀ y ∈ h.toList, P y) : (h.push before x).Sound key where
  ordered := (hsound.ordered.insert hgoes hx hitems _).ordered
  outlined := hsound.outlined.insert before x

/-- Only an empty heap has nothing to pop. -/
theorem Sound.pop_none (hsound : h.Sound key) (hpop : h.pop? before = none) : h.toList = [] := by
  rcases Nat.eq_zero_or_pos h.size with hzero | hpos
  · rw [toList, (hzero ▸ hsound.outlined : HeapTree.Outlined 0 h.tree).eq_empty, HeapTree.toList]
  · obtain ⟨last, rest, hremove, -⟩ := (hsound.outlined.tip hpos).exists_remove key
    rw [pop?, hremove] at hpop
    cases htop : rest.top? <;> simp [htop] at hpop

/-- What is popped has the least key. -/
theorem Sound.pop (hgoes : GoesBy before key P) (hsound : h.Sound key)
    (hitems : ∀ y ∈ h.toList, P y) (hpop : h.pop? before = some (x, rest)) :
    rest.Sound key ∧ ∀ y ∈ h.toList, key x ≤ key y := by
  have hpos : 0 < h.size := by
    refine Nat.pos_of_ne_zero fun hzero => ?_
    have hempty := (hzero ▸ hsound.outlined : HeapTree.Outlined 0 h.tree).eq_empty
    simp [pop?, hempty, HeapTree.remove] at hpop
  obtain ⟨last, t, hremove, hholds, hordered, htop⟩ :=
    (hsound.outlined.tip hpos).exists_remove key
  have hitems' := HeapTree.toList_remove hremove
  have houtlined : HeapTree.Outlined (h.size - 1) t := by
    intro q
    have hiff := HeapTree.eq_path_iff (q := q) hpos
    have hne : (q != HeapTree.path h.size) = decide (HeapTree.number q ≠ h.size) := by
      rw [Bool.eq_iff_iff, bne_iff_ne, decide_eq_true_iff, ne_eq, hiff]
    rw [hholds q, hsound.outlined q, hne, Bool.eq_iff_iff, Bool.and_eq_true, decide_eq_true_iff,
      decide_eq_true_iff, decide_eq_true_iff]
    omega
  rw [pop?, hremove] at hpop
  cases hroot : t.top? with
  | none =>
    have hempty := HeapTree.toList_of_top?_none hroot
    simp only [hroot, Option.some.injEq, Prod.mk.injEq] at hpop
    obtain ⟨rfl, rfl⟩ := hpop
    rw [hempty] at houtlined hitems'
    refine ⟨⟨trivial, houtlined.eq_zero ▸ HeapTree.outlined_empty⟩, fun y hy => ?_⟩
    have hy := hitems'.mem_iff.1 hy
    rw [HeapTree.toList, List.mem_singleton] at hy
    rw [hy]
  | some top =>
    simp only [hroot, Option.some.injEq, Prod.mk.injEq] at hpop
    obtain ⟨rfl, rfl⟩ := hpop
    have hne : t ≠ HeapTree.empty := by
      rintro rfl
      cases hroot
    have hlast : P last := hitems last (hitems'.mem_iff.2 List.mem_cons_self)
    have hrest (y : α) (hy : y ∈ t.toList) : P y :=
      hitems y (hitems'.mem_iff.2 (List.mem_cons_of_mem _ hy))
    refine ⟨⟨((hordered hsound.ordered).sink hgoes hlast hrest).ordered, fun q => ?_⟩, fun y hy => ?_⟩
    · rw [HeapTree.holds_sink before last hne q, houtlined q]
    · have hpath : HeapTree.path h.size ≠ [] := by
        intro hnil
        have hone : h.size = 1 := by rw [← HeapTree.number_path hpos, hnil]; rfl
        rw [hone] at houtlined
        exact hne houtlined.eq_empty
      exact hsound.ordered.le_of_top? ((htop hpath).symm.trans hroot) hy

theorem pop?_empty (before : α → α → Bool) : (empty : Heap α).pop? before = none := by
  have hremove (path : List Bool) : HeapTree.remove path (.empty : HeapTree α) = none := by
    match path with
    | [] | false :: _ | true :: _ => rfl
  simp only [pop?, empty, hremove]

/-- What is put on an empty heap is next, and nothing else is there. -/
theorem pop?_push_empty (before : α → α → Bool) (x : α) :
    (empty.push before x).pop? before = some (x, .empty) := by
  have hpath : HeapTree.path 1 = [] := by
    unfold HeapTree.path
    rfl
  simp only [push, pop?, empty, Nat.zero_add, hpath]
  rfl

end Heap

end AlgebraicEffects
