/-!
Priority queues as binary heaps.

The items stand at the nodes of a binary tree whose nodes are numbered from one, level by level and
from left to right. A new item starts at the next number and rises as long as it goes before the
item above it. To take the top item away, the last item sinks from the top to the end of the path
that follows the earlier of two children, and rises from there. Two items are compared only where
they meet on such a path, and nothing is assumed of the comparison. Main statements: pushing adds
one item (`toList_push`) and popping takes one away (`toList_pop`).
-/

set_option autoImplicit false

namespace AlgebraicEffects

inductive HeapTree (α : Type) where
  | empty
  | node (top : α) (left right : HeapTree α)

namespace HeapTree

variable {α : Type}

/-- The items of a tree, each before those below it. -/
def toList : HeapTree α → List α
  | empty => []
  | node top left right => top :: (left.toList ++ right.toList)

def top? : HeapTree α → Option α
  | empty => none
  | node top _ _ => some top

/-- The way from the root to the node with this number, true meaning to the right: the digits of the
number in base two below the leading one. -/
def path (number : Nat) : List Bool :=
  if number ≤ 1 then [] else path (number / 2) ++ [number % 2 == 1]
termination_by number
decreasing_by omega

/-- The item at the end of a path. -/
def at? : List Bool → HeapTree α → Option α
  | _, empty => none
  | [], node top _ _ => some top
  | right :: path, node _ l r => if right then at? path r else at? path l

/-- Where an item stands that was put into a tree: at the top, above two trees, or below it. -/
inductive Placed (α : Type) where
  | atTop (left right : HeapTree α)
  | below (tree : HeapTree α)

/-- The tree with the item where it was placed. -/
def Placed.tree (x : α) : Placed α → HeapTree α
  | atTop left right => node x left right
  | below tree => tree

variable (before : α → α → Bool) (x : α)

/-- Lets an item that was placed in the left tree rise past `top`. -/
def riseLeft (top : α) (left : Placed α) (right : HeapTree α) : Placed α :=
  match left with
  | .atTop l r =>
    if before x top then .atTop (node top l r) right else .below (node top (node x l r) right)
  | .below l => .below (node top l right)

/-- Lets an item that was placed in the right tree rise past `top`. -/
def riseRight (top : α) (left : HeapTree α) (right : Placed α) : Placed α :=
  match right with
  | .atTop l r =>
    if before x top then .atTop left (node top l r) else .below (node top left (node x l r))
  | .below r => .below (node top left r)

/-- Puts an item at the end of a path, from where it rises. -/
def insert : List Bool → HeapTree α → Placed α
  | _, empty => .atTop empty empty
  | true :: path, node top l r => riseRight before x top l (insert path r)
  | path, node top l r => riseLeft before x top (insert path.tail l) r

/-- Takes away the item at the end of a path. -/
def remove : List Bool → HeapTree α → Option (α × HeapTree α)
  | _, empty => none
  | true :: path, node top l r =>
    match remove path r with
    | some (last, rest) => some (last, node top l rest)
    | none => some (top, l)
  | path, node top l r =>
    match remove path.tail l with
    | some (last, rest) => some (last, node top rest r)
    | none => some (top, r)

/-- Whether the earlier of two trees is the right one. Of trees that tie it is, too. -/
def goesRight (left right : HeapTree α) : Bool :=
  match left.top?, right.top? with
  | some a, some b => !before a b
  | some _, none => false
  | none, _ => true

/-- Lets an item sink into a tree in the place of its top, along the earlier children to an end, and
rise from there. -/
def sink : HeapTree α → Placed α
  | empty => .atTop empty empty
  | node _ l r =>
    if goesRight before l r then
      match r.top? with
      | some top => riseRight before x top l (sink r)
      | none => .atTop l r
    else
      match l.top? with
      | some top => riseLeft before x top (sink l) r
      | none => .atTop l r

/-- The items below the top. -/
def belowTop : HeapTree α → List α
  | empty => []
  | node _ left right => left.toList ++ right.toList

theorem toList_riseLeft (top : α) (left : Placed α) (right : HeapTree α) :
    ((riseLeft before x top left right).tree x).toList.Perm
      (top :: ((left.tree x).toList ++ right.toList)) := by
  cases left with
  | below l => exact .refl _
  | atTop l r =>
    simp only [riseLeft]
    split
    · exact .swap top x _
    · exact .refl _

theorem toList_riseRight (top : α) (left : HeapTree α) (right : Placed α) :
    ((riseRight before x top left right).tree x).toList.Perm
      (top :: (left.toList ++ (right.tree x).toList)) := by
  cases right with
  | below r => exact .refl _
  | atTop l r =>
    simp only [riseRight]
    split
    · refine (List.Perm.cons x List.perm_middle).trans ((List.Perm.swap top x _).trans ?_)
      exact List.Perm.cons top List.perm_middle.symm
    · exact .refl _

/-- Inserting adds one item. -/
theorem toList_insert (path : List Bool) (t : HeapTree α) :
    ((insert before x path t).tree x).toList.Perm (x :: t.toList) := by
  induction t generalizing path with
  | empty => cases path <;> simp [insert, Placed.tree, toList]
  | node top l r ihl ihr =>
    have left (p : List Bool) :
        ((riseLeft before x top (insert before x p l) r).tree x).toList.Perm
          (x :: (node top l r).toList) :=
      (toList_riseLeft before x top _ r).trans
        (((ihl p).append_right r.toList).cons top |>.trans (.swap x top _))
    match path with
    | [] => exact left []
    | false :: p => exact left p
    | true :: p =>
      refine (toList_riseRight before x top l _).trans ?_
      refine (((ihr p).append_left l.toList).trans List.perm_middle).cons top |>.trans ?_
      exact .swap x top _

/-- Removing takes one item away. -/
theorem toList_remove {path : List Bool} {t rest : HeapTree α} {last : α}
    (h : remove path t = some (last, rest)) : t.toList.Perm (last :: rest.toList) := by
  induction t generalizing path rest last with
  | empty => cases path <;> simp [remove] at h
  | node top l r ihl ihr =>
    have left (p : List Bool)
        (h : (match remove p l with
          | some (last, rest) => some (last, node top rest r)
          | none => some (top, r)) = some (last, rest)) :
        (node top l r).toList.Perm (last :: rest.toList) := by
      cases hl : remove p l with
      | none =>
        rw [hl] at h
        obtain ⟨rfl, rfl⟩ := Prod.mk.injEq .. ▸ Option.some.inj h
        cases l with
        | empty => exact .refl _
        | node a b c =>
          match p with
          | [] | false :: _ | true :: _ => simp only [remove] at hl; split at hl <;> simp at hl
      | some found =>
        rw [hl] at h
        obtain ⟨rfl, rfl⟩ := Prod.mk.injEq .. ▸ Option.some.inj h
        exact (((ihl hl).append_right r.toList).cons top).trans (.swap _ top _)
    match path with
    | [] => exact left [] h
    | false :: p => exact left p h
    | true :: p =>
      simp only [remove] at h
      cases hr : remove p r with
      | none =>
        rw [hr] at h
        obtain ⟨rfl, rfl⟩ := Prod.mk.injEq .. ▸ Option.some.inj h
        cases r with
        | empty => simp [toList]
        | node a b c =>
          match p with
          | [] | false :: _ | true :: _ => simp only [remove] at hr; split at hr <;> simp at hr
      | some found =>
        rw [hr] at h
        obtain ⟨rfl, rfl⟩ := Prod.mk.injEq .. ▸ Option.some.inj h
        refine (((ihr hr).append_left l.toList).trans List.perm_middle).cons top |>.trans ?_
        exact .swap _ top _

theorem toList_of_top? {t : HeapTree α} {top : α} (h : t.top? = some top) :
    t.toList = top :: t.belowTop := by
  cases t with
  | empty => simp [top?] at h
  | node a l r => simp only [top?, Option.some.injEq] at h; subst h; rfl

/-- Sinking puts one item in the place of the top. -/
theorem toList_sink (t : HeapTree α) :
    ((sink before x t).tree x).toList.Perm (x :: t.belowTop) := by
  induction t with
  | empty => exact .refl _
  | node top l r ihl ihr =>
    simp only [sink]
    split
    · cases hr : r.top? with
      | none => exact .refl _
      | some a =>
        refine (toList_riseRight before x a l _).trans ?_
        rw [belowTop, toList_of_top? hr]
        refine (((ihr).append_left l.toList).trans List.perm_middle).cons a |>.trans ?_
        exact (List.Perm.swap x a _).trans (List.perm_middle.symm.cons x)
    · cases hl : l.top? with
      | none => exact .refl _
      | some a =>
        refine (toList_riseLeft before x a _ r).trans ?_
        rw [belowTop, toList_of_top? hl]
        exact ((ihl.append_right r.toList).cons a).trans (.swap x a _)

end HeapTree

/-- A priority queue. The comparison is given with each operation. -/
structure Heap (α : Type) where
  tree : HeapTree α
  size : Nat

namespace Heap

variable {α : Type}

def empty : Heap α := ⟨.empty, 0⟩

def isEmpty (h : Heap α) : Bool := h.size == 0

/-- The items, in no order that matters. -/
def toList (h : Heap α) : List α := h.tree.toList

/-- The items in the order of their numbers. -/
def numbered (h : Heap α) : List α :=
  (List.range h.size).filterMap fun i => h.tree.at? (HeapTree.path (i + 1))

/-- The next item. -/
def peek? (h : Heap α) : Option α := h.tree.top?

def push (before : α → α → Bool) (x : α) (h : Heap α) : Heap α :=
  ⟨(h.tree.insert before x (HeapTree.path (h.size + 1))).tree x, h.size + 1⟩

/-- Takes the next item away. -/
def pop? (before : α → α → Bool) (h : Heap α) : Option (α × Heap α) :=
  match h.tree.remove (HeapTree.path h.size) with
  | none => none
  | some (last, rest) =>
    match rest.top? with
    | none => some (last, ⟨.empty, h.size - 1⟩)
    | some top => some (top, ⟨(rest.sink before last).tree last, h.size - 1⟩)

/-- Pushing adds one item. -/
theorem toList_push (before : α → α → Bool) (x : α) (h : Heap α) :
    (h.push before x).toList.Perm (x :: h.toList) :=
  HeapTree.toList_insert before x _ h.tree

/-- Popping takes one item away. -/
theorem toList_pop {before : α → α → Bool} {x : α} {h rest : Heap α}
    (hx : h.pop? before = some (x, rest)) : h.toList.Perm (x :: rest.toList) := by
  simp only [pop?] at hx
  split at hx
  · simp at hx
  · rename_i last r hr
    refine (HeapTree.toList_remove hr).trans ?_
    cases ht : r.top? with
    | none =>
      rw [ht] at hx
      obtain ⟨rfl, rfl⟩ := Prod.mk.injEq .. ▸ Option.some.inj hx
      cases r with
      | empty => exact .refl _
      | node a b c => simp [HeapTree.top?] at ht
    | some top =>
      rw [ht] at hx
      obtain ⟨rfl, rfl⟩ := Prod.mk.injEq .. ▸ Option.some.inj hx
      rw [HeapTree.toList_of_top? ht]
      exact (List.Perm.swap _ last _).trans
        ((HeapTree.toList_sink before last r).symm.cons _)

end Heap

end AlgebraicEffects
