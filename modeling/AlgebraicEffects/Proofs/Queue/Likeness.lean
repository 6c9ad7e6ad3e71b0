import AlgebraicEffects.Proofs.Flows.Hosts

/-!
Agendas that differ in their callbacks.

Heaps are alike if they have the same shape and like items stand at the same nodes. If the comparison
does not tell like items apart, they stay alike when like items are put on them, and what is taken from
them is alike (`Heap.Like.push`, `Heap.Like.pop`). Nothing else is asked of the comparison. Main
statements: agendas that resemble each other but for what their tasks call still do when like tasks are
scheduled (`Agenda.Resembles.gains`), and their next tasks are alike (`Agenda.Resembles.pop`).
-/

set_option autoImplicit false

namespace AlgebraicEffects

namespace HeapTree

variable {α : Type}

/-- Trees of the same shape, with like items at the same nodes. -/
inductive Like (r : α → α → Prop) : HeapTree α → HeapTree α → Prop where
  | empty : Like r .empty .empty
  | node {x x' : α} {left left' right right' : HeapTree α} :
      r x x' → Like r left left' → Like r right right' →
      Like r (.node x left right) (.node x' left' right')

/-- Like places in trees that are alike. -/
inductive Placed.Like (r : α → α → Prop) : Placed α → Placed α → Prop where
  | atTop {left left' right right' : HeapTree α} :
      HeapTree.Like r left left' → HeapTree.Like r right right' →
      Placed.Like r (.atTop left right) (.atTop left' right')
  | below {t t' : HeapTree α} : HeapTree.Like r t t' → Placed.Like r (.below t) (.below t')

/-- The comparison does not tell like items apart. -/
def Blind (before : α → α → Bool) (r : α → α → Prop) : Prop :=
  ∀ x x' y y', r x x' → r y y' → before x' y' = before x y

section Liking

variable {before : α → α → Bool} {r : α → α → Prop} {x x' top top' : α}
  {t t' left left' right right' : HeapTree α}

theorem Placed.Like.tree {p p' : Placed α} (h : p.Like r p') (hx : r x x') :
    (p.tree x).Like r (p'.tree x') := by
  cases h with
  | atTop hleft hright => exact .node hx hleft hright
  | below h => exact h

theorem Like.top? (h : t.Like r t') : Option.Rel r t.top? t'.top? := by
  cases h with
  | empty => exact .none
  | node hx => exact .some hx

theorem Placed.Like.riseLeft (hblind : Blind before r) (hx : r x x') (htop : r top top')
    {placed placed' : Placed α} (hleft : placed.Like r placed') (hright : right.Like r right') :
    (HeapTree.riseLeft before x top placed right).Like r (HeapTree.riseLeft before x' top' placed' right') := by
  cases hleft with
  | below hleft => exact .below (.node htop hleft hright)
  | atTop hl hr =>
    simp only [HeapTree.riseLeft, hblind x x' top top' hx htop]
    split
    · exact .atTop (.node htop hl hr) hright
    · exact .below (.node htop (.node hx hl hr) hright)

theorem Placed.Like.riseRight (hblind : Blind before r) (hx : r x x') (htop : r top top')
    {placed placed' : Placed α} (hleft : left.Like r left') (hright : placed.Like r placed') :
    (HeapTree.riseRight before x top left placed).Like r (HeapTree.riseRight before x' top' left' placed') := by
  cases hright with
  | below hright => exact .below (.node htop hleft hright)
  | atTop hl hr =>
    simp only [HeapTree.riseRight, hblind x x' top top' hx htop]
    split
    · exact .atTop hleft (.node htop hl hr)
    · exact .below (.node htop hleft (.node hx hl hr))

/-- Like items find like places. -/
theorem Like.insert (hblind : Blind before r) (hx : r x x') (h : t.Like r t') (path : List Bool) :
    (insert before x path t).Like r (insert before x' path t') := by
  induction h generalizing path with
  | empty =>
    match path with
    | [] | false :: _ | true :: _ => exact .atTop .empty .empty
  | node htop hleft hright ihleft ihright =>
    match path with
    | [] => exact .riseLeft hblind hx htop (ihleft []) hright
    | false :: path => exact .riseLeft hblind hx htop (ihleft path) hright
    | true :: path => exact .riseRight hblind hx htop hleft (ihright path)

/-- What is found in trees that are alike is alike, and so is what is left of them. -/
theorem Like.remove (h : t.Like r t') (path : List Bool) :
    Option.Rel (fun found found' => r found.1 found'.1 ∧ found.2.Like r found'.2)
      (remove path t) (remove path t') := by
  induction h generalizing path with
  | empty =>
    match path with
    | [] | false :: _ | true :: _ => exact .none
  | @node x x' left left' right right' hx hleft hright ihleft ihright =>
    have toLeft (path : List Bool) : Option.Rel
        (fun found found' => r found.1 found'.1 ∧ found.2.Like r found'.2)
        (HeapTree.remove (false :: path) (.node x left right))
        (HeapTree.remove (false :: path) (.node x' left' right')) := by
      have hfound := ihleft path
      simp only [HeapTree.remove, List.tail_cons]
      generalize HeapTree.remove path left = found at hfound
      generalize HeapTree.remove path left' = found' at hfound
      cases hfound with
      | none => exact .some ⟨hx, hright⟩
      | some hfound => exact .some ⟨hfound.1, .node hx hfound.2 hright⟩
    match path with
    | [] => exact toLeft []
    | false :: path => exact toLeft path
    | true :: path =>
      have hfound := ihright path
      simp only [HeapTree.remove]
      generalize HeapTree.remove path right = found at hfound
      generalize HeapTree.remove path right' = found' at hfound
      cases hfound with
      | none => exact .some ⟨hx, hleft⟩
      | some hfound => exact .some ⟨hfound.1, .node hx hleft hfound.2⟩

theorem Like.goesRight (hblind : Blind before r) (hleft : left.Like r left')
    (hright : right.Like r right') : goesRight before left' right' = goesRight before left right := by
  cases hleft with
  | empty => rfl
  | node hx =>
    cases hright with
    | empty => rfl
    | node hy => exact congrArg (!·) (hblind _ _ _ _ hx hy)

/-- Like items sink to like places. -/
theorem Like.sink (hblind : Blind before r) (hx : r x x') (h : t.Like r t') :
    (sink before x t).Like r (sink before x' t') := by
  induction h with
  | empty => exact .atTop .empty .empty
  | node _ hleft hright ihleft ihright =>
    simp only [HeapTree.sink, hleft.goesRight hblind hright]
    split
    · cases hright with
      | empty => exact .atTop hleft .empty
      | node htop => exact .riseRight hblind hx htop hleft ihright
    · cases hleft with
      | empty => exact .atTop .empty hright
      | node htop => exact .riseLeft hblind hx htop ihleft hright

end Liking

end HeapTree

section Heaps

variable {α : Type} {before : α → α → Bool} {r : α → α → Prop} {x x' : α} {h h' : Heap α}

/-- Heaps of the same shape, with like items at the same nodes. -/
structure Heap.Like (r : α → α → Prop) (h h' : Heap α) : Prop where
  tree : h.tree.Like r h'.tree
  size : h'.size = h.size

theorem Heap.Like.push (hblind : HeapTree.Blind before r) (hx : r x x') (hlike : h.Like r h') :
    (h.push before x).Like r (h'.push before x') := by
  unfold Heap.push
  rw [hlike.size]
  exact ⟨(hlike.tree.insert hblind hx _).tree hx, rfl⟩

/-- The next items of heaps that are alike are alike, and so are the others. -/
theorem Heap.Like.pop (hblind : HeapTree.Blind before r) (hlike : h.Like r h') :
    Option.Rel (fun next next' => r next.1 next'.1 ∧ next.2.Like r next'.2)
      (h.pop? before) (h'.pop? before) := by
  unfold Heap.pop?
  rw [hlike.size]
  have hremoved := hlike.tree.remove (HeapTree.path h.size)
  generalize HeapTree.remove (HeapTree.path h.size) h.tree = removed at hremoved
  generalize HeapTree.remove (HeapTree.path h.size) h'.tree = removed' at hremoved
  cases hremoved with
  | none => exact .none
  | @some found found' hfound =>
    obtain ⟨last, rest⟩ := found
    obtain ⟨last', rest'⟩ := found'
    obtain ⟨hlast, hrest⟩ := hfound
    have hsunk := (hrest.sink hblind hlast).tree hlast
    cases hrest with
    | empty => exact .some ⟨hlast, .empty, rfl⟩
    | node htop => exact .some ⟨htop, hsunk, rfl⟩

end Heaps

/-- The agenda has had these tasks scheduled, one after the other, and nothing else has happened to it. -/
inductive Agenda.Gains : Agenda → List Task → Agenda → Prop where
  | nothing (a : Agenda) : Gains a [] a
  | scheduled {a b : Agenda} {task : Task} {tasks : List Task} : task.sequence = a.sequenceCounter →
      Gains (a.schedule task.time task.timeTag task.callback task.arguments) tasks b →
      Gains a (task :: tasks) b

namespace Agenda.Gains

variable {a b c : Agenda} {tasks more : List Task}

theorem trans (h : a.Gains tasks b) (g : b.Gains more c) : a.Gains (tasks ++ more) c := by
  induction h with
  | nothing a => exact g
  | scheduled hsequence _ ih => exact .scheduled hsequence (ih g)

/-- The tasks are pending beside those that were. -/
theorem toList (h : a.Gains tasks b) : b.queue.toList.Perm (a.queue.toList ++ tasks) := by
  induction h with
  | nothing a => rw [List.append_nil]
  | @scheduled a b task tasks hsequence _ ih =>
    have hone := a.toList_queue_schedule task.time task.timeTag task.callback task.arguments
    rw [← hsequence] at hone
    exact ih.trans ((hone.append_right tasks).trans List.perm_middle.symm)

/-- The tasks have got the next numbers, in the order in which they were scheduled. -/
theorem numbered (h : a.Gains tasks b) :
    tasks.map (·.sequence) = List.range' a.sequenceCounter tasks.length ∧
      b.sequenceCounter = a.sequenceCounter + tasks.length := by
  induction h with
  | nothing a => exact ⟨rfl, rfl⟩
  | @scheduled a b task tasks hsequence _ ih =>
    obtain ⟨hnumbers, hcounter⟩ := ih
    refine ⟨?_, hcounter.trans ?_⟩
    · rw [List.map_cons, hnumbers, hsequence, List.length_cons, List.range'_succ]
      rfl
    · rw [List.length_cons]
      exact Nat.succ_add_eq_add_succ a.sequenceCounter tasks.length

/-- Scheduling leaves the clock, the count and the limit. -/
theorem unchanged (h : a.Gains tasks b) :
    b.currentTime = a.currentTime ∧ b.steps = a.steps ∧ b.maxSteps = a.maxSteps := by
  induction h with
  | nothing a => exact ⟨rfl, rfl, rfl⟩
  | scheduled _ _ ih => exact ih

end Agenda.Gains

/-- Tasks that are due at the same time under the same number, and call what corresponds to each other. -/
structure Task.Like (K : Callback → Callback → Prop) (t t' : Task) : Prop where
  time : t'.time = t.time
  sequence : t'.sequence = t.sequence
  request : K t.request t'.request

/-- Clocks show the same, but for the identity of what they show. -/
def Value.ReadsAs (v v' : Value) : Prop :=
  v' = v ∨ ∃ tag tag' x, v = .ofNumber tag x ∧ v' = .ofNumber tag' x

/-- Agendas without a limit that differ in the callbacks of their tasks only, which correspond to each
other. -/
structure Agenda.Resembles (K : Callback → Callback → Prop) (a a' : Agenda) : Prop where
  queue : a.queue.Like (Task.Like K) a'.queue
  counter : a'.sequenceCounter = a.sequenceCounter
  steps : a'.steps = a.steps
  clock : a.currentTime.ReadsAs a'.currentTime
  unlimited : a.maxSteps = .nothing
  unlimited' : a'.maxSteps = .nothing

section Resembling

variable {K : Callback → Callback → Prop} {a a' b b' : Agenda}

/-- The callbacks make no difference to which task is next. -/
theorem Task.blind : HeapTree.Blind Task.before (Task.Like K) := by
  intro t t' u u' ht hu
  unfold Task.before
  rw [ht.time, hu.time, ht.sequence, hu.sequence]

theorem Agenda.Resembles.schedule {task task' : Task} (h : a.Resembles K a') (htask : task.Like K task') :
    (a.schedule task.time task.timeTag task.callback task.arguments).Resembles K
      (a'.schedule task'.time task'.timeTag task'.callback task'.arguments) where
  queue := h.queue.push Task.blind ⟨htask.time, h.counter, htask.request⟩
  counter := congrArg (· + 1) h.counter
  steps := h.steps
  clock := h.clock
  unlimited := h.unlimited
  unlimited' := h.unlimited'

/-- Like tasks are scheduled on both sides. -/
theorem Agenda.Resembles.gains {tasks tasks' : List Task} (h : a.Resembles K a')
    (htasks : tasks.Forall₂ (Task.Like K) tasks') (hb : a.Gains tasks b) (hb' : a'.Gains tasks' b') :
    b.Resembles K b' := by
  induction htasks generalizing a a' with
  | nil =>
    cases hb
    cases hb'
    exact h
  | cons htask _ ih =>
    cases hb with
    | scheduled _ hb =>
      cases hb' with
      | scheduled _ hb' => exact ih (h.schedule htask) hb hb'

/-- The next tasks are alike, and taking them leaves agendas that resemble each other. -/
theorem Agenda.Resembles.pop (h : a.Resembles K a') :
    Option.Rel (fun next next' => next.1.Like K next'.1 ∧ next.2.Resembles K next'.2) a.pop? a'.pop? := by
  have hpop := h.queue.pop Task.blind
  unfold Agenda.pop?
  generalize a.queue.pop? Task.before = found at hpop
  generalize a'.queue.pop? Task.before = found' at hpop
  cases hpop with
  | none => exact .none
  | @some next next' hnext =>
    obtain ⟨task, queue⟩ := next
    obtain ⟨task', queue'⟩ := next'
    obtain ⟨htask, hqueue⟩ := hnext
    refine .some ⟨htask, hqueue, h.counter, congrArg (· + 1) h.steps, .inr ?_, h.unlimited, h.unlimited'⟩
    exact ⟨task.timeTag, task'.timeTag, task.time, rfl, congrArg (Value.ofNumber task'.timeTag) htask.time⟩

end Resembling

end AlgebraicEffects
