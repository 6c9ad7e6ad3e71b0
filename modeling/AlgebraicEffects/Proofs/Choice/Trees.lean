import Mathlib.Data.List.Basic

/-!
Trees of choices.

A tree of choices ends at leaves and at failures, and messages are printed on the way. It is read in
two orders. Enumeration goes through it with true in front and finds every leaf (`solutions`). Search
goes through it with false in front and stops at the first leaf (`search`). Main statement: search
finds the last of the solutions, so it finds none exactly when there is none (`search_snd`).
-/

set_option autoImplicit false

namespace AlgebraicEffects

inductive Choices (V : Type) where
  | leaf (v : V)
  | fail
  | decide (whenTrue whenFalse : Choices V)
  | print (message : V) (rest : Choices V)

namespace Choices

variable {V : Type}

/-- The values at the leaves, true in front. -/
def solutions : Choices V → List V
  | leaf v => [v]
  | fail => []
  | decide t f => t.solutions ++ f.solutions
  | print _ c => c.solutions

/-- The messages of all nodes, true in front, each one before those behind it. -/
def messages : Choices V → List V
  | leaf _ => []
  | fail => []
  | decide t f => t.messages ++ f.messages
  | print m c => m :: c.messages

/-- The first value at a leaf, false in front, and the messages on the way up to it. -/
def search : Choices V → List V × Option V
  | leaf v => ([], some v)
  | fail => ([], none)
  | decide t f =>
    match f.search with
    | (said, some v) => (said, some v)
    | (said, none) => (said ++ t.search.1, t.search.2)
  | print m c => (m :: c.search.1, c.search.2)

/-- The tree with trees in the place of its leaves. -/
def bind (d : V → Choices V) : Choices V → Choices V
  | leaf v => d v
  | fail => fail
  | decide t f => decide (t.bind d) (f.bind d)
  | print m c => print m (c.bind d)

/-- The messages in front of the first decision. -/
def lead : Choices V → List V
  | print m c => m :: c.lead
  | _ => []

/-- The tree behind these messages. -/
def rest : Choices V → Choices V
  | print _ c => c.rest
  | c => c

/-- The branch of true is searched when nothing is found in the one of false. -/
theorem search_decide (t f : Choices V) : (decide t f).search =
    (f.search.1 ++ (if f.search.2.isNone then t.search.1 else []), f.search.2.or t.search.2) := by
  rw [search]
  rcases f.search with ⟨said, _ | v⟩
  · rfl
  · exact congrArg (·, some v) (List.append_nil said).symm

theorem search_snd (c : Choices V) : c.search.2 = c.solutions.getLast? := by
  induction c with
  | leaf v => rfl
  | fail => rfl
  | decide t f iht ihf =>
    rw [solutions, List.getLast?_append, search_decide, ihf, iht]
  | print m c ih => exact ih

/-- Search finds nothing exactly when there is no solution. -/
theorem search_snd_eq_none_iff (c : Choices V) : c.search.2 = none ↔ c.solutions = [] := by
  rw [search_snd, List.getLast?_eq_none_iff]

theorem solutions_bind (d : V → Choices V) (c : Choices V) :
    (c.bind d).solutions = c.solutions.flatMap fun v => (d v).solutions := by
  induction c with
  | leaf v => exact (List.append_nil _).symm
  | fail => rfl
  | decide t f iht ihf => simp only [bind, solutions, iht, ihf, List.flatMap_append]
  | print m c ih => exact ih

/-- A tree without messages, with such trees in the place of its leaves, has none. -/
theorem messages_bind {d : V → Choices V} {c : Choices V} (h : c.messages = [])
    (hd : ∀ v ∈ c.solutions, (d v).messages = []) : (c.bind d).messages = [] := by
  induction c with
  | leaf v => exact hd v (List.mem_singleton_self v)
  | fail => rfl
  | decide t f iht ihf =>
    obtain ⟨ht, hf⟩ := List.append_eq_nil_iff.1 h
    have hdt := iht ht fun v hv => hd v (List.mem_append_left _ hv)
    have hdf := ihf hf fun v hv => hd v (List.mem_append_right _ hv)
    rw [bind, messages, hdt, hdf]
    rfl
  | print m c ih => cases h

theorem messages_eq (c : Choices V) : c.messages = c.lead ++ c.rest.messages := by
  induction c with
  | print m c ih => exact congrArg (m :: ·) ih
  | _ => rfl

theorem messages_rest_of_messages {c : Choices V} (h : c.messages = []) : c.rest.messages = [] := by
  rw [c.messages_eq] at h
  exact (List.append_eq_nil_iff.1 h).2

theorem search_eq (c : Choices V) : c.search = (c.lead ++ c.rest.search.1, c.rest.search.2) := by
  induction c with
  | print m c ih =>
    rw [search, ih]
    rfl
  | _ => rfl

/-- Search says no more than there is to say, so it is silent in a tree without messages. -/
theorem search_fst_of_messages {c : Choices V} (h : c.messages = []) : c.search.1 = [] := by
  induction c with
  | leaf v => rfl
  | fail => rfl
  | decide t f iht ihf =>
    obtain ⟨ht, hf⟩ := List.append_eq_nil_iff.1 h
    rw [search_decide, ihf hf, iht ht]
    exact ite_self []
  | print m c ih => cases h

end Choices

end AlgebraicEffects
