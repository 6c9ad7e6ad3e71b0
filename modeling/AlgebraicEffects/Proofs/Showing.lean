import AlgebraicEffects.Proofs.Calls

/-!
What values show.

A value is written as what it shows, if that can be written: an integer cannot if it is too long. Writing
changes nothing. Nor does an order test, which reads what the two values show. It decides when they have
an order, as numbers do, and is a fault otherwise. Programs have none, so what can be compared is no
program.
-/

set_option autoImplicit false

namespace AlgebraicEffects

open Action (Traced)

section Writing

/-- The text of a value, or the failure of writing it. -/
def Store.written (s : Store) (v : Value) : Except Failure Snapshot :=
  match (s.show v).unwritable? with
  | some .noAttribute => .error (.noAttribute "func")
  | some kind => .error (.fault kind)
  | none => .ok (s.show v)

theorem traced_writable (v : Value) (s : Store) :
    Traced (Action.writable v) s [] (s.written v) s := by
  unfold Store.written
  refine .read ?_
  show Traced (match (s.show v).unwritable? with
    | some .noAttribute => Action.lacking "func"
    | some kind => Action.fault kind
    | none => pure (s.show v)) s [] _ s
  split
  · exact .fail _ s
  · exact .fail _ s
  · exact .done _ s

theorem runs_writable (v : Value) (s : Store) :
    Action.Runs Value.apply (Action.writable v) s (s.written v) s :=
  (traced_writable v s).runs

/-- An integer that is not too long can be written. -/
theorem written_int {n : Int} (hn : isTooLong n = false) (s : Store) :
    s.written (.int n) = .ok (.int n) := by
  have hshown : s.show (.int n) = .int n := by
    unfold Store.show Value.seen
    rfl
  have hwriting : (Snapshot.int n).unwritable? = none := by
    unfold Snapshot.unwritable?
    exact if_neg (hn ▸ Bool.false_ne_true)
  rw [Store.written, hshown, hwriting]

end Writing

namespace Value

/-- The test decides exactly when what the values show has an order. -/
theorem traced_less_iff {x y : Value} {s t : Store} {cs : List Call} {b : Bool} :
    Traced (less x y) s cs (.ok b) t ↔ (s.show x).less? (s.show y) = some b ∧ cs = [] ∧ t = s := by
  constructor
  · intro h
    cases h with
    | read h =>
      cases h with
      | read h =>
        have hordered : Traced (ordered ((s.show x).less? (s.show y))) s cs (.ok b) t := h
        cases hless : (s.show x).less? (s.show y) with
        | none =>
          rw [hless] at hordered
          cases hordered
        | some d =>
          rw [hless] at hordered
          cases hordered
          exact ⟨rfl, rfl, rfl⟩
  · rintro ⟨hless, rfl, rfl⟩
    refine .read (.read ?_)
    show Traced (ordered ((t.show x).less? (t.show y))) t [] (.ok b) t
    rw [hless]
    exact .done b t

/-- Integers and truth values are compared as integers. -/
theorem traced_less_integers {x y : Value} {m n : Int} (hx : x.number? = some (.int m))
    (hy : y.number? = some (.int n)) (s : Store) :
    Traced (less x y) s [] (.ok (decide (m < n))) s := by
  rw [← Number.less_int]
  cases x with
  | bool | int =>
    cases hx
    cases y with
    | bool | int =>
      cases hy
      exact traced_less_iff.2 ⟨rfl, rfl, rfl⟩
    | _ => cases hy
  | _ => cases hx

theorem traced_equal_int (m n : Int) (s : Store) :
    Traced (equal (.int m) (.int n)) s [] (.ok (decide (m = n))) s := by
  have hequal : (Snapshot.int m).equal (.int n) = decide (m = n) := by
    rw [← Number.equal_int, Snapshot.equal.eq_def]
    rfl
  rw [← hequal]
  exact .read (.read (.done _ _))

/-- What a program shows has no order. -/
theorem less?_program {p : Value} (hp : p.isProgram = true) (s : Store) (shown : Snapshot) :
    (s.show p).less? shown = none ∧ shown.less? (s.show p) = none := by
  cases p with
  | leaf | operation => constructor <;> cases shown <;> rfl
  | _ => cases hp

/-- So only what is no program is compared. -/
theorem not_isProgram_of_less {x y : Value} {s t : Store} {cs : List Call} {b : Bool}
    (h : Traced (less x y) s cs (.ok b) t) : x.isProgram = false ∧ y.isProgram = false := by
  have hless : (s.show x).less? (s.show y) ≠ none := by
    rw [(traced_less_iff.1 h).1]
    exact Option.some_ne_none b
  exact ⟨Bool.eq_false_iff.2 fun hx => hless (less?_program hx s _).1,
    Bool.eq_false_iff.2 fun hy => hless (less?_program hy s _).2⟩

end Value

end AlgebraicEffects
