import AlgebraicEffects.Proofs.Discipline.Basic

/-!
What is done with values follows every discipline: arithmetic, comparison, access to items, and
filling templates. None of it changes the store but for the supply of identities.
-/

set_option autoImplicit false

namespace AlgebraicEffects.Value

variable {P : {α : Type} → Action α → Prop} [Composes P] {α : Type}

section Arithmetic

@[grind ←] theorem follows_numeric (r : Except Number.Fault Number) : Follows P (numeric r) := by
  unfold numeric
  grind

@[grind ←] theorem follows_onNumbers (f : Number → Number → Except Number.Fault Number)
    (a b : Value) : Follows P (onNumbers f a b) := by
  unfold onNumbers
  grind

@[grind ←] theorem follows_add (a b : Value) : Follows P (add a b) := by
  unfold add
  grind

@[grind ←] theorem follows_sub (a b : Value) : Follows P (sub a b) := by
  unfold sub
  grind

@[grind ←] theorem follows_makeRoom (length : Nat) : Follows P (makeRoom length) := by
  unfold makeRoom
  grind

@[grind ←] theorem follows_repeated (isWritten : Bool) (n : Int) (items : List α) :
    Follows P (repeated isWritten n items) := by
  unfold repeated
  grind

theorem follows_repeated? {v : Value} {n : Int} {a : Action Value} (h : v.repeated? n = some a) :
    Follows P a := by
  unfold repeated? at h
  grind

theorem follows_copied? {a b : Value} {c : Action Value} (h : copied? a b = some c) : Follows P c := by
  obtain ⟨n, -, hn⟩ := Option.bind_eq_some_iff.1 h
  exact follows_repeated? hn

@[grind ←] theorem follows_mul (a b : Value) : Follows P (mul a b) := by
  unfold mul
  cases hleft : copied? a b with
  | some c => exact follows_copied? hleft
  | none =>
    cases hright : copied? b a with
    | some c => exact follows_copied? hright
    | none => exact follows_onNumbers Number.mul a b

@[grind ←] theorem follows_floorDiv (a b : Value) : Follows P (floorDiv a b) :=
  follows_onNumbers Number.floorDiv a b

@[grind ←] theorem follows_floorMod (a b : Value) : Follows P (floorMod a b) :=
  follows_onNumbers Number.floorMod a b

@[grind ←] theorem follows_ordered (r : Option Bool) : Follows P (ordered r) := by
  unfold ordered
  grind

@[grind ←] theorem follows_less (a b : Value) : Follows P (less a b) := by
  unfold less
  grind

@[grind ←] theorem follows_atMost (a b : Value) : Follows P (atMost a b) := by
  unfold atMost
  grind

@[grind ←] theorem follows_equal (a b : Value) : Follows P (equal a b) := by
  unfold equal
  grind

@[grind ←] theorem follows_integerSqrt (a : Value) : Follows P (integerSqrt a) := by
  unfold integerSqrt
  grind

end Arithmetic

section Sequences

@[grind ←] theorem follows_items (v : Value) : Follows P v.items := by
  unfold items
  grind

/-- Each item of a value is read in a way that follows the discipline. -/
@[grind ←] theorem follows_bind_turns {v : Value} {k : List (Action Value) → Action α}
    (h : ∀ turns : List (Action Value), (∀ turn ∈ turns, Follows P turn) → Follows P (k turns)) :
    Follows P (v.turns >>= k) := by
  have hturns : v.turns >>= k = v.items >>= fun items =>
      k (items.mapIdx (Action.itemNow v.containerTag)) := by
    unfold turns
    rw [bind_assoc]
    rfl
  rw [hturns]
  refine Action.follows_bind (follows_items v) fun items => h _ fun turn hturn => ?_
  obtain ⟨i, hi, rfl⟩ := List.mem_mapIdx.1 hturn
  exact Action.follows_itemNow ..

@[grind ←] theorem follows_length (v : Value) : Follows P v.length := by
  unfold length
  grind

@[grind ←] theorem follows_itemAt (items : List α) (position : Int) :
    Follows P (itemAt items position) := by
  unfold itemAt
  grind

@[grind ←] theorem follows_positioned (items : List α) (key : Value) :
    Follows P (positioned items key) := by
  unfold positioned
  grind

@[grind ←] theorem follows_find (entries : List (Value × Value)) (key : Value) :
    Follows P (find entries key) := by
  unfold find
  grind

@[grind ←] theorem follows_entryAt (entries : List (Value × Value)) (key : Value) :
    Follows P (entryAt entries key) := by
  unfold entryAt
  grind

@[grind ←] theorem follows_index (container key : Value) : Follows P (container.index key) := by
  unfold index
  grind

@[grind ←] theorem follows_addEntry (entries : List (Value × Value)) (key value : Value) :
    Follows P (addEntry entries key value) := by
  unfold addEntry
  grind

@[grind ←] theorem follows_addPair (entries : List (Value × Value)) (v : Value) :
    Follows P (addPair entries v) := by
  unfold addPair
  grind

@[grind ←] theorem follows_entries (v : Value) : Follows P v.entries := by
  unfold entries
  grind

@[grind ←] theorem follows_entriesIfAny (v : Value) : Follows P v.entriesIfAny := by
  unfold entriesIfAny
  grind

end Sequences

section Templates

@[grind ←] theorem follows_takeNext (vs : List Value) : Follows P (takeNext vs) := by
  unfold takeNext
  grind

@[grind ←] theorem follows_measured (greatest : Nat) (measure : Option Text.Measure)
    (vs : List Value) : Follows P (measured greatest measure vs) := by
  unfold measured
  grind

@[grind ←] theorem follows_valuesFor (medium : Medium) (mapping : Option Value)
    (key : Text.DirectiveKey) (vs : List Value) : Follows P (valuesFor medium mapping key vs) := by
  unfold valuesFor
  grind

@[grind ←] theorem follows_fillDirective (medium : Medium) (mapping : Option Value)
    (d : Text.Directive) (vs : List Value) : Follows P (fillDirective medium mapping d vs) := by
  unfold fillDirective
  refine Action.follows_bind (follows_valuesFor medium mapping d.key vs) fun vs => ?_
  refine Action.follows_bind (follows_measured greatestWidth d.width vs) fun x => ?_
  refine Action.follows_bind (follows_measured greatestPrecision d.precision x.2) fun y => ?_
  grind

theorem follows_fillPieces (medium : Medium) (mapping : Option Value) (ps : List Text.Piece)
    (vs : List Value) (written : List Char) :
    Follows P (fillPieces medium mapping ps vs written) := by
  induction ps generalizing vs written with
  | nil =>
    unfold fillPieces
    grind
  | cons p ps ih =>
    unfold fillPieces
    cases p with
    | literal c => exact ih vs _
    | directive d => exact Action.follows_bind (follows_fillDirective medium mapping d vs) fun _ => ih _ _

@[grind ←] theorem follows_remainder (a b : Value) : Follows P (a.remainder b) := by
  unfold remainder
  split
  · exact follows_fillPieces ..
  · exact follows_fillPieces ..
  · exact follows_floorMod _ b

end Templates

end AlgebraicEffects.Value
