import AlgebraicEffects.Proofs.Flows.Contexts
import AlgebraicEffects.Proofs.Identities

/-!
The cells of an evaluation of two programs side by side.

Each evaluation has a list of its own with a cell for each of its flows. A flow that finishes stores
its value in its cell; if both cells are full then it goes on with the pair of their values, and
else it ends. Main statement: what a flow comes to when it finishes (`exists_stored`).
-/

set_option autoImplicit false

namespace AlgebraicEffects

open Action (Traced)
open Suspension (suspendName)

theorem Store.lookup_keep {α : Type} (tag other : Nat) (v : α) (ws : List (Nat × α)) :
    (Store.keep tag v ws).lookup other = if other = tag then some v else ws.lookup other := by
  induction ws with
  | nil => grind [Store.keep]
  | cons w ws ih => grind [Store.keep]

/-- The list of cells with this identity, as it is made. -/
def cellList (tag : Nat) : Value := .list tag [.notAvailable, .notAvailable]

/-- What the cells of the two flows hold now, those of the first flow and of the second one. -/
def Holds (tag : Nat) (cells : Bool → Value) (s : Store) : Prop :=
  s.itemsNow tag [.notAvailable, .notAvailable] = [cells false, cells true]

theorem Holds.of_lookup {tag : Nat} {cells : Bool → Value} {s t : Store} (h : Holds tag cells s)
    (heq : t.writtenLists.lookup tag = s.writtenLists.lookup tag) : Holds tag cells t := by
  unfold Holds Store.itemsNow at *
  rw [heq]
  exact h

/-- The function that stores the value of a flow. -/
def settling (side : Bool) (tag : Nat) : Value := .arrowOf (.parSettle side.toNat (cellList tag))

/-- The cells after one of them has been filled. -/
def filled (cells : Bool → Value) (side : Bool) (v : Value) (other : Bool) : Value :=
  if other = side then v else cells other

theorem set_cells (cells : Bool → Value) (side : Bool) (v : Value) :
    [cells false, cells true].set side.toNat v =
      [filled cells side v false, filled cells side v true] := by
  cases side <;> rfl

/-- A flow that finds a cell empty ends. -/
theorem deliver_of_empty {cells : Bool → Value} {side : Bool} (h : cells side = .notAvailable) :
    Suspension.deliver (cells false) (cells true) = Suspension.exit := by
  unfold Suspension.deliver
  split
  · rfl
  · rfl
  · rename_i hl hr
    cases side with
    | false => exact absurd h hl
    | true => exact absurd h hr

theorem deliver_of_full {cells : Bool → Value} (h : ∀ side, cells side ≠ .notAvailable) :
    Suspension.deliver (cells false) (cells true) =
      .leaf 0 (.tuple 0 [cells false, cells true]) := by
  unfold Suspension.deliver
  split
  · exact absurd ‹_› (h false)
  · exact absurd ‹_› (h true)
  · rfl

theorem Value.tagged_ne_notAvailable {v : Value} (h : v ≠ .notAvailable) (n : Nat) :
    (v.tagged n).1 ≠ .notAvailable := by
  intro heq
  cases v with
  | tuple tag items =>
    cases tag with
    | zero => cases items <;> cases heq
    | succ tag => cases heq
  | handler tag table atLeaf =>
    cases tag with
    | zero => cases atLeaf <;> cases heq
    | succ tag => cases heq
  | failure f => cases f <;> cases heq
  | float tag | list tag | names tag | dict tag | view tag | leaf tag | operation tag
  | function tag | arrow tag | ok tag | err tag | outcome tag | frozen tag => cases tag <;> cases heq
  | notAvailable => exact h rfl
  | _ => cases heq

/-- A value with its identity is available if the value is. -/
theorem identify_ne_notAvailable (s : Store) {v : Value} (h : v ≠ .notAvailable) :
    (s.identify v).1 ≠ .notAvailable := by
  unfold Store.identify
  by_cases hv : v.isIdentified
  · simp only [hv, if_true]
    exact h
  · simp only [hv, if_false, Bool.false_eq_true]
    exact v.tagged_ne_notAvailable h s.nextTag

section Settling

variable {tag : Nat} {cells : Bool → Value} {s : Store}

theorem traced_itemsNow (htag : tag ≠ 0) (h : Holds tag cells s) :
    Traced (Action.itemsNow tag [.notAvailable, .notAvailable]) s []
      (.ok [cells false, cells true]) s := by
  unfold Action.itemsNow
  rw [if_neg htag, ← h]
  exact .read (.done _ _)

theorem traced_index (htag : tag ≠ 0) (h : Holds tag cells s) (side : Bool) :
    Traced ((cellList tag).index (.int side.toNat)) s [] (.ok (cells side)) s := by
  refine (traced_itemsNow htag h).bind (k := fun items => Value.positioned items (.int side.toNat)) ?_
  cases side <;> exact .done _ _

theorem traced_store (htag : tag ≠ 0) (h : Holds tag cells s) (side : Bool) (v : Value) :
    Traced (Suspension.store side.toNat (cellList tag) v) s [] (.ok ())
      (s.writeList tag [filled cells side v false, filled cells side v true]) := by
  refine (traced_itemsNow htag h).bind ?_
  have hlt : side.toNat < [cells false, cells true].length := by
    show side.toNat < 2
    cases side <;> decide
  rw [if_pos hlt, set_cells]
  exact .write (.done _ _)

theorem holds_writeList (tag : Nat) (cells : Bool → Value) (s : Store) :
    Holds tag cells (s.writeList tag [cells false, cells true]) := by
  unfold Holds Store.itemsNow Store.writeList
  rw [Store.lookup_keep, if_pos rfl]
  rfl

/-- A flow stores its value with its identity, and finds what both cells hold then. -/
theorem traced_settle (htag : tag ≠ 0) (h : Holds tag cells s) (side : Bool) (v : Value) :
    Traced (Suspension.settle side.toNat (cellList tag) v) s []
      (.ok (Suspension.deliver (filled cells side (s.identify v).1 false)
        (filled cells side (s.identify v).1 true)))
      ((s.identify v).2.writeList tag
        [filled cells side (s.identify v).1 false, filled cells side (s.identify v).1 true]) := by
  obtain ⟨n, -, hn⟩ := s.identify_snd v
  have hidentified : Holds tag cells (s.identify v).2 := h.of_lookup (by rw [hn]; rfl)
  have hholds := holds_writeList tag (filled cells side (s.identify v).1) (s.identify v).2
  exact (traced_identify s v).bind ((traced_store htag hidentified side _).bind
    ((traced_index htag hholds false).bind ((traced_index htag hholds true).bind (.done _ _))))

variable {host : Value} {H : Registrar host} {W : Watch} {own : Nat → Prop}

theorem lift_deliver (l r : Value) :
    Program.lift (Suspension.deliver l r) = Suspension.deliver l r := by
  unfold Suspension.deliver
  split <;> rfl

/-- Identities are given out. -/
theorem Works.of_tagsFrom (hs : H.Ready s) {n : Nat} (hn : s.nextTag ≤ n) :
    Works H own s [] (s.tagsFrom n) := by
  obtain ⟨hopen, hwaiting⟩ := H.aside (s := s) (t := s.tagsFrom n) rfl rfl
  refine ⟨hn, fun _ _ _ _ => rfl, hs.later (hopen hs.isOpen) hn rfl, ?_⟩
  rw [hwaiting, List.append_nil]

theorem works_writeList (hs : H.Ready s) (htag : tag < s.nextTag) (hown : own tag) {n : Nat}
    (hn : s.nextTag ≤ n) (items : List Value) :
    Works H own s [] ((s.tagsFrom n).writeList tag items) := by
  obtain ⟨hopen, hwaiting⟩ := H.aside (s := s) (t := (s.tagsFrom n).writeList tag items) rfl rfl
  have hlookup (other : Nat) (hne : other ≠ tag) :
      ((s.tagsFrom n).writeList tag items).writtenLists.lookup other =
        s.writtenLists.lookup other := (Store.lookup_keep _ _ _ _).trans (if_neg hne)
  refine ⟨hn, fun other _ _ hother => hlookup other fun heq => hother (heq ▸ hown),
    ⟨hopen hs.isOpen, Nat.lt_of_lt_of_le hs.pos hn, fun other hle => ?_,
      fun other hother => Nat.lt_of_lt_of_le (hs.shared other hother) hn⟩, ?_⟩
  · have hge : s.nextTag ≤ other := Nat.le_trans hn hle
    rw [hlookup other (Nat.ne_of_gt (Nat.lt_of_lt_of_le htag hge))]
    exact hs.unwritten other hge
  · rw [hwaiting, List.append_nil]

/-- A flow that finishes goes on with what its value and the other cell deliver, and has written
into the list of cells only. -/
theorem exists_stored (hs : H.Ready s) (htag : tag < s.nextTag) (hpos : tag ≠ 0)
    (own : Nat → Prop) (hown : own tag) (h : Holds tag cells s) (side : Bool) (v : Value) :
    ∃ t, Works H own s [] t ∧ Holds tag (filled cells side (s.identify v).1) t ∧
      ∀ leafTag (C : Context),
        Comes W ((Program.graft (.leaf leafTag v) (settling side tag)).bind C) s
          (C (Suspension.deliver (filled cells side (s.identify v).1 false)
            (filled cells side (s.identify v).1 true))) t := by
  obtain ⟨n, hn, hstore⟩ := s.identify_snd v
  have hsettle := traced_settle hpos h side v
  have hholds := holds_writeList tag (filled cells side (s.identify v).1) (s.identify v).2
  rw [hstore] at hsettle hholds
  refine ⟨_, works_writeList hs htag hown hn _, hholds, fun leafTag C => ?_⟩
  show Comes W (((Action.ask (settling side tag) [v]).bind fun x => .done (Program.lift x)).bind C) s
    _ _
  rw [Action.bind_assoc]
  refine (Comes.invoke (W.blind rfl) (.of [v]) _ s).trans ?_
  have hcomes := Comes.of_traced (W := W) hsettle fun x => C (Program.lift x)
  rw [lift_deliver] at hcomes
  exact hcomes

end Settling

end AlgebraicEffects
