import AlgebraicEffects.Proofs.Comparing.Grafting

/-!
The laws of collecting.

Collecting goes through programs from left to right, and what it has collected is a prefix that it only
carries along. So two collections of the same programs, whatever they have collected before and whatever is
collected and done after them, cannot be told apart if they cannot be so once these programs have reached
their values (`Course.agree_collect`). Collecting two lists one after the other is the case in which the rest
is collected apart, and keeping the last value the one in which the prefix is forgotten (`sequence_laws`).
-/

set_option autoImplicit false

namespace AlgebraicEffects

open Action (Traced)
open Comparison (exact Rebuilds)
open Output (printName)
open Program (collectFrom collectAll)

variable {V : Type} {S : Scene V} {C : Course S} {L : Listener} {w z : S.World} {k k' : Value → Action Value}
  {f p : Value} {ps qs : List Value}

theorem givesPrograms_collectFrom (ps collected : List Value) : (collectFrom ps collected).GivesPrograms := by
  cases ps with
  | nil => exact .done rfl
  | cons p ps => exact .graft p _

/-- The leaf of a program is collected, and then the next ones are. -/
theorem leads_collecting {E : Comparison S} (ps : List Value) (hk : ∀ v, k (Program.lift v) = k v)
    (tag : Nat) (x : Value) (collected : List Value) (s : Store) :
    E.Leads s ((Program.graft (.leaf tag x) (.arrowOf (.collecting ps collected))).bind k) 1 [] s
      ((collectFrom ps (collected ++ [x])).bind k) := by
  rw [graft_leaf_bind rfl tag x hk]
  exact (Comparison.Leads.ask rfl).bind k

namespace Course

variable (hC : C.IsOpen) (hk : (exact C L).Rebuilds k) (hk' : (exact C L).Rebuilds k')
include hC hk hk'

/-- Collections of the same programs cannot be told apart if they cannot be so once these have reached their
values, with what is collected next and done then. -/
theorem agree_collect (ps qs rs before before' : List Value)
    (hrest : ∀ z xs, C.Later w z → List.Forall₂ (C.Reaches w) ps xs →
      C.Agree L z ((collectFrom qs (before ++ xs)).bind k)
        ((collectFrom rs (before' ++ xs)).bind k')) :
    C.Agree L w ((collectFrom (ps ++ qs) before).bind k)
      ((collectFrom (ps ++ rs) before').bind k') := by
  induction ps generalizing w before before' with
  | nil => simpa using hrest w [] (C.refl w) .nil
  | cons p ps ih =>
    refine agree_rebuilt hC ((Comparison.rebuilds_graft rfl).andThen hk)
      ((Comparison.rebuilds_graft rfl).andThen hk') fun z tag tag' x hz hx => ?_
    refine .of_leads (leads_collecting _ hk.lifts tag x before _)
      (leads_collecting _ hk'.lifts tag' x before' _) (ih _ _ fun u xs hu hxs => ?_)
    rw [List.append_assoc, List.append_assoc]
    exact hrest u (x :: xs) (C.trans hz hu) (.cons hx (hxs.imp fun _ _ => Reaches.earlier hz))

/-- The same where nothing more is collected after the one. -/
theorem agree_collect_append (ps qs before before' : List Value)
    (hrest : ∀ z xs, C.Later w z → List.Forall₂ (C.Reaches w) ps xs →
      C.Agree L z ((collectFrom qs (before ++ xs)).bind k)
        (k' (.leaf 0 (.list 0 (before' ++ xs))))) :
    C.Agree L w ((collectFrom (ps ++ qs) before).bind k) ((collectFrom ps before').bind k') := by
  have hagree := agree_collect hC hk hk' ps qs [] before before' hrest
  rwa [List.append_nil] at hagree

/-- And where nothing more is collected after both. -/
theorem agree_collected (ps before before' : List Value)
    (hend : ∀ z xs, C.Later w z → List.Forall₂ (C.Reaches w) ps xs →
      C.Agree L z (k (.leaf 0 (.list 0 (before ++ xs)))) (k' (.leaf 0 (.list 0 (before' ++ xs))))) :
    C.Agree L w ((collectFrom ps before).bind k) ((collectFrom ps before').bind k') := by
  have hagree := agree_collect_append hC hk hk' ps [] before before' hend
  rwa [List.append_nil] at hagree

end Course

section Last

theorem exists_last_of_forall₂ {R : Value → Value → Prop} {xs : List Value}
    (h : List.Forall₂ R (ps ++ [p]) xs) : ∃ ys y, xs = ys ++ [y] ∧ R p y := by
  have hlast := List.forall₂_drop ps.length h
  rw [List.drop_left] at hlast
  obtain ⟨y, hy, hdrop⟩ : ∃ y, R p y ∧ xs.drop ps.length = [y] := by
    generalize xs.drop ps.length = ys at hlast
    cases hlast with
    | cons hy hnil =>
      cases hnil
      exact ⟨_, hy, rfl⟩
  exact ⟨xs.take ps.length, y, by rw [← hdrop, List.take_append_drop], hy⟩

theorem apply_lastOf (xs : List Value) (x : Value) :
    Function.lastOf.apply (.of [.list 0 (xs ++ [x])]) = .done x := by
  show Value.itemAt (xs ++ [x]) (-1) = _
  simp [Value.itemAt]

/-- The last of the values is given, and performed if it is a program. -/
theorem leads_lastOf {E : Comparison S} (tag : Nat) (xs : List Value) (x : Value) (s : Store) :
    E.Leads s (Program.graft (.leaf tag (.list 0 (xs ++ [x]))) (.arrowOf .lastOf)) 1 [] s
      (.done (Program.lift x)) := by
  have hasked : E.Leads s (Action.ask (.arrowOf .lastOf) [.list 0 (xs ++ [x])]) 1 [] s
      (Function.lastOf.apply (.of [.list 0 (xs ++ [x])])) := .ask rfl
  rw [apply_lastOf] at hasked
  exact hasked.bind fun v => .done (Program.lift v)

theorem sequence_eq (h : ps ≠ []) :
    Program.sequence ps = (collectFrom (ps.map Program.lift) []).bind (Program.graft · (.arrowOf .lastOf)) := by
  cases ps with
  | nil => exact absurd rfl h
  | cons p ps => rfl

/-- Sequencing with a first program is rebuilding it. -/
theorem rebuilds_sequence {E : Comparison S} (qs : List Value) :
    E.Rebuilds fun r => Program.sequence (r :: qs) := by
  have hsequence : (fun r => Program.sequence (r :: qs)) = fun r =>
      (Program.graft r (.arrowOf (.collecting (qs.map Program.lift) []))).bind
        (Program.graft · (.arrowOf .lastOf)) := by
    refine funext fun r => ?_
    rw [← graft_lift r]
    rfl
  rw [hsequence]
  exact (Comparison.rebuilds_graft rfl).andThen (Comparison.rebuilds_graft rfl)

variable (hC : C.IsOpen)
include hC

/-- What has been collected before makes no difference to the last value. -/
theorem agree_last (ps : List Value) (p : Value) (before before' : List Value) :
    C.Agree L w ((collectFrom (ps ++ [p]) before).bind (Program.graft · (.arrowOf .lastOf)))
      ((collectFrom (ps ++ [p]) before').bind (Program.graft · (.arrowOf .lastOf))) := by
  refine Course.agree_collected hC (Comparison.rebuilds_graft rfl) (Comparison.rebuilds_graft rfl) _ _ _
    fun z xs hz hxs => ?_
  obtain ⟨ys, y, rfl, -⟩ := exists_last_of_forall₂ hxs
  rw [← List.append_assoc, ← List.append_assoc]
  exact .of_leads (leads_lastOf 0 _ y _) (leads_lastOf 0 _ y _)
    (Course.agree_refl hC (Course.includes_done _) (.done (Program.isProgram_lift y)))

/-- Keeping the last value, whatever else keeps it so. -/
theorem agree_sequence (hk : (exact C L).Rebuilds k) (hlast : ∀ z xs x, C.Later w z → C.Reaches w p x →
      C.Agree L z (.done (Program.lift x)) (k (.leaf 0 (.list 0 (xs ++ [x]))))) :
    C.Agree L w (Program.sequence (ps ++ [p])) ((collectAll (ps ++ [p])).bind k) := by
  rw [sequence_eq (List.append_ne_nil_of_right_ne_nil ps (List.cons_ne_nil p []))]
  refine Course.agree_collected hC (Comparison.rebuilds_graft rfl) hk _ [] [] fun z xs hz hxs => ?_
  rw [List.map_append] at hxs
  obtain ⟨ys, y, rfl, hy⟩ := exists_last_of_forall₂ hxs
  exact .of_leads (leads_lastOf 0 ys y _) (.refl _ _) (hlast z ys y hz hy.of_lift)

/-- Sequencing in parts, where what is carried along from the first part is no program. -/
theorem agree_sequence_append (hplain : ∀ x, C.Reaches w p x → x.isProgram = false) (hqs : qs ≠ []) :
    C.Agree L w ((Program.sequence (ps ++ [p])).bind fun r => Program.sequence (r :: qs))
      (Program.sequence (ps ++ [p] ++ qs)) := by
  have hparts : (ps ++ [p] ++ qs).map Program.lift = (ps ++ [p]).map Program.lift ++ qs.map Program.lift :=
    List.map_append
  have hrebuilds : (exact C L).Rebuilds fun v =>
      (Program.graft v (.arrowOf .lastOf)).bind fun r => Program.sequence (r :: qs) :=
    (Comparison.rebuilds_graft rfl).andThen (rebuilds_sequence qs)
  rw [sequence_eq (List.append_ne_nil_of_right_ne_nil ps (List.cons_ne_nil p [])),
    sequence_eq (List.append_ne_nil_of_right_ne_nil _ hqs), hparts, Action.bind_assoc]
  refine (Course.agree_collect_append hC (Comparison.rebuilds_graft (f := .arrowOf .lastOf) rfl) hrebuilds
    _ _ [] [] fun z xs hz hxs => ?_).symm
  rw [List.map_append] at hxs
  obtain ⟨ys, y, rfl, hy⟩ := exists_last_of_forall₂ hxs
  obtain ⟨rs, q, rfl⟩ : ∃ rs q, qs = rs ++ [q] := ⟨_, _, (List.dropLast_append_getLast hqs).symm⟩
  -- The last value is carried by a leaf, and then it is forgotten with all other ones.
  have hlast := (leads_lastOf (E := exact C L) 0 ys y (S.store z)).bind fun r =>
    Program.sequence (r :: (rs ++ [q]))
  rw [lift_of_not_program (hplain y hy.of_lift)] at hlast
  have hcollected := leads_collecting (E := exact C L) (k := (Program.graft · (.arrowOf .lastOf)))
    ((rs ++ [q]).map Program.lift) (graft_lift · _) 0 y [] (S.store z)
  refine .of_leads (.refl _ _) (hlast.trans hcollected) ?_
  rw [List.map_append]
  exact agree_last hC _ _ _ _

/-- Sequencing is collecting with only the last value kept. It is grafted, and so lifted: where the last
program ends with a program, that is performed. Where no value with which it ends is a program, the last value
may as well be mapped, and sequencing the results of a sequence and of further programs is sequencing all of
them. -/
theorem sequence_laws (hf : f.isCallable = true) (hlast : ∀ z xs x, C.Later w z → C.Reaches w p x →
      C.Coincide L z (Action.ask f [.list 0 (xs ++ [x])]) (.done x)) :
    C.Agree L w (Program.sequence (ps ++ [p])) ((collectAll (ps ++ [p])).bind (Program.graft · f)) ∧
    ((∀ x, C.Reaches w p x → x.isProgram = false) →
      C.Agree L w (Program.sequence (ps ++ [p])) ((collectAll (ps ++ [p])).bind (Program.map · f)) ∧
      ∀ qs, qs ≠ [] →
        C.Agree L w ((Program.sequence (ps ++ [p])).bind fun r => Program.sequence (r :: qs))
          (Program.sequence (ps ++ [p] ++ qs))) := by
  refine ⟨agree_sequence hC (Comparison.rebuilds_graft hf) fun z xs x hz hx => ?_, fun hplain =>
    ⟨agree_sequence hC (Comparison.rebuilds_map hf) fun z xs x hz hx => ?_, fun qs hqs =>
      agree_sequence_append hC hplain hqs⟩⟩
  · rw [Replay.graft_of_leaf rfl hf]
    exact ((hlast z xs x hz hx).lifted hC).symm
  · rw [lift_of_not_program (hplain x hx)]
    exact .of_leads (.refl _ _) (map_leaf_leads hf 0 _ _) (hlast z xs x hz hx).leaves.symm

end Last

/-- Two messages are printed, then the value five is forgotten for the value seven. -/
theorem sequence_laws_printing :
    (Value.arrowOf .lastOf).isCallable = true ∧
    (∀ z xs x, Course.shapes.Later Store.empty z →
      Course.shapes.Reaches Store.empty
        (.operation 0 printName [.text "again"] (.arrowOf (.constant (.int 5)))) x →
      Course.shapes.Coincide .scripts z (Action.ask (.arrowOf .lastOf) [.list 0 (xs ++ [x])]) (.done x)) ∧
    Course.shapes.Agree .scripts Store.empty
      ((Program.sequence ([Output.print (.text "hello")] ++
        [.operation 0 printName [.text "again"] (.arrowOf (.constant (.int 5)))])).bind fun r =>
          Program.sequence (r :: [.int 7]))
      (Program.sequence ([Output.print (.text "hello")] ++
        [.operation 0 printName [.text "again"] (.arrowOf (.constant (.int 5)))] ++ [.int 7])) := by
  have hlast (z : Store) (xs : List Value) (x : Value) (_ : Course.shapes.Later Store.empty z)
      (_ : Course.shapes.Reaches Store.empty
        (.operation 0 printName [.text "again"] (.arrowOf (.constant (.int 5)))) x) :
      Course.shapes.Coincide .scripts z (Action.ask (.arrowOf .lastOf) [.list 0 (xs ++ [x])]) (.done x) := by
    have hgiven : Traced ((Value.arrowOf .lastOf).apply (.of [.list 0 (xs ++ [x])])) z [] (.ok x) z := by
      show Traced (Function.lastOf.apply _) z [] (.ok x) z
      rw [apply_lastOf]
      exact .done x z
    exact .of_traced hgiven.invoke (.done x z) trivial rfl
  refine ⟨rfl, hlast,
    ((sequence_laws Course.isOpen_shapes rfl hlast).2 fun x hx => ?_).2 _ (List.cons_ne_nil _ _)⟩
  rw [hx.of_constant rfl]
  rfl

end AlgebraicEffects
