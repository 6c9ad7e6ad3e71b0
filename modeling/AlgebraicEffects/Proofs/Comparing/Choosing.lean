import AlgebraicEffects.Proofs.Comparing.Standard
import AlgebraicEffects.Proofs.Showing

/-!
Strategies for choice, compared.

A decision is resumed with both answers, and what follows is sequenced, or handled by itself. Either way
twins become twins again: trying one answer after the other, keeping the extreme of two values, and listing
all values (`Comparison.respects_backtrack`, `Comparison.respects_extremum`,
`Comparison.respects_allChoices`, `Comparison.respects_firstSolution`).
-/

set_option autoImplicit false

namespace AlgebraicEffects

open Action (Traced)
open Choice (decideName failName)
open Suspension (suspendName)

variable {V : Type} {S : Scene V} {E : Comparison S} {n : Nat} {w u : S.World}
  {P P' : String → List Value → Prop} {v v' : Value}

namespace Comparison

/-- Handlers with one implementation and without a leaf transform. -/
theorem Twins.handled_one {name : String} {f f' : Function} (hname : name ≠ suspendName)
    (hf : E.Implements (E.alike P) n w (.arrowOf f) u (.arrowOf f')) (h : E.Twins (E.alike P) n w v u v')
    (hlevel : E.Level w u) : E.Matched n (Handler.evaluate [(name, .arrowOf f)] none v) w
      (Handler.evaluate [(name, .arrowOf f')] none v') u (E.Twins (E.alike P)) := by
  refine h.evaluate (fun _ => ?_) (fun _ _ hp _ => hp) (.cons (.intro name hf) .nil) ?_ hlevel
  · rw [List.lookup_cons, beq_false_of_ne hname.symm]
    rfl
  · intro j z y tag tag' x x' _ _ _ hlevel hx
    rw [Handler.evaluate_leaf (p := .leaf tag x) rfl, Handler.evaluate_leaf (p := .leaf tag' x') rfl]
    exact (Twins.leaf (Λ := E.alike P) hx).done hlevel

theorem through_handled_one {name : String} (f : Function) (hname : name ≠ suspendName) :
    E.Through (Handler.evaluate [(name, .arrowOf f)] none) := by
  refine (continued_evaluate fun _ => ?_).through
  rw [List.lookup_cons, beq_false_of_ne hname.symm]
  rfl

theorem through_graft (f : Function) (h : (Value.arrowOf f).isCallable = true) :
    E.Through (Program.graft · (.arrowOf f)) := (continued_graft h).through

section Backtracking

theorem implements_fallBack (hE : E.Fair) {g g' : Function} (hg : E.Continuations (E.alike P) n w g u g') :
    E.Implements (E.alike P) n w (.arrowOf (.fallBack (.arrowOf g))) u
      (.arrowOf (.fallBack (.arrowOf g'))) := by
  refine implements_one ⟨rfl, rfl, rfl⟩ ⟨rfl, rfl, rfl⟩ (fun _ => takeOne_of_length)
    (fun _ => takeOne_of_length) fun j z y _ _ hj hz hy hlevel _ => ?_
  exact ((hg.later hz hy).fewer hj).asked hlevel (hE.bool z y true) _ _

theorem implements_tryBoth (hE : E.Fair) :
    E.Implements (E.alike P) n w (.arrowOf .tryBoth) u (.arrowOf .tryBoth) := by
  have hfail : failName ≠ suspendName := by decide
  refine implements_one ⟨rfl, rfl, rfl⟩ ⟨rfl, rfl, rfl⟩ (fun _ => takeOne_of_length)
    (fun _ => takeOne_of_length) fun j z y g g' _ _ _ hlevel hg => ?_
  have hasked := hg.asked hlevel (hE.bool z y false) g.standingTag g'.standingTag
  refine .bind (through_handled_one _ hfail) (through_handled_one _ hfail)
    (hasked.mono fun i z' p y' p' hi hz' hy' hlevel' htwins => ?_)
  exact htwins.handled_one hfail (implements_fallBack hE ((hg.later hz' hy').fewer hi)) hlevel'

theorem respects_backtrack (hE : E.Fair)
    (hleft : ∀ name params, P name params → name ≠ decideName → P' name params) :
    E.Respects P (Handler.evaluate [(decideName, .arrowOf .tryBoth)] none) P' :=
  respects_untransformed (fun _ => rfl)
    (fun _ _ h => hleft _ _ h.1 (ne_of_lookup_eq_none h.2 (List.mem_singleton_self _)))
    fun _ hentry _ _ _ => by
      rw [List.mem_singleton.1 hentry]
      exact implements_tryBoth hE

theorem implements_failToNothing (hE : E.Fair) :
    E.Implements (E.alike P) n w (.arrowOf .failToNothing) u (.arrowOf .failToNothing) :=
  implements_one ⟨rfl, rfl, rfl⟩ ⟨rfl, rfl, rfl⟩ (fun _ => takeOne_of_length)
    (fun _ => takeOne_of_length) fun _ z y _ _ _ _ _ hlevel _ =>
      (Twins.leaf (Λ := E.alike P) (hE.nothing z y)).done hlevel

theorem respects_failToNothing (hE : E.Fair)
    (hleft : ∀ name params, P name params → name ≠ failName → P' name params) :
    E.Respects P (Handler.evaluate [(failName, .arrowOf .failToNothing)] none) P' :=
  respects_untransformed (fun _ => rfl)
    (fun _ _ h => hleft _ _ h.1 (ne_of_lookup_eq_none h.2 (List.mem_singleton_self _)))
    fun _ hentry _ _ _ => by
      rw [List.mem_singleton.1 hentry]
      exact implements_failToNothing hE

/-- The search for the first solution is that of two handlers. -/
theorem exists_respects_search (hE : E.Fair)
    (hleft : ∀ name params, P name params → name ≠ decideName → name ≠ failName → P' name params) :
    ∃ Q, E.Respects P (Handler.evaluate [(decideName, .arrowOf .tryBoth)] none) Q ∧
      E.Respects Q (Handler.evaluate [(failName, .arrowOf .failToNothing)] none) P' :=
  ⟨fun name params => P name params ∧ name ≠ decideName,
    respects_backtrack hE fun _ _ hp hdecide => ⟨hp, hdecide⟩,
    respects_failToNothing hE fun name params hp hne => hleft name params hp.1 hp.2 hne⟩

theorem respects_firstSolution (hE : E.Fair)
    (hleft : ∀ name params, P name params → name ≠ decideName → name ≠ failName → P' name params) :
    E.Respects P Choice.firstSolution P' := by
  intro n w u v v' hlevel h
  have hfail : failName ≠ suspendName := by decide
  obtain ⟨Q, hsearch, hfound⟩ := exists_respects_search hE hleft
  exact .bind (through_handled_one _ hfail) (through_handled_one _ hfail)
    ((hsearch n w u v v' hlevel h).mono fun j z p y p' _ _ _ hlevel htwins =>
      hfound j z y p p' hlevel htwins)

end Backtracking

section Extremes

/-- Comparing values that go together goes likewise. -/
def Ranks (E : Comparison S) : Prop :=
  ∀ w u x x' y y', E.Level w u → E.Same w u x x' → E.Same w u y y' →
    E.Likewise (Value.less x y) w (Value.less x' y') u fun _ _ => Eq

/-- The extreme of two values is one of them, and no program. -/
theorem matched_extreme (hless : E.Ranks) (greatest : Bool) {x x' y y' : Value} (hlevel : E.Level w u)
    (hx : E.Same w u x x') (hy : E.Same w u y y') :
    E.Matched n (Program.lift <$> Choice.extreme greatest x y) w
      (Program.lift <$> Choice.extreme greatest x' y') u (E.Twins (E.alike P)) := by
  let compare (x y : Value) : Action Bool := if greatest then Value.less x y else Value.less y x
  have hplain (x y : Value) (s : Store) (cs : List Call) (b : Bool) (t : Store)
      (h : Traced (compare x y) s cs (.ok b) t) : x.isProgram = false ∧ y.isProgram = false := by
    cases greatest with
    | true => exact Value.not_isProgram_of_less h
    | false => exact (Value.not_isProgram_of_less h).symm
  have hcompare : E.Likewise (compare x y) w (compare x' y') u fun _ _ => Eq := by
    cases greatest with
    | true => exact hless w u x x' y y' hlevel hx hy
    | false => exact hless w u y y' x x' hlevel hy hx
  have hextreme (x y : Value) : Program.lift <$> Choice.extreme greatest x y =
      (compare x y).bind fun b => .done (Program.lift (if b then y else x)) := by
    show ((compare x y).bind fun b => if b then .done y else .done x).bind _ = _
    rw [Action.bind_assoc]
    congr 1
    funext b
    cases b <;> rfl
  rw [hextreme, hextreme]
  refine (hcompare.knowing (hplain x y) (hplain x' y')).matched fun z v b b' hz hv hlevel hb => ?_
  obtain ⟨rfl, ⟨hno, hno'⟩, hnone, hnone'⟩ := hb
  cases b with
  | true =>
    rw [if_pos rfl, if_pos rfl, lift_of_not_program hno', lift_of_not_program hnone']
    exact (Twins.leaf (Λ := E.alike P) (E.same_later hz hv hy)).done hlevel
  | false =>
    rw [if_neg Bool.false_ne_true, if_neg Bool.false_ne_true, lift_of_not_program hno,
      lift_of_not_program hnone]
    exact (Twins.leaf (Λ := E.alike P) (E.same_later hz hv hx)).done hlevel

/-- Behind the first value the decision is resumed again, and the extreme of both is kept. -/
theorem matched_extremumSecond (hE : E.Fair) (hless : E.Ranks) (greatest : Bool) {g g' : Function} {x x' : Value}
    (hlevel : E.Level w u) (hg : E.Continuations (E.alike P) n w g u g') (hx : E.Same w u x x') :
    E.Matched n (Program.lift <$> Action.ask (.arrowOf (.extremumSecond greatest (.arrowOf g))) [x]) w
      (Program.lift <$> Action.ask (.arrowOf (.extremumSecond greatest (.arrowOf g'))) [x']) u
      (E.Twins (E.alike P)) := by
  refine .lifted (.ask rfl rfl fun m hm => ?_)
  have hasked := (hg.fewer (show m ≤ n by omega)).asked hlevel (hE.bool w u false) g.standingTag
    g'.standingTag
  refine .bind (through_graft _ rfl) (through_graft _ rfl)
    (hasked.mono fun j z p y p' _ hz hy hlevel htwins => ?_)
  refine htwins.graft rfl rfl (fun _ _ hp => hp) ?_ hlevel
  intro i z' y' r r' _ hz' hy' hlevel hr
  refine .leading ((Leads.ask rfl).bind _) ((Leads.ask rfl).bind _) fun l _ => ?_
  exact matched_extreme hless greatest hlevel
    (E.same_later (E.course.trans hz hz') (E.course.trans hy hy') hx) hr

theorem implements_extremum (hE : E.Fair) (hless : E.Ranks) (greatest : Bool) :
    E.Implements (E.alike P) n w (.arrowOf (.extremum greatest)) u (.arrowOf (.extremum greatest)) := by
  refine implements_one ⟨rfl, rfl, rfl⟩ ⟨rfl, rfl, rfl⟩ (fun _ => takeOne_of_length)
    (fun _ => takeOne_of_length) fun j z y g g' _ _ _ hlevel hg => ?_
  have hasked := hg.asked hlevel (hE.bool z y true) g.standingTag g'.standingTag
  refine .bind (through_graft _ rfl) (through_graft _ rfl)
    (hasked.mono fun i z' p y' p' hi hz hy hlevel htwins => ?_)
  refine htwins.graft rfl rfl (fun _ _ hp => hp) ?_ hlevel
  intro l v r x x' hl hv hr hlevel hx
  exact matched_extremumSecond hE hless greatest hlevel
    ((hg.later (E.course.trans hz hv) (E.course.trans hy hr)).fewer (by omega)) hx

theorem respects_extremum (hE : E.Fair) (hless : E.Ranks) (greatest : Bool)
    (hleft : ∀ name params, P name params → name ≠ decideName → P' name params) :
    E.Respects P (Handler.evaluate [(decideName, .arrowOf (.extremum greatest))] none) P' :=
  respects_untransformed (fun _ => rfl)
    (fun _ _ h => hleft _ _ h.1 (ne_of_lookup_eq_none h.2 (List.mem_singleton_self _)))
    fun _ hentry _ _ _ => by
      rw [List.mem_singleton.1 hentry]
      exact implements_extremum hE hless greatest

end Extremes

section Enumerating

/-- Leaves that carry a list. -/
def listing (E : Comparison S) (P : String → List Value → Prop) : Traits S where
  carries _ w x u x' := ∃ xs xs', x = .list 0 xs ∧ x' = .list 0 xs' ∧ List.Forall₂ (E.Same w u) xs xs'
  fewer _ h := h
  performs := P

theorem Matched.listed {a b : Action Value} (hE : E.Fair)
    (h : E.Matched n a w b u (E.Twins (E.listing P))) : E.Matched n a w b u (E.Twins (E.alike P)) := by
  refine Matched.relax (Λ := E.listing P) (fun _ z x y x' _ _ hx => ?_) (fun _ _ hp => hp) h
  obtain ⟨xs, xs', rfl, rfl, hxs⟩ := hx
  exact hE.list hxs

/-- Behind the first list the decision is resumed again, and the lists are joined. -/
theorem matched_enumerateSecond (hE : E.Fair) {g g' : Function} {xs xs' : List Value}
    (hlevel : E.Level w u) (hg : E.Continuations (E.listing P) n w g u g')
    (hxs : List.Forall₂ (E.Same w u) xs xs') :
    E.Matched n (Program.lift <$> Action.ask (.arrowOf (.enumerateSecond (.arrowOf g))) [.list 0 xs]) w
      (Program.lift <$> Action.ask (.arrowOf (.enumerateSecond (.arrowOf g'))) [.list 0 xs']) u
      (E.Twins (E.listing P)) := by
  refine .lifted (.ask rfl rfl fun m hm => ?_)
  have hasked := (hg.fewer (show m ≤ n by omega)).asked hlevel (hE.bool w u false) g.standingTag
    g'.standingTag
  refine .bind (through_graft (.mapped (.arrowOf (.appended (.list 0 xs)))) rfl)
    (through_graft (.mapped (.arrowOf (.appended (.list 0 xs')))) rfl)
    (hasked.mono fun j z p y p' _ hz hy hlevel htwins => ?_)
  refine htwins.map rfl rfl (fun _ _ hp => hp) (fun _ z' y' r r' hz' hy' hr => ?_) hlevel
  obtain ⟨ys, ys', rfl, rfl, hys⟩ := hr
  refine ⟨_, _, rfl, rfl, xs ++ ys, xs' ++ ys', rfl, rfl, ?_⟩
  exact List.rel_append (same_all_later (E.course.trans hz hz') (E.course.trans hy hy') hxs) hys

theorem implements_enumerate (hE : E.Fair) :
    E.Implements (E.listing P) n w (.arrowOf .enumerate) u (.arrowOf .enumerate) := by
  refine implements_one ⟨rfl, rfl, rfl⟩ ⟨rfl, rfl, rfl⟩ (fun _ => takeOne_of_length)
    (fun _ => takeOne_of_length) fun j z y g g' _ _ _ hlevel hg => ?_
  have hasked := hg.asked hlevel (hE.bool z y true) g.standingTag g'.standingTag
  refine .bind (through_graft _ rfl) (through_graft _ rfl)
    (hasked.mono fun i z' p y' p' hi hz hy hlevel htwins => ?_)
  refine htwins.graft rfl rfl (fun _ _ hp => hp) ?_ hlevel
  rintro l v r _ _ hl hv hr hlevel ⟨xs, xs', rfl, rfl, hxs⟩
  exact matched_enumerateSecond hE hlevel
    ((hg.later (E.course.trans hz hv) (E.course.trans hy hr)).fewer (by omega)) hxs

theorem implements_noSolutions :
    E.Implements (E.listing P) n w (.arrowOf .noSolutions) u (.arrowOf .noSolutions) :=
  implements_one ⟨rfl, rfl, rfl⟩ ⟨rfl, rfl, rfl⟩ (fun _ => takeOne_of_length)
    (fun _ => takeOne_of_length) fun _ _ _ _ _ _ _ _ hlevel _ =>
      (Twins.leaf (Λ := E.listing P) ⟨[], [], rfl, rfl, .nil⟩).done hlevel

theorem respects_allChoices (hE : E.Fair)
    (hleft : ∀ name params, P name params → name ≠ decideName → name ≠ failName → P' name params) :
    E.Respects P (Handler.evaluate [(decideName, .arrowOf .enumerate), (failName, .arrowOf .noSolutions)]
      (some (.arrowOf .singleton))) P' := by
  intro n w u v v' hlevel h
  refine .listed hE ?_
  refine h.evaluate (fun _ => rfl) (fun name params hp hnone => ?_) ?_ ?_ hlevel
  · exact hleft name params hp (ne_of_lookup_eq_none hnone (List.mem_cons_self ..))
      (ne_of_lookup_eq_none hnone (List.mem_cons_of_mem _ (List.mem_singleton_self _)))
  · exact .cons (.intro _ (implements_enumerate hE)) (.cons (.intro _ implements_noSolutions) .nil)
  · intro j z y tag tag' x x' _ _ _ hlevel hx
    rw [Handler.evaluate_transformed (p := .leaf tag x) rfl,
      Handler.evaluate_transformed (p := .leaf tag' x') rfl]
    refine .pure rfl rfl rfl rfl ((Twins.leaf (Λ := E.listing P') ?_).done hlevel)
    exact ⟨[x], [x'], rfl, rfl, .cons hx .nil⟩

end Enumerating

end Comparison

end AlgebraicEffects
