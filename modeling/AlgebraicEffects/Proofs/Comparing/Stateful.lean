import AlgebraicEffects.Effects.State
import AlgebraicEffects.Proofs.Comparing.Standard

/-!
Programs with a state, compared.

Under the handler of state a program ends with functions from the incoming state to the rest of the
program. Such functions go together when they give twins for all states that do, and then the programs
that carry them give twins when they are applied (`Twins.applied`). So running a program from an initial
state respects twins (`Comparison.respects_stateRun`). What the functions give may also be gone on with
first (`Comparison.finishing`), in a way of its own on either side: the handler comes through if applying
such programs to a state leads to twins (`Comparison.Finishes`).
-/

set_option autoImplicit false

namespace AlgebraicEffects

open Action (Traced)
open State (getName putName)
open Suspension (suspendName)

variable {V : Type} {S : Scene V} {E : Comparison S} {n : Nat} {w u : S.World}
  {P P' : String → List Value → Prop} {v v' : Value}

/-- Applying what a leaf carries to what a leaf carries is a call. -/
theorem leads_applying (s : Store) (t : Nat) (f x : Value) :
    E.Leads s (Action.ask (.arrowOf (.applying [.leaf t x])) [f]) 3 [] s
      (Program.lift <$> Action.ask f [x]) := by
  have happly : E.Leads s (Action.ask (.arrowOf (.applying [.leaf t x])) [f]) 1 [] s
      ((Program.lift <$> Action.ask (.arrowOf (.collecting [] [])) [x]).bind fun collected =>
        Program.graft collected (.arrowOf (.spreading f))) := .ask rfl
  have hcollect : E.Leads s (Program.lift <$> Action.ask (.arrowOf (.collecting [] [])) [x]) 1 [] s
      (.done (.leaf 0 (.list 0 [x]))) := (Comparison.Leads.ask rfl).bind _
  have hspread : E.Leads s (Program.graft (.leaf 0 (.list 0 [x])) (.arrowOf (.spreading f))) 1 [] s
      (Program.lift <$> Action.ask f [x]) := (Comparison.Leads.ask rfl).bind _
  exact happly.trans ((hcollect.bind _).trans hspread)

namespace Comparison

/-- Functions of the library that only give a value that is no program are implementations that give its
leaf. -/
theorem leads_performed_value {f g : Function} {params : List Value} {c : Value} (s : Store)
    (hf : IsPlain f) (h : (Value.arrowOf f).apply (.of (params ++ [c])) = .done (.arrowOf g)) :
    E.Leads s (Handler.perform (.arrowOf f) params c) 1 [] s (.done (.leaf 0 (.arrowOf g))) := by
  rw [Handler.perform, hf.plain, if_neg Bool.false_ne_true, Replay.build_eq hf.library]
  have hcall : E.Leads s (Action.invoke (.arrowOf f) (.of (params ++ [c]))) 1 [] s
      (.done (.arrowOf g)) := by
    have hask : E.Leads s (Action.invoke (.arrowOf f) (.of (params ++ [c]))) 1 [] s
        ((Value.arrowOf f).apply (.of (params ++ [c]))) := .ask hf.silent
    rwa [h] at hask
  exact hcall.bind _

/-- Leaves that carry functions from the state to twins. -/
def stateful (E : Comparison S) (P : String → List Value → Prop) : Traits S where
  carries n w f u f' := ∀ j z y x x', j ≤ n → E.course.Later w z → E.course.Later u y → E.Level z y →
    E.Same z y x x' → E.Matched j (Program.lift <$> Action.ask f [x]) z
      (Program.lift <$> Action.ask f' [x']) y (E.Twins (E.alike P))
  fewer hm h j z y x x' hj := h j z y x x' (by omega)
  performs := P

/-- Leaves that carry functions from the state to what is gone on with so to twins. -/
def finishing (E : Comparison S) (Λ : Traits S) (k k' : Value → Action Value) : Traits S where
  carries n w f u f' := ∀ j z y x x', j ≤ n → E.course.Later w z → E.course.Later u y → E.Level z y →
    E.Same z y x x' → E.Matched j ((Action.ask f [x]).bind k) z ((Action.ask f' [x']).bind k') y (E.Twins Λ)
  fewer hm h j z y x x' hj := h j z y x x' (by omega)
  performs := Λ.performs

/-- Functions to twins are those that give what are twins when it is lifted. -/
theorem stateful_eq_finishing (P : String → List Value → Prop) : E.stateful P =
    E.finishing (E.alike P) (fun v => .done (Program.lift v)) fun v => .done (Program.lift v) := rfl

/-- Applied to a state, programs that carry functions from the state to twins are twins. -/
theorem Twins.applied {t t' : Nat} {x x' : Value} (h : E.Twins (E.stateful P) n w v u v')
    (hlevel : E.Level w u) (hx : E.Same w u x x') :
    E.Matched n (Program.applyTo v [.leaf t x]) w (Program.applyTo v' [.leaf t' x']) u
      (E.Twins (E.alike P)) := by
  refine Twins.graft (Λ := E.stateful P) rfl rfl (fun _ _ hp => hp) ?_ h hlevel
  intro j z y f f' _ hz hy hlevel hf
  refine .lifted (.leading (leads_applying _ t f x) (leads_applying _ t' f' x') fun m hm => ?_)
  exact hf m z y x x' (by omega) (E.course.refl z) (E.course.refl y) hlevel (E.same_later hz hy hx)

theorem through_applyTo (x : Value) : E.Through (Program.applyTo · [x]) :=
  (continued_graft rfl).through

/-- Programs that carry functions from the state to what is gone on with to twins, applied to a state, are
themselves gone on with to twins. -/
structure Finishes (E : Comparison S) (Λ : Traits S) (k k' l l' : Value → Action Value) : Prop where
  lifted {n : Nat} {w u : S.World} {a b : Action Value} :
    E.Matched n (a.bind l) w (b.bind l') u (E.Twins Λ) → E.Matched n (a.bind k) w (b.bind k') u (E.Twins Λ)
  through (x : Value) : E.Through fun v => (Program.applyTo v [x]).bind l
  through' (x : Value) : E.Through fun v => (Program.applyTo v [x]).bind l'
  applied {n : Nat} {w u : S.World} {v v' x x' : Value} {t t' : Nat} :
    E.Twins (E.finishing Λ k k') n w v u v' → E.Level w u → E.Same w u x x' →
      E.Matched n ((Program.applyTo v [.leaf t x]).bind l) w ((Program.applyTo v' [.leaf t' x']).bind l') u
        (E.Twins Λ)

theorem finishes_done : E.Finishes (E.alike P)
    (fun v => .done (Program.lift v)) (fun v => .done (Program.lift v)) .done .done where
  lifted h := by
    rw [Action.bind_done, Action.bind_done] at h
    exact h.lifted
  through x := by
    simp only [Action.bind_done]
    exact through_applyTo x
  through' x := by
    simp only [Action.bind_done]
    exact through_applyTo x
  applied h hlevel hx := by
    rw [Action.bind_done, Action.bind_done]
    exact Twins.applied h hlevel hx

variable {Λ Λ' : Traits S} {k k' l l' : Value → Action Value}

/-- Implementations that give functions from the state. -/
theorem Matched.deferred {f f' g g' : Function} {params params' : List Value} {c c' : Value}
    (hf : IsPlain f) (hf' : IsPlain f')
    (h : (Value.arrowOf f).apply (.of (params ++ [c])) = .done (.arrowOf g))
    (h' : (Value.arrowOf f').apply (.of (params' ++ [c'])) = .done (.arrowOf g')) (hlevel : E.Level w u)
    (hg : Λ.carries n w (.arrowOf g) u (.arrowOf g')) :
    E.Matched n (Handler.perform (.arrowOf f) params c) w (Handler.perform (.arrowOf f') params' c') u
      (E.Twins Λ) := by
  refine .leading (leads_performed_value _ hf h) (leads_performed_value _ hf' h') fun m hm => ?_
  exact (Twins.leaf (Λ.fewer (by omega) hg)).done hlevel

/-- Functions that apply the program for which they ask to a state. -/
theorem Finishes.asked (hE : E.Finishes Λ k k' l l') {f f' : Function} {a a' : Action Value}
    {x x' y y' : Value} (hf : f.isSilent = true) (hf' : f'.isSilent = true)
    (hbody : f.apply (.of [y]) = a.bind (Program.applyTo · [.leaf 0 x]))
    (hbody' : f'.apply (.of [y']) = a'.bind (Program.applyTo · [.leaf 0 x'])) (hx : E.Same w u x x')
    (h : ∀ m, m < n → E.Matched m a w a' u (E.Twins (E.finishing Λ k k'))) :
    E.Matched n ((Action.ask (.arrowOf f) [y]).bind k) w ((Action.ask (.arrowOf f') [y']).bind k') u
      (E.Twins Λ) := by
  refine hE.lifted (.leading ((Leads.ask hf).bind l) ((Leads.ask hf').bind l') fun m hm => ?_)
  rw [hbody, hbody', Action.bind_assoc, Action.bind_assoc]
  refine .bind (hE.through _) (hE.through' _) ((h m (by omega)).mono fun _ _ p _ p' _ hz hy hlevel hp => ?_)
  exact hE.applied hp hlevel (E.same_later hz hy hx)

theorem Finishes.implements_getState (hE : E.Finishes Λ k k' l l') :
    E.Implements (E.finishing Λ k k') n w (.arrowOf .getState) u (.arrowOf .getState) := by
  intro j z y params params' g g' _ _ _ hlevel hparams hg
  rcases none_or_length hparams (.arrowOf g) (.arrowOf g') with ⟨rfl, rfl⟩ | ⟨hlength, hlength'⟩
  · refine .deferred ⟨rfl, rfl, rfl⟩ ⟨rfl, rfl, rfl⟩ rfl rfl hlevel ?_
    intro i z' y' x x' hi hz hy hlevel hx
    refine hE.asked rfl rfl rfl rfl hx fun m hm => ?_
    exact ((hg.later hz hy).fewer (show m ≤ j by omega)).asked hlevel hx g.standingTag g'.standingTag
  · exact .performed rfl rfl rfl rfl (.refusing ⟨rfl, rfl, rfl⟩ ⟨rfl, rfl, rfl⟩ hlevel
      (takeOne_of_length hlength) (takeOne_of_length hlength'))

theorem Finishes.implements_putState (hE : E.Finishes Λ k k' l l') (hfair : E.Fair) :
    E.Implements (E.finishing Λ k k') n w (.arrowOf .putState) u (.arrowOf .putState) := by
  intro j z y params params' g g' _ _ _ hlevel hparams hg
  rcases one_or_length hparams (.arrowOf g) (.arrowOf g') with ⟨m, m', rfl, rfl, hm⟩ | ⟨hlength, hlength'⟩
  · refine .deferred ⟨rfl, rfl, rfl⟩ ⟨rfl, rfl, rfl⟩ rfl rfl hlevel ?_
    intro i z' y' x x' hi hz hy hlevel _
    refine hE.asked rfl rfl rfl rfl (E.same_later hz hy hm) fun l hl => ?_
    exact ((hg.later hz hy).fewer (show l ≤ j by omega)).resumed hlevel (hfair.nothing z' y')
      g.standingTag g'.standingTag
  · exact .performed rfl rfl rfl rfl (.refusing ⟨rfl, rfl, rfl⟩ ⟨rfl, rfl, rfl⟩ hlevel
      (takeTwo_of_length hlength) (takeTwo_of_length hlength'))

/-- What a finished program gives in the final state is no program: either it is paired with the state, or
else the values at leaves are none. -/
theorem carries_finishAt (hE : E.Fair) {paired : Bool} {x x' : Value}
    (hplain : paired = true ∨ x.isProgram = false ∧ x'.isProgram = false) (hx : E.Same w u x x') :
    (E.stateful P).carries n w (.arrowOf (.finishAt paired x)) u (.arrowOf (.finishAt paired x')) := by
  intro j z y s s' _ hz hy hlevel hs
  have hx := E.same_later hz hy hx
  cases paired with
  | true =>
    refine .pure rfl rfl rfl rfl ((Twins.leaf (Λ := E.alike P) ?_).done hlevel)
    exact hE.tuple (.cons hx (.cons hs .nil))
  | false =>
    obtain hpaired | ⟨hno, hno'⟩ := hplain
    · cases hpaired
    · refine .pure rfl rfl rfl rfl ?_
      show E.Matched j (.done (Program.lift x)) z (.done (Program.lift x')) y _
      rw [lift_of_not_program hno, lift_of_not_program hno']
      exact (Twins.leaf (Λ := E.alike P) hx).done hlevel

/-- The implementations of the handler of state. -/
def stateTable : Handler.Table := [(getName, .arrowOf .getState), (putName, .arrowOf .putState)]

/-- A program with a state is handled, and then applied to the initial state. -/
theorem stateRun_eq {withFinalState : Value} {paired : Bool}
    (hpaired : Action.truth withFinalState = .done paired) (p initial : Value) :
    State.run p initial withFinalState =
      (Handler.evaluate stateTable (some (.arrowOf (.finishState paired))) p).bind
        (Program.applyTo · [.leaf 0 initial]) := by
  unfold State.run
  rw [hpaired]
  rfl

/-- The handler of state makes programs whose leaves carry functions from the state, if it does so of the
values at leaves. -/
theorem Finishes.proceeds (hE : E.Finishes Λ' k k' l l') (hfair : E.Fair) (paired paired' : Bool)
    (hleft : ∀ name params, Λ.performs name params → name ≠ getName → name ≠ putName →
      Λ'.performs name params)
    (hcarries : ∀ j z y x x', j ≤ n → E.course.Later w z → E.course.Later u y → Λ.carries j z x y x' →
      (E.finishing Λ' k k').carries j z (.arrowOf (.finishAt paired x)) y (.arrowOf (.finishAt paired' x'))) :
    E.Proceeds Λ (E.finishing Λ' k k') n w u
      (Handler.evaluate stateTable (some (.arrowOf (.finishState paired))))
      (Handler.evaluate stateTable (some (.arrowOf (.finishState paired'))))
      (.under stateTable (some (.arrowOf (.finishState paired))) ·)
      (.under stateTable (some (.arrowOf (.finishState paired'))) ·) := by
  refine proceeds_evaluate (fun _ => rfl) (fun name params hp hnone => ?_) ?_ ?_
  · exact hleft name params hp (ne_of_lookup_eq_none hnone (List.mem_cons_self ..))
      (ne_of_lookup_eq_none hnone (List.mem_cons_of_mem _ (List.mem_singleton_self _)))
  · exact .cons (.intro _ hE.implements_getState) (.cons (.intro _ (hE.implements_putState hfair)) .nil)
  · intro j z y tag tag' x x' hj hz hy hlevel hx
    rw [Handler.evaluate_transformed (p := .leaf tag x) rfl,
      Handler.evaluate_transformed (p := .leaf tag' x') rfl]
    refine .pure rfl rfl rfl rfl ((Twins.leaf (Λ := E.finishing Λ' k k') ?_).done hlevel)
    exact hcarries j z y x x' hj hz hy hx

/-- The same where the functions are to give twins, also of programs about whose leaves more is known. -/
theorem proceeds_state (hE : E.Fair) {paired : Bool}
    (hcarries : ∀ j w u x x', Λ.carries j w x u x' → E.Same w u x x')
    (hplain : paired = true ∨ ∀ j w u x x', Λ.carries j w x u x' → x.isProgram = false ∧ x'.isProgram = false)
    (hleft : ∀ name params, Λ.performs name params → name ≠ getName → name ≠ putName → P' name params) :
    E.Proceeds Λ (E.stateful P') n w u
      (Handler.evaluate stateTable (some (.arrowOf (.finishState paired))))
      (Handler.evaluate stateTable (some (.arrowOf (.finishState paired))))
      (.under stateTable (some (.arrowOf (.finishState paired))) ·)
      (.under stateTable (some (.arrowOf (.finishState paired))) ·) := by
  rw [stateful_eq_finishing]
  refine finishes_done.proceeds hE paired paired hleft fun j z y x x' _ _ _ hx => ?_
  exact carries_finishAt hE (hplain.imp_right fun h => h j z y x x' hx) (hcarries j z y x x' hx)

/-- Applied to the initial state the programs are twins again. -/
theorem Aligned.stated {es fs : List (Event V)} {s t : Store} {initial withFinalState : Value}
    {paired : Bool} (hpaired : Action.truth withFinalState = .done paired)
    (hinitial : ∀ w u, E.Same w u initial initial)
    (h : E.Aligned n w es s (Handler.evaluate stateTable (some (.arrowOf (.finishState paired))) v) u fs t
      (Handler.evaluate stateTable (some (.arrowOf (.finishState paired))) v') (E.Twins (E.stateful P))) :
    E.Aligned n w es s (State.run v initial withFinalState) u fs t (State.run v' initial withFinalState)
      (E.Twins (E.alike P)) := by
  rw [stateRun_eq hpaired, stateRun_eq hpaired]
  exact .bind (through_applyTo _) (through_applyTo _)
    (h.mono fun _ z _ y _ _ _ hlevel htwins => htwins.applied hlevel (hinitial z y))

/-- Running a program from an initial state. -/
theorem respects_stateRun (hE : E.Fair) {initial withFinalState : Value} {paired : Bool}
    (hpaired : Action.truth withFinalState = .done paired)
    (hplain : paired = true ∨ ∀ w u x x', E.Same w u x x' → x.isProgram = false ∧ x'.isProgram = false)
    (hinitial : ∀ w u, E.Same w u initial initial)
    (hleft : ∀ name params, P name params → name ≠ getName → name ≠ putName → P' name params) :
    E.Respects P (fun p => State.run p initial withFinalState) P' := by
  intro n w u v v' hlevel h
  have hproceeds := proceeds_state (n := n) (w := w) (u := u) hE (Λ := E.alike P) (fun _ _ _ _ _ hx => hx)
    (hplain.imp_right fun h _ w u x x' hx => h w u x x' hx) hleft
  exact matched_iff.2 (.stated hpaired hinitial (matched_iff.1 (h.next hproceeds hlevel)))

end Comparison

end AlgebraicEffects
