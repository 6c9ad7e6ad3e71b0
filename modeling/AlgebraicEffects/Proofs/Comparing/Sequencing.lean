import AlgebraicEffects.Proofs.Comparing.Twins
import AlgebraicEffects.Proofs.Stacks.Performing

/-!
What is done next with twins.

Grafting and handling go through a program in the same way: at a leaf something is done with its value,
at an operation with its continuation, which goes on with what is done next (`Continued`). So what is
done next with twins gives twins if it does so at leaves and at operations (`Comparison.Twins.next`).
From this follow the rules for grafts, for maps over leaves, and for handlers whose implementations act
alike (`Comparison.Twins.graft`, `Comparison.Twins.map`, `Comparison.Twins.evaluate`).
-/

set_option autoImplicit false

namespace AlgebraicEffects

open Action (Traced)
open Suspension (suspendName)

variable {V : Type} {S : Scene V} {E : Comparison S}

section Continued

/-- Behind a resumption a function of the library goes on with what is done next, and at a wait that is
passed nothing else is done. A value counts as the leaf that carries it. -/
structure Comparison.Continued (E : Comparison S) (k : Value → Action Value) (go : Value → Function) :
    Prop where
  lifts (v : Value) : k (Program.lift v) = k v
  goesOn (resume : Value) : (go resume).goesOn = true
  apply (resume answer : Value) :
    (go resume).apply (.of [answer]) = (Action.ask resume [answer]).bind k
  waits (tag own : Nat) (delay resume : Value) : E.passes = true →
    k (.operation tag suspendName [.function own (.waitStart delay)] resume) =
      .done (.operation 0 suspendName [.function own (.waitStart delay)] (.function 0 (go resume)))

variable {k : Value → Action Value} {go : Value → Function}

/-- What is done next is done with the subtree that follows. -/
theorem Comparison.Continued.continueWith (h : E.Continued k go) (resume answer : Value) :
    (go resume).apply (.of [answer]) = (Program.continueWith resume answer).bind k := by
  rw [h.apply]
  show _ = (((Action.ask resume [answer]).bind fun v => .done (Program.lift v)).bind k)
  rw [Action.bind_assoc]
  congr 1
  funext v
  exact (h.lifts v).symm

theorem Comparison.Continued.through (h : E.Continued k go) : E.Through k :=
  fun hpasses tag own delay t f _ =>
    ⟨go (.function t f), h.goesOn _, h.waits tag own delay (.function t f) hpasses, h.apply _ _⟩

theorem continued_graft {next : Value} (h : next.isCallable = true) :
    E.Continued (Program.graft · next) (.grafted · next) where
  lifts v := graft_lift v next
  goesOn _ := rfl
  apply _ _ := rfl
  waits _ _ _ _ _ := graft_operation h ..

theorem continued_evaluate {table : Handler.Table} {atLeaf : Option Value}
    (h : E.passes = true → table.lookup suspendName = none) :
    E.Continued (Handler.evaluate table atLeaf) (.under table atLeaf ·) where
  lifts v := by
    unfold Handler.evaluate
    rw [lift_of_isProgram (Program.isProgram_lift v)]
  goesOn _ := rfl
  apply _ _ := rfl
  waits _ _ _ _ hpasses := Handler.evaluate_forwarded (h hpasses) ..

end Continued

namespace Comparison

variable {Λ Λ' : Traits S} {n : Nat} {w u : S.World} {v v' : Value}

section Next

/-- Lifting makes no difference to programs. -/
theorem Matched.lifted {a b : Action Value} (h : E.Matched n a w b u (E.Twins Λ)) :
    E.Matched n (Program.lift <$> a) w (Program.lift <$> b) u (E.Twins Λ) :=
  h.unchanged (fun _ hv => congrArg Action.done (lift_of_isProgram hv))
    fun _ hv => congrArg Action.done (lift_of_isProgram hv)

/-- Functions that go on with a program when they are called, which are matched in all worlds from now on
that go together and for all answers that do, as long as the first run makes less than `n` calls. -/
def Goes (E : Comparison S) (Λ : Traits S) (n : Nat) (w : S.World) (f : Function) (u : S.World)
    (f' : Function) : Prop :=
  ∀ j, j < n → ∀ z y x x', E.course.Later w z → E.course.Later u y → E.Level z y → E.Same z y x x' →
    E.Matched j (f.apply (.of [x])) z (f'.apply (.of [x'])) y (E.Twins Λ)

variable {f f' : Function}

theorem Goes.later {z y : S.World} (h : E.Goes Λ n w f u f') (hz : E.course.Later w z)
    (hy : E.course.Later u y) : E.Goes Λ n z f y f' :=
  fun j hj z' y' x x' hz' hy' => h j hj z' y' x x' (E.course.trans hz hz') (E.course.trans hy hy')

theorem Goes.fewer {m : Nat} (h : E.Goes Λ n w f u f') (hm : m ≤ n) : E.Goes Λ m w f u f' :=
  fun j hj => h j (Nat.lt_of_lt_of_le hj hm)

/-- Calling functions of which nothing is observed takes one call more. -/
theorem Goes.asked (h : E.Goes Λ n w f u f') (hf : f.isSilent = true) (hf' : f'.isSilent = true)
    (hlevel : E.Level w u) {x x' : Value} (hx : E.Same w u x x') (t t' : Nat) :
    E.Matched n (Action.ask (.function t f) [x]) w (Action.ask (.function t' f') [x']) u (E.Twins Λ) :=
  .ask hf hf' fun m hm => h m hm w u x x' (E.course.refl w) (E.course.refl u) hlevel hx

theorem Goes.resume (h : E.Goes Λ n w f u f') (hf : f.isSilent = true) (hf' : f'.isSilent = true)
    (t t' : Nat) : E.Resume Λ n w (.function t f) u (.function t' f') :=
  fun _ _ _ _ hz hy hlevel hx => .lifted ((h.later hz hy).asked hf hf' hlevel hx t t')

variable {k k' : Value → Action Value} {go go' : Value → Function}

/-- What is done next with programs of the one kind gives programs of the other kind if it does so at
leaves, and at operations whose continuations are gone on with. -/
structure Proceeds (E : Comparison S) (Λ Λ' : Traits S) (n : Nat) (w u : S.World)
    (k k' : Value → Action Value) (go go' : Value → Function) : Prop where
  continued : E.Continued k go
  continued' : E.Continued k' go'
  leaf (j : Nat) (z y : S.World) (tag tag' : Nat) (x x' : Value) : j ≤ n → E.course.Later w z →
    E.course.Later u y → E.Level z y → Λ.carries j z x y x' →
    E.Matched j (k (.leaf tag x)) z (k' (.leaf tag' x')) y (E.Twins Λ')
  operation (j : Nat) (z y : S.World) (tag tag' : Nat) (name : String) (params params' : List Value)
    (resume resume' : Value) : j ≤ n → E.course.Later w z → E.course.Later u y → E.Level z y →
    E.Admits name → Λ.performs name params → List.Forall₂ (E.Same z y) params params' →
    E.Goes Λ' j z (go resume) y (go' resume') → E.Matched j (k (.operation tag name params resume)) z
      (k' (.operation tag' name params' resume')) y (E.Twins Λ')

theorem Proceeds.within {m : Nat} {z y : S.World} (h : E.Proceeds Λ Λ' n w u k k' go go') (hm : m ≤ n)
    (hz : E.course.Later w z) (hy : E.course.Later u y) : E.Proceeds Λ Λ' m z y k k' go go' where
  continued := h.continued
  continued' := h.continued'
  leaf j z' y' tag tag' x x' hj hz' hy' :=
    h.leaf j z' y' tag tag' x x' (by omega) (E.course.trans hz hz') (E.course.trans hy hy')
  operation j z' y' tag tag' name params params' resume resume' hj hz' hy' :=
    h.operation j z' y' tag tag' name params params' resume resume' (by omega) (E.course.trans hz hz')
      (E.course.trans hy hy')

/-- What is done next with twins. -/
theorem Twins.next (hk : E.Proceeds Λ Λ' n w u k k' go go') (h : E.Twins Λ n w v u v')
    (hlevel : E.Level w u) : E.Matched n (k v) w (k' v') u (E.Twins Λ') := by
  induction n using Nat.strong_induction_on generalizing w u v v' with
  | _ n ih =>
    refine h.elim ?_ ?_
    · rintro tag tag' x x' rfl rfl hx
      exact hk.leaf n w u tag tag' x x' (Nat.le_refl n) (E.course.refl w) (E.course.refl u) hlevel hx
    · rintro tag tag' name params params' resume resume' rfl rfl hadmits hperforms hparams hresume
      refine hk.operation n w u tag tag' name params params' _ _ (Nat.le_refl n) (E.course.refl w)
        (E.course.refl u) hlevel hadmits hperforms hparams ?_
      -- What follows an answer are twins again, for fewer calls.
      intro j hj z y x x' hz hy hlevel hx
      rw [hk.continued.continueWith, hk.continued'.continueWith]
      have hasked := (hresume z y x x' hz hy hlevel hx).fewer (Nat.le_of_lt hj)
      refine .bind hk.continued.through hk.continued'.through
        (hasked.mono fun i z' v y' v' hi hz' hy' hlevel' htwins => ?_)
      exact ih i (Nat.lt_of_le_of_lt hi hj) (hk.within (by omega) (E.course.trans hz hz')
        (E.course.trans hy hy')) htwins hlevel'

end Next

/-- Less may be said of twins: their leaves may be related more loosely, and more operations allowed. -/
theorem Twins.relax (hcarries : ∀ j z x y x', E.course.Later w z → E.course.Later u y →
    Λ.carries j z x y x' → Λ'.carries j z x y x') (hperforms : ∀ name params, Λ.performs name params →
    Λ'.performs name params) (h : E.Twins Λ n w v u v') : E.Twins Λ' n w v u v' := by
  induction n using Nat.strong_induction_on generalizing w u v v' with
  | _ n ih =>
    refine h.elim ?_ ?_
    · rintro _ _ x x' rfl rfl hx
      exact .leaf (hcarries n w x u x' (E.course.refl w) (E.course.refl u) hx)
    · rintro _ _ _ _ _ resume resume' rfl rfl hadmits hp hparams hresume
      refine .operation hadmits (hperforms _ _ hp) hparams fun z y x x' hz hy hlevel hx => ?_
      refine (Always.guarded (hresume z y x x' hz hy hlevel hx)).mono fun i said t o _ ⟨hi, hR⟩ => ?_
      refine hR.mono fun _ _ _ hmeet => hmeet.mono fun z' v y' v' hz' hy' _ htwins => ?_
      exact ih i hi (fun j z'' x y'' x' hz'' hy'' => hcarries j z'' x y'' x'
        (E.course.trans hz (E.course.trans hz' hz'')) (E.course.trans hy (E.course.trans hy' hy''))) htwins

theorem Matched.relax {a b : Action Value} (hcarries : ∀ j z x y x', E.course.Later w z →
    E.course.Later u y → Λ.carries j z x y x' → Λ'.carries j z x y x') (hperforms : ∀ name params,
    Λ.performs name params → Λ'.performs name params) (h : E.Matched n a w b u (E.Twins Λ)) :
    E.Matched n a w b u (E.Twins Λ') :=
  h.mono fun _ _ _ _ _ _ hz hy _ htwins => htwins.relax (fun j z x y x' hz' hy' =>
    hcarries j z x y x' (E.course.trans hz hz') (E.course.trans hy hy')) hperforms

/-- Grafting functions that give what counts as twins where the values of leaves are related. -/
theorem proceeds_graft {next next' : Value} (hcallable : next.isCallable = true)
    (hcallable' : next'.isCallable = true)
    (hperforms : ∀ name params, Λ.performs name params → Λ'.performs name params)
    (hnext : ∀ j z y x x', j ≤ n → E.course.Later w z → E.course.Later u y → E.Level z y →
      Λ.carries j z x y x' → E.Matched j (Program.lift <$> Action.ask next [x]) z
        (Program.lift <$> Action.ask next' [x']) y (E.Twins Λ')) :
    E.Proceeds Λ Λ' n w u (Program.graft · next) (Program.graft · next') (.grafted · next)
      (.grafted · next') where
  continued := continued_graft hcallable
  continued' := continued_graft hcallable'
  leaf j z y tag tag' x x' hj hz hy hlevel hx := by
    rw [Replay.graft_of_leaf rfl hcallable, Replay.graft_of_leaf rfl hcallable']
    exact hnext j z y x x' hj hz hy hlevel hx
  operation j z y tag tag' name params params' resume resume' _ _ _ hlevel hadmits hp hparams hgoes := by
    rw [graft_operation hcallable, graft_operation hcallable']
    exact (Twins.operation hadmits (hperforms _ _ hp) hparams (hgoes.resume rfl rfl 0 0)).done hlevel

/-- Grafts on twins, by functions that give what counts as twins where the values of leaves are
related. -/
theorem Twins.graft {next next' : Value} (hcallable : next.isCallable = true)
    (hcallable' : next'.isCallable = true)
    (hperforms : ∀ name params, Λ.performs name params → Λ'.performs name params)
    (hnext : ∀ j z y x x', j ≤ n → E.course.Later w z → E.course.Later u y → E.Level z y →
      Λ.carries j z x y x' → E.Matched j (Program.lift <$> Action.ask next [x]) z
        (Program.lift <$> Action.ask next' [x']) y (E.Twins Λ'))
    (h : E.Twins Λ n w v u v') (hlevel : E.Level w u) :
    E.Matched n (Program.graft v next) w (Program.graft v' next') u (E.Twins Λ') := by
  have hmatched := Twins.next (proceeds_graft hcallable hcallable' hperforms hnext) h hlevel
  exact hmatched

/-- Functions of which nothing is observed and that only give a value. -/
theorem Matched.pure {Φ : Nat → Likeness S} {f f' : Function} {tag tag' : Nat} {xs ys : List Value}
    {k k' : Value → Action Value} {r r' : Value} (hf : f.isSilent = true) (hf' : f'.isSilent = true)
    (hr : f.apply (.of xs) = .done r) (hr' : f'.apply (.of ys) = .done r')
    (h : E.Matched n (k r) w (k' r') u Φ) :
    E.Matched n ((Action.ask (.function tag f) xs).bind k) w
      ((Action.ask (.function tag' f') ys).bind k') u Φ := by
  refine .leading ((Leads.ask hf).bind k) ((Leads.ask hf').bind k') fun m hm => ?_
  rw [hr, hr']
  exact h.fewer (by omega)

/-- Maps over twins, by functions that only give a value, where the values are related. -/
theorem Twins.map {f f' : Function} (hf : f.isSilent = true) (hf' : f'.isSilent = true)
    (hperforms : ∀ name params, Λ.performs name params → Λ'.performs name params)
    (hvalue : ∀ j z y x x', E.course.Later w z → E.course.Later u y → Λ.carries j z x y x' → ∃ r r',
      f.apply (.of [x]) = .done r ∧ f'.apply (.of [x']) = .done r' ∧ Λ'.carries j z r y r')
    (h : E.Twins Λ n w v u v') (hlevel : E.Level w u) :
    E.Matched n (Program.map v (.arrowOf f)) w (Program.map v' (.arrowOf f')) u (E.Twins Λ') := by
  show E.Matched n (Program.graft v (.arrowOf (.mapped (.arrowOf f)))) w
    (Program.graft v' (.arrowOf (.mapped (.arrowOf f')))) u (E.Twins Λ')
  refine h.graft rfl rfl hperforms ?_ hlevel
  intro j z y x x' _ hz hy hlevel hx
  obtain ⟨r, r', hr, hr', hΛ⟩ := hvalue _ z y x x' hz hy hx
  refine .lifted (.ask rfl rfl fun m hm => .pure hf hf' hr hr' ?_)
  exact (Twins.leaf (Λ'.fewer (by omega) hΛ)).done hlevel

section Handling

/-- Functions that go on with twins, also when they are given no answer. -/
structure Continuations (E : Comparison S) (Λ : Traits S) (n : Nat) (w : S.World) (f : Function)
    (u : S.World) (f' : Function) : Prop where
  silent : f.isSilent = true
  silent' : f'.isSilent = true
  unanswered : f.apply (.of []) = f.apply (.of [.nothing])
  unanswered' : f'.apply (.of []) = f'.apply (.of [.nothing])
  goes : E.Goes Λ n w f u f'

variable {f f' : Function}

theorem Continuations.later {z y : S.World} (h : E.Continuations Λ n w f u f') (hz : E.course.Later w z)
    (hy : E.course.Later u y) : E.Continuations Λ n z f y f' :=
  { h with goes := h.goes.later hz hy }

theorem Continuations.fewer {m : Nat} (h : E.Continuations Λ n w f u f') (hm : m ≤ n) :
    E.Continuations Λ m w f u f' :=
  { h with goes := h.goes.fewer hm }

/-- Resuming with answers that go together. -/
theorem Continuations.asked (h : E.Continuations Λ n w f u f') (hlevel : E.Level w u) {x x' : Value}
    (hx : E.Same w u x x') (t t' : Nat) : E.Matched n (Action.ask (.function t f) [x]) w
      (Action.ask (.function t' f') [x']) u (E.Twins Λ) :=
  h.goes.asked h.silent h.silent' hlevel hx t t'

/-- Resuming without an answer. -/
theorem Continuations.resumed (h : E.Continuations Λ n w f u f') (hlevel : E.Level w u)
    (hnothing : E.Same w u .nothing .nothing) (t t' : Nat) : E.Matched n (Action.ask (.function t f) []) w
      (Action.ask (.function t' f') []) u (E.Twins Λ) := by
  refine .ask h.silent h.silent' fun m hm => ?_
  rw [h.unanswered, h.unanswered']
  exact h.goes m hm w u _ _ (E.course.refl w) (E.course.refl u) hlevel hnothing

/-- Implementations that, for parameters that go together and continuations that go on with twins, give
twins. -/
def Implements (E : Comparison S) (Λ : Traits S) (n : Nat) (w : S.World) (implementation : Value)
    (u : S.World) (implementation' : Value) : Prop :=
  ∀ j z y params params' g g', j ≤ n → E.course.Later w z → E.course.Later u y → E.Level z y →
    List.Forall₂ (E.Same z y) params params' → E.Continuations Λ j z g y g' →
    E.Matched j (Handler.perform implementation params (.arrowOf g)) z
      (Handler.perform implementation' params' (.arrowOf g')) y (E.Twins Λ)

/-- Two entries of tables under the same name, with implementations that act alike. -/
inductive Entries (E : Comparison S) (Λ : Traits S) (n : Nat) (w u : S.World) :
    String × Value → String × Value → Prop where
  | intro {implementation implementation' : Value} (name : String) :
      E.Implements Λ n w implementation u implementation' →
      Entries E Λ n w u (name, implementation) (name, implementation')

/-- Under a name that one table lacks the other one has no entry either. -/
theorem Entries.lookup {table table' : Handler.Table} (h : List.Forall₂ (E.Entries Λ n w u) table table')
    (name : String) : (table.lookup name = none ∧ table'.lookup name = none) ∨
      ∃ f f', table.lookup name = some f ∧ table'.lookup name = some f' ∧ E.Implements Λ n w f u f' := by
  induction h with
  | nil => exact .inl ⟨rfl, rfl⟩
  | cons hentry _ ih =>
    cases hentry with
    | intro own himplements =>
      rw [List.lookup_cons, List.lookup_cons]
      cases name == own with
      | true => exact .inr ⟨_, _, rfl, rfl, himplements⟩
      | false => exact ih

variable {table table' : Handler.Table} {atLeaf atLeaf' : Option Value}

/-- Handlers with implementations that act alike. -/
theorem proceeds_evaluate (hsuspend : E.passes = true → table.lookup suspendName = none)
    (hperforms : ∀ name params, Λ.performs name params → table.lookup name = none →
      Λ'.performs name params)
    (htable : List.Forall₂ (E.Entries Λ' n w u) table table')
    (hleaf : ∀ j z y tag tag' x x', j ≤ n → E.course.Later w z → E.course.Later u y → E.Level z y →
      Λ.carries j z x y x' → E.Matched j (Handler.evaluate table atLeaf (.leaf tag x)) z
        (Handler.evaluate table' atLeaf' (.leaf tag' x')) y (E.Twins Λ')) :
    E.Proceeds Λ Λ' n w u (Handler.evaluate table atLeaf) (Handler.evaluate table' atLeaf')
      (.under table atLeaf ·) (.under table' atLeaf' ·) where
  continued := continued_evaluate hsuspend
  continued' := by
    refine continued_evaluate fun hpasses => ?_
    rcases Entries.lookup htable suspendName with ⟨-, hnone⟩ | ⟨_, _, hsome, -⟩
    · exact hnone
    · cases (hsuspend hpasses).symm.trans hsome
  leaf := hleaf
  operation j z y tag tag' name params params' resume resume' hj hz hy hlevel hadmits hp hparams hgoes := by
    rcases Entries.lookup htable name with ⟨hnone, hnone'⟩ | ⟨f, f', hsome, hsome', himplements⟩
    · rw [Handler.evaluate_forwarded hnone, Handler.evaluate_forwarded hnone']
      exact (Twins.operation hadmits (hperforms _ _ hp hnone) hparams (hgoes.resume rfl rfl 0 0)).done hlevel
    · rw [Handler.evaluate_performed hsome, Handler.evaluate_performed hsome']
      exact himplements j z y params params' _ _ hj hz hy hlevel hparams ⟨rfl, rfl, rfl, rfl, hgoes⟩

/-- Twins under handlers with implementations that act alike. -/
theorem Twins.evaluate (hsuspend : E.passes = true → table.lookup suspendName = none)
    (hperforms : ∀ name params, Λ.performs name params → table.lookup name = none →
      Λ'.performs name params)
    (htable : List.Forall₂ (E.Entries Λ' n w u) table table')
    (hleaf : ∀ j z y tag tag' x x', j ≤ n → E.course.Later w z → E.course.Later u y → E.Level z y →
      Λ.carries j z x y x' → E.Matched j (Handler.evaluate table atLeaf (.leaf tag x)) z
        (Handler.evaluate table' atLeaf' (.leaf tag' x')) y (E.Twins Λ'))
    (h : E.Twins Λ n w v u v') (hlevel : E.Level w u) :
    E.Matched n (Handler.evaluate table atLeaf v) w (Handler.evaluate table' atLeaf' v') u
      (E.Twins Λ') :=
  h.next (proceeds_evaluate hsuspend hperforms htable hleaf) hlevel

end Handling

end Comparison

end AlgebraicEffects
