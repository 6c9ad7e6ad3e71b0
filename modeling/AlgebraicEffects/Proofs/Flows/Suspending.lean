import AlgebraicEffects.Proofs.Flows.Contexts

/-!
Under the handler that suspends flows.

The handler is the outermost one: what it encloses ends the turn. Main statements: its contexts
enclose programs that perform no other effects (`encloses_suspended`), and waiting and asking for
the time finish exactly once.
-/

set_option autoImplicit false

namespace AlgebraicEffects

open Suspension (suspendName nowName)

/-- The table of the handler that suspends flows on a host. -/
def suspensionTable (host : Value) : Handler.Table :=
  [(suspendName, .arrowOf (.suspendOn host)), (nowName, .arrowOf (.nowOf host))]

/-- What ends without doing anything when it is given a leaf. -/
def EndsAtLeaves (W : Watch) (K : Value → Action Value) : Prop :=
  ∀ tag v s, ∃ x, Comes W (K (.leaf tag v)) s (.done x) s

/-- The contexts that evaluate a program under the handler that suspends flows, and end. -/
def suspended (host : Value) (W : Watch) (C : Context) : Prop :=
  ∃ K, EndsAtLeaves W K ∧ C = fun p => (Handler.evaluate (suspensionTable host) none p).bind K

section Suspending

variable {host : Value} {H : Registrar host} {W : Watch} {K : Value → Action Value}

theorem endsAtLeaves_ensureHandled : EndsAtLeaves W Suspension.ensureHandled := fun _ _ s =>
  ⟨_, .here _ s⟩

theorem EndsAtLeaves.built {B : Value → Action Value} (h : EndsAtLeaves W K)
    (hB : LeavesPrograms B) : EndsAtLeaves W fun v => (B v).bind K := fun tag v s => by
  have hsame : (B (.leaf tag v)).bind K = K (.leaf tag v) := hB.bind rfl
  simp only [hsame]
  exact h tag v s

/-- What is resumed under the handler comes to what follows the operation. -/
theorem comes_under (resume answer : Value) (K : Value → Action Value) (s : Store) :
    Comes W ((Action.ask (.arrowOf (.under (suspensionTable host) none resume)) [answer]).bind K) s
      ((Action.ask resume [answer]).bind fun p =>
        (Handler.evaluate (suspensionTable host) none p).bind K) s := by
  rw [← Action.bind_assoc]
  exact .invoke (W.blind rfl) (.of [answer]) K s

/-- The handler that suspends flows encloses programs that perform no other effects. -/
theorem encloses_suspended : Encloses H W (fun _ _ _ => False) (suspended host W) where
  followed := by
    rintro _ K' ⟨K, hK, rfl⟩ hK'
    refine ⟨fun v => (K v).bind K', fun tag v s => ?_, funext fun p => Action.bind_assoc _ _ _⟩
    obtain ⟨x, hx⟩ := hK tag v s
    obtain ⟨y, hy⟩ := hK' x s
    exact ⟨y, (hx.bind K').trans hy⟩
  suspend := by
    rintro _ ⟨K, hK, rfl⟩ tag start resume hstart
    let continuation : Value := .arrowOf (.under (suspensionTable host) none resume)
    obtain ⟨B, hB, hbuilt⟩ := exists_implemented (.arrowOf (.suspendOn host))
      (W.blind rfl) rfl [.arrowOf start, continuation]
    refine ⟨.arrowOf (.resumeChecked continuation), fun _ => (B (.leaf 0 .nothing)).bind K,
      W.blind rfl, fun _ s => hK.built hB 0 .nothing s, fun s => (hbuilt K s).trans ?_,
      fun arguments answer hanswer => ⟨_, ⟨_, endsAtLeaves_ensureHandled, rfl⟩, fun s => ?_⟩⟩
    · show Comes W (((Action.ask (.arrowOf start) _).bind _).bind fun v => (B v).bind K) s _ s
      rw [Action.bind_assoc]
      exact .invoke (W.blind hstart) _ _ s
    · have hbody : (Value.arrowOf (.resumeChecked continuation)).apply (.of arguments) =
          (Action.ask continuation [answer]).bind Suspension.ensureHandled := by
        rcases hanswer with ⟨rfl, rfl⟩ | rfl <;> rfl
      rw [hbody]
      exact comes_under resume answer _ s
  now := by
    rintro _ ⟨K, hK, rfl⟩ tag resume s hs
    let continuation : Value := .arrowOf (.under (suspensionTable host) none resume)
    obtain ⟨B, hB, hbuilt⟩ := exists_implemented (.arrowOf (.nowOf host)) (W.blind rfl)
      rfl [continuation]
    obtain ⟨v, hv, htime⟩ := H.time hs.isOpen
    refine ⟨v, _, hv, ⟨fun v => (B v).bind K, hK.built hB, rfl⟩, (hbuilt K s).trans ?_⟩
    show Comes W (((Host.time host).bind fun t => Action.ask continuation [t]).bind _) s _ s
    rw [Action.bind_assoc]
    exact (Comes.of_traced htime _).trans (comes_under resume v _ s)
  perform _ h := h.elim

variable {effects : Effects} {L : Value → Prop}

/-- An operation that evaluates to its own answer comes to a leaf when it is resumed. -/
theorem comes_leaf (answer : Value) (C : Context) (s : Store) :
    Comes W ((Action.ask (.arrowOf .leaf) [answer]).bind C) s (C (.leaf 0 answer)) s :=
  .invoke (W.blind rfl) (.of [answer]) C s

/-- Waiting finishes exactly once. -/
theorem finishesOnce_wait {delay : Value} (hdelay : H.Accepts delay) (hL : L .nothing) :
    FinishesOnce H W effects L (Suspension.wait delay) := by
  intro enclosing henclosing C hC s hs
  obtain ⟨callback, K, -, hK, hbegin, hcalled⟩ :=
    henclosing.suspend hC 0 (.waitStart delay) (.arrowOf .leaf) rfl
  obtain ⟨t, hlater, hopen, hlists, htag, hperm⟩ := H.callLater (callback, []) hdelay hs.isOpen
  obtain ⟨x, hx⟩ := hK .nothing t
  have hregister : Comes W ((Suspension.wait delay).bind C) s (.done x) t :=
    (((Comes.of_traced (H.wait s hdelay) C).trans (hbegin s)).trans
      (Comes.of_traced hlater K)).trans hx
  refine .pause hregister (.of_registered hs htag hlists hopen hperm) (.refl _)
    (List.cons_ne_nil _ _) ?_
  intro before c after hsplit u hu
  obtain ⟨rfl, rfl, rfl⟩ := eq_of_singleton_split hsplit
  obtain ⟨D, hD, hcall⟩ := hcalled [] .nothing (.inl ⟨rfl, rfl⟩)
  exact .finish ((hcall u).trans (comes_leaf .nothing D u)) (.refl hu.stays) hD hL

/-- The question for the time finishes exactly once. -/
theorem finishesOnce_now (hL : ∀ v, H.Times v → L v) :
    FinishesOnce H W effects L (.done Suspension.now) := by
  intro enclosing henclosing C hC s hs
  obtain ⟨v, D, hv, hD, hrest⟩ := henclosing.now hC 0 (.arrowOf .leaf) s hs
  exact .finish (hrest.trans (comes_leaf v D s)) (.refl hs) hD (hL v hv)

end Suspending

end AlgebraicEffects
