import AlgebraicEffects.Proofs.Choice.Enumeration

/-!
Backtracking is sound, complete and lazy.

The handler that backtracks resumes each decision with false and, where a failure comes of it, with
true. So nested decisions build nested handlers of failures, and a failure is caught by the innermost
one whose decision has another answer left. On a program that offers finitely many choices the search
ends with the first solution, false in front, or fails when there is none, and nothing behind that
solution is resumed (`backtrack_finds_solution`).
-/

set_option autoImplicit false

namespace AlgebraicEffects

open Choice (decideName failName)
open Output (printName)

variable {V : Type} {S : Scene V} {C : Course S} {L : Listener}

/-- The run has ended as the leaf that was found, or as an unhandled failure. -/
def Found (found : Option V) (w : S.World) (e : Ending) : Prop :=
  match found with
  | some v => S.Shows w e (.leaf v)
  | none => ∃ tag resume, e = .ok (.operation tag failName [] resume)

/-- The run has ended as the leaf that was found, or as the leaf of nothing. -/
def Picked (found : Option V) (w : S.World) (e : Ending) : Prop :=
  match found with
  | some v => S.Shows w e (.leaf v)
  | none => e = .ok (.leaf 0 .nothing)

namespace Choice

/-- The table of the handler that backtracks. -/
def backtracking : Handler.Table := [(decideName, .arrowOf .tryBoth)]

/-- A failure is replaced by what resuming with true finds; what has been found is left. -/
theorem tells_fallBack {found other : Option V} {w : S.World} {q resume : Value} {said : List V}
    (hq : Found (S := S) found w (.ok q))
    (hother : found = none → Tells C L (Action.ask resume [.bool true]) w said (Lands (Found other))) :
    Tells C L (Handler.evaluate [(failName, .arrowOf (.fallBack resume))] none q) w
      (if found.isNone then said else []) (Lands (Found (found.or other))) := by
  cases found with
  | some v =>
    cases hq with
    | leaf hlift hfit =>
      rw [Handler.evaluate_leaf hlift]
      exact .done ⟨_, rfl, rfl, .leaf rfl hfit⟩
  | none =>
    obtain ⟨tag, k, he⟩ := hq
    cases he
    rw [Handler.evaluate_handled rfl rfl]
    exact .build rfl rfl (hother rfl)

/-- Under the handler that backtracks, the search is heard as far as it goes. -/
theorem tells_backtracking {c : Choices V} {w : S.World} {p : Value}
    (hp : Decides C L c w (.ok p)) :
    Tells C L (Handler.evaluate backtracking none p) w c.rest.search.1
      (Lands (Found c.search.2)) := by
  have hbelow {c : Choices V} {w u : S.World} {resume a : Value}
      (h : Resumable C L resume a w c.lead (Decides C L c)) (hu : C.Later w u)
      (ih : ∀ z p, Decides C L c z (.ok p) →
        Tells C L (Handler.evaluate backtracking none p) z c.rest.search.1
          (Lands (Found c.search.2))) :
      Tells C L (Action.ask (.arrowOf (.under backtracking none resume)) [a]) u c.search.1
        (Lands (Found c.search.2)) := by
    rw [show c.search.1 = c.lead ++ c.rest.search.1 from congrArg Prod.fst c.search_eq]
    refine .under ((h u hu).mono fun z e _ hc => ?_)
    obtain ⟨p, rfl⟩ := hc.exists_ok
    exact ⟨p, rfl, ih z p hc⟩
  induction c generalizing w p with
  | leaf v =>
    cases hp with
    | leaf hlift hfit =>
      rw [Handler.evaluate_leaf hlift]
      exact .done ⟨_, rfl, rfl, .leaf rfl hfit⟩
  | fail =>
    obtain ⟨tag, resume, he⟩ := hp
    cases he
    rw [Handler.evaluate_forwarded rfl]
    exact .done ⟨_, rfl, rfl, _, _, rfl⟩
  | decide t f iht ihf =>
    obtain ⟨tag, resume, he, htrue, hfalse⟩ := hp
    cases he
    rw [Handler.evaluate_handled rfl rfl]
    refine .build rfl rfl ?_
    show Tells C L _ w (Choices.decide t f).search.1 _
    rw [Choices.search_decide]
    refine Tells.bind ((hbelow hfalse (C.refl w) fun _ _ => ihf).mono fun z e hz hfirst => ?_)
    obtain ⟨q, rfl, -, hq⟩ := hfirst
    exact ⟨q, rfl, tells_fallBack hq fun _ => hbelow htrue hz fun _ _ => iht⟩
  | print m c ih => exact ih hp

/-- The handler that backtracks, called on what offers the decisions. -/
theorem tells_backtrack {c : Choices V} {w : S.World} {p : Value} (hp : Decides C L c w (.ok p)) :
    Tells C L (Action.ask backtrack [p]) w c.rest.search.1 (Lands (Found c.search.2)) :=
  .invoke (L.deaf_handler _ _ _) (tells_backtracking hp)

/-- The first solution of what offers the decisions. -/
theorem tells_firstSolution {c : Choices V} {w : S.World} {p : Value}
    (hp : Decides C L c w (.ok p)) :
    Tells C L (firstSolution p) w c.rest.search.1 (Picked c.search.2) := by
  rw [← List.append_nil c.rest.search.1]
  refine Tells.bind ((tells_backtracking hp).mono fun z e _ hfound => ?_)
  obtain ⟨q, rfl, -, hq⟩ := hfound
  refine ⟨q, rfl, ?_⟩
  cases hsearch : c.search.2 with
  | some v =>
    rw [hsearch] at hq
    cases hq with
    | leaf hlift hfit =>
      rw [Handler.evaluate_leaf hlift]
      exact .done (.leaf rfl hfit)
  | none =>
    rw [hsearch] at hq
    obtain ⟨tag, resume, he⟩ := hq
    cases he
    rw [Handler.evaluate_handled rfl rfl]
    exact (Tells.build rfl rfl (.done ⟨_, rfl, rfl, rfl⟩)).mono fun _ _ _ h => h.holds

/-- Backtracking ends with the first solution, false in front, or with an unhandled failure if there
is none; the first solution is that one or nothing. It is the last solution that enumeration lists.
With the handler that prints innermost, the sink is given the messages on the way to it, each once,
and no other. -/
theorem backtrack_finds_solution :
    (∀ (c : Choices V) (w : S.World) (p : Value), c.messages = [] → Offers C L c w (.ok p) →
      Tells C L (Action.ask backtrack [p]) w [] (Found c.search.2) ∧
      Tells C L (firstSolution p) w [] (Picked c.search.2) ∧
      ∃ listed, Tells C L (Action.ask allChoices [p]) w [] (Listed listed) ∧
        c.search.2 = listed.getLast? ∧ (c.search.2 = none ↔ listed = [])) ∧
    ∀ (c : Choices V) (w : S.World) (p sink : Value), Sink C L sink → Offers C L c w (.ok p) →
      Tells C L ((Output.printHandler sink).bind fun h => Handler.applyAll p [h, backtrack]) w
        c.search.1 (Found c.search.2) ∧
      Tells C L ((Output.printHandler sink).bind fun h =>
        (Action.ask h [Program.lift p]).bind firstSolution) w c.search.1 (Picked c.search.2) := by
  refine ⟨fun c w p hc hp => ?_, fun c w p sink hsink hp => ?_⟩
  · have hdecides := hp.decides hc
    have hrest : c.rest.messages = [] := by
      rw [c.messages_eq] at hc
      exact (List.append_eq_nil_iff.1 hc).2
    have hsilent := Choices.search_fst_of_messages hrest
    have hback := tells_backtrack hdecides
    have hfirst := tells_firstSolution hdecides
    have hall := tells_allChoices hdecides
    rw [hsilent] at hback hfirst
    rw [hrest] at hall
    exact ⟨hback.mono fun _ _ _ h => h.holds, hfirst, c.solutions, hall, c.search_snd,
      c.search_snd_eq_none_iff⟩
  · rw [show c.search.1 = c.lead ++ c.rest.search.1 from congrArg Prod.fst c.search_eq]
    exact ⟨hp.printed_then hsink fun z q hprogram hq => .applied hprogram (tells_backtrack hq),
      hp.printed_then hsink fun z q _ hq => tells_firstSolution hq⟩

theorem backtrack_finds_solution_branching :
    Tells Course.shapes .scripts (Action.ask backtrack [oneOrFail]) Store.empty []
      (Found (some (.int 1))) ∧
    Tells Course.shapes .scripts (firstSolution oneOrFail) Store.empty [] (Picked (some (.int 1))) ∧
    Tells Course.shapes .scripts ((Output.printHandler quietSink).bind fun h =>
      Handler.applyAll forking [h, backtrack]) Store.empty [.text "again"]
      (Found (some (.int 1))) := by
  obtain ⟨hsilent, hprinted⟩ :=
    backtrack_finds_solution (S := Scene.shapes) (C := Course.shapes) (L := .scripts)
  obtain ⟨hback, hfirst, -⟩ := hsilent _ Store.empty _ rfl (offers_oneOrFail _)
  exact ⟨hback, hfirst, (hprinted _ Store.empty _ _ sink_quietSink (offers_forking _)).1⟩

end Choice

end AlgebraicEffects
