import AlgebraicEffects.Proofs.Choice.Offers
import AlgebraicEffects.Proofs.Shapes

/-!
Enumeration is the list interpretation of choice.

The handler that enumerates resumes each decision twice and joins what it gets. On a program that
offers finitely many choices it ends with the list of all solutions, true in front, and everything
that is printed on the way to them is heard once and in that order
(`allChoices_lists_solutions`).
-/

set_option autoImplicit false

namespace AlgebraicEffects

open Choice (decideName failName)
open Output (printName)

variable {V : Type} {S : Scene V} {C : Course S} {L : Listener}

/-- The run has ended as the program of a list of these values. -/
def Listed (vs : List V) (_ : S.World) (e : Ending) : Prop :=
  ∃ items, e = .ok (.leaf 0 (.list 0 items)) ∧ items.map S.see = vs

theorem Listed.lands {vs : List V} {w : S.World} {e : Ending} (h : Listed (S := S) vs w e) :
    Lands (Listed vs) w e := by
  obtain ⟨items, rfl, hitems⟩ := h
  exact ⟨_, rfl, rfl, items, rfl, hitems⟩

namespace Choice

/-- The table of the handler that enumerates. -/
def enumeration : Handler.Table :=
  [(decideName, .arrowOf .enumerate), (failName, .arrowOf .noSolutions)]

/-- Joins the list that a program carries to one that has been captured. -/
theorem tells_appended (xs ys : List Value) (w : S.World) :
    Tells C L (Program.map (.leaf 0 (.list 0 ys)) (.arrowOf (.appended (.list 0 xs)))) w []
      (Listed (xs.map S.see ++ ys.map S.see)) :=
  .map_of_leaf rfl rfl (.ask rfl (.done ⟨_, rfl, _, rfl, List.map_append⟩))

/-- Under the handler that enumerates, the messages that are left are heard and the solutions are
listed. -/
theorem tells_enumeration {c : Choices V} {w : S.World} {p : Value}
    (hp : Decides C L c w (.ok p)) :
    Tells C L (Handler.evaluate enumeration (some (.arrowOf .singleton)) p) w c.rest.messages
      (Listed c.solutions) := by
  have hbelow {c : Choices V} {w u : S.World} {resume a : Value}
      (h : Resumable C L resume a w c.lead (Decides C L c)) (hu : C.Later w u)
      (ih : ∀ z p, Decides C L c z (.ok p) →
        Tells C L (Handler.evaluate enumeration (some (.arrowOf .singleton)) p) z c.rest.messages
          (Listed c.solutions)) :
      Tells C L (Action.ask (.arrowOf (.under enumeration (some (.arrowOf .singleton)) resume)) [a]) u
        c.messages (Listed c.solutions) := by
    rw [c.messages_eq]
    refine .under ((h u hu).mono fun z e _ hc => ?_)
    obtain ⟨p, rfl⟩ := hc.exists_ok
    exact ⟨p, rfl, ih z p hc⟩
  induction c generalizing w p with
  | leaf v =>
    cases hp with
    | leaf hlift hfit =>
      rw [Handler.evaluate_transformed hlift]
      exact .map (.ask rfl (.done ⟨_, rfl, _, rfl, rfl⟩))
  | fail =>
    obtain ⟨tag, resume, he⟩ := hp
    cases he
    rw [Handler.evaluate_handled rfl rfl]
    exact (Tells.build rfl rfl (.done (Listed.lands ⟨_, rfl, rfl⟩))).mono fun _ _ _ h => h.holds
  | decide t f iht ihf =>
    obtain ⟨tag, resume, he, htrue, hfalse⟩ := hp
    cases he
    rw [Handler.evaluate_handled rfl rfl]
    have henumerate : Tells C L ((Value.arrowOf .enumerate).apply
        (.of [.arrowOf (.under enumeration (some (.arrowOf .singleton)) resume)])) w
        (t.messages ++ f.messages) (Listed (t.solutions ++ f.solutions)) := by
      refine Tells.bind ((hbelow htrue (C.refl w) fun _ _ => iht).mono fun z e hz hfirst => ?_)
      obtain ⟨xs, rfl, hxs⟩ := hfirst
      refine ⟨_, rfl, .graft_of_leaf rfl rfl (.ask rfl ?_)⟩
      rw [← List.append_nil f.messages]
      refine Tells.bind ((hbelow hfalse hz fun _ _ => ihf).mono fun y e _ hsecond => ?_)
      obtain ⟨ys, rfl, hys⟩ := hsecond
      refine ⟨_, rfl, (tells_appended xs ys y).mono fun _ e _ h => ?_⟩
      obtain ⟨items, rfl, hitems⟩ := h
      exact ⟨_, rfl, items, rfl, hxs ▸ hys ▸ hitems⟩
    exact (Tells.build rfl rfl (henumerate.mono fun _ _ _ h => h.lands)).mono fun _ _ _ h => h.holds
  | print m c ih => exact ih hp

/-- The handler that enumerates, called on what offers the decisions. -/
theorem tells_allChoices {c : Choices V} {w : S.World} {p : Value} (hp : Decides C L c w (.ok p)) :
    Tells C L (Action.ask allChoices [p]) w c.rest.messages (Listed c.solutions) :=
  .invoke (L.deaf_handler _ _ _) (tells_enumeration hp)

/-- All choices of a program are the list of its solutions, true in front. They commute with
sequencing. With the handler that prints innermost, the sink is given each message once, true in
front and each before those behind it, also where the branch fails. -/
theorem allChoices_lists_solutions :
    (∀ (c : Choices V) (w : S.World) (p : Value), c.messages = [] → Offers C L c w (.ok p) →
      Tells C L (Action.ask allChoices [p]) w [] (Listed c.solutions)) ∧
    (∀ (c : Choices V) (d : V → Choices V) (w : S.World) (p f : Value), c.messages = [] →
      (∀ v ∈ c.solutions, (d v).messages = []) → f.isCallable = true → Offers C L c w (.ok p) →
      LeadsOn C L f c.solutions d w →
      Tells C L ((Program.graft p f).bind fun q => Action.ask allChoices [q]) w []
        (Listed (c.solutions.flatMap fun v => (d v).solutions))) ∧
    ∀ (c : Choices V) (w : S.World) (p sink : Value), Sink C L sink → Offers C L c w (.ok p) →
      Tells C L ((Output.printHandler sink).bind fun h => Handler.applyAll p [h, allChoices]) w
        c.messages (Listed c.solutions) := by
  have hsilent {c : Choices V} {w : S.World} {p : Value} (hc : c.messages = [])
      (hp : Offers C L c w (.ok p)) :
      Tells C L (Action.ask allChoices [p]) w [] (Listed c.solutions) := by
    have hrest : c.rest.messages = [] := by
      rw [c.messages_eq] at hc
      exact (List.append_eq_nil_iff.1 hc).2
    rw [← hrest]
    exact tells_allChoices (hp.decides hc)
  refine ⟨fun c w p => hsilent, fun c d w p f hc hd hcallable hp hf => ?_, fun c w p sink hsink hp => ?_⟩
  · refine .bind_silent ((hp.graft hcallable hf).mono fun z e _ hq => ?_)
    obtain ⟨q, rfl⟩ := hq.exists_ok
    refine ⟨q, rfl, ?_⟩
    rw [← Choices.solutions_bind]
    exact hsilent (Choices.messages_bind hc hd) hq
  · rw [c.messages_eq]
    exact hp.printed_then hsink fun z q hprogram hq =>
      .applied hprogram ((tells_allChoices hq).mono fun _ _ _ h => h.lands)

theorem allChoices_lists_solutions_branching :
    Tells Course.shapes .scripts (Action.ask allChoices [oneOrFail]) Store.empty []
      (Listed [.int 1]) ∧
    Tells Course.shapes .scripts ((Program.graft oneOrFail (.arrowOf (.constant oneOrFail))).bind
      fun q => Action.ask allChoices [q]) Store.empty [] (Listed [.int 1]) ∧
    Tells Course.shapes .scripts ((Output.printHandler quietSink).bind fun h =>
      Handler.applyAll forking [h, allChoices]) Store.empty [.text "fails", .text "again"]
      (Listed [.int 1]) := by
  obtain ⟨hlisted, hsequenced, hprinted⟩ :=
    allChoices_lists_solutions (S := Scene.shapes) (C := Course.shapes) (L := .scripts)
  refine ⟨hlisted _ Store.empty _ rfl (offers_oneOrFail _), ?_,
    hprinted _ Store.empty _ _ sink_quietSink (offers_forking _)⟩
  exact hsequenced _ (fun _ => .decide (.leaf (.int 1)) .fail) Store.empty _ _ rfl (fun _ _ => rfl) rfl
    (offers_oneOrFail _) fun u _ _ _ _ => .ask rfl (.done (offers_oneOrFail u))

end Choice

end AlgebraicEffects
