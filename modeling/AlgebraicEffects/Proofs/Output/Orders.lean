import AlgebraicEffects.Proofs.Choice.Offers
import AlgebraicEffects.Proofs.Stacks.Runners

/-!
Three orders of output.

A program that only prints offers its messages in a row in front of its value (`Choices.spoken`). Where
an implementation resumes relative to its own action decides what becomes of the row. Given to a sink
before the rest is resumed, it is heard as it stands; gathered behind the rest, it ends up as a tuple
beside the value; emitted again behind the rest, it is the row of a program that prints in reverse
(`Offers.reversed`). Main statement: the three interpretations agree on the value and on the messages
(`outputs_agree`).
-/

set_option autoImplicit false

namespace AlgebraicEffects

open Output (printName)

variable {V : Type} {S : Scene V} {C : Course S} {L : Listener}

namespace Choices

/-- The messages in a row, and the value behind them. -/
def spoken (ms : List V) (v : V) : Choices V := ms.foldr .print (.leaf v)

theorem lead_spoken (ms : List V) (v : V) : (spoken ms v).lead = ms := by
  induction ms with
  | nil => rfl
  | cons m ms ih => exact congrArg (m :: ·) ih

/-- A message behind the value of a row comes last in the row. -/
theorem spoken_bind_print (ms : List V) (m v : V) :
    (spoken ms v).bind (fun u => .print m (.leaf u)) = spoken (ms ++ [m]) v := by
  induction ms with
  | nil => rfl
  | cons n ms ih => exact congrArg (Choices.print n) ih

end Choices

open Choices (spoken)

variable {ms said : List V} {v : V} {w : S.World} {e : Ending} {p : Value}

section Running

/-- It has returned a value that is seen so. -/
def Returns (v : V) (_ : S.World) (e : Ending) : Prop := ∃ x, e = .ok x ∧ S.see x = v

/-- A program that has ended as a leaf is run to what the leaf carries. -/
theorem tells_resulting (h : S.Shows w (.ok p) (.leaf v)) :
    Tells C L (Run.resulting p) w [] (Returns v) := by
  cases h with
  | @leaf _ x tag hlift hfit =>
    cases p with
    | operation => simp [Program.lift, Value.isProgram] at hlift
    | leaf tag u =>
      obtain ⟨-, rfl⟩ := Value.leaf.inj hlift
      exact .done ⟨u, rfl, rfl⟩
    | _ =>
      obtain ⟨-, rfl⟩ := Value.leaf.inj hlift
      exact .done ⟨_, rfl, rfl⟩

/-- A run is heard as its handlers are, and returns what the leaf carries at which they arrive. -/
theorem tells_run {handlers : List Value} {tag : Nat}
    (h : Tells C L (Handler.applyAll p handlers) w said fun z e => S.Shows z e (.leaf v)) :
    Tells C L (Run.run p (.tuple tag handlers) .nothing) w said (Returns v) := by
  rw [Run.run_eq, applyEach_tuple, ← List.append_nil said]
  refine Tells.bind (h.mono fun z e _ hleaf => ?_)
  obtain ⟨q, rfl⟩ : ∃ q, e = .ok q := by
    cases hleaf
    exact ⟨_, rfl⟩
  exact ⟨q, rfl, tells_resulting hleaf⟩

/-- Handlers in a row are applied in turn. -/
theorem Tells.applied_first {h : Value} {handlers : List Value} {more : List V}
    {Q : S.World → Ending → Prop}
    (hcall : Tells C L (Action.ask h [Program.lift p]) w said fun z e =>
      ∃ q, e = .ok q ∧ Tells C L (Handler.applyAll q handlers) z more Q) :
    Tells C L (Handler.applyAll p (h :: handlers)) w (said ++ more) Q := by
  rw [Handler.applyAll_cons]
  exact hcall.bind

end Running

namespace Output

/-- The table of the handler that emits messages again. -/
def reversal : Handler.Table := [(printName, .arrowOf .reemit)]

/-- The table of the handler that gathers messages. -/
def collection : Handler.Table := [(printName, .arrowOf (.gather false))]

end Output

section Printed

/-- Where the messages have been printed only the value is left. -/
theorem Decides.shows_of_spoken (h : Decides C L (spoken ms v) w e) : S.Shows w e (.leaf v) := by
  induction ms with
  | nil => exact h
  | cons m ms ih => exact ih h

/-- The sink is given the row, and the value is left. -/
theorem tells_printHandler {sink : Value} (hsink : Sink C L sink)
    (hp : Offers C L (spoken ms v) w (.ok p)) :
    Tells C L (Handler.applyAll p [Handler.ofFunctions [(printName, .emitTo sink)] none]) w ms
      fun z e => S.Shows z e (.leaf v) := by
  rw [← List.append_nil ms]
  refine .applied_first (.invoke (L.deaf_handler _ _ _) ?_)
  have hprinted := hp.lifted.printed hsink
  rw [Choices.lead_spoken] at hprinted
  refine hprinted.mono fun z e _ hlands => ?_
  obtain ⟨q, rfl, hq, hdecides⟩ := hlands
  refine ⟨q, rfl, ?_⟩
  rw [Handler.applyAll_nil, show Program.lift q = q from if_pos hq]
  exact .done hdecides.shows_of_spoken

end Printed

section Gathered

/-- A pair of this value and the tuple of these messages. -/
def Output.Pairs (S : Scene V) (v : V) (ms : List V) (pair : Value) : Prop :=
  ∃ x items, pair = .tuple 0 [x, .tuple 0 items] ∧ S.see x = v ∧ items.map S.see = ms

/-- It has ended as the program that carries such a pair. -/
def Gathers (v : V) (ms : List V) (_ : S.World) (e : Ending) : Prop :=
  ∃ pair, e = .ok (.leaf 0 pair) ∧ Output.Pairs S v ms pair

theorem Gathers.lands (h : Gathers v ms w e) : Lands (Gathers v ms) w e := by
  obtain ⟨pair, rfl, hpair⟩ := h
  exact ⟨_, rfl, rfl, pair, rfl, hpair⟩

/-- A message is put in front of those of a pair. -/
theorem tells_gathered {pair m : Value} (h : Output.Pairs S v ms pair) :
    Tells C L (Program.map (.leaf 0 pair) (.arrowOf (.gathered m))) w []
      (Gathers v (S.see m :: ms)) := by
  obtain ⟨x, items, rfl, hx, hitems⟩ := h
  refine .map_of_leaf rfl rfl (.ask rfl (.done ⟨_, rfl, _, rfl, x, m :: items, rfl, hx, ?_⟩))
  rw [List.map_cons, hitems]

/-- Nothing is heard under the handler that gathers, and the row ends up beside the value. -/
theorem tells_gather (hp : Offers C L (spoken ms v) w (.ok p)) :
    Tells C L (Handler.evaluate Output.collection (some (.arrowOf (.paired false))) p) w []
      (Gathers v ms) := by
  induction ms generalizing w p with
  | nil =>
    cases hp with
    | @leaf _ x tag hlift hfit =>
      rw [Handler.evaluate_transformed hlift]
      exact .map (.ask rfl (.done ⟨_, rfl, _, rfl, x, [], rfl, rfl, rfl⟩))
  | cons m ms ih =>
    obtain ⟨tag, x, resume, he, rfl, hrest⟩ := hp
    cases he
    rw [Handler.evaluate_handled rfl rfl]
    refine (Tells.build rfl rfl (.bind_silent ?_)).landed
    -- the rest is gathered first
    refine Tells.ask rfl (.bind_silent ((hrest w (C.refl w)).mono fun z e _ hc => ?_))
    obtain ⟨q, rfl⟩ := hc.exists_ok
    refine ⟨q, rfl, (ih hc).mono fun y e _ hgathers => ?_⟩
    obtain ⟨pair, rfl, hpair⟩ := hgathers
    exact ⟨_, rfl, (tells_gathered hpair).mono fun _ _ _ h => h.lands⟩

/-- Nothing is heard, and the messages are left beside the value. -/
theorem tells_collectPrintHandler (hp : Offers C L (spoken ms v) w (.ok p)) :
    Tells C L (Handler.applyAll p [Output.collectPrintHandler]) w [] (Gathers v ms) := by
  rw [← List.append_nil ([] : List V)]
  refine .applied_first (.invoke (L.deaf_handler _ _ _) ?_)
  refine (tells_gather hp.lifted).mono fun z e _ hgathers => ?_
  obtain ⟨pair, rfl, hpair⟩ := hgathers
  exact ⟨_, rfl, .done ⟨pair, rfl, hpair⟩⟩

end Gathered

section Reversed

/-- What prints a row is a program. -/
theorem Offers.lands_of_print {m : V} {c : Choices V} (h : Offers C L (.print m c) w e) :
    Lands (Offers C L (.print m c)) w e := by
  obtain ⟨tag, x, resume, rfl, hrest⟩ := id h
  exact ⟨_, rfl, rfl, h⟩

/-- A message that is emitted again keeps the value in front of it. -/
theorem leadsOn_reemitted (m : Value) (values : List V) :
    LeadsOn C L (.arrowOf (.reemitted m)) values (fun u => .print (S.see m) (.leaf u)) w := by
  intro u x _ hfit _
  refine .ask rfl (.done ⟨_, _, _, rfl, rfl, fun z hz => ?_⟩)
  refine .ask rfl (.bind_silent (.ask rfl (.done ⟨_, rfl, .graft_of_leaf rfl rfl (.ask rfl ?_)⟩)))
  refine .bind_silent (.ask rfl (.done ⟨x, rfl, .done ⟨_, rfl, ?_⟩⟩))
  exact .leaf rfl (C.fit hz hfit)

/-- Under the handler that emits messages again, a row becomes the reverse row. -/
theorem Offers.reversed (hp : Offers C L (spoken ms v) w (.ok p)) :
    Tells C L (Handler.evaluate Output.reversal none p) w []
      (Lands (Offers C L (spoken ms.reverse v))) := by
  induction ms generalizing w p with
  | nil =>
    cases hp with
    | leaf hlift hfit =>
      rw [Handler.evaluate_leaf hlift]
      exact .done ⟨_, rfl, rfl, .leaf rfl hfit⟩
  | cons m ms ih =>
    obtain ⟨tag, x, resume, he, rfl, hrest⟩ := hp
    cases he
    rw [Handler.evaluate_handled rfl rfl]
    refine .build rfl rfl (.bind_silent ?_)
    -- the rest is reversed first
    refine Tells.ask rfl (.bind_silent ((hrest w (C.refl w)).mono fun z e _ hc => ?_))
    obtain ⟨q, rfl⟩ := hc.exists_ok
    refine ⟨q, rfl, (ih hc).mono fun y e _ hreversed => ?_⟩
    obtain ⟨r, rfl, -, hr⟩ := hreversed
    have hgrafted := hr.graft rfl (leadsOn_reemitted x _)
    rw [Choices.spoken_bind_print, ← List.reverse_cons] at hgrafted
    refine ⟨r, rfl, hgrafted.mono fun _ _ _ h => ?_⟩
    cases hms : (S.see x :: ms).reverse with
    | nil => simp at hms
    | cons n ns =>
      rw [hms] at h
      exact h.lands_of_print

end Reversed

section Agreement

/-- Run with a sink, the program gives it the messages in order and returns its value. Gathered, they
are a tuple beside the value, in order. Emitted again before they reach the sink, they arrive in
reverse and the value is the same. -/
theorem outputs_agree {sink : Value} (hsink : Sink C L sink) (hp : Offers C L (spoken ms v) w (.ok p))
    (tag : Nat) :
    Tells C L ((Output.printHandler sink).bind fun h => Run.run p (.tuple tag [h]) .nothing) w ms
      (Returns v) ∧
    Tells C L (Run.run p (.tuple tag [Output.collectPrintHandler]) .nothing) w []
      (fun _ e => ∃ pair, e = .ok pair ∧ Output.Pairs S v ms pair) ∧
    Tells C L ((Output.printHandler sink).bind fun h =>
      Run.run p (.tuple tag [Output.reversePrintHandler, h]) .nothing) w ms.reverse (Returns v) := by
  rw [printHandler_eq hsink.callable]
  refine ⟨tells_run (tells_printHandler hsink hp), ?_, tells_run ?_⟩
  · rw [Run.run_eq, applyEach_tuple]
    refine .bind_silent ((tells_collectPrintHandler hp).mono fun z e _ hgathers => ?_)
    obtain ⟨pair, rfl, hpair⟩ := hgathers
    exact ⟨_, rfl, .done ⟨pair, rfl, hpair⟩⟩
  · rw [← List.nil_append ms.reverse]
    refine .applied_first (.invoke (L.deaf_handler _ _ _) ?_)
    refine hp.lifted.reversed.mono fun z e _ hreversed => ?_
    obtain ⟨q, rfl, -, hq⟩ := hreversed
    exact ⟨q, rfl, tells_printHandler hsink hq⟩

/-- Prints two messages in a row and ends with a number. -/
def counting : Value :=
  .operation 0 printName [.text "one"] (.arrowOf (.grafted (.arrowOf .leaf) (.arrowOf (.constant
    (.operation 0 printName [.text "two"] (.arrowOf (.grafted (.arrowOf .leaf) (.arrowOf (.constant
      (.leaf 0 (.int 3)))))))))))

theorem offers_counting (w : Store) :
    Offers Course.shapes .scripts (spoken [.text "one", .text "two"] (.int 3)) w (.ok counting) :=
  offers_print (S := Scene.shapes) rfl fun _ _ => offers_print (S := Scene.shapes) rfl fun _ _ =>
    Scene.Shows.leaf (S := Scene.shapes) (v := .leaf 0 (.int 3)) rfl trivial

theorem outputs_agree_counting :
    Tells Course.shapes .scripts ((Output.printHandler quietSink).bind fun h =>
      Run.run counting (.tuple 0 [h]) .nothing) Store.empty [.text "one", .text "two"]
      (Returns (.int 3)) ∧
    Tells Course.shapes .scripts (Run.run counting (.tuple 0 [Output.collectPrintHandler]) .nothing)
      Store.empty [] (fun _ e => ∃ pair, e = .ok pair ∧
        Output.Pairs Scene.shapes (.int 3) [.text "one", .text "two"] pair) ∧
    Tells Course.shapes .scripts ((Output.printHandler quietSink).bind fun h =>
      Run.run counting (.tuple 0 [Output.reversePrintHandler, h]) .nothing) Store.empty
      [.text "two", .text "one"] (Returns (.int 3)) :=
  outputs_agree sink_quietSink (offers_counting Store.empty) 0

end Agreement

end AlgebraicEffects
