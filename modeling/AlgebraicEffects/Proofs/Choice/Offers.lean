import AlgebraicEffects.Proofs.Choice.Trees
import AlgebraicEffects.Proofs.Listening
import AlgebraicEffects.Proofs.Shapes

/-!
Programs that offer choices.

A program offers a tree of choices when it is at the root of the tree and its continuation, resumed in
any world from now on and any number of times, comes to the parts of the tree (`Offers`). Sequencing
programs sequences their trees (`Offers.graft`). Under the handler that prints, the messages of the
tree are heard when they are reached, and what is left offers the decisions alone (`Decides`).
-/

set_option autoImplicit false

namespace AlgebraicEffects

open Action (Traced)
open Choice (decideName failName)
open Output (printName)

variable {V : Type} {S : Scene V} {C : Course S} {L : Listener}

/-- What a run has ended as offers these choices, in all worlds from now on. Nothing is heard when it
is resumed. -/
def Offers (C : Course S) (L : Listener) : Choices V → S.World → Ending → Prop
  | .leaf v, w, e => S.Shows w e (.leaf v)
  | .fail, _, e => ∃ tag resume, e = .ok (.operation tag failName [] resume)
  | .decide t f, w, e => ∃ tag resume, e = .ok (.operation tag decideName [] resume) ∧
      Resumable C L resume (.bool true) w [] (Offers C L t) ∧
      Resumable C L resume (.bool false) w [] (Offers C L f)
  | .print m c, w, e => ∃ tag x resume, e = .ok (.operation tag printName [x] resume) ∧
      S.see x = m ∧ Resumable C L resume .nothing w [] (Offers C L c)

/-- What a run has ended as offers the decisions of these choices. The messages are heard: those in
front of the first decision have been, and the others are when a decision is answered. -/
def Decides (C : Course S) (L : Listener) : Choices V → S.World → Ending → Prop
  | .leaf v, w, e => S.Shows w e (.leaf v)
  | .fail, _, e => ∃ tag resume, e = .ok (.operation tag failName [] resume)
  | .decide t f, w, e => ∃ tag resume, e = .ok (.operation tag decideName [] resume) ∧
      Resumable C L resume (.bool true) w t.lead (Decides C L t) ∧
      Resumable C L resume (.bool false) w f.lead (Decides C L f)
  | .print _ c, w, e => Decides C L c w e

section Shown

variable {c : Choices V} {w u : S.World} {e : Ending}

theorem Offers.exists_ok (h : Offers C L c w e) : ∃ p, e = .ok p := by
  cases c with
  | leaf v =>
    cases h
    exact ⟨_, rfl⟩
  | fail =>
    obtain ⟨tag, resume, rfl⟩ := h
    exact ⟨_, rfl⟩
  | decide t f =>
    obtain ⟨tag, resume, rfl, -⟩ := h
    exact ⟨_, rfl⟩
  | print m c =>
    obtain ⟨tag, x, resume, rfl, -⟩ := h
    exact ⟨_, rfl⟩

theorem Decides.exists_ok (h : Decides C L c w e) : ∃ p, e = .ok p := by
  induction c with
  | leaf v =>
    cases h
    exact ⟨_, rfl⟩
  | fail =>
    obtain ⟨tag, resume, rfl⟩ := h
    exact ⟨_, rfl⟩
  | decide t f =>
    obtain ⟨tag, resume, rfl, -⟩ := h
    exact ⟨_, rfl⟩
  | print m c ih => exact ih h

/-- A program for its value makes no difference. -/
theorem Offers.lifted {v : Value} (h : Offers C L c w (.ok v)) :
    Offers C L c w (.ok (Program.lift v)) := by
  rcases Replay.lift_cases v with ⟨tag, name, params, resume, rfl⟩ | ⟨tag, x, hv⟩
  · exact h
  · rw [hv]
    cases c with
    | leaf v =>
      cases h with
      | leaf hx hfit =>
        rw [hv] at hx
        cases hx
        exact .leaf rfl hfit
    | fail =>
      obtain ⟨_, _, he⟩ := h
      cases he
      cases hv
    | decide t f =>
      obtain ⟨_, _, he, -⟩ := h
      cases he
      cases hv
    | print m c =>
      obtain ⟨_, _, _, he, -⟩ := h
      cases he
      cases hv

/-- What offers choices without messages offers decisions alone. -/
theorem Offers.decides (h : Offers C L c w e) (hc : c.messages = []) : Decides C L c w e := by
  induction c generalizing w e with
  | leaf v => exact h
  | fail => exact h
  | decide t f iht ihf =>
    obtain ⟨ht, hf⟩ := List.append_eq_nil_iff.1 hc
    have hlead {b : Choices V} (hb : b.messages = []) : b.lead = [] := by
      rw [Choices.messages_eq] at hb
      exact (List.append_eq_nil_iff.1 hb).1
    obtain ⟨tag, resume, he, htrue, hfalse⟩ := h
    refine ⟨tag, resume, he, fun u hu => ?_, fun u hu => ?_⟩
    · rw [hlead ht]
      exact (htrue u hu).mono fun _ _ _ h => iht h ht
    · rw [hlead hf]
      exact (hfalse u hu).mono fun _ _ _ h => ihf h hf
  | print m c ih => cases hc

end Shown

section Trees

/-- The tree of a program has these choices. -/
inductive Tree.Holds (S : Scene V) : Tree V → Choices V → Prop where
  | leaf {t : Tree V} {v : V} : t [] (.leaf v) → Holds S t (.leaf v)
  | fail {t : Tree V} : t [] (.operation failName []) → Holds S t .fail
  | decide {t : Tree V} {a b : Choices V} : t [] (.operation decideName []) →
      Holds S (t.below (S.see (.bool true))) a → Holds S (t.below (S.see (.bool false))) b →
      Holds S t (.decide a b)
  | print {t : Tree V} {m : V} {c : Choices V} : t [] (.operation printName [m]) →
      Holds S (t.below (S.see .nothing)) c → Holds S t (.print m c)

theorem Tree.Holds.exists_node {t : Tree V} {c : Choices V} (h : t.Holds S c) : ∃ n, t [] n := by
  cases h <;> exact ⟨_, by assumption⟩

/-- A program that unfolds to a tree with these choices offers them. -/
theorem Unfolds.offers {Idle : S.World → List Call → S.World → Prop}
    (hidle : ∀ u cs z, Idle u cs z → L.heard S cs = [])
    (hbool : ∀ u b, S.Fit u (.bool b)) (hnothing : ∀ u, S.Fit u .nothing) {w : S.World} {e : Ending}
    {t : Tree V} {c : Choices V} (h : Unfolds C Idle w e t) (hc : t.Holds S c) :
    Offers C L c w e := by
  have hresumes {w : S.World} {t : Tree V} {tag : Nat} {name : String} {params : List Value}
      {resume a : Value} {c : Choices V}
      (h : Unfolds C Idle w (.ok (.operation tag name params resume)) t) (ha : ∀ u, S.Fit u a)
      (hc : (t.below (S.see a)).Holds S c)
      (ih : ∀ z o, Unfolds C Idle z o (t.below (S.see a)) → Offers C L c z o) :
      Resumable C L resume a w [] (Offers C L c) := by
    intro u hu
    obtain ⟨n, hn⟩ := hc.exists_node
    obtain ⟨cs, o, z, htr, hz, hi, hbelow⟩ := h.resume hu (ha u) hn
    exact ⟨cs, o, z, htr, hz, hidle u cs z hi, ih z o hbelow⟩
  induction hc generalizing w e with
  | leaf ht => exact h.shows ht
  | fail ht =>
    obtain ⟨tag, params, resume, rfl, hparams⟩ := (h.shows ht).exists_operation
    obtain rfl := List.map_eq_nil_iff.1 hparams
    exact ⟨tag, resume, rfl⟩
  | decide ht ha hb iha ihb =>
    obtain ⟨tag, params, resume, rfl, hparams⟩ := (h.shows ht).exists_operation
    obtain rfl := List.map_eq_nil_iff.1 hparams
    exact ⟨tag, resume, rfl, hresumes h (fun u => hbool u true) ha fun _ _ => iha,
      hresumes h (fun u => hbool u false) hb fun _ _ => ihb⟩
  | print ht hc ih =>
    obtain ⟨tag, params, resume, rfl, hparams⟩ := (h.shows ht).exists_operation
    obtain ⟨x, rfl, hx⟩ := List.map_eq_singleton_iff.1 hparams
    exact ⟨tag, x, resume, rfl, hx, hresumes h hnothing hc fun _ _ => ih⟩

end Trees

section Sequencing

/-- The function leads from these values to programs that offer choices. -/
def LeadsOn (C : Course S) (L : Listener) (next : Value) (values : List V) (d : V → Choices V)
    (w : S.World) : Prop :=
  ∀ u x, C.Later w u → S.Fit u x → S.see x ∈ values →
    Tells C L (Action.ask next [x]) u [] (Offers C L (d (S.see x)))

theorem LeadsOn.mono {next : Value} {values fewer : List V} {d : V → Choices V} {w u : S.World}
    (h : LeadsOn C L next values d w) (hu : C.Later w u) (hfewer : fewer ⊆ values) :
    LeadsOn C L next fewer d u := fun z x hz hx hmem => h z x (C.trans hu hz) hx (hfewer hmem)

/-- Sequencing programs sequences the choices that they offer. -/
theorem Offers.graft {c : Choices V} {d : V → Choices V} {w : S.World} {p next : Value}
    (hp : Offers C L c w (.ok p)) (hcallable : next.isCallable = true)
    (hnext : LeadsOn C L next c.solutions d w) :
    Tells C L (Program.graft p next) w [] (Offers C L (c.bind d)) := by
  have hresumes {c : Choices V} {w : S.World} {resume a : Value} {values : List V}
      (h : Resumable C L resume a w [] (Offers C L c)) (hnext : LeadsOn C L next values d w)
      (hvalues : c.solutions ⊆ values)
      (ih : ∀ z p, Offers C L c z (.ok p) → LeadsOn C L next c.solutions d z →
        Tells C L (Program.graft p next) z [] (Offers C L (c.bind d))) :
      Resumable C L (.arrowOf (.grafted resume next)) a w [] (Offers C L (c.bind d)) := by
    intro u hu
    refine .ask rfl (.bind_silent ((h u hu).mono fun z e hz hc => ?_))
    obtain ⟨p, rfl⟩ := hc.exists_ok
    exact ⟨p, rfl, ih z p hc (hnext.mono (C.trans hu hz) hvalues)⟩
  induction c generalizing w p with
  | leaf v =>
    cases hp with
    | leaf hlift hfit =>
      have hled := hnext w _ (C.refl w) hfit (List.mem_singleton_self _)
      refine .graft_of_leaf hlift hcallable (hled.mono fun z e _ hd => ?_)
      obtain ⟨q, rfl⟩ := hd.exists_ok
      exact ⟨q, rfl, hd.lifted⟩
  | fail =>
    obtain ⟨tag, resume, he⟩ := hp
    cases he
    rw [graft_operation hcallable]
    exact .done ⟨_, _, rfl⟩
  | decide t f iht ihf =>
    obtain ⟨tag, resume, he, htrue, hfalse⟩ := hp
    cases he
    rw [graft_operation hcallable]
    exact .done ⟨_, _, rfl, hresumes htrue hnext (List.subset_append_left _ _) fun _ _ => iht,
      hresumes hfalse hnext (List.subset_append_right _ _) fun _ _ => ihf⟩
  | print m c ih =>
    obtain ⟨tag, x, resume, he, hx, hrest⟩ := hp
    cases he
    rw [graft_operation hcallable]
    exact .done ⟨_, _, _, rfl, hx, hresumes hrest hnext (List.Subset.refl _) fun _ _ => ih⟩

/-- The program that chooses between two offers both. -/
theorem offers_choose {a b : Choices V} {first second p : Value} {w : S.World}
    (hp : Choice.choose first second = .done p) (ha : ∀ u, C.Later w u → Offers C L a u (.ok first))
    (hb : ∀ u, C.Later w u → Offers C L b u (.ok second)) : Offers C L (.decide a b) w (.ok p) := by
  have hchosen {c : Choices V} {d : Bool} {p : Value} {u : S.World} (hu : C.Later w u)
      (hp : ∀ u, C.Later w u → Offers C L c u (.ok p))
      (hbody : (Function.chosen first second).apply (.of [.bool d]) = .done p) :
      Tells C L (Action.ask (.arrowOf (.grafted (.arrowOf .leaf) (.arrowOf (.chosen first second))))
        [.bool d]) u [] (Offers C L c) := by
    refine .ask rfl (.bind_silent (.ask rfl (.done ⟨_, rfl, .graft_of_leaf rfl rfl (.ask rfl ?_)⟩)))
    rw [hbody]
    exact .done ⟨p, rfl, (hp u hu).lifted⟩
  cases hp
  exact ⟨_, _, rfl, fun u hu => hchosen hu ha rfl, fun u hu => hchosen hu hb rfl⟩

/-- The program that prints and goes on offers the message in front. -/
theorem offers_print {c : Choices V} {message q p : Value} {w : S.World}
    (hp : Program.graft (Output.print message) (.arrowOf (.constant q)) = .done p)
    (hq : ∀ u, C.Later w u → Offers C L c u (.ok q)) :
    Offers C L (.print (S.see message) c) w (.ok p) := by
  cases hp
  refine ⟨_, _, _, rfl, rfl, fun u hu => ?_⟩
  refine .ask rfl (.bind_silent (.ask rfl (.done ⟨_, rfl, .graft_of_leaf rfl rfl (.ask rfl ?_)⟩)))
  exact .done ⟨q, rfl, (hq u hu).lifted⟩

end Sequencing

section Printing

/-- The handler for a sink that can be called. -/
theorem printHandler_eq {sink : Value} (h : sink.isCallable = true) :
    Output.printHandler sink = .done (Handler.ofFunctions [(printName, .emitTo sink)] none) := by
  simp only [Output.printHandler, h, if_true]
  rfl

/-- Under the handler that prints, the messages in front of the first decision are heard, in order,
and what is left offers the decisions. -/
theorem Offers.printed {sink : Value} (hsink : Sink C L sink) {c : Choices V} {w : S.World}
    {p : Value} (hp : Offers C L c w (.ok p)) :
    Tells C L (Handler.evaluate [(printName, .arrowOf (.emitTo sink))] none p) w c.lead
      (Lands (Decides C L c)) := by
  have hbelow {c : Choices V} {w u : S.World} {resume a : Value}
      (h : Resumable C L resume a w [] (Offers C L c)) (hu : C.Later w u)
      (ih : ∀ z p, Offers C L c z (.ok p) →
        Tells C L (Handler.evaluate [(printName, .arrowOf (.emitTo sink))] none p) z c.lead
          (Lands (Decides C L c))) :
      Tells C L ((Action.ask resume [a]).bind
        (Handler.evaluate [(printName, .arrowOf (.emitTo sink))] none)) u c.lead
        (Lands (Decides C L c)) := by
    refine .bind_silent ((h u hu).mono fun z e _ hc => ?_)
    obtain ⟨p, rfl⟩ := hc.exists_ok
    exact ⟨p, rfl, ih z p hc⟩
  induction c generalizing w p with
  | leaf v =>
    cases hp with
    | leaf hlift hfit =>
      rw [Handler.evaluate_leaf hlift]
      exact .done ⟨_, rfl, rfl, .leaf rfl hfit⟩
  | fail =>
    obtain ⟨tag, resume, he⟩ := hp
    cases he
    rw [Handler.evaluate_forwarded rfl]
    exact .done ⟨_, rfl, rfl, _, _, rfl⟩
  | decide t f iht ihf =>
    obtain ⟨tag, resume, he, htrue, hfalse⟩ := hp
    cases he
    rw [Handler.evaluate_forwarded rfl]
    refine .done ⟨_, rfl, rfl, _, _, rfl, fun u hu => ?_, fun u hu => ?_⟩
    · exact .ask rfl ((hbelow htrue hu fun _ _ => iht).mono fun _ _ _ h => h.holds)
    · exact .ask rfl ((hbelow hfalse hu fun _ _ => ihf).mono fun _ _ _ h => h.holds)
  | print m c ih =>
    obtain ⟨tag, x, resume, he, rfl, hrest⟩ := hp
    cases he
    rw [Handler.evaluate_handled rfl rfl]
    refine .build rfl rfl ?_
    show Tells C L _ w ([S.see x] ++ c.lead) _
    refine Tells.bind ((hsink.tells w x).mono fun z e hz hr => ?_)
    obtain ⟨r, rfl⟩ := hr
    exact ⟨r, rfl, .ask rfl (hbelow hrest hz fun _ _ => ih)⟩

/-- With the handler that prints innermost, what is heard in front of the first decision comes first,
and what is done next, later on, finds the decisions. -/
theorem Offers.printed_later {sink : Value} (hsink : Sink C L sink) {c : Choices V} {w : S.World}
    {p : Value} (hp : Offers C L c w (.ok p)) {k : Value → Action Value} {said : List V}
    {Q : S.World → Ending → Prop} (hk : ∀ z q, C.Later w z → q.isProgram = true →
      Decides C L c z (.ok q) → Tells C L (k q) z said Q) :
    Tells C L ((Output.printHandler sink).bind fun g => (Action.ask g [Program.lift p]).bind k) w
      (c.lead ++ said) Q := by
  rw [printHandler_eq hsink.callable]
  show Tells C L ((Action.ask _ [Program.lift p]).bind k) w _ Q
  have hprinted : Tells C L
      (Action.ask (Handler.ofFunctions [(printName, .emitTo sink)] none) [Program.lift p]) w c.lead
      (Lands (Decides C L c)) :=
    .invoke (L.deaf_handler _ _ _) (hp.lifted.printed hsink)
  refine Tells.bind (hprinted.mono fun z e hz h => ?_)
  obtain ⟨q, rfl, hprogram, hq⟩ := h
  exact ⟨q, rfl, hk z q hz hprogram hq⟩

/-- The same where it does not matter when it is done. -/
theorem Offers.printed_then {sink : Value} (hsink : Sink C L sink) {c : Choices V} {w : S.World}
    {p : Value} (hp : Offers C L c w (.ok p)) {k : Value → Action Value} {said : List V}
    {Q : S.World → Ending → Prop}
    (hk : ∀ z q, q.isProgram = true → Decides C L c z (.ok q) → Tells C L (k q) z said Q) :
    Tells C L ((Output.printHandler sink).bind fun g => (Action.ask g [Program.lift p]).bind k) w
      (c.lead ++ said) Q :=
  hp.printed_later hsink fun z q _ => hk z q

end Printing

section Instances

/-- Hears the functions of scripts. -/
def Listener.scripts : Listener where
  hears
    | .function _ (.closure _ _ _ _) => true
    | _ => false
  deaf tag f hf := by
    cases f with
    | closure => cases hf
    | _ => rfl
  deaf_handler _ _ _ := rfl

/-- A sink that does nothing with its message. -/
def quietSink : Value := .function 1000 (.closure "sink" ⟨["message"], none⟩ (.literal .nothing) [])

/-- It gives its message an identity. -/
theorem traced_quietSink (s : Store) (message : Value) :
    Traced (quietSink.apply (.of [message])) s [] (.ok .nothing) (s.identifyAll (.of [message])).2 := by
  have hbound := traced_identifyAll s (.of [message])
  have hone : ∃ m, (s.identifyAll (.of [message])).1 = .of [m] := by
    unfold Store.identifyAll
    split
    · exact ⟨message, rfl⟩
    · exact ⟨_, rfl⟩
  obtain ⟨m, hm⟩ := hone
  rw [hm] at hbound
  have hscope : Traced (Params.scope ⟨["message"], none⟩ [] (.of [message])) s []
      (.ok (Scope.set "message" m [])) _ :=
    hbound.bind (.done _ _)
  exact hscope.bind (.done _ _)

theorem sink_quietSink : Sink Course.shapes .scripts quietSink where
  callable := rfl
  hears := rfl
  receives w message := ⟨[], .nothing, _, traced_quietSink w message, trivial, rfl⟩

/-- What goes on, once an operation is answered, as the function says. -/
def onceAnswered (next : Function) : Value :=
  .arrowOf (.grafted (.arrowOf .leaf) (.arrowOf next))

/-- Chooses between one and a failure. -/
def oneOrFail : Value := .operation 0 decideName [] (onceAnswered (.chosen (.leaf 0 (.int 1)) Choice.fail))

theorem offers_oneOrFail (w : Store) :
    Offers Course.shapes .scripts (.decide (.leaf (.int 1)) .fail) w (.ok oneOrFail) :=
  offers_choose (S := Scene.shapes) rfl
    (fun _ _ => Scene.Shows.leaf (S := Scene.shapes) (v := .leaf 0 (.int 1)) rfl trivial)
    fun _ _ => ⟨_, _, rfl⟩

/-- Prints before it goes on. -/
def printingBefore (message : String) (p : Value) : Value :=
  .operation 0 printName [.text message] (onceAnswered (.constant p))

/-- Chooses between a branch that fails and one that chooses again. Both print. -/
def forking : Value :=
  .operation 0 decideName [] (onceAnswered
    (.chosen (printingBefore "fails" Choice.fail) (printingBefore "again" oneOrFail)))

/-- The choices that it offers. -/
def forkingChoices : Choices Shape :=
  .decide (.print (.text "fails") .fail)
    (.print (.text "again") (.decide (.leaf (.int 1)) .fail))

theorem offers_forking (w : Store) :
    Offers Course.shapes .scripts forkingChoices w (.ok forking) := by
  refine offers_choose (S := Scene.shapes) rfl (fun u _ => ?_) fun u _ => ?_
  · exact offers_print (S := Scene.shapes) rfl fun _ _ => ⟨_, _, rfl⟩
  · exact offers_print (S := Scene.shapes) rfl fun z _ => offers_oneOrFail z

end Instances

end AlgebraicEffects
