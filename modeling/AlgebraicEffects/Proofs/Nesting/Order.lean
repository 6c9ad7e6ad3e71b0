import AlgebraicEffects.Proofs.Choice.Enumeration
import AlgebraicEffects.Proofs.Nesting.Explorations
import AlgebraicEffects.Proofs.State.Threading
import Mathlib.Data.List.Forall2

/-!
Nesting decides whether state is local or shared.

The handler of state forwards decisions and captures in what it forwards the state that it was in, and
the handler that enumerates forwards what is done to the state and resumes decisions one after the
other. So either of them rewrites what a program explores and leaves the rest to the other one
(`tells_threaded`, `tells_enumerated`). With state innermost every path has a state of its own, and
with the enumeration innermost one state runs through all paths (`nesting_decides`).
-/

set_option autoImplicit false

namespace AlgebraicEffects

open Choice (decideName failName)
open State (getName putName)

variable {V A B : Type} {S : Scene V} {C : Course S} {L : Listener} {Carries : Value → A → Prop}

/-- The value is a pair of what is carried and of a state. -/
def Paired (S : Scene V) (Carries : Value → A → Prop) (x : Value) (found : A × V) : Prop :=
  ∃ v σ, x = .tuple 0 [v, σ] ∧ Carries v found.1 ∧ S.see σ = found.2

/-- The value is a list of what is carried. -/
def Collected (Carries : Value → A → Prop) (x : Value) (found : List A) : Prop :=
  ∃ items, x = .list 0 items ∧ List.Forall₂ Carries items found

namespace State

/-- Supplying a state calls the function that the program carries with it. -/
theorem tells_supply {f : Function} {σ : Value} {w : S.World} {Q : S.World → Ending → Prop}
    (hf : f.isInternal = true)
    (h : Tells C L (f.apply (.of [σ])) w [] fun z e => ∃ v, e = .ok v ∧ Q z (.ok (Program.lift v))) :
    Tells C L (supply σ (.leaf 0 (.arrowOf f))) w [] Q := by
  have hlift (v : Value) : Program.lift (Program.lift v) = Program.lift v :=
    if_pos (Program.isProgram_lift v)
  have hspread : Tells C L
      (Program.graft (.leaf 0 (.list 0 [σ])) (.arrowOf (.spreading (.arrowOf f)))) w []
      fun z e => ∃ v, e = .ok v ∧ Q z (.ok (Program.lift v)) := by
    refine .graft_of_leaf rfl rfl (.ask rfl (Tells.ask hf (h.mono fun z e _ he => ?_)))
    obtain ⟨v, rfl, hv⟩ := he
    exact ⟨v, rfl, _, rfl, (hlift v).symm ▸ hv⟩
  have hlist : Tells C L (Program.collectAll [.leaf 0 σ]) w []
      fun z e => ∃ q, e = .ok q ∧
        Tells C L (Program.graft q (.arrowOf (.spreading (.arrowOf f)))) z []
          fun z e => ∃ v, e = .ok v ∧ Q z (.ok (Program.lift v)) := by
    show Tells C L (Program.graft (.leaf 0 σ) (.arrowOf (.collecting [] []))) w [] _
    exact .graft_of_leaf rfl rfl (.ask rfl (.done ⟨_, rfl, _, rfl, hspread⟩))
  have hfunction : Tells C L (Action.ask (.arrowOf (.applying [.leaf 0 σ])) [.arrowOf f]) w []
      fun z e => ∃ v, e = .ok v ∧ Q z (.ok (Program.lift v)) :=
    .ask rfl hlist.bind_silent
  show Tells C L (Program.graft (.leaf 0 (.arrowOf f)) (.arrowOf (.applying [.leaf 0 σ]))) w [] Q
  exact .graft_of_leaf rfl rfl hfunction

/-- What is left of a program under the handler when it is supplied a state. -/
def passed (σ program : Value) : Action Value := (carrier program).bind (supply σ)

theorem passed_of_other {name : String} (hget : name ≠ getName) (hput : name ≠ putName) (σ : Value)
    (tag : Nat) (params : List Value) (resume : Value) :
    passed σ (.operation tag name params resume) =
      .done (.operation 0 name params
        (.arrowOf (.grafted (continued resume) (.arrowOf (.applying [.leaf 0 σ]))))) := by
  rw [passed, carrier_of_other hget hput]
  rfl

/-- Reading the state is left to the function that is supplied it. -/
theorem tells_carrier_of_get (tag : Nat) (resume : Value) (w : S.World) :
    Tells C L (carrier (.operation tag getName [] resume)) w []
      fun z e => z = w ∧ e = .ok (.leaf 0 (.arrowOf (.getAt (continued resume)))) :=
  ⟨_, _, w, .call (.done _ _) (.done _ _), C.refl w, L.heard_of_deaf (L.deaf _ rfl) _ _, rfl, rfl⟩

/-- Replacing the state is left to the function that is supplied the old one. -/
theorem tells_carrier_of_put (tag : Nat) (x resume : Value) (w : S.World) :
    Tells C L (carrier (.operation tag putName [x] resume)) w []
      fun z e => z = w ∧ e = .ok (.leaf 0 (.arrowOf (.putAt x (continued resume)))) :=
  ⟨_, _, w, .call (.done _ _) (.done _ _), C.refl w, L.heard_of_deaf (L.deaf _ rfl) _ _, rfl, rfl⟩

/-- A program that is carried to a function from the state goes on as the function does. -/
theorem tells_passed {f : Function} {σ p : Value} {w : S.World} {Q : S.World → Ending → Prop}
    (hf : f.isInternal = true)
    (hcarried : Tells C L (carrier p) w [] fun z e => z = w ∧ e = .ok (.leaf 0 (.arrowOf f)))
    (h : Tells C L (f.apply (.of [σ])) w [] (Lands Q)) : Tells C L (passed σ p) w [] (Lands Q) := by
  refine .bind_silent (hcarried.mono fun z e _ he => ?_)
  obtain ⟨rfl, rfl⟩ := he
  refine ⟨_, rfl, tells_supply hf (h.mono fun z e _ he => ?_)⟩
  obtain ⟨q, rfl, hq, hQ⟩ := he
  have hlift : Program.lift q = q := if_pos hq
  exact ⟨q, rfl, q, congrArg Except.ok hlift, hq, hlift.symm ▸ hQ⟩

/-- The continuation of an operation under the handler is supplied the state. -/
theorem tells_continued {resume a σ : Value} {w : S.World} {Q : S.World → Ending → Prop}
    {arguments : Arguments Value}
    (hbody : (continued resume).apply arguments = (Action.ask resume [a]).bind carrier)
    (h : Tells C L ((Action.ask resume [a]).bind (passed σ)) w [] Q) :
    Tells C L ((Action.invoke (continued resume) arguments).bind (supply σ)) w [] Q := by
  refine .invoke_bind (L.deaf 0 rfl) ?_
  rw [hbody, Action.bind_assoc]
  exact h

/-- With a state, the program goes on in it to its leaves and decisions. -/
theorem tells_threaded {c : Exploration V A} {w : S.World} {p σ : Value}
    (hp : Explores C L Carries c w (.ok p)) (hσ : S.Fit w σ)
    (hc : c.threaded (S.see σ) ≠ .unknown) :
    Tells C L (passed σ p) w []
      (Lands (Explores C L (Paired S Carries) (c.threaded (S.see σ)))) := by
  induction c generalizing w p σ with
  | leaf a =>
    obtain ⟨_, tag, x, he, hlift, hx⟩ := hp
    cases he
    rw [passed, carrier, Handler.evaluate_transformed hlift]
    have hfinished : Tells C L ((Function.finishAt true x).apply (.of [σ])) w [] fun z e =>
        ∃ v, e = .ok v ∧ Lands (Explores C L (Paired S Carries) (.leaf (a, S.see σ))) z
          (.ok (Program.lift v)) :=
      .done ⟨_, rfl, _, rfl, rfl, _, _, _, rfl, rfl, x, σ, rfl, hx, rfl⟩
    exact .bind_silent (.map (.ask rfl (.done ⟨_, rfl, _, rfl, tells_supply rfl hfinished⟩)))
  | fail =>
    obtain ⟨tag, resume, he⟩ := hp
    cases he
    rw [passed_of_other (by decide) (by decide)]
    exact .done ⟨_, rfl, rfl, _, _, rfl⟩
  | unknown => exact absurd rfl hc
  | decide t f iht ihf =>
    obtain ⟨tag, resume, he, htrue, hfalse⟩ := hp
    cases he
    rw [passed_of_other (by decide) (by decide)]
    refine .done ⟨_, rfl, rfl, _, _, rfl, fun hc u hu => ?_, fun hc u hu => ?_⟩
    · refine .ask rfl (tells_continued rfl ?_)
      exact Explores.onward (fun h => htrue h u hu) (Exploration.ne_unknown_of_threaded hc)
        fun z q hz hq => (iht hq (C.fit (C.trans hu hz) hσ) hc).landed
    · refine .ask rfl (tells_continued rfl ?_)
      exact Explores.onward (fun h => hfalse h u hu) (Exploration.ne_unknown_of_threaded hc)
        fun z q hz hq => (ihf hq (C.fit (C.trans hu hz) hσ) hc).landed
  | get next ih =>
    obtain ⟨tag, resume, he, hrest⟩ := hp
    cases he
    refine tells_passed rfl (tells_carrier_of_get tag resume w) (tells_continued rfl ?_)
    exact Explores.onward (hrest w σ (C.refl w) hσ) (Exploration.ne_unknown_of_threaded hc)
      fun z q hz hq => ih _ hq (C.fit hz hσ) hc
  | put s rest ih =>
    obtain ⟨tag, x, resume, he, rfl, hx, hrest⟩ := hp
    cases he
    refine tells_passed rfl (tells_carrier_of_put tag x resume w) (tells_continued rfl ?_)
    exact Explores.onward (fun h => hrest h w (C.refl w)) (Exploration.ne_unknown_of_threaded hc)
      fun z q hz hq => ih hq (C.fit hz hx) hc

end State

namespace Choice

/-- The continuation of an operation under the handler that enumerates. -/
def listed (resume : Value) : Value :=
  .arrowOf (.under enumeration (some (.arrowOf .singleton)) resume)

/-- What is gathered behind the false answer is put behind what is gathered. -/
theorem leadsTo_appended {x : Value} {xs : List A} {w : S.World} (hx : Collected Carries x xs) :
    LeadsTo C L (Collected Carries) (Collected Carries) (.arrowOf (.mapped (.arrowOf (.appended x))))
      (fun ys => .leaf (xs ++ ys)) w := by
  rintro u y ys - ⟨items', rfl, hys⟩ -
  obtain ⟨items, rfl, hxs⟩ := hx
  refine .ask rfl (.bind_silent (.ask rfl (.done ⟨_, rfl, .done ?_⟩)))
  exact ⟨_, _, _, rfl, rfl, _, rfl, List.rel_append hxs hys⟩

/-- Under the handler that enumerates, both answers of each decision are followed, and what is done to
the state on the way is left. -/
theorem tells_enumerated {c : Exploration V A} {w : S.World} {p : Value}
    (hp : Explores C L Carries c w (.ok p)) (hc : c.enumerated ≠ .unknown) :
    Tells C L (Handler.evaluate enumeration (some (.arrowOf .singleton)) p) w []
      (Lands (Explores C L (Collected Carries) c.enumerated)) := by
  induction c generalizing w p with
  | leaf a =>
    obtain ⟨_, tag, x, he, hlift, hx⟩ := hp
    cases he
    rw [Handler.evaluate_transformed hlift]
    refine .map (.ask rfl (.done ⟨_, rfl, _, rfl, rfl, ?_⟩))
    exact ⟨_, _, _, rfl, rfl, _, rfl, .cons hx .nil⟩
  | fail =>
    obtain ⟨tag, resume, he⟩ := hp
    cases he
    rw [Handler.evaluate_handled rfl rfl]
    exact .build rfl rfl (.done ⟨_, rfl, rfl, _, _, _, rfl, rfl, _, rfl, .nil⟩)
  | unknown => exact absurd rfl hc
  | decide t f iht ihf =>
    obtain ⟨tag, resume, he, htrue, hfalse⟩ := hp
    cases he
    rw [Handler.evaluate_handled rfl rfl]
    have hfirst := Exploration.ne_unknown_of_bind hc
    have hsecond : LeadsTo C L (Collected Carries) (Collected Carries)
        (.arrowOf (.enumerateSecond (listed resume)))
        (fun xs => f.enumerated.bind fun ys => .leaf (xs ++ ys)) w := by
      intro u x xs hu hx hc
      have hf := Exploration.ne_unknown_of_bind hc
      have hlisted : Tells C L (Action.ask (listed resume) [.bool false]) u []
          (Explores C L (Collected Carries) f.enumerated) :=
        .ask rfl (Explores.onward (fun h => hfalse h u hu) (Exploration.ne_unknown_of_enumerated hf)
          fun z q _ hq => (ihf hq hf).landed)
      exact .ask rfl (Explores.onward (fun _ => hlisted) hf
        fun z q _ hq => (hq.graft rfl (leadsTo_appended hx) hc).landed)
    have hlisted : Tells C L (Action.ask (listed resume) [.bool true]) w []
        (Explores C L (Collected Carries) t.enumerated) :=
      .ask rfl (Explores.onward (fun h => htrue h w (C.refl w))
        (Exploration.ne_unknown_of_enumerated hfirst) fun z q _ hq => (iht hq hfirst).landed)
    exact .build rfl rfl (Explores.onward (fun _ => hlisted) hfirst
      fun z q hz hq => hq.graft rfl (hsecond.later hz) hc)
  | get next ih =>
    obtain ⟨tag, resume, he, hrest⟩ := hp
    cases he
    rw [Handler.evaluate_forwarded rfl]
    refine .done ⟨_, rfl, rfl, _, _, rfl, fun u x hu hx hc => ?_⟩
    exact .ask rfl (Explores.onward (hrest u x hu hx) (Exploration.ne_unknown_of_enumerated hc)
      fun z q _ hq => (ih _ hq hc).landed)
  | put s rest ih =>
    obtain ⟨tag, x, resume, he, hx, hfit, hrest⟩ := hp
    cases he
    rw [Handler.evaluate_forwarded rfl]
    refine .done ⟨_, rfl, rfl, _, _, _, rfl, hx, hfit, fun hc u hu => ?_⟩
    exact .ask rfl (Explores.onward (fun h => hrest h u hu)
      (Exploration.ne_unknown_of_enumerated hc) fun z q _ hq => (ih hq hc).landed)

end Choice

/-- The run has ended as the program of a value that is so. -/
def Carried (P : Value → Prop) (_ : S.World) (e : Ending) : Prop :=
  ∃ tag x, e = .ok (.leaf tag x) ∧ P x

/-- An exploration that is a leaf is carried by a program that is a leaf. -/
theorem carried_of_lands {a : A} {w : S.World} {e : Ending}
    (h : Lands (Explores C L Carries (.leaf a)) w e) : Carried (S := S) (Carries · a) w e := by
  obtain ⟨p, rfl, hprogram, q, tag, x, he, hlift, hx⟩ := h
  cases he
  rw [Program.lift, if_pos hprogram] at hlift
  exact ⟨tag, x, congrArg Except.ok hlift, hx⟩

/-- Nesting decides whether state is local or shared. With the handler of state innermost, all choices
of the program are the list of its leaves, true in front, each with the state that its own path has
made of the initial one. With the handler that enumerates innermost, there is one pair of the list of
leaves and of a state, which has run through all branches, true in front, failed ones included. -/
theorem nesting_decides {c : Exploration V A} {w : S.World} {p initial : Value}
    (hp : Explores C L Carries c w (.ok p)) (hfit : S.Fit w initial) :
    (∀ found, c.locally (S.see initial) = some found →
      Tells C L ((State.run p initial (.bool true)).bind fun q => Action.ask Choice.allChoices [q]) w []
        (Carried (Collected (Paired S Carries) · found))) ∧
    ∀ found, c.shared (S.see initial) = some found →
      Tells C L ((Action.ask Choice.allChoices [p]).bind fun q => State.run q initial (.bool true)) w []
        (Carried (Paired S (Collected Carries) · found)) := by
  refine ⟨fun found hfound => ?_, fun found hfound => ?_⟩
  · have hboth := Exploration.enumerated_threaded hfound
    have hknown : (c.threaded (S.see initial)).enumerated ≠ .unknown := by
      rw [hboth]
      exact Exploration.leaf_ne_unknown found
    have hc := Exploration.ne_unknown_of_enumerated hknown
    have hrun : Tells C L (State.run p initial (.bool true)) w []
        (Explores C L (Paired S Carries) (c.threaded (S.see initial))) :=
      (State.tells_threaded hp hfit hc).landed
    refine Explores.onward (fun _ => hrun) hc fun z q _ hq => ?_
    refine .invoke (L.deaf_handler _ _ _) ((Choice.tells_enumerated hq hknown).mono fun _ _ _ h => ?_)
    rw [hboth] at h
    exact carried_of_lands h
  · have hboth := Exploration.threaded_enumerated hfound
    have hknown : c.enumerated.threaded (S.see initial) ≠ .unknown := by
      rw [hboth]
      exact Exploration.leaf_ne_unknown found
    have hc := Exploration.ne_unknown_of_threaded hknown
    have hall : Tells C L (Action.ask Choice.allChoices [p]) w []
        (Explores C L (Collected Carries) c.enumerated) :=
      .invoke (L.deaf_handler _ _ _) (Choice.tells_enumerated hp hc).landed
    refine Explores.onward (fun _ => hall) hc fun z q hz hq => ?_
    refine (State.tells_threaded hq (C.fit hz hfit) hknown).mono fun _ _ _ h => ?_
    rw [hboth] at h
    exact carried_of_lands h

section Sharing

/-- What goes on, once an operation is answered, as the function says. -/
private def onwards (next : Function) : Value :=
  .arrowOf (.grafted (.arrowOf .leaf) (.arrowOf next))

theorem tells_onwards {next : Function} {c : Exploration V A} {u : S.World} {x q : Value}
    (hnext : next.isInternal = true) (hbody : next.apply (.of [x]) = .done q)
    (hq : Explores C L Carries c u (.ok q)) :
    Tells C L (Action.ask (onwards next) [x]) u [] (Explores C L Carries c) := by
  refine .ask rfl (.bind_silent (.ask rfl (.done ⟨_, rfl, .graft_of_leaf rfl rfl (.ask hnext ?_)⟩)))
  rw [hbody]
  exact .done ⟨q, rfl, hq.lifted⟩

/-- The program that chooses between two explores both. -/
theorem explores_choose {t f : Exploration V A} {first second p : Value} {w : S.World}
    (hp : Choice.choose first second = .done p)
    (ht : ∀ u, C.Later w u → Explores C L Carries t u (.ok first))
    (hf : ∀ u, C.Later w u → Explores C L Carries f u (.ok second)) :
    Explores C L Carries (.decide t f) w (.ok p) := by
  cases hp
  exact ⟨_, _, rfl, fun _ u hu => tells_onwards rfl rfl (ht u hu),
    fun _ u hu => tells_onwards rfl rfl (hf u hu)⟩

/-- The program that replaces the state and goes on explores what it goes on with. -/
theorem explores_put {rest : Exploration V A} {x q p : Value} {w : S.World}
    (hp : Program.graft (State.put x) (.arrowOf (.constant q)) = .done p) (hx : S.Fit w x)
    (hq : ∀ u, C.Later w u → Explores C L Carries rest u (.ok q)) :
    Explores C L Carries (.put (S.see x) rest) w (.ok p) := by
  cases hp
  exact ⟨_, _, _, rfl, rfl, hx, fun _ u hu => tells_onwards rfl rfl (hq u hu)⟩

/-- The program that reads the state explores it. -/
theorem explores_get (w : S.World) :
    Explores C L (fun x v => S.see x = v) (.get .leaf) w (.ok State.get) :=
  ⟨_, _, rfl, fun _ x _ _ _ => .ask rfl (.done ⟨_, 0, x, rfl, rfl, rfl⟩)⟩

/-- Replaces the state and reads it in one branch, and replaces it and fails in another one. The last
branch reads it. -/
def rewriting : Value :=
  let failing := .operation 0 putName [.int 2] (onwards (.constant Choice.fail))
  let branching := .operation 0 decideName [] (onwards (.chosen State.get failing))
  .operation 0 decideName [] (onwards
    (.chosen (.operation 0 putName [.int 1] (onwards (.constant branching))) State.get))

def rewritingExploration : Exploration Shape Shape :=
  .decide (.put (.int 1) (.decide (.get .leaf) (.put (.int 2) .fail))) (.get .leaf)

theorem explores_rewriting (w : Store) :
    Explores Course.shapes .scripts (fun x v => Scene.shapes.see x = v) rewritingExploration w
      (.ok rewriting) := by
  refine explores_choose (S := Scene.shapes) rfl (fun u _ => ?_) fun u _ => explores_get u
  refine explores_put (S := Scene.shapes) rfl trivial fun u _ => ?_
  refine explores_choose (S := Scene.shapes) rfl (fun u _ => explores_get u) fun u _ => ?_
  exact explores_put (S := Scene.shapes) rfl trivial fun u _ => ⟨_, _, rfl⟩

/-- With a state of its own the last branch reads what it started from, and with the one state what
the failed branch has put. -/
theorem nesting_decides_rewriting :
    Tells Course.shapes .scripts ((State.run rewriting (.int 0) (.bool true)).bind fun q =>
      Action.ask Choice.allChoices [q]) Store.empty []
      (Carried (S := Scene.shapes) (Collected (Paired Scene.shapes fun x v => x.shape = v) ·
        [(.int 1, .int 1), (.int 0, .int 0)])) ∧
    Tells Course.shapes .scripts ((Action.ask Choice.allChoices [rewriting]).bind fun q =>
      State.run q (.int 0) (.bool true)) Store.empty []
      (Carried (S := Scene.shapes) (Paired Scene.shapes (Collected fun x v => x.shape = v) ·
        ([.int 1, .int 2], .int 2))) := by
  have hfit : Scene.shapes.Fit Store.empty (.int 0) := trivial
  obtain ⟨hlocal, hshared⟩ := nesting_decides (L := .scripts) (explores_rewriting Store.empty) hfit
  exact ⟨hlocal _ rfl, hshared _ rfl⟩

end Sharing

end AlgebraicEffects
