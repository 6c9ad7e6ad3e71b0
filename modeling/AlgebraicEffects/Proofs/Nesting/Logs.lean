import AlgebraicEffects.Proofs.Nesting.Chronicles
import AlgebraicEffects.Proofs.Nesting.Order

/-!
Nesting decides whether logs are kept apart or merged.

The handler that gathers messages forwards decisions and puts each message in front of what comes of
the rest of its path, and the handler that enumerates forwards messages and resumes decisions one after
the other. So either of them rewrites the chronicle of a program and leaves the rest to the other one
(`tells_gathered_log`, `tells_enumerated_log`). With the log innermost every path has a log of its own,
and with the enumeration innermost there is one log of all paths (`logs_apart_or_merged`).
-/

set_option autoImplicit false

namespace AlgebraicEffects

open Choice (decideName failName)
open Log (logName)

variable {V A : Type} {S : Scene V} {C : Course S} {L : Listener} {Carries : Value → A → Prop}

/-- The value is a pair of what is carried and of the tuple of what has been logged. -/
def Logged (S : Scene V) (Carries : Value → A → Prop) (x : Value) (found : A × List V) : Prop :=
  ∃ v items, x = .tuple 0 [v, .tuple 0 items] ∧ Carries v found.1 ∧ items.map S.see = found.2

namespace Log

/-- The table of the handler that gathers messages. -/
def collection : Handler.Table := [(logName, .arrowOf (.gather true))]

/-- What goes on, once it is answered, under the handler that gathers messages. -/
def collected (resume : Value) : Value :=
  .arrowOf (.under collection (some (.arrowOf (.paired true))) resume)

/-- A message is put in front of those that have been gathered. -/
theorem tells_noted {m x : Value} {found : A × List V} (hx : Logged S Carries x found)
    (w : S.World) :
    Tells C L (Action.ask (.arrowOf (.mapped (.arrowOf (.gathered m)))) [x]) w []
      (Chronicles C L (Logged S Carries) (.noted (S.see m) found)) := by
  obtain ⟨v, items, rfl, hv, hitems⟩ := hx
  refine .ask rfl (.bind_silent (.ask rfl (.done ⟨_, rfl, .done ⟨_, _, _, rfl, rfl, ?_⟩⟩)))
  exact ⟨v, m :: items, rfl, hv, congrArg (S.see m :: ·) hitems⟩

/-- Under the handler that gathers messages, what is logged on a path ends up at its leaf, and the
decisions are left. -/
theorem tells_gathered_log {c : Chronicle V A} {w : S.World} {p : Value}
    (hp : Chronicles C L Carries c w (.ok p)) :
    Tells C L (Handler.evaluate collection (some (.arrowOf (.paired true))) p) w []
      (Lands (Chronicles C L (Logged S Carries) c.gathered)) := by
  induction c generalizing w p with
  | leaf a =>
    obtain ⟨_, tag, x, he, hlift, hx⟩ := hp
    cases he
    rw [Handler.evaluate_transformed hlift]
    refine .map (.ask rfl (.done ⟨_, rfl, _, rfl, rfl, ?_⟩))
    exact ⟨_, _, _, rfl, rfl, x, [], rfl, hx, rfl⟩
  | fail =>
    obtain ⟨tag, resume, he⟩ := hp
    cases he
    rw [Handler.evaluate_forwarded rfl]
    exact .done ⟨_, rfl, rfl, _, _, rfl⟩
  | decide t f iht ihf =>
    obtain ⟨tag, resume, he, htrue, hfalse⟩ := hp
    cases he
    rw [Handler.evaluate_forwarded rfl]
    exact .done ⟨_, rfl, rfl, _, _, rfl, Chronicles.resumed rfl rfl htrue fun _ _ _ => iht,
      Chronicles.resumed rfl rfl hfalse fun _ _ _ => ihf⟩
  | log m rest ih =>
    obtain ⟨tag, x, resume, he, rfl, hrest⟩ := hp
    cases he
    rw [Handler.evaluate_handled rfl rfl]
    -- The message is kept until the rest of the path has been gathered.
    have hgathered : Tells C L (Action.ask (collected resume) []) w []
        (Chronicles C L (Logged S Carries) rest.gathered) :=
      .ask rfl (Chronicles.onward (hrest w (C.refl w)) fun _ _ _ hq => (ih hq).landed)
    refine .build rfl rfl (Chronicles.onward hgathered fun z q _ hq => ?_)
    exact hq.graft rfl fun u _ _ _ hx => tells_noted hx u

end Log

namespace Choice

/-- What is gathered behind the answer false is put behind what is gathered. -/
theorem tells_collected {u : S.World} {x y : Value} {xs ys : List A} (hx : Collected Carries x xs)
    (hy : Collected Carries y ys) :
    Tells C L (Action.ask (.arrowOf (.mapped (.arrowOf (.appended x)))) [y]) u []
      (Chronicles C L (Collected Carries) (.leaf (xs ++ ys))) := by
  obtain ⟨items, rfl, hxs⟩ := hx
  obtain ⟨items', rfl, hys⟩ := hy
  refine .ask rfl (.bind_silent (.ask rfl (.done ⟨_, rfl, .done ⟨_, _, _, rfl, rfl, ?_⟩⟩)))
  exact ⟨_, rfl, List.rel_append hxs hys⟩

/-- Under the handler that enumerates, both answers of each decision are followed, and what is logged on
the way is left. -/
theorem tells_enumerated_log {c : Chronicle V A} {w : S.World} {p : Value}
    (hp : Chronicles C L Carries c w (.ok p)) :
    Tells C L (Handler.evaluate enumeration (some (.arrowOf .singleton)) p) w []
      (Lands (Chronicles C L (Collected Carries) c.enumerated)) := by
  induction c generalizing w p with
  | leaf a =>
    obtain ⟨_, tag, x, he, hlift, hx⟩ := hp
    cases he
    rw [Handler.evaluate_transformed hlift]
    refine .map (.ask rfl (.done ⟨_, rfl, _, rfl, rfl, ?_⟩))
    exact ⟨_, _, _, rfl, rfl, _, rfl, .cons hx .nil⟩
  | fail =>
    obtain ⟨tag, resume, he⟩ := hp
    cases he
    rw [Handler.evaluate_handled rfl rfl]
    exact .build rfl rfl (.done ⟨_, rfl, rfl, _, _, _, rfl, rfl, _, rfl, .nil⟩)
  | decide t f iht ihf =>
    obtain ⟨tag, resume, he, htrue, hfalse⟩ := hp
    cases he
    rw [Handler.evaluate_handled rfl rfl]
    have hlisted : Resumable C L (listed resume) (.bool true) w []
        (Chronicles C L (Collected Carries) t.enumerated) :=
      Chronicles.resumed rfl rfl htrue fun _ _ _ => iht
    have hlisted' : Resumable C L (listed resume) (.bool false) w []
        (Chronicles C L (Collected Carries) f.enumerated) :=
      Chronicles.resumed rfl rfl hfalse fun _ _ _ => ihf
    -- The leaves behind the answer false come behind those that true has led to.
    have hsecond (u : S.World) (x : Value) (xs : List A) (hu : C.Later w u)
        (hx : Collected Carries x xs) :
        Tells C L (Action.ask (.arrowOf (.enumerateSecond (listed resume))) [x]) u []
          (Chronicles C L (Collected Carries) (f.enumerated.bind fun ys => .leaf (xs ++ ys))) :=
      .ask rfl (Chronicles.onward (hlisted' u hu) fun _ _ _ hq =>
        (hq.graft rfl fun _ _ _ _ hy => tells_collected hx hy).landed)
    refine .build rfl rfl (Chronicles.onward (hlisted w (C.refl w)) fun z q hz hq => ?_)
    exact hq.graft rfl fun u x xs hu hx => hsecond u x xs (C.trans hz hu) hx
  | log m rest ih =>
    obtain ⟨tag, x, resume, he, hx, hrest⟩ := hp
    cases he
    rw [Handler.evaluate_forwarded rfl]
    exact .done ⟨_, rfl, rfl, _, _, _, rfl, hx,
      Chronicles.resumed rfl rfl hrest fun _ _ _ => ih⟩

end Choice

/-- A chronicle that is a leaf is carried by a program that is a leaf. -/
theorem Chronicles.carried {a : A} {w : S.World} {e : Ending}
    (h : Lands (Chronicles C L Carries (.leaf a)) w e) : Carried (S := S) (Carries · a) w e := by
  obtain ⟨p, rfl, hprogram, q, tag, x, he, hlift, hx⟩ := h
  cases he
  rw [Program.lift, if_pos hprogram] at hlift
  exact ⟨tag, x, congrArg Except.ok hlift, hx⟩

/-- Nesting decides whether logs are kept apart or merged. With the handler that gathers messages
innermost, all choices of the program are the list of its leaves, true in front, each with the messages
of its own path, in order. With the handler that enumerates innermost, there is one pair of the list of
leaves and of the messages of all paths, true in front and each before those behind it, those of failed
paths included. -/
theorem logs_apart_or_merged {c : Chronicle V A} {w : S.World} {p : Value}
    (hp : Chronicles C L Carries c w (.ok p)) :
    Tells C L ((Action.ask Log.writerHandler [p]).bind fun q => Action.ask Choice.allChoices [q]) w []
      (Carried (Collected (Logged S Carries) · c.locally)) ∧
    Tells C L ((Action.ask Choice.allChoices [p]).bind fun q => Action.ask Log.writerHandler [q]) w []
      (Carried (Logged S (Collected Carries) · (c.leaves, c.messages))) := by
  have hwriter {B : Type} {Carries : Value → B → Prop} {c : Chronicle V B} {w : S.World} {p : Value}
      (hp : Chronicles C L Carries c w (.ok p)) : Tells C L (Action.ask Log.writerHandler [p]) w []
        (Lands (Chronicles C L (Logged S Carries) c.gathered)) :=
    .invoke (L.deaf_handler _ _ _) (Log.tells_gathered_log hp)
  have hall {B : Type} {Carries : Value → B → Prop} {c : Chronicle V B} {w : S.World} {p : Value}
      (hp : Chronicles C L Carries c w (.ok p)) : Tells C L (Action.ask Choice.allChoices [p]) w []
        (Lands (Chronicles C L (Collected Carries) c.enumerated)) :=
    .invoke (L.deaf_handler _ _ _) (Choice.tells_enumerated_log hp)
  constructor
  · refine Chronicles.onward (hwriter hp).landed fun z q _ hq => ?_
    have hlisted := hall hq
    rw [c.enumerated_gathered] at hlisted
    exact hlisted.mono fun _ _ _ h => Chronicles.carried h
  · refine Chronicles.onward (hall hp).landed fun z q _ hq => ?_
    have hlogged := hwriter hq
    rw [c.gathered_enumerated] at hlogged
    exact hlogged.mono fun _ _ _ h => Chronicles.carried h

section Branching

/-- What goes on, once an operation is answered, as the function says. -/
private def thereafter (next : Function) : Value :=
  .arrowOf (.grafted (.arrowOf .leaf) (.arrowOf next))

theorem chronicles_thereafter {next : Function} {c : Chronicle V A} {u : S.World} {x q : Value}
    (hnext : next.isInternal = true) (hbody : next.apply (.of [x]) = .done q)
    (hq : Chronicles C L Carries c u (.ok q)) :
    Tells C L (Action.ask (thereafter next) [x]) u [] (Chronicles C L Carries c) := by
  refine .ask rfl (.bind_silent (.ask rfl (.done ⟨_, rfl, .graft_of_leaf rfl rfl (.ask hnext ?_)⟩)))
  rw [hbody]
  exact .done ⟨q, rfl, hq.lifted⟩

/-- The program that chooses between two keeps the chronicles of both. -/
theorem chronicles_choose {t f : Chronicle V A} {first second p : Value} {w : S.World}
    (hp : Choice.choose first second = .done p)
    (ht : ∀ u, C.Later w u → Chronicles C L Carries t u (.ok first))
    (hf : ∀ u, C.Later w u → Chronicles C L Carries f u (.ok second)) :
    Chronicles C L Carries (.decide t f) w (.ok p) := by
  cases hp
  exact ⟨_, _, rfl, fun u hu => chronicles_thereafter rfl rfl (ht u hu),
    fun u hu => chronicles_thereafter rfl rfl (hf u hu)⟩

/-- The program that logs and goes on has the message in front. -/
theorem chronicles_log {rest : Chronicle V A} {x q p : Value} {w : S.World}
    (hp : Program.graft (Log.log x) (.arrowOf (.constant q)) = .done p)
    (hq : ∀ u, C.Later w u → Chronicles C L Carries rest u (.ok q)) :
    Chronicles C L Carries (.log (S.see x) rest) w (.ok p) := by
  cases hp
  exact ⟨_, _, _, rfl, rfl, fun u hu => chronicles_thereafter rfl rfl (hq u hu)⟩

/-- Logs, then chooses: the first branch logs and fails, the second one logs and chooses again. -/
def branchingLog : Value :=
  let logging (m : String) (p : Value) : Value :=
    .operation 0 logName [.text m] (thereafter (.constant p))
  let choosing (first second : Value) : Value :=
    .operation 0 decideName [] (thereafter (.chosen first second))
  logging "start" (choosing (logging "dead" Choice.fail)
    (logging "alive" (choosing (.leaf 0 (.int 1)) (logging "last" (.leaf 0 (.int 2))))))

def branchingChronicle : Chronicle Shape Shape :=
  .log (.text "start") (.decide (.log (.text "dead") .fail)
    (.log (.text "alive") (.decide (.leaf (.int 1)) (.log (.text "last") (.leaf (.int 2))))))

theorem chronicles_branchingLog (w : Store) :
    Chronicles Course.shapes .scripts (fun x v => Scene.shapes.see x = v) branchingChronicle w
      (.ok branchingLog) := by
  refine chronicles_log (S := Scene.shapes) rfl fun _ _ => ?_
  refine chronicles_choose (S := Scene.shapes) rfl (fun _ _ => ?_) fun _ _ => ?_
  · exact chronicles_log (S := Scene.shapes) rfl fun _ _ => ⟨_, _, rfl⟩
  refine chronicles_log (S := Scene.shapes) rfl fun _ _ => ?_
  refine chronicles_choose (S := Scene.shapes) rfl (fun _ _ => ⟨_, _, _, rfl, rfl, rfl⟩) fun _ _ => ?_
  exact chronicles_log (S := Scene.shapes) rfl fun _ _ => ⟨_, _, _, rfl, rfl, rfl⟩

/-- The message in front of the choice is in the log of every path and once in the merged one, which has
the message of the failed branch as well. -/
theorem logs_apart_or_merged_branching :
    Tells Course.shapes .scripts ((Action.ask Log.writerHandler [branchingLog]).bind fun q =>
      Action.ask Choice.allChoices [q]) Store.empty []
      (Carried (S := Scene.shapes) (Collected (Logged Scene.shapes fun x v => x.shape = v) ·
        [(.int 1, [.text "start", .text "alive"]),
          (.int 2, [.text "start", .text "alive", .text "last"])])) ∧
    Tells Course.shapes .scripts ((Action.ask Choice.allChoices [branchingLog]).bind fun q =>
      Action.ask Log.writerHandler [q]) Store.empty []
      (Carried (S := Scene.shapes) (Logged Scene.shapes (Collected fun x v => x.shape = v) ·
        ([.int 1, .int 2], [.text "start", .text "dead", .text "alive", .text "last"]))) :=
  logs_apart_or_merged (chronicles_branchingLog Store.empty)

end Branching

end AlgebraicEffects
