import AlgebraicEffects.Proofs.Replay.Feeding
import AlgebraicEffects.Proofs.Replay.Statements
import AlgebraicEffects.Proofs.Showing

/-!
A replay diverges exactly when answers are left over.

A program is built by feeding a history to a fresh generator. What is built is decided by what becomes of
the generator (`Fate`): a body that returns on the last answer is its value, one that returns before has
diverged and both numbers are reported, and one that has taken all answers goes on as what it has yielded,
with the construction for a longer history grafted onto it. Any other failure is passed on. A body cannot
pass on a failure that would look like its own end, wherever it is raised
(`RaisesStop.runs_progress`), so it neither returns nor diverges by one.
-/

set_option autoImplicit false

namespace AlgebraicEffects

open Action (Runs)

section Leading

/-- In running the one action, begun in the one store, the other comes to be run as its last part, begun
in the other store. -/
inductive RunsInto (b : Action Value) (t : Store) : Action Value → Store → Prop where
  | here : RunsInto b t b t
  | read {k : Store → Action Value} {s : Store} : RunsInto b t (k s) s → RunsInto b t (.read k) s
  | write {change : Store → Store} {k : Action Value} {s : Store} :
      RunsInto b t k (change s) → RunsInto b t (.write change k) s
  | after {f : Value} {arguments : Arguments Value} {k : Ending → Action Value} {o : Ending}
      {s u : Store} :
      Runs Value.apply (f.apply arguments) s o u → RunsInto b t (k o) u →
      RunsInto b t (.call f arguments k) s
  | inside {f : Value} {arguments : Arguments Value} {s : Store} :
      RunsInto b t (f.apply arguments) s → RunsInto b t (Action.invoke f arguments) s

variable {a b : Action Value} {s t u : Store} {r : Ending}

/-- An action ends as its last part does. -/
theorem RunsInto.runs (h : RunsInto b t a s) (hb : Runs Value.apply b t r u) :
    Runs Value.apply a s r u := by
  induction h with
  | here => exact hb
  | read _ ih => exact .read ih
  | write _ ih => exact .write ih
  | after hcall _ ih => exact .call hcall ih
  | inside _ ih => exact ih.invoke

theorem RunsInto.bind {α : Type} {c : Action α} {k : α → Action Value} {x : α} {w : Store}
    (hc : Runs Value.apply c s (.ok x) w) (h : RunsInto b t (k x) w) : RunsInto b t (c.bind k) s := by
  generalize hr : Except.ok x = r at hc
  induction hc with
  | done y s =>
    cases hr
    exact h
  | fail f s => cases hr
  | read _ ih => exact .read (ih h hr)
  | write _ ih => exact .write (ih h hr)
  | call hf _ _ ih => exact .after hf (ih h hr)

end Leading

section Stops

/-- Advanced with this answer, the generator runs its body up to a failure that would look like its end,
and no attempt is around it. -/
inductive RaisesStop (g : Nat) (answer : Value) (s t : Store) : Prop where
  | intro {scope scope' : Scope} {frames frames' : List Frame} {f : Failure} :
      Generator.Resumes s g answer scope frames →
      RunsInto (Generator.raiseIn g scope' frames' f) t (Generator.go g scope frames)
        (s.setGenerator g .running) →
      Generator.recovery? frames' = none → f.kind = .exhausted → RaisesStop g answer s t

variable {g : Nat} {answer : Value} {s t : Store}

/-- It is the failure of a generator that has raised it. -/
theorem RaisesStop.runs_progress (h : RaisesStop g answer s t) :
    Runs Value.apply (Generator.progress g answer) s (.error .generatorRaisedStop)
      (t.setGenerator g .finished) := by
  obtain ⟨hresumes, hleads, hrecovery, hkind⟩ := h
  refine hresumes.runs_failed (hleads.runs ?_) (fun _ hv => nomatch hv)
  simp only [Generator.raiseIn, hrecovery, hkind, if_true]
  exact .fail _ _

end Stops

section Reporting

/-- The name under which a factory is reported: its own, or else its text. -/
def reportedName (factory : Value) (shown : Snapshot) : String :=
  factory.naming.qualified.getD shown.quoted

/-- What is reported of a body that has returned before its answers ran out. -/
def divergence (factory : Value) (shown : Snapshot) (expected consumed : Nat) : Failure :=
  .replayDivergence
    (Failure.divergenceText (.text (reportedName factory shown)) (.int expected) (.int consumed))
    (.text (reportedName factory shown)) (.int expected) (.int consumed)

variable {factory v : Value} {s : Store}

theorem runs_writable_of {x : Value} {written : Except Failure Snapshot} (h : s.written x = written) :
    Runs Value.apply (Action.writable x) s written s := h ▸ runs_writable x s

/-- Lengths can be written. -/
theorem written_length {n : Nat} (hn : n ≤ Value.greatestLength) (s : Store) :
    s.written (.int n) = .ok (.int n) := by
  have hwritable : Value.greatestLength < leastUnwritable := by decide +kernel
  refine written_int ?_ s
  rw [isTooLong, decide_eq_false_iff_not, Int.natAbs_natCast]
  omega

theorem finish_of_left {tag consumed : Nat} {ys : List Value} (hleft : consumed < ys.length) :
    Replay.finish factory (.tuple tag ys) v consumed = (Replay.factoryName factory).bind fun name =>
      (Action.diverged name (.int ys.length) (.int consumed)).bind .fail :=
  if_pos hleft

/-- Answers that are left over are reported, if the factory can be written. -/
theorem runs_finish_left {tag consumed : Nat} {ys : List Value} {shown : Snapshot}
    (hleft : consumed < ys.length) (hlength : ys.length ≤ Value.greatestLength)
    (hwritten : s.written factory = .ok shown) :
    Runs Value.apply (Replay.finish factory (.tuple tag ys) v consumed) s
      (.error (divergence factory shown ys.length consumed)) s := by
  have hquoted : Runs Value.apply (Action.quotedText factory) s (.ok shown.quoted) s :=
    (runs_writable_of hwritten).bind (.done _ s)
  have hname : Runs Value.apply (Replay.factoryName factory) s
      (.ok (.text (reportedName factory shown))) s := hquoted.bind (.done _ s)
  have hconsumed : consumed ≤ Value.greatestLength := Nat.le_of_lt (Nat.lt_of_lt_of_le hleft hlength)
  have hdiverged : Runs Value.apply
      (Action.diverged (.text (reportedName factory shown)) (.int ys.length) (.int consumed)) s
      (.ok (divergence factory shown ys.length consumed)) s :=
    (runs_writable (.text (reportedName factory shown)) s).bind
      ((runs_writable_of (written_length hlength s)).bind
        ((runs_writable_of (written_length hconsumed s)).bind (.done _ s)))
  rw [finish_of_left hleft]
  exact hname.bind (hdiverged.bind (.fail _ s))

/-- Otherwise it is reported that it cannot be: it is written although its own name would do. -/
theorem runs_finish_unwritable {f : Failure} {tag consumed : Nat} {ys : List Value}
    (hleft : consumed < ys.length) (hunwritten : s.written factory = .error f) :
    Runs Value.apply (Replay.finish factory (.tuple tag ys) v consumed) s (.error f) s := by
  have hquoted : Runs Value.apply (Action.quotedText factory) s (.error f) s :=
    (runs_writable_of hunwritten).bind_error
  have hname : Runs Value.apply (Replay.factoryName factory) s (.error f) s := hquoted.bind_error
  rw [finish_of_left hleft]
  exact hname.bind_error

end Reporting

section Building

/-- What is built from a fresh generator that is fed a history, by what becomes of the generator. -/
structure Concludes (built : Action Value) (s : Store) (factory next : Value) (g : Nat) (t : Store)
    (ys : List Value) : Prop where
  /-- A body that has returned on the last answer is its value. -/
  returned {v : Value} {u : Store} : Advances g t ys (.returned v) u →
    Runs Value.apply built s (.ok (Program.lift v)) u
  /-- One that has returned before has diverged. -/
  diverged {xs zs : List Value} {v : Value} {u : Store} {shown : Snapshot} : ys = xs ++ zs → zs ≠ [] →
    Advances g t xs (.returned v) u → u.written factory = .ok shown →
    Runs Value.apply built s (.error (divergence factory shown ys.length xs.length)) u
  /-- If its factory cannot be written, that is what is reported instead. -/
  unwritable {xs zs : List Value} {v : Value} {u : Store} {f : Failure} : ys = xs ++ zs → zs ≠ [] →
    Advances g t xs (.returned v) u → u.written factory = .error f →
    Runs Value.apply built s (.error f) u
  /-- One that has taken all answers goes on as what it has yielded, and with what follows. -/
  yielded {x : Value} {u : Store} : Advances g t ys (.yielded x) u → ∀ e z,
    Runs Value.apply built s e z ↔ Runs Value.apply (Program.graft x next) u e z
  /-- Any other failure is passed on. -/
  failed {y : Value} {u w : Store} {f : Failure} : Asks g t ys y u →
    Runs Value.apply (Generator.progress g y) u (.error f) w → Runs Value.apply built s (.error f) w
  /-- A failure that would look like the end of the body neither returns nor diverges. -/
  stopped {y : Value} {u w : Store} : Asks g t ys y u → RaisesStop g y u w →
    Runs Value.apply built s (.error .generatorRaisedStop) (w.setGenerator g .finished)
  /-- There are no other runs. -/
  decided {e : Ending} {z : Store} : Runs Value.apply built s e z → ∃ fed u, Fate g t ys fed u

variable {factory kwargs built : Value} {positional ys : List Value} {keywords : List (String × Value)}
  {s t : Store} {a b g : Nat} {name : String}

theorem length_lt_of_left {xs zs : List Value} (h : zs ≠ []) : xs.length < (xs ++ zs).length := by
  rw [List.length_append]
  exact Nat.lt_add_of_pos_right (List.length_pos_iff.2 h)

/-- What is built by feeding a generator and going on with what it does is decided by its fate. -/
theorem concludes_of_sent {built : Action Value} {arguments : Value} (tag : Nat)
    (hbuilt : ∀ e z, Runs Value.apply built s e z ↔ Runs Value.apply ((Replay.sent g ys).bind
      (Replay.concluded factory arguments keywords (.tuple tag ys))) t e z)
    (hlength : ys.length ≤ Value.greatestLength) :
    Concludes built s factory (.arrowOf (.replaying factory arguments keywords (.tuple tag ys)))
      g t ys where
  returned {v u} hadvances := by
    have hsent := hadvances.sent_returned []
    rw [List.append_nil] at hsent
    refine (hbuilt _ _).2 (hsent.bind ?_)
    show Runs Value.apply (Replay.finish factory (.tuple tag ys) v ys.length) u _ u
    rw [Replay.finish_of_all]
    exact .done _ u
  diverged {xs zs v u shown} hys hzs hadvances hwritten := by
    subst hys
    exact (hbuilt _ _).2 ((hadvances.sent_returned zs).bind
      (runs_finish_left (length_lt_of_left hzs) hlength hwritten))
  unwritable {xs zs v u f} hys hzs hadvances hunwritten := by
    subst hys
    exact (hbuilt _ _).2 ((hadvances.sent_returned zs).bind
      (runs_finish_unwritable (length_lt_of_left hzs) hunwritten))
  yielded hadvances e z := (hbuilt e z).trans hadvances.sent.bind_iff
  failed hasks hfails := (hbuilt _ _).2 (hasks.sent_failed hfails).bind_error
  stopped hasks hraises := (hbuilt _ _).2 (hasks.sent_failed hraises.runs_progress).bind_error
  decided {e z} h := by
    rcases Action.runs_bind_iff.1 ((hbuilt e z).1 h) with ⟨fed, u, hsent, -⟩ | ⟨f, -, hsent⟩
    · exact ⟨.ok fed, u, runs_sent_iff.1 hsent⟩
    · exact ⟨.error f, z, runs_sent_iff.1 hsent⟩

/-- Building runs by feeding the history to the generator that has been made. -/
theorem runs_buildOn_iff {arguments : Value} (tag : Nat)
    (hmade : Runs Value.apply (Action.invoke factory ⟨positional, keywords⟩) s
      (.ok (.generator g name)) t) (e : Ending) (z : Store) :
    Runs Value.apply (Replay.buildOn factory arguments positional keywords (.tuple tag ys)) s e z ↔
      Runs Value.apply ((Replay.sent g ys).bind
        (Replay.concluded factory arguments keywords (.tuple tag ys))) t e z := by
  rw [Replay.buildOn_eq]
  exact hmade.bind_iff

/-- Given one answer more, a construction settles its arguments and is built on the history with it. -/
theorem runs_rebuild_iff {answer y : Value} {u w : Store} {c : Nat} {us : List Value}
    (hanswer : Runs Value.apply (Action.identify answer) s (.ok y) u)
    (hsettled : Runs Value.apply (Replay.settled factory (.tuple a positional)) u
      (.ok (.tuple c us)) w) (e : Ending) (z : Store) :
    Runs Value.apply (Action.ask (.arrowOf (.replaying factory (.tuple a positional) keywords
        (.tuple b ys))) [answer]) s e z ↔
      Runs Value.apply (Replay.buildOn factory (.tuple c us) us keywords (.tuple 0 (ys ++ [y])))
        w e z := by
  have hbody : Runs Value.apply (Action.ask (.arrowOf (.replaying factory (.tuple a positional)
      keywords (.tuple b ys))) [answer]) s e z ↔
      Runs Value.apply ((Action.identify answer).bind fun y => (Replay.settled factory
        (.tuple a positional)).bind fun arguments => arguments.items.bind fun us =>
          Replay.buildOn factory arguments us keywords (.tuple 0 (ys ++ [y]))) s e z := by
    constructor
    · intro h
      obtain ⟨cs, h⟩ := h.exists_traced
      obtain ⟨ds, -, h⟩ := h.of_invoke
      exact h.runs
    · exact fun h => h.invoke
  rw [hbody, hanswer.bind_iff, hsettled.bind_iff]
  rfl

/-- A replay diverges exactly when its body has returned before all answers of the history have been
received. Otherwise a body that returns is its value, one that has taken all answers goes on as what it
has yielded, with the construction for a longer history grafted onto it, and its failures are passed on.
That construction is again decided so, whatever its factory does the next time. -/
theorem replay_diverges_exactly_when_answers_are_left
    (hkeywords : Runs Value.apply (kwargs.entriesIfAny >>= Replay.keywordsOf) s (.ok keywords) s)
    (hmade : Runs Value.apply (Action.invoke factory ⟨positional, keywords⟩) s
      (.ok (.generator g name)) t) (hlength : ys.length < Value.greatestLength) :
    Concludes (Replay.buildFrom factory (.tuple a positional) kwargs (.tuple b ys)) s factory
        (Replay.rebuild factory keywords a b positional ys) g t ys ∧
      ∀ {answer y : Value} {c g' : Nat} {us : List Value} {name' : String} {s' u w t' : Store},
        Runs Value.apply (Action.identify answer) s' (.ok y) u →
        Runs Value.apply (Replay.settled factory (.tuple a positional)) u (.ok (.tuple c us)) w →
        Runs Value.apply (Action.invoke factory ⟨us, keywords⟩) w (.ok (.generator g' name')) t' →
        Concludes (Action.ask (Replay.rebuild factory keywords a b positional ys) [answer]) s' factory
          (Replay.rebuild factory keywords c 0 us (ys ++ [y])) g' t' (ys ++ [y]) := by
  refine ⟨concludes_of_sent b (fun e z => ?_) (Nat.le_of_lt hlength), ?_⟩
  · have hbuilt : Replay.buildFrom factory (.tuple a positional) kwargs (.tuple b ys) =
        (kwargs.entriesIfAny >>= Replay.keywordsOf).bind fun ks =>
          Replay.buildOn factory (.tuple a positional) positional ks (.tuple b ys) :=
      (Action.bind_assoc _ _ _).symm
    rw [hbuilt, hkeywords.bind_iff]
    exact runs_buildOn_iff b hmade e z
  · intro answer y c g' us name' s' u w t' hanswer hsettled hremade
    refine concludes_of_sent 0 (fun e z => ?_) ?_
    · exact (runs_rebuild_iff hanswer hsettled e z).trans (runs_buildOn_iff 0 hremade e z)
    · rw [List.length_append]
      exact hlength

section Echoing

/-- A body that yields an operation once and returns the answer. -/
private def replyingBody : List Stmt :=
  [.yield (some "x") (.variable "ask"), .finish (.variable "x")]

private def asking : Value := .operation 1 "ask" [] (.arrowOf .leaf)

private def replying : Value :=
  .arrowOf (.generatorBody "replying" ⟨[], none⟩ replyingBody [("ask", asking)])

private def replyingMade : Store :=
  Store.empty.addGenerator (.fresh [("ask", asking)] replyingBody)

private def replyingAsked : Store :=
  (replyingMade.setGenerator 0 .running).setGenerator 0
    (.suspended (some "x") [("ask", asking)] [.block [.finish (.variable "x")]])

private def replyingEnded : Store :=
  (replyingAsked.setGenerator 0 .running).setGenerator 0 .finished

private theorem runs_replying_asked : Runs Value.apply (Generator.progress 0 .nothing) replyingMade
    (.ok (.yielded asking)) replyingAsked :=
  (Generator.Resumes.started rfl).runs_yielded (Generator.runs_go_yield (.done _ _))

private theorem runs_replying_ended : Runs Value.apply (Generator.progress 0 (.int 5)) replyingAsked
    (.ok (.returned (.int 5))) replyingEnded :=
  (Generator.Resumes.resumed rfl).runs_returned (Generator.runs_go_finish (.done _ _))

/-- Fed one answer it returns on it, fed two it has received one of them. -/
theorem replay_diverges_exactly_when_answers_are_left_replying :
    Runs Value.apply (Replay.buildFrom replying (.tuple 0 []) .nothing (.tuple 0 [.int 5]))
        Store.empty (.ok (Program.lift (.int 5))) replyingEnded ∧
      Runs Value.apply (Replay.buildFrom replying (.tuple 0 []) .nothing
          (.tuple 0 [.int 5, .int 6])) Store.empty
        (.error (divergence replying (replyingEnded.show replying) 2 1)) replyingEnded := by
  have hmade : Runs Value.apply (Action.invoke replying ⟨[], []⟩) Store.empty
      (.ok (.generator 0 "replying")) replyingMade :=
    .call (.read (.write (.done _ _))) (.done _ _)
  have hadvances : Advances 0 replyingMade [.int 5] (.returned (.int 5)) replyingEnded :=
    (Advances.started runs_replying_asked).answered runs_replying_ended
  have hreturns : Concludes (Replay.buildFrom replying (.tuple 0 []) .nothing (.tuple 0 [.int 5]))
      Store.empty replying (Replay.rebuild replying [] 0 0 [] [.int 5]) 0 replyingMade [.int 5] :=
    (replay_diverges_exactly_when_answers_are_left (.done _ _) hmade (by decide +kernel)).1
  have hdiverges : Concludes (Replay.buildFrom replying (.tuple 0 []) .nothing
      (.tuple 0 [.int 5, .int 6])) Store.empty replying
      (Replay.rebuild replying [] 0 0 [] [.int 5, .int 6]) 0 replyingMade [.int 5, .int 6] :=
    (replay_diverges_exactly_when_answers_are_left (.done _ _) hmade (by decide +kernel)).1
  have hleft : [Value.int 5, .int 6] = [.int 5] ++ [.int 6] := rfl
  have hwritten : replyingEnded.written replying = .ok (replyingEnded.show replying) := rfl
  have hdiverged := hdiverges.diverged hleft (List.cons_ne_nil _ _) hadvances hwritten
  exact ⟨hreturns.returned hadvances, hdiverged⟩

end Echoing

end Building

end AlgebraicEffects
