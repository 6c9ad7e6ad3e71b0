import AlgebraicEffects.Proofs.Comparing.Tracking

/-!
Waits are transparent to handlers.

Under any stack of handlers for output, logging, environments, chance and choice, also when it has a state,
a program that waits runs as the same program whose waits are passed (`waits_are_transparent`). A wait is
noticed only where the clock cannot show the time after it, where the value of the program is a program that
asks for the time, and where a failure is raised too early to be reported (`waits_noticed`).
-/

set_option autoImplicit false

namespace AlgebraicEffects

open Action (Traced)
open Suspension (suspendName)

variable {V τ σ : Type} {T : Venue V τ} {drawn : Nat → Prop} {L : Listener} {K M : Conduct V τ σ}
  {s t s' t' : Store}

section Transparency

/-- A program is taken as it is, or run from an initial state. Without the final state only values that are
no programs may be given. -/
inductive State.Wraps (gives : Value → Prop) : (Value → Action Value) → Prop where
  | bare : Wraps gives .done
  | paired {initial withFinalState : Value} : Action.truth withFinalState = .done true →
      Wraps gives (State.run · initial withFinalState)
  | unpaired {initial withFinalState : Value} : Action.truth withFinalState = .done false →
      (∀ x, gives x → x.isProgram = false) → Wraps gives (State.run · initial withFinalState)

variable {hT : T.Lets drawn} {left : String → List V → V} {pre post : List (Event V)} {p p' p₁ p₁' : Value}
  {q q' r : σ} {x x' y : τ} {es fs : List (Event V)} {w u : T.World} {wrap : Value → Action Value}
  {cs cs' : List Call}

/-- Programs that come to the same once their waits are passed are tracked alike. -/
theorem PassedAlike.tracked_wrapped (h : PassedAlike T drawn L K M w u pre post p p')
    (hwrap : State.Wraps (fun x => ∃ q, K.node q = .leaf (T.see x)) wrap)
    (hmade : Traced (wrap p) (T.store w) cs (.ok p₁) s)
    (hmade' : Traced (wrap p') (T.store u) cs' (.ok p₁') t) :
    TrackedAlike hT L s t (pre ++ L.events T.see cs) (post ++ L.events T.see cs') p₁ p₁' := by
  cases hwrap with
  | bare =>
    cases hmade
    cases hmade'
    rw [show L.events T.see [] = [] from rfl, List.append_nil, List.append_nil]
    exact h.tracked
  | paired hpaired => exact h.tracked_stateRun hpaired (.inl rfl) hmade hmade'
  | unpaired hpaired hgives =>
    exact h.tracked_stateRun hpaired (.inr fun q x hq => hgives x ⟨q, hq⟩) hmade hmade'

/-- Waits are transparent to handlers. A program that waits is run under a stack of handlers, and so is the
same program whose waits are passed, which has done meanwhile what the other one does after its first waits.
The one run ends if and only if the other does. Then the outcomes look the same, apart from the waits the
same is observed, in the same order, the generators have been drawn from alike, and the clock shows its time
from the start on after all delays. -/
theorem waits_are_transparent (hT : T.Lets drawn) (hleft : T.Tells left) (hK : K.OnlyWaits T.see)
    (hp : Conducts (T.keeping drawn) L K.spared w (.ok p) q)
    (hpath : K.Passes (T.see .nothing) q x es r y)
    (hp' : Conducts (T.keeping drawn) L (K.passing (T.see .nothing)).spared u (.ok p') r)
    (hx : T.Holds w x) (hx' : T.Holds u y)
    (htwisters : ∀ i, drawn i → (T.store w).twisters[i]? = (T.store u).twisters[i]?)
    (hwrap : State.Wraps (fun x => ∃ q, K.node q = .leaf (T.see x)) wrap)
    (hmade : Traced (wrap p) (T.store w) cs (.ok p₁) s)
    (hmade' : Traced (wrap p') (T.store u) cs' (.ok p₁') t)
    {stack : List Value} (hstack : ∀ h ∈ stack, T.Serves drawn L h) {scheduler scheduler' : Value}
    {start start' : Number} (hs : Fresh s scheduler start) (ht : Fresh t scheduler' start')
    (tag tag' : Nat) :
    ((∃ ds o s', Traced (Run.runScheduled p₁ (.tuple tag stack) scheduler .nothing) s ds o s') ↔
      ∃ ds o t', Traced (Run.runScheduled p₁' (.tuple tag' stack) scheduler' .nothing) t ds o t') ∧
    ∀ ds o s' ds' o' t', Traced (Run.runScheduled p₁ (.tuple tag stack) scheduler .nothing) s ds o s' →
      Traced (Run.runScheduled p₁' (.tuple tag' stack) scheduler' .nothing) t ds' o' t' →
      ∃ outcome outcome', o = .ok outcome ∧ o' = .ok outcome' ∧ AlikeOutcomes T.see outcome outcome' ∧
        (L.events T.see (cs ++ ds)).filter Event.isTold =
          es ++ (L.events T.see (cs' ++ ds')).filter Event.isTold ∧
        (∀ i, drawn i → s'.twisters[i]? = t'.twisters[i]?) ∧
        s'.AtRest (s.agendaFor scheduler) (start.afterWaits (L.events T.see ds)) := by
  have hrests : (K.passing (T.see .nothing)).Passes (T.see .nothing) r y [] r y := .rests hpath.awake
  have hpassed : PassedAlike T drawn L K (K.passing (T.see .nothing)) w u [] es p p' :=
    { onlyWaits := hK
      onlyWaits' := hK.passing _
      same := (K.passing_passing _).symm
      twisters := htwisters
      rests := ⟨q, r, r, x, y, y, es, [], hpath, hrests, hp, hp', hx, hx', by
        rw [List.nil_append, List.append_nil]⟩ }
  have halike : TrackedAlike hT L s t ([] ++ L.events T.see cs) (es ++ L.events T.see cs') p₁ p₁' :=
    hpassed.tracked_wrapped hwrap hmade hmade'
  have halike' : TrackedAlike hT L t s (es ++ L.events T.see cs') ([] ++ L.events T.see cs) p₁' p₁ :=
    hpassed.symm.tracked_wrapped hwrap hmade' hmade
  refine ⟨⟨?_, ?_⟩, ?_⟩
  · rintro ⟨ds, o, s', htr⟩
    obtain ⟨ds', _, outcome', t', htr', -⟩ := halike.runScheduled hleft hstack hs ht htr
    exact ⟨_, _, _, htr'⟩
  · rintro ⟨ds', o', t', htr'⟩
    obtain ⟨ds, _, outcome, s', htr, -⟩ := halike'.runScheduled hleft hstack ht hs htr'
    exact ⟨_, _, _, htr⟩
  · intro ds o s' ds' o' t' htr htr'
    obtain ⟨gs, outcome, outcome', t'', hgs, ho, hlooks, hsaid, hdrew, hclock⟩ :=
      halike.runScheduled hleft hstack hs ht htr
    obtain ⟨rfl, rfl, rfl⟩ := htr'.unique hgs
    refine ⟨outcome, outcome', ho, rfl, hlooks, ?_, hdrew, hclock⟩
    rw [L.events_append, L.events_append, ← List.nil_append (L.events T.see cs), hsaid, List.append_assoc,
      List.filter_append, List.filter_eq_self.2 (hK.told hpath)]

end Transparency

section Delays

open Output (printName)

/-- For how long it is waited when an operation suspends with the value. -/
def Value.delay? : Value → Option Number
  | .function _ (.waitStart delay) => delay.number?
  | _ => none

theorem Value.delay?_tagged (v : Value) (n : Nat) : (v.tagged n).1.delay? = v.delay? := by
  unfold Value.tagged
  split
  all_goals first
    | rfl
    | rename_i inner
      cases inner <;> rfl

theorem shapes_eq_map (vs : List Value) : shapes vs = vs.map Value.shape := by
  induction vs with
  | nil => rfl
  | cons v vs ih => rw [shapes, ih, List.map_cons]

/-- The venue of all stores, on which delays are seen beside the shapes of plain data. -/
def Venue.delays : Venue (Option Number × Shape) Unit where
  World := Store
  store := id
  Later _ _ := True
  refl _ := trivial
  trans _ _ := trivial
  see v := (v.delay?, v.shape)
  Fit _ _ := True
  Holds _ _ := True

theorem lets_delays (drawn : Nat → Prop) : Venue.delays.Lets drawn where
  see_tagged v n := Prod.ext (v.delay?_tagged n) (v.shape_tagged n)
  fits _ _ := trivial
  list _ := rfl
  tuple {xs xs'} h := by
    have hshapes : shapes xs = shapes xs' := by
      have hsnd := congrArg (List.map Prod.snd) h
      rw [List.map_map, List.map_map] at hsnd
      rw [shapes_eq_map, shapes_eq_map]
      exact hsnd
    exact congrArg (fun items => (none, Shape.tuple items)) hshapes
  moved {_ t} _ := ⟨t, trivial, rfl, fun _ _ => trivial⟩

theorem tells_delays : Venue.delays.Tells fun _ _ => (none, .other) := fun _ _ _ => rfl

theorem shows_wait (d : Number) : ShowsWait Venue.delays.see (some d, .other) d := by
  intro x hx
  have hdelay : x.delay? = some d := congrArg Prod.fst hx
  unfold Value.delay? at hdelay
  split at hdelay
  · exact ⟨_, _, rfl, hdelay⟩
  · cases hdelay

/-- What giving a message to the sink comes to. -/
inductive SinkTakes : Reaction (Option Number × Shape) Unit where
  | said (m : Option Number × Shape) : SinkTakes [m] () [.said m] (.ok (none, .nothing)) ()
  | refused {ps : List (Option Number × Shape)} : ps.length ≠ 1 → SinkTakes ps () [] (.error (none, .other)) ()

theorem acts_scriptedSink (drawn : Nat → Prop) : ActsWithin Venue.delays drawn sinkListener
    (fun params => onOne params fun m => Action.ask scriptedSink [m]) fun _ => [] := by
  refine ⟨SinkTakes, ?_, ?_, ?_, ?_⟩
  · rintro _ _ _ _ _ (_ | _)
    · exact List.forall_mem_singleton.2 rfl
    · exact nofun
  · intro w x params cs r t _ _
    match params with
    | [m] => exact ⟨_, _, x, .said _, rfl⟩
    | [] => exact ⟨_, _, x, .refused (by simp), rfl⟩
    | _ :: _ :: _ => exact ⟨_, _, x, .refused (by simp), rfl⟩
  · rintro w ⟨⟨⟩, b⟩ ⟨⟨⟩, _⟩ params es a hx ⟨h, rfl⟩
    generalize hps : params.map (Venue.delays.keeping drawn).see = ps at h
    cases h with
    | said m =>
      obtain ⟨v, rfl, rfl⟩ := List.map_eq_singleton_iff.1 hps
      obtain ⟨n, hn, hs⟩ := Store.identifyAll_snd w (.of [v])
      have hsink := (traced_scriptedSink v w).invoke
      rw [hs] at hsink
      exact ⟨_, _, Store.tagsFrom w n, hsink, trivial, ⟨trivial,
        { agendas := hx.2.agendas, completed := hx.2.completed, twisters := hx.2.twisters }⟩, trivial, rfl,
        events_sink _ v⟩
  · rintro w ⟨⟨⟩, b⟩ ⟨⟨⟩, _⟩ params es f hx ⟨h, rfl⟩
    generalize hps : params.map (Venue.delays.keeping drawn).see = ps at h
    cases h with
    | refused hlength =>
      subst hps
      refine ⟨[], .fault .badType, w, ?_, trivial, hx, rfl, rfl⟩
      match params with
      | [m] => simp at hlength
      | [] => exact .fail _ _
      | _ :: _ :: _ => exact .fail _ _

/-- Waits for a time and then goes on with a program. -/
def waitThen (delay next : Value) : Value :=
  .operation 0 suspendName [.arrowOf (.waitStart delay)]
    (.arrowOf (.grafted (.arrowOf .leaf) (.arrowOf (.constant next))))

/-- Says hello. -/
def greet : Value := Output.print (.text "hello")

inductive Greeting where
  | waiting
  | greeting
  | greeted (answer : Option Number × Shape)

namespace Greeting

/-- How a greeting is conducted. -/
def conduct (d : Number) : Conduct (Option Number × Shape) Unit Greeting where
  node
    | waiting => .operation suspendName [(some d, .other)]
    | greeting => .operation printName [(none, .text "hello")]
    | greeted a => .leaf a
  next q a _ es r _ := es = [] ∧ ((q = waiting ∧ r = greeting) ∨ (q = greeting ∧ r = greeted a))

variable {d : Number}

theorem onlyWaits (hd : d.IsTimely) : (conduct d).OnlyWaits Venue.delays.see where
  waits {q ps} hq := by
    cases q with
    | waiting =>
      cases hq
      exact ⟨_, d, rfl, shows_wait d, hd⟩
    | greeting => exact absurd (Node.operation.inj hq).1 (by decide)
    | greeted a => cases hq
  timeless {q ps} hq := by
    cases q with
    | waiting => exact absurd (Node.operation.inj hq).1 (by decide)
    | greeting => exact absurd (Node.operation.inj hq).1 (by decide)
    | greeted a => cases hq
  quiet := by
    rintro _ _ _ _ _ _ ⟨rfl, -⟩
    exact nofun

theorem awake {r : Greeting} (hr : r ≠ waiting) (ps : List (Option Number × Shape)) :
    (conduct d).node r ≠ .operation suspendName ps := by
  intro h
  cases r with
  | waiting => exact hr rfl
  | greeting => exact absurd (Node.operation.inj h).1 (by decide)
  | greeted a => cases h

theorem passes (d : Number) (nothing : Option Number × Shape) :
    (conduct d).Passes nothing waiting () [] greeting () := by
  have hpasses : (conduct d).Passes nothing waiting () ([] ++ []) greeting () :=
    .waits (y := ()) rfl ⟨rfl, .inl ⟨rfl, rfl⟩⟩ (.rests (awake nofun))
  exact hpasses

/-- It waits once, before it does anything else. -/
theorem passing_conduct (d : Number) (nothing : Option Number × Shape) :
    (conduct d).passing nothing = conduct d := by
  have hnext (q : Greeting) (a : Option Number × Shape) (x : Unit) (es : List (Event (Option Number × Shape)))
      (r : Greeting) (y : Unit) :
      ((conduct d).passing nothing).next q a x es r y ↔ (conduct d).next q a x es r y := by
    constructor
    · rintro ⟨_, p, y, gs, ⟨rfl, hp⟩, hpasses, rfl⟩
      have hawake : p ≠ waiting := by
        rcases hp with ⟨-, rfl⟩ | ⟨-, rfl⟩
        all_goals exact nofun
      obtain ⟨rfl, rfl, -⟩ := hpasses.of_awake (awake hawake)
      exact ⟨rfl, hp⟩
    · rintro ⟨rfl, hp⟩
      refine ⟨[], r, y, [], ⟨rfl, hp⟩, .rests (awake ?_), rfl⟩
      rcases hp with ⟨-, rfl⟩ | ⟨-, rfl⟩
      all_goals exact nofun
  refine congrArg (Conduct.mk _) ?_
  funext q a x es r y
  exact propext (hnext q a x es r y)

/-- How the programs look. -/
inductive Looks (delay : Value) : Ending → Greeting → Prop where
  | waiting : Looks delay (.ok (waitThen delay greet)) .waiting
  | greeting : Looks delay (.ok greet) .greeting
  | greeted (tag : Nat) (a : Value) : Looks delay (.ok (.leaf tag a)) (.greeted (Venue.delays.see a))

/-- Answered with anything it says hello. -/
theorem traced_greets (a : Value) (s : Store) : ∃ cs, sinkListener.events Venue.delays.see cs = [] ∧
    Traced (Action.ask (.arrowOf (.grafted (.arrowOf .leaf) (.arrowOf (.constant greet)))) [a]) s cs
      (.ok greet) s := by
  have hleaf : Traced (Action.ask (.arrowOf .leaf) [a]) s _ (.ok (.leaf 0 a)) s :=
    Traced.invoke (.done _ _)
  have hconstant : Traced (Action.ask (.arrowOf (.constant greet)) [a]) s _
      (.ok greet) s := Traced.invoke (.done _ _)
  have hgraft : Traced (Program.graft (.leaf 0 a) (.arrowOf (.constant greet))) s _
      (.ok greet) s := hconstant.bind (.done _ _)
  exact ⟨_, rfl, Traced.invoke (hleaf.bind hgraft)⟩

theorem Looks.conducts {delay : Value} (hd : delay.number? = some d) {drawn : Nat → Prop} {w : Store}
    {e : Ending} {q : Greeting} (h : Looks delay e q) :
    Conducts (Venue.delays.keeping drawn) sinkListener (conduct d).spared w e q := by
  refine ⟨fun _ e q => Looks delay e q, ?_, h⟩
  intro w e q h
  cases h with
  | waiting =>
    refine ⟨?_, ?_⟩
    · show AlgebraicEffects.Looks _ _ (.operation _ [(some d, Shape.other)])
      rw [← hd]
      exact .operation
    · rintro _ _ _ _ ⟨⟩ u a x - - hx
      obtain ⟨cs, hevents, htr⟩ := traced_greets a u
      refine ⟨fun _ _ _ _ => ⟨[], .greeting, x, ⟨rfl, .inl ⟨rfl, rfl⟩⟩, rfl⟩, ?_⟩
      rintro es r y ⟨⟨rfl, hr⟩, hy⟩
      obtain ⟨-, rfl⟩ | ⟨⟨⟩, -⟩ := hr
      exact ⟨cs, _, u, htr, trivial, hevents, ⟨trivial, hy ▸ hx.2⟩, .greeting⟩
  | greeting =>
    refine ⟨.operation, ?_⟩
    rintro _ _ _ _ ⟨⟩ u a x - - hx
    refine ⟨fun _ _ _ _ => ⟨[], .greeted _, x, ⟨rfl, .inr ⟨rfl, rfl⟩⟩, rfl⟩, ?_⟩
    rintro es r y ⟨⟨rfl, hr⟩, hy⟩
    obtain ⟨⟨⟩, -⟩ | ⟨-, rfl⟩ := hr
    exact ⟨_, _, u, Traced.invoke (.done _ _), trivial, rfl, ⟨trivial, hy ▸ hx.2⟩, .greeted 0 a⟩
  | greeted tag a =>
    exact ⟨.leaf rfl, nofun⟩

end Greeting

/-- Prints to the sink. -/
def sinkPrinter : Value := Handler.ofFunctions [(printName, .emitTo scriptedSink)] none

theorem serves_sinkPrinter (drawn : Nat → Prop) : Venue.delays.Serves drawn sinkListener sinkPrinter :=
  .print (show (Output.printHandler scriptedSink).MayGive sinkPrinter from
    ⟨.empty, [], .empty, .done _ _⟩) (acts_scriptedSink drawn)

/-- Run under the printer, the program that waits five units of time and then says hello does so as the one
that says hello at once. -/
theorem waits_are_transparent_greeting : ∃ cs ds outcome outcome' s t,
    Traced (Run.runScheduled (waitThen (.int 5) greet) (.tuple 0 [sinkPrinter]) .nothing .nothing) .empty cs
      (.ok outcome) s ∧
    Traced (Run.runScheduled greet (.tuple 0 [sinkPrinter]) .nothing .nothing) .empty ds (.ok outcome') t ∧
    AlikeOutcomes Venue.delays.see outcome outcome' ∧
    (sinkListener.events Venue.delays.see cs).filter Event.isTold =
      (sinkListener.events Venue.delays.see ds).filter Event.isTold ∧
    s.AtRest 0 ((Number.float 0).afterWaits (sinkListener.events Venue.delays.see cs)) := by
  have htimely : (Number.int 5).IsTimely :=
    ⟨TimeDomain.delay_int (by decide +kernel) (by decide +kernel), by decide⟩
  have hp : Conducts (Venue.delays.keeping fun _ => False) sinkListener (Greeting.conduct (.int 5)).spared
      Store.empty (.ok (waitThen (.int 5) greet)) .waiting :=
    (Greeting.Looks.waiting : Greeting.Looks (.int 5) _ _).conducts rfl
  have hp' : Conducts (Venue.delays.keeping fun _ => False) sinkListener
      ((Greeting.conduct (.int 5)).passing (Venue.delays.see .nothing)).spared Store.empty (.ok greet)
      .greeting := by
    rw [Greeting.passing_conduct]
    exact (Greeting.Looks.greeting : Greeting.Looks (.int 5) _ _).conducts rfl
  have hstack : ∀ h ∈ [sinkPrinter], Venue.delays.Serves (fun _ => False) sinkListener h :=
    fun h hh => List.mem_singleton.1 hh ▸ serves_sinkPrinter _
  obtain ⟨hends, htransparent⟩ := waits_are_transparent (lets_delays fun _ => False) tells_delays
    (Greeting.onlyWaits htimely) hp (Greeting.passes (.int 5) _) hp' trivial trivial nofun .bare (.done _ _)
    (.done _ _) hstack .default .default 0 0
  have hrun : (Action.run Value.apply 400
      (Run.runScheduled greet (.tuple 0 [sinkPrinter]) .nothing .nothing) [] .empty).isSome = true := by
    decide +kernel
  obtain ⟨⟨e, t⟩, hrun⟩ := Option.isSome_iff_exists.1 hrun
  obtain ⟨ds, htr'⟩ := (Action.exists_run_iff.1 ⟨400, hrun⟩).exists_traced
  obtain ⟨cs, o, s, htr⟩ := hends.2 ⟨ds, e, t, htr'⟩
  obtain ⟨outcome, outcome', rfl, rfl, halike, hsaid, -, hclock⟩ := htransparent _ _ _ _ _ _ htr htr'
  exact ⟨cs, ds, outcome, outcome', s, t, htr, htr', halike, hsaid, hclock⟩

end Delays

section Noticed

/-- A program is run from the state zero, and then on a new agenda. -/
def Run.fromZero (p : Value) : Action Value :=
  (State.run p (.int 0) (.bool false)).bind fun q => runScheduled q (.tuple 0 []) .nothing .nothing

/-- The failure that a run reports, when it is the fault of an operation. -/
def reportedKind : Ending → Option Kind
  | .ok (.outcome _ (.err _ (.failure (.caught _ (.fault kind)))) _) => some kind
  | _ => none

/-- The double that is the result of a run. -/
def reportedDouble : Ending → Option Float
  | .ok (.outcome _ (.ok _ (.float _ x)) _) => some x
  | _ => none

/-- Whether nothing is the result of a run. -/
def reportsNothing : Ending → Bool
  | .ok (.outcome _ (.ok _ .nothing) (.tuple _ [.nothing])) => true
  | _ => false

/-- The failure that is raised, when it is the fault of an operation. -/
def raisedKind : Ending → Option Kind
  | .error (.fault kind) => some kind
  | _ => none

theorem exists_runs_ending {P : Ending → Prop} [DecidablePred P] {a : Action Value} {n : Nat}
    (h : (Action.run Value.apply n a [] .empty).any (fun r => decide (P r.1)) = true) :
    ∃ e t, Action.Runs Value.apply a .empty e t ∧ P e := by
  obtain ⟨⟨e, t⟩, hrun, he⟩ := (Option.any_eq_true _ _).1 h
  exact ⟨e, t, Action.exists_run_iff.1 ⟨n, hrun⟩, of_decide_eq_true he⟩

/-- A wait is noticed where its delay has no nearest double, as the run fails then. So it is where a program
with a state has a program as its value that asks for the time, since that is performed in the end, and where
an operation on the state is refused, which is reported only after a wait. -/
theorem waits_noticed :
    (Number.int (10 ^ 400)).less (.int 0) = false ∧
    (∃ e t, Action.Runs Value.apply (Run.runScheduled waitingBeyond (.tuple 0 []) .nothing .nothing) .empty
      e t ∧ reportedKind e = some .overflow) ∧
    (∃ e t, Action.Runs Value.apply (Run.runScheduled (.leaf 0 .nothing) (.tuple 0 []) .nothing .nothing)
      .empty e t ∧ reportsNothing e = true) ∧
    (∃ e t, Action.Runs Value.apply (Run.fromZero (waitThen (.int 5) (.leaf 0 Suspension.now))) .empty e t ∧
      reportedDouble e = some 5) ∧
    (∃ e t, Action.Runs Value.apply (Run.fromZero (.leaf 0 Suspension.now)) .empty e t ∧
      reportedDouble e = some 0) ∧
    (∃ e t, Action.Runs Value.apply (Run.fromZero (waitThen (.int 5) (.bare State.putName []))) .empty e t ∧
      reportedKind e = some .badType) ∧
    ∃ e t, Action.Runs Value.apply (State.run (.bare State.putName []) (.int 0) (.bool false)) .empty e t ∧
      raisedKind e = some .badType := by
  have hless : (Number.int (10 ^ 400)).less (.int 0) = false := by
    rw [Number.less, Number.compare?_int, compare_gt_iff_gt.2 (Int.pow_pos (by decide))]
    rfl
  have hbeyond := exists_runs_ending (P := fun e => reportedKind e = some .overflow) (n := 400)
    (a := Run.runScheduled waitingBeyond (.tuple 0 []) .nothing .nothing) (by decide +kernel)
  have hpure := exists_runs_ending (P := fun e => reportsNothing e = true) (n := 400)
    (a := Run.runScheduled (.leaf 0 .nothing) (.tuple 0 []) .nothing .nothing) (by decide +kernel)
  have hlater := exists_runs_ending (P := fun e => reportedDouble e = some 5) (n := 400)
    (a := Run.fromZero (waitThen (.int 5) (.leaf 0 Suspension.now))) (by decide +kernel)
  have hnow := exists_runs_ending (P := fun e => reportedDouble e = some 0) (n := 400)
    (a := Run.fromZero (.leaf 0 Suspension.now)) (by decide +kernel)
  have hreported := exists_runs_ending (P := fun e => reportedKind e = some .badType) (n := 400)
    (a := Run.fromZero (waitThen (.int 5) (.bare State.putName []))) (by decide +kernel)
  have hraised := exists_runs_ending (P := fun e => raisedKind e = some .badType) (n := 400)
    (a := State.run (.bare State.putName []) (.int 0) (.bool false)) (by decide +kernel)
  exact ⟨hless, hbeyond, hpure, hlater, hnow, hreported, hraised⟩

end Noticed

end AlgebraicEffects
