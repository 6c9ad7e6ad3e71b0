import AlgebraicEffects.Proofs.Comparing.Residues
import AlgebraicEffects.Proofs.Stacks.Following
import AlgebraicEffects.Proofs.Stacks.Order

/-!
Handlers that resume last distribute over grafts.

Inside the handler a function is grafted onto a program before the handler has seen it; outside, onto what
the handler has left of it, by a function that handles what it gives. Either way the program is the machine
that is followed by the one that the function opens, with both parts reacted to. Main statement: the two
cannot be told apart, for any implementations that act and then resume once, or fail, and so for the
handlers of the library that do (`handling_distributes`).
-/

set_option autoImplicit false

namespace AlgebraicEffects

open Action (Traced)
open Environment (readName askName)
open Log (logName)
open Output (printName)

variable {V τ σ ρ : Type} {T : Venue V τ} {L : Listener}

/-- Begun in this world, with this private state, the one action ends as the other one does: with the same
acting in the same order, in the same private state, and nobody can tell their ends apart. -/
def Venue.Follows (T : Venue V τ) (L : Listener) (w : T.World) (x : τ) (a b : Action Value) : Prop :=
  T.Holds w x → ∀ cs o t, Traced a (T.store w) cs o t → ∃ y z ds o' z', T.store z = t ∧
    Traced b (T.store w) ds o' (T.store z') ∧ L.events T.see ds = L.events T.see cs ∧
    T.Holds z y ∧ T.Holds z' y ∧ Alike T L z z' o o'

theorem EndsAs.follows {N : Conduct V τ ρ} {a b : Action Value} {w : T.World} {x : τ}
    {ways : List (Event V) → ρ → τ → Prop} (ha : EndsAs T L a w ways (Conducts T L N))
    (hb : EndsAs T L b w ways (Conducts T L N)) : T.Follows L w x a b := by
  intro _ cs o t htr
  obtain ⟨es, q, y, z, hway, rfl, -, rfl, hy, hq⟩ := ha.exists_of_traced htr
  obtain ⟨ds, o', z', htr', -, hevents, hy', hq'⟩ := hb.as _ q y hway
  exact ⟨y, z, ds, o', z', rfl, htr', hevents, hy, hy', ρ, N, q, hq, hq'⟩

section Distributing

variable {K : Conduct V τ σ} {M : Conduct V τ ρ} {o : Opening V τ ρ} {table : Handler.Table} {w : T.World}
  {p f next : Value} {q : σ} {x : τ} {e : Ending}

/-- Whatever a handler is called with, it does with it what evaluating under it does. -/
theorem ends_handler {N : Conduct V τ ρ} {m : ρ} (tag : Nat)
    (htable : ∀ entry ∈ table, ∃ react, Reacts T L entry.2 react)
    (he : Conducts T L N w e m) (hx : T.Holds w x) :
    EndsAs T L (Action.after (fun p => Action.ask (.handler tag table none) [p]) e) w
      (N.Plays (T.reactions L table) m x) (Conducts T L (N.under (T.reactions L table))) := by
  have hhandled : Handled T L (fun _ => True) table (T.reactions L table) := .of_reacts htable
  have hevaluated := (ends_evaluated hhandled (fun _ _ => trivial) he hx).mono
    fun _ _ _ _ h => h.conducts hhandled fun _ _ => trivial
  cases e with
  | ok v => exact hevaluated.of_leads (.handler tag table none v)
  | error g => exact hevaluated

/-- Inside the handler the function is grafted first. -/
theorem ends_handled_graft (tag : Nat) (htable : ∀ entry ∈ table, ∃ react, Reacts T L entry.2 react)
    (hf : f.isCallable = true) (hopens : OpensAtLeaves T L K o M f w) (hp : Conducts T L K w (.ok p) q)
    (hx : T.Holds w x) :
    EndsAs T L ((Program.graft p f).bind fun b => Action.ask (.handler tag table none) [b]) w
      (fun es v y => ∃ fs s z gs, K.Opens o q x fs s z ∧
        (K.followed o M).Plays (T.reactions L table) s z gs v y ∧ es = fs ++ gs)
      (Conducts T L ((K.followed o M).under (T.reactions L table))) :=
  (ends_graft hf hopens hp hx).bind fun _ _ _ _ _ _ _ hz h => ends_handler tag htable (h.conducts hf) hz

/-- Outside the handler what handles what the function gives is grafted onto what is left. -/
theorem ends_graft_handled (tag : Nat) (htable : ∀ entry ∈ table, ∃ react, Reacts T L entry.2 react)
    (hnext : next.isCallable = true)
    (hopens : OpensAtLeaves T L (K.under (T.reactions L table)) (o.under M (T.reactions L table))
      (M.under (T.reactions L table)) next w)
    (hp : Conducts T L K w (.ok p) q) (hx : T.Holds w x) :
    EndsAs T L ((Action.ask (.handler tag table none) [p]).bind (Program.graft · next)) w
      (fun es v y => ∃ fs s z gs, K.Opens o q x fs s z ∧
        (K.followed o M).Plays (T.reactions L table) s z gs v y ∧ es = fs ++ gs)
      (Conducts T L ((K.followed o M).under (T.reactions L table))) := by
  have hleft : EndsAs T L (Action.ask (.handler tag table none) [p]) w _ _ :=
    ends_handler tag htable hp hx
  have hends := hleft.bind fun _ _ _ _ _ _ hz hx' hv =>
    (ends_graft hnext (hopens.later hz) hv hx').mono fun _ _ _ _ h => h.conducts hnext
  exact hends.image (fun _ _ _ => plays_followed_iff) fun _ _ _ h => h.joined

/-- What calls a function and handles what it gives opens the machine under the reactions. -/
theorem opens_under (htable : ∀ entry ∈ table, ∃ react, Reacts T L entry.2 react)
    (hopens : OpensAtLeaves T L K o M f w) :
    OpensAtLeaves T L (K.under (T.reactions L table)) (o.under M (T.reactions L table))
      (M.under (T.reactions L table)) (.arrowOf (.under table none f)) w := by
  have hhandled : Handled T L (fun _ => True) table (T.reactions L table) := .of_reacts htable
  rintro u a (q | g) x hu hleaf hx
  · refine EndsAs.of_leads (b := (Action.ask f [a]).bind (Handler.evaluate table none)) ?_
      (Listener.Leads.ask (f := .under table none f) rfl)
    exact (hopens u a q x hu hleaf hx).bind fun _ _ _ _ _ _ _ hy hm =>
      (ends_evaluated hhandled (fun _ _ => trivial) hm hy).mono
        fun _ _ _ _ h => h.conducts hhandled fun _ _ => trivial
  · cases hleaf

end Distributing

section Library

/-- The handlers of the library whose implementations act and then resume once, or fail. -/
inductive ResumesLast : Value → Prop where
  | print {sink h : Value} : (Output.printHandler sink).MayGive h → ResumesLast h
  | reader {environment h : Value} : (Environment.handler environment).MayGive h → ResumesLast h
  | random {seed h : Value} : (Chance.handler seed).MayGive h → ResumesLast h
  | logger {level h : Value} : (Log.loggerHandler level).MayGive h → ResumesLast h

/-- Where nothing is overlooked, each implementation comes to what it does. -/
theorem ResumesLast.reacts {h : Value} (hh : ResumesLast h) (L : Listener) : ∃ tag table,
    h = .handler tag table none ∧ ∀ entry ∈ table, ∃ react, Reacts Venue.exact L entry.2 react := by
  cases hh with
  | print hh =>
    refine ⟨_, _, of_printHandler hh, List.forall_mem_singleton.2 ?_⟩
    exact ⟨_, (Output.actsAndResumes _).reacts (actsAs_doing L _ _ _)⟩
  | reader hh =>
    obtain ⟨tag, entries, rfl⟩ := of_readerHandler hh
    refine ⟨_, _, rfl, List.forall_mem_cons.2 ⟨?_, List.forall_mem_singleton.2 ?_⟩⟩
    · exact ⟨_, (Environment.readAll_actsAndResumes tag entries).reacts (actsAs_doing L _ _ _)⟩
    · exact ⟨_, (Environment.askFor_actsAndResumes entries).reacts (actsAs_doing L _ _ _)⟩
  | random hh =>
    obtain ⟨address, rfl⟩ := of_chanceHandler hh
    refine ⟨_, _, rfl, List.forall_mem_singleton.2 ?_⟩
    exact ⟨_, (Chance.actsAndResumes address).reacts (actsAs_doing L _ _ _)⟩
  | logger hh =>
    obtain ⟨level, rfl⟩ := of_loggerHandler hh
    refine ⟨_, _, rfl, List.forall_mem_singleton.2 ?_⟩
    exact ⟨_, (Log.actsAndResumes level).reacts (actsAs_doing L _ _ _)⟩

/-- How every function opens whatever it gives, where nothing is overlooked. -/
def Opening.itself (L : Listener) (f : Value) : Opening Value Store Ending :=
  fun a s es o t => ∃ cs, Traced (Action.ask f [a]) s cs o t ∧ L.events id cs = es

theorem opens_itself (L : Listener) (K : Conduct Value Store σ) (f : Value) (w : Store) :
    OpensAtLeaves Venue.exact L K (.itself L f) (.itself L) f w := by
  rintro u a q _ - - rfl
  exact {
    ends := fun cs o t htr => ⟨_, o, t, cs, htr, rfl⟩
    as := fun es o t ⟨cs, htr, hevents⟩ => ⟨cs, o, t, htr, trivial, hevents, rfl, conducts_itself L t o⟩ }

end Library

/-- Handlers that resume last distribute over grafts. For implementations that act on private states and then
resume once, or fail, whatever the program and the function are: grafting the function and then handling, and
handling and then grafting what handles what the function gives, act alike and end alike, with the same
failure or with what cannot be told apart, however it is resumed. So it is, without anything being overlooked,
with the handlers of the library for output, environments, chance and logging. -/
theorem handling_distributes :
    (∀ (V τ σ ρ : Type) (T : Venue V τ) (L : Listener) (K : Conduct V τ σ) (M : Conduct V τ ρ)
      (o : Opening V τ ρ) (tag : Nat) (table : Handler.Table) (w : T.World) (p f : Value) (q : σ) (x : τ),
      (∀ entry ∈ table, ∃ react, Reacts T L entry.2 react) → f.isCallable = true →
      OpensAtLeaves T L K o M f w → Conducts T L K w (.ok p) q → ∀ next : Value, next.isCallable = true →
      (next = .arrowOf (.under table none f) ∨
        OpensAtLeaves T L (K.under (T.reactions L table)) (o.under M (T.reactions L table))
          (M.under (T.reactions L table)) next w) →
      T.Follows L w x ((Program.graft p f).bind fun b => Action.ask (.handler tag table none) [b])
        ((Action.ask (.handler tag table none) [p]).bind (Program.graft · next)) ∧
      T.Follows L w x ((Action.ask (.handler tag table none) [p]).bind (Program.graft · next))
        ((Program.graft p f).bind fun b => Action.ask (.handler tag table none) [b])) ∧
    ∀ (h : Value), ResumesLast h → ∃ tag table, h = .handler tag table none ∧
      ∀ (L : Listener) (p f : Value) (s : Store), f.isCallable = true →
        Venue.exact.Follows L s s ((Program.graft p f).bind fun b => Action.ask h [b])
          ((Action.ask h [p]).bind (Program.graft · (.arrowOf (.under table none f)))) ∧
        Venue.exact.Follows L s s
          ((Action.ask h [p]).bind (Program.graft · (.arrowOf (.under table none f))))
          ((Program.graft p f).bind fun b => Action.ask h [b]) := by
  have hgeneral (V τ σ ρ : Type) (T : Venue V τ) (L : Listener) (K : Conduct V τ σ) (M : Conduct V τ ρ)
      (o : Opening V τ ρ) (tag : Nat) (table : Handler.Table) (w : T.World) (p f : Value) (q : σ) (x : τ)
      (htable : ∀ entry ∈ table, ∃ react, Reacts T L entry.2 react) (hf : f.isCallable = true)
      (hopens : OpensAtLeaves T L K o M f w) (hp : Conducts T L K w (.ok p) q) (next : Value)
      (hnext : next.isCallable = true) (hcomposed : next = .arrowOf (.under table none f) ∨
        OpensAtLeaves T L (K.under (T.reactions L table)) (o.under M (T.reactions L table))
          (M.under (T.reactions L table)) next w) :
      T.Follows L w x ((Program.graft p f).bind fun b => Action.ask (.handler tag table none) [b])
        ((Action.ask (.handler tag table none) [p]).bind (Program.graft · next)) ∧
      T.Follows L w x ((Action.ask (.handler tag table none) [p]).bind (Program.graft · next))
        ((Program.graft p f).bind fun b => Action.ask (.handler tag table none) [b]) := by
    have hopens' : OpensAtLeaves T L (K.under (T.reactions L table)) (o.under M (T.reactions L table))
        (M.under (T.reactions L table)) next w := by
      rcases hcomposed with rfl | hcomposed
      · exact opens_under htable hopens
      · exact hcomposed
    have hinside (hx : T.Holds w x) := ends_handled_graft tag htable hf hopens hp hx
    have houtside (hx : T.Holds w x) := ends_graft_handled tag htable hnext hopens' hp hx
    exact ⟨fun hx => (hinside hx).follows (houtside hx) hx, fun hx => (houtside hx).follows (hinside hx) hx⟩
  refine ⟨hgeneral, fun h hh => ?_⟩
  obtain ⟨tag, table, rfl, -⟩ := hh.reacts .scripts
  refine ⟨tag, table, rfl, fun L p f s hf => ?_⟩
  obtain ⟨tag', table', hhandler, htable⟩ := hh.reacts L
  cases hhandler
  exact hgeneral Value Store Ending Ending Venue.exact L (.itself L) (.itself L) (.itself L f) tag table s p f
    (.ok p) s htable hf (opens_itself L _ f s) (conducts_itself L s _) _ rfl (.inl rfl)

section Witness

/-- The implementation that says. -/
def sayTable : Handler.Table := [("say", sayScript)]

/-- Whatever it is called with, the function gives the program that says something and asks for a name. -/
theorem opens_saying (w : Store) : OpensAtLeaves Venue.shapes sinkListener (Saying.conduct (τ := Unit))
    (fun _ x es m y => es = [] ∧ m = .saying ∧ y = x) Saying.conduct (.arrowOf (.constant sayingProgram)) w := by
  intro u a q x _ _ hx
  have htr : Traced (Action.ask (.arrowOf (.constant sayingProgram)) [a]) u
      [.mk (.arrowOf (.constant sayingProgram)) (.of [a]) []] (.ok sayingProgram) u :=
    Traced.invoke (.done _ _)
  refine ⟨fun _ _ _ _ => ⟨[], .saying, x, rfl, rfl, rfl⟩, ?_⟩
  rintro _ _ _ ⟨rfl, rfl, rfl⟩
  exact ⟨_, _, u, htr, trivial, Listener.events_silent rfl 0 _ [], hx, conducts_saying plain_shapes u⟩

/-- The handler for the empty environment. -/
def emptyReader : Value := Handler.ofFunctions [(readName, .readAll 0 []), (askName, .askFor [])] none

/-- A program says something and asks for a name, and what is grafted onto it does so again. Under the script
that says, both ways what is said first is heard, and the question for the name is left. And under a reader
both ways a program that reads the environment and then its own value ends so. -/
theorem handling_distributes_saying :
    (∃ cs o t ds o' u,
      Traced ((Program.graft sayingProgram (.arrowOf (.constant sayingProgram))).bind fun b =>
        Action.ask (.handler 0 sayTable none) [b]) Store.empty cs o t ∧
      Traced ((Action.ask (.handler 0 sayTable none) [sayingProgram]).bind
        (Program.graft · (.arrowOf (.under sayTable none (.arrowOf (.constant sayingProgram))))))
        Store.empty ds o' u ∧
      sinkListener.events Value.shape cs = [.said (.text "a")] ∧
      sinkListener.events Value.shape ds = [.said (.text "a")] ∧
      Looks Value.shape o (.operation "name" []) ∧ Looks Value.shape o' (.operation "name" [])) ∧
    ∃ cs o t ds o' next n,
      Traced ((Program.graft Environment.read (.arrowOf .leaf)).bind fun b => Action.ask emptyReader [b])
        Store.empty cs o t ∧
      Traced ((Action.ask emptyReader [Environment.read]).bind (Program.graft · next)) Store.empty ds o' t ∧
      Looks id o n ∧ Looks id o' n := by
  constructor
  · have htable : ∀ entry ∈ sayTable, ∃ react, Reacts Venue.shapes sinkListener entry.2 react :=
      List.forall_mem_singleton.2 ⟨_, reacts_sayScript plain_shapes⟩
    have hopens := opens_saying Store.empty
    have hp := conducts_saying (τ := Unit) plain_shapes Store.empty
    have hsay : Venue.shapes.reaction sinkListener sayScript [.text "a"] () [.said (.text "a")]
        (.ok .nothing) () := ⟨Says, reacts_sayScript plain_shapes, .said _ _⟩
    let both := (Saying.conduct (τ := Unit)).followed (fun _ x es m y => es = [] ∧ m = .saying ∧ y = x)
      Saying.conduct
    have hsaid : both.next (.inl .saying) .nothing () [] (.inl .asking) () :=
      ⟨.asking, (), [], [], Saying.Next.said _ _, .stays nofun, rfl⟩
    have hrests : both.Rests (Venue.shapes.reactions sinkListener sayTable) (.inl .asking) :=
      fun _ _ hname => by cases hname; rfl
    have hplays : both.Plays (Venue.shapes.reactions sinkListener sayTable) (.inl .saying) ()
        [.said (.text "a")] (.rests (.inl .asking)) () := .resumes rfl rfl hsay hsaid (.rests hrests)
    obtain ⟨cs, o, t, htr, -, hevents, -, ho⟩ :=
      (ends_handled_graft 0 htable rfl hopens hp (x := ()) trivial).as _ _ _
        ⟨[], .inl .saying, (), _, .stays nofun, hplays, rfl⟩
    obtain ⟨hfollows, -⟩ := handling_distributes.1 Shape Unit Saying Saying Venue.shapes sinkListener
      Saying.conduct Saying.conduct _ 0 sayTable Store.empty sayingProgram _ .saying () htable rfl hopens hp _
      rfl (.inl rfl)
    obtain ⟨y, z, ds, o', u, -, htr', hevents', -, -, halike⟩ := hfollows trivial cs o t htr
    obtain ⟨n, hn, hn'⟩ := halike.looks
    obtain rfl := hn.unique ho.looks
    exact ⟨cs, o, t, ds, o', u, htr, htr', hevents, hevents'.trans hevents, ho.looks, hn'⟩
  · have hmade : (Environment.handler .nothing).MayGive emptyReader :=
      ⟨Store.empty, [], Store.empty, .done _ _⟩
    obtain ⟨tag, table, hreader, hdistributes⟩ := handling_distributes.2 emptyReader (.reader hmade)
    have hrun : (Action.run Value.apply 100 ((Program.graft Environment.read (.arrowOf .leaf)).bind fun b =>
        Action.ask emptyReader [b]) [] .empty).isSome = true := by decide +kernel
    obtain ⟨⟨o, t⟩, hrun⟩ := Option.isSome_iff_exists.1 hrun
    obtain ⟨cs, htr⟩ := (Action.exists_run_iff.1 ⟨100, hrun⟩).exists_traced
    obtain ⟨y, z, ds, o', z', rfl, htr', -, hy, hy', halike⟩ :=
      (hdistributes .scripts Environment.read (.arrowOf .leaf) .empty rfl).1 rfl cs o t htr
    obtain rfl : y = z := hy
    obtain rfl : y = z' := hy'
    obtain ⟨n, hn, hn'⟩ := halike.looks
    exact ⟨cs, o, y, ds, o', _, n, htr, htr', hn, hn'⟩

end Witness

end AlgebraicEffects
