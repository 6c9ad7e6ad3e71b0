import AlgebraicEffects.Proofs.Stacks.Evaluating
import AlgebraicEffects.Proofs.Stacks.Scripted
import AlgebraicEffects.Run
import Mathlib.Data.List.Basic

/-!
The order of handlers that resume last makes no difference.

An operation goes to the first handler that has an implementation for it. If no two handlers have one for
the same effect, it is the same one in any order, and in one handler with the entries of all. Main
statement: whatever the arrangement, programs end alike and act alike, and so they do under the common
handlers for environments, output and chance (`stacks_agree`).
-/

set_option autoImplicit false

namespace AlgebraicEffects

open Action (Traced)

variable {V τ σ : Type} {T : Venue V τ} {L : Listener} {K : Conduct V τ σ}

section Arrangements

/-- The implementations that a handler has. -/
def Value.implementations : Value → Handler.Table
  | .handler _ table _ => table
  | _ => []

/-- The effects that a handler has implementations for. -/
def Value.effects (h : Value) : List String := h.implementations.map Prod.fst

/-- The reactions of the implementations in a table. -/
def Venue.reactions (T : Venue V τ) (L : Listener) (table : Handler.Table) : Reactions V τ :=
  fun name => (table.lookup name).map (T.reaction L)

/-- Handlers without leaf transforms, no two of them for one effect, whose implementations resume once, as
the last thing they do, or fail. -/
structure Independent (T : Venue V τ) (L : Listener) (handlers : List Value) : Prop where
  plain : ∀ h ∈ handlers, ∃ tag table, h = .handler tag table none
  resumes : ∀ h ∈ handlers, ∀ entry ∈ h.implementations, ∃ react, Reacts T L entry.2 react
  disjoint : handlers.Pairwise fun g h => List.Disjoint g.effects h.effects

/-- The handlers in some order, or one handler with the entries of all of them. -/
inductive Arranged (handlers : List Value) : List Value → Prop where
  | ordered {stack : List Value} : stack.Perm handlers → Arranged handlers stack
  | united {others : List Value} (tag : Nat) : others.Perm handlers →
      Arranged handlers [.handler tag (others.flatMap Value.implementations) none]

theorem mem_of_lookup {table : Handler.Table} {name : String} {implementation : Value}
    (h : table.lookup name = some implementation) : (name, implementation) ∈ table := by
  obtain ⟨inner, outer, rfl, -⟩ := List.lookup_eq_some_iff.1 h
  simp

theorem Handled.of_reacts {occurs : String → Prop} {table : Handler.Table}
    (h : ∀ entry ∈ table, ∃ react, Reacts T L entry.2 react) :
    Handled T L occurs table (T.reactions L table) := by
  intro name _
  cases hname : table.lookup name with
  | none => exact .inl ⟨rfl, by rw [Venue.reactions, hname, Option.map_none]⟩
  | some implementation =>
    obtain ⟨react, hreact⟩ := h _ (mem_of_lookup hname)
    exact .inr ⟨implementation, _, rfl, by rw [Venue.reactions, hname, Option.map_some],
      hreact.canonical⟩

theorem reactions_append (table table' : Handler.Table) :
    T.reactions L (table ++ table') = (T.reactions L table).orElse (T.reactions L table') := by
  funext name
  rw [Venue.reactions, List.lookup_append, Option.map_or]
  rfl

/-- Applied in this order, the handlers have the reactions of all their implementations. -/
theorem stacked_of_resumes {occurs : String → Prop} {handlers : List Value}
    (hplain : ∀ h ∈ handlers, ∃ tag table, h = .handler tag table none)
    (h : ∀ h ∈ handlers, ∀ entry ∈ h.implementations, ∃ react, Reacts T L entry.2 react) :
    Stacked T L occurs handlers (T.reactions L (handlers.flatMap Value.implementations)) := by
  induction handlers with
  | nil => exact .nil
  | cons handler handlers ih =>
    obtain ⟨tag, table, rfl⟩ := hplain _ List.mem_cons_self
    rw [List.flatMap_cons, reactions_append]
    exact .cons (.of_reacts (h _ List.mem_cons_self))
      (ih (fun g hg => hplain g (List.mem_cons_of_mem _ hg)) fun g hg => h g (List.mem_cons_of_mem _ hg))

/-- Where no two handlers are for one effect, an implementation is found if any of them has it. -/
theorem lookup_flatMap_iff {handlers : List Value} {name : String} {implementation : Value}
    (h : handlers.Pairwise fun g h => List.Disjoint g.effects h.effects) :
    (handlers.flatMap Value.implementations).lookup name = some implementation ↔
      ∃ g ∈ handlers, g.implementations.lookup name = some implementation := by
  induction handlers with
  | nil => simp
  | cons g handlers ih =>
    obtain ⟨hg, hrest⟩ := List.pairwise_cons.1 h
    rw [List.flatMap_cons, List.lookup_append, Option.or_eq_some_iff, ih hrest, List.exists_mem_cons_iff]
    constructor
    · rintro (hfound | ⟨-, hfound⟩)
      · exact .inl hfound
      · exact .inr hfound
    · rintro (hfound | ⟨g', hg', hfound⟩)
      · exact .inl hfound
      · refine .inr ⟨?_, g', hg', hfound⟩
        cases hname : g.implementations.lookup name with
        | none => rfl
        | some other =>
          exact (hg g' hg' (List.mem_map.2 ⟨_, mem_of_lookup hname, rfl⟩)
            (List.mem_map.2 ⟨_, mem_of_lookup hfound, rfl⟩)).elim

/-- The order of independent handlers does not matter to what is found. -/
theorem reactions_perm {handlers others : List Value} (hperm : others.Perm handlers)
    (h : handlers.Pairwise fun g h => List.Disjoint g.effects h.effects) :
    T.reactions L (others.flatMap Value.implementations) =
      T.reactions L (handlers.flatMap Value.implementations) := by
  have hsymm {g h : Value} (hgh : List.Disjoint g.effects h.effects) :
      List.Disjoint h.effects g.effects := fun _ ha hb => hgh hb ha
  have hothers := (hperm.pairwise_iff hsymm).2 h
  funext name
  have hname : (others.flatMap Value.implementations).lookup name =
      (handlers.flatMap Value.implementations).lookup name := by
    refine Option.ext fun implementation => ?_
    rw [lookup_flatMap_iff hothers, lookup_flatMap_iff h]
    simp only [hperm.mem_iff]
  rw [Venue.reactions, hname]
  rfl

/-- Under independent handlers, however they are arranged, the program goes on as the machine under all of
their reactions does. -/
theorem Independent.ends_applyAll {handlers stack : List Value} (h : Independent T L handlers)
    (hstack : Arranged handlers stack) {w : T.World} {p : Value} {q : σ} {x : τ}
    (hp : Conducts T L K w (.ok p) q) (hx : T.Holds w x) :
    EndsAs T L (Handler.applyAll p stack) w
      (K.Plays (T.reactions L (handlers.flatMap Value.implementations)) q x)
      (Conducts T L (K.under (T.reactions L (handlers.flatMap Value.implementations)))) := by
  cases hstack with
  | ordered hperm =>
    have hstacked : Stacked T L (fun _ => True) stack
        (T.reactions L (stack.flatMap Value.implementations)) :=
      stacked_of_resumes (fun g hg => h.plain g (hperm.mem_iff.1 hg))
        fun g hg => h.resumes g (hperm.mem_iff.1 hg)
    rw [reactions_perm hperm h.disjoint] at hstacked
    exact AlgebraicEffects.ends_applyAll hstacked (fun _ _ => trivial) hp hx
  | @united others tag hperm =>
    have hstacked : Stacked T L (fun _ => True)
        [.handler tag (others.flatMap Value.implementations) none]
        (T.reactions L ([Value.handler tag (others.flatMap Value.implementations) none].flatMap
          Value.implementations)) := by
      refine stacked_of_resumes ?_ ?_
      · rintro g hg
        exact ⟨_, _, List.mem_singleton.1 hg⟩
      · rintro g hg entry hentry
        rw [List.mem_singleton.1 hg] at hentry
        obtain ⟨g', hg', hentry'⟩ := List.mem_flatMap.1 hentry
        exact h.resumes g' (hperm.mem_iff.1 hg') entry hentry'
    have hunited : (Value.handler tag (others.flatMap Value.implementations) none).implementations =
        others.flatMap Value.implementations := rfl
    rw [List.flatMap_singleton, hunited, reactions_perm hperm h.disjoint] at hstacked
    exact AlgebraicEffects.ends_applyAll hstacked (fun _ _ => trivial) hp hx

/-- A tuple of handlers is applied as it stands. -/
theorem applyEach_tuple (p : Value) (tag : Nat) (handlers : List Value) :
    Handler.applyEach p (.tuple tag handlers) = Handler.applyAll p handlers := by
  have hturns : (handlers.mapIdx fun i h => Action.itemNow 0 i h) = handlers.map .done := by
    rw [List.mapIdx_eq_iff]
    intro i
    rw [List.getElem?_map]
    rfl
  show Handler.applyTurns p (handlers.mapIdx (Action.itemNow 0)) = _
  rw [show handlers.mapIdx (Action.itemNow 0) = handlers.map .done from hturns]
  rfl

end Arrangements

section Preset

/-- The common handlers: for the environment, for output and for chance. -/
def presetOf (tag : Nat) (entries : List (Value × Value)) (sink : Value) (address : Nat) : List Value :=
  [Handler.ofFunctions [(Environment.readName, .readAll tag entries),
      (Environment.askName, .askFor entries)] none,
    Handler.ofFunctions [(Output.printName, .emitTo sink)] none,
    Handler.ofFunctions [(Chance.randomName, .draw address)] none]

/-- What has come to a value has come to one in its first part. -/
theorem Action.Runs.of_bind_ok {α β : Type} {a : Action α} {k : α → Action β} {s u : Store} {y : β}
    (h : Runs Value.apply (a.bind k) s (.ok y) u) :
    ∃ x t, Runs Value.apply a s (.ok x) t ∧ Runs Value.apply (k x) t (.ok y) u := by
  rcases Action.runs_bind_iff.1 h with ⟨x, t, hx, hy⟩ | ⟨f, hf, -⟩
  · exact ⟨x, t, hx, hy⟩
  · cases hf

theorem exists_of_preset {environment sink seed hs : Value} {s t : Store} {cs : List Call}
    (h : Traced (Run.preset environment sink seed) s cs (.ok hs) t) :
    ∃ tag entries address, hs = .list 0 (presetOf tag entries sink address) := by
  obtain ⟨reader, s₁, hreader, h⟩ := h.runs.of_bind_ok
  obtain ⟨printer, s₂, hprinter, h⟩ := h.of_bind_ok
  obtain ⟨random, s₃, hrandom, h⟩ := h.of_bind_ok
  cases h
  obtain ⟨tag, entries, rfl⟩ : ∃ tag entries, reader = Handler.ofFunctions [(Environment.readName,
      .readAll tag entries), (Environment.askName, .askFor entries)] none := by
    obtain ⟨v, _, -, hv⟩ := hreader.of_bind_ok
    cases v with
    | frozen tag entries =>
      cases hv
      exact ⟨tag, entries, rfl⟩
    | _ => cases hv
  obtain rfl : printer = Handler.ofFunctions [(Output.printName, .emitTo sink)] none := by
    unfold Output.printHandler at hprinter
    split at hprinter
    · cases hprinter
      rfl
    · cases hprinter
  obtain ⟨address, rfl⟩ : ∃ address, random =
      Handler.ofFunctions [(Chance.randomName, .draw address)] none := by
    obtain ⟨n, _, -, hn⟩ := hrandom.of_bind_ok
    obtain ⟨address, _, -, haddress⟩ := hn.of_bind_ok
    cases haddress
    exact ⟨address, rfl⟩
  exact ⟨tag, entries, address, rfl⟩

/-- Where nothing is overlooked, the common handlers are independent. -/
theorem independent_presetOf (L : Listener) (tag : Nat) (entries : List (Value × Value)) (sink : Value)
    (address : Nat) : Independent Venue.exact L (presetOf tag entries sink address) where
  plain := by
    intro h hh
    simp only [presetOf, List.mem_cons, List.not_mem_nil, or_false] at hh
    rcases hh with rfl | rfl | rfl <;> exact ⟨_, _, rfl⟩
  resumes := by
    intro h hh entry hentry
    simp only [presetOf, List.mem_cons, List.not_mem_nil, or_false] at hh
    rcases hh with rfl | rfl | rfl
    · rcases List.mem_cons.1 hentry with rfl | hentry
      · exact ⟨_, (Environment.readAll_actsAndResumes tag entries).reacts (actsAs_doing L _ _ _)⟩
      · rw [List.mem_singleton.1 hentry]
        exact ⟨_, (Environment.askFor_actsAndResumes entries).reacts (actsAs_doing L _ _ _)⟩
    · rw [List.mem_singleton.1 hentry]
      exact ⟨_, (Output.actsAndResumes sink).reacts (actsAs_doing L _ _ _)⟩
    · rw [List.mem_singleton.1 hentry]
      exact ⟨_, (Chance.actsAndResumes address).reacts (actsAs_doing L _ _ _)⟩
  disjoint := by
    have hnames : ([["read", "ask"], ["print"], ["random"]] : List (List String)).Pairwise
        List.Disjoint := by
      simp
    exact List.pairwise_map.1 hnames

end Preset

/-- Handlers without leaf transforms and with no effect in common, whose implementations act on private
states and then resume once or fail, may be applied in any order, and may be one handler: the program ends
as the machine that it is does when its operations are reacted to, after the same events and with the same
private states, and what it ends as goes on alike when it is resumed. So it is with the common handlers,
whatever the environment, the sink and the seed are, and whatever the program is. -/
theorem stacks_agree :
    (∀ (V τ σ : Type) (T : Venue V τ) (L : Listener) (K : Conduct V τ σ)
      (handlers stack stack' : List Value) (w w' : T.World) (p p' : Value) (q : σ) (x : τ),
      Independent T L handlers → Arranged handlers stack → Arranged handlers stack' →
      Conducts T L K w (.ok p) q → Conducts T L K w' (.ok p') q → T.Holds w x → T.Holds w' x →
      ∀ cs o t, Traced (Handler.applyEach p (.tuple 0 stack)) (T.store w) cs o t →
        ∃ v y z cs' o' z',
          K.Plays (T.reactions L (handlers.flatMap Value.implementations)) q x (L.events T.see cs) v y ∧
          T.store z = t ∧
          Traced (Handler.applyEach p' (.tuple 0 stack')) (T.store w') cs' o' (T.store z') ∧
          L.events T.see cs' = L.events T.see cs ∧ T.Holds z y ∧ T.Holds z' y ∧ Alike T L z z' o o') ∧
    ∀ (environment sink seed hs : Value) (s t : Store) (cs : List Call),
      Traced (Run.preset environment sink seed) s cs (.ok hs) t →
      ∃ handlers, hs = .list 0 handlers ∧ ∀ (L : Listener) (stack stack' : List Value),
        Arranged handlers stack → Arranged handlers stack' → ∀ p u ds o v,
          Traced (Handler.applyEach p (.tuple 0 stack)) u ds o v →
          ∃ ds' o', Traced (Handler.applyEach p (.tuple 0 stack')) u ds' o' v ∧
            L.events id ds' = L.events id ds ∧ Alike Venue.exact L v v o o' := by
  have hgeneral (V τ σ : Type) (T : Venue V τ) (L : Listener) (K : Conduct V τ σ)
      (handlers stack stack' : List Value) (w w' : T.World) (p p' : Value) (q : σ) (x : τ)
      (h : Independent T L handlers) (hstack : Arranged handlers stack)
      (hstack' : Arranged handlers stack') (hp : Conducts T L K w (.ok p) q)
      (hp' : Conducts T L K w' (.ok p') q) (hx : T.Holds w x) (hx' : T.Holds w' x) (cs : List Call)
      (o : Ending) (t : Store)
      (htr : Traced (Handler.applyEach p (.tuple 0 stack)) (T.store w) cs o t) :
      ∃ v y z cs' o' z',
        K.Plays (T.reactions L (handlers.flatMap Value.implementations)) q x (L.events T.see cs) v y ∧
        T.store z = t ∧
        Traced (Handler.applyEach p' (.tuple 0 stack')) (T.store w') cs' o' (T.store z') ∧
        L.events T.see cs' = L.events T.see cs ∧ T.Holds z y ∧ T.Holds z' y ∧ Alike T L z z' o o' := by
    rw [applyEach_tuple] at htr ⊢
    obtain ⟨es, v, y, z, hplays, rfl, -, rfl, hy, hv⟩ :=
      (h.ends_applyAll hstack hp hx).exists_of_traced htr
    obtain ⟨cs', o', z', htr', -, hevents, hy', hv'⟩ :=
      (h.ends_applyAll hstack' hp' hx').as _ v y hplays
    exact ⟨v, y, z, cs', o', z', hplays, rfl, htr', hevents, hy, hy', _, _, v, hv, hv'⟩
  refine ⟨hgeneral, fun environment sink seed hs s t cs h => ?_⟩
  obtain ⟨tag, entries, address, rfl⟩ := exists_of_preset h
  refine ⟨_, rfl, fun L stack stack' hstack hstack' p u ds o v htr => ?_⟩
  obtain ⟨_, y, z, ds', o', z', -, rfl, htr', hevents, hy, hy', halike⟩ :=
    hgeneral Value Store Ending Venue.exact L (.itself L) _ stack stack' u u p p (.ok p) u
      (independent_presetOf L tag entries sink address) hstack hstack' (conducts_itself L u _)
      (conducts_itself L u _) rfl rfl ds o v htr
  obtain rfl : y = z := hy
  obtain rfl : y = z' := hy'
  exact ⟨ds', o', htr', hevents, halike⟩

section Witness

/-- The scripts are independent. -/
theorem independent_scripts : Independent Venue.shapes sinkListener scripts where
  plain := by
    intro h hh
    rcases List.mem_pair.1 hh with rfl | rfl <;> exact ⟨_, _, rfl⟩
  resumes := by
    intro h hh entry hentry
    rcases List.mem_pair.1 hh with rfl | rfl
    · rw [List.mem_singleton.1 hentry]
      exact ⟨_, reacts_sayScript plain_shapes⟩
    · rw [List.mem_singleton.1 hentry]
      exact ⟨_, reacts_answerScript plain_shapes "b"⟩
  disjoint := by
    have hnames : ([["say"], ["name"]] : List (List String)).Pairwise List.Disjoint := by simp
    exact List.pairwise_map.1 hnames

/-- The program says what it has to and ends with the name. -/
theorem says_and_ends : Saying.conduct.Plays
    (Venue.shapes.reactions sinkListener (scripts.flatMap Value.implementations)) .saying ()
    [.said (.text "a")] (.rests (.named (.text "b"))) () := by
  have hsay : Venue.shapes.reaction sinkListener sayScript [.text "a"] () [.said (.text "a")]
      (.ok .nothing) () := ⟨Says, reacts_sayScript plain_shapes, .said _ _⟩
  have hname : Venue.shapes.reaction sinkListener (answerScript "b") [] () [] (.ok (.text "b")) () :=
    ⟨Gives "b", reacts_answerScript plain_shapes "b", .answered _⟩
  exact Conduct.Plays.resumes (K := Saying.conduct) rfl rfl hsay (Saying.Next.said _ _)
    (Conduct.Plays.resumes (K := Saying.conduct) rfl rfl hname (Saying.Next.answered _ _) (.rests nofun))

/-- Under the common handlers the operation that reads the environment is answered the environment. -/
theorem reads_and_ends (L : Listener) (tag : Nat) (entries : List (Value × Value)) (sink : Value)
    (address : Nat) (s : Store) : (Conduct.itself L).Plays
      (Venue.exact.reactions L ((presetOf tag entries sink address).flatMap Value.implementations))
      (.ok Environment.read) s [] (.rests (.ok (.leaf 0 (.frozen tag entries)))) s := by
  have hread : Venue.exact.reaction L (.arrowOf (.readAll tag entries)) [] s []
      (.ok (.frozen tag entries)) s :=
    ⟨_, (Environment.readAll_actsAndResumes tag entries).reacts (actsAs_doing L _ _ _),
      [], .ok (), .done _ _, rfl, rfl⟩
  have hleaf : Traced (Action.ask (.arrowOf .leaf) [.frozen tag entries]) s
      [.mk (.arrowOf .leaf) (.of [.frozen tag entries]) []] (.ok (.leaf 0 (.frozen tag entries))) s :=
    .invoke (.done _ _)
  exact Conduct.Plays.resumes (K := Conduct.itself L) rfl rfl hread
    ⟨0, _, [], _, _, rfl, hleaf, Listener.events_silent rfl 1 _ []⟩ (.rests nofun)

/-- Two scripts, in either order: what the program says is heard, and it ends with the name. And the common
handlers, in either order: the program that reads the environment ends with it. -/
theorem stacks_agree_scripts :
    (∃ cs o t, Traced (Handler.applyEach sayingProgram (.tuple 0 scripts)) Store.empty cs o t ∧
      ∃ cs' o' z, Traced (Handler.applyEach sayingProgram (.tuple 0 scripts.reverse)) Store.empty cs' o' z ∧
        sinkListener.events Value.shape cs = [.said (.text "a")] ∧
        sinkListener.events Value.shape cs' = [.said (.text "a")] ∧
        Looks Value.shape o (.leaf (.text "b")) ∧ Looks Value.shape o' (.leaf (.text "b"))) ∧
    ∃ handlers t, Traced (Run.preset .nothing (.arrowOf .standardOutput) .nothing) Store.empty []
        (.ok (.list 0 handlers)) t ∧
      ∃ cs o cs' o' u, Traced (Handler.applyEach Environment.read (.tuple 0 handlers)) t cs o u ∧
        Traced (Handler.applyEach Environment.read (.tuple 0 handlers.reverse)) t cs' o' u ∧
        Looks id o (.leaf (.frozen 0 [])) ∧ Looks id o' (.leaf (.frozen 0 [])) := by
  constructor
  · have hends := independent_scripts.ends_applyAll (w := Store.empty) (.ordered (.refl _))
      (conducts_saying plain_shapes Store.empty) (x := ()) trivial
    obtain ⟨cs, o, t, htr, -, hevents, -, ho⟩ := hends.as _ _ _ says_and_ends
    rw [← applyEach_tuple _ 0] at htr
    obtain ⟨v, y, z, cs', o', z', -, -, htr', hevents', -, -, halike⟩ :=
      stacks_agree.1 Shape Unit Saying Venue.shapes sinkListener Saying.conduct scripts scripts
        scripts.reverse Store.empty Store.empty sayingProgram sayingProgram .saying ()
        independent_scripts (.ordered (.refl _)) (.ordered (List.reverse_perm _))
        (conducts_saying plain_shapes _) (conducts_saying plain_shapes _) trivial trivial cs o t htr
    obtain ⟨n, hn, hn'⟩ := halike.looks
    obtain rfl := hn.unique ho.looks
    exact ⟨cs, o, t, htr, cs', o', z', htr', hevents, hevents'.trans hevents, ho.looks, hn'⟩
  · have hpreset : Traced (Run.preset .nothing (.arrowOf .standardOutput) .nothing) Store.empty []
        (.ok (.list 0 (presetOf 0 [] (.arrowOf .standardOutput) 0)))
        { Store.empty with twisters := #[Twister.ofSeed 0] } :=
      .read (.write (.done _ _))
    obtain ⟨handlers, hhandlers, hagree⟩ := stacks_agree.2 _ _ _ _ _ _ _ hpreset
    cases hhandlers
    obtain ⟨cs, o, u, htr, -, -, -, ho⟩ :=
      ((independent_presetOf sinkListener 0 [] _ 0).ends_applyAll (.ordered (.refl _))
        (conducts_itself sinkListener _ (.ok Environment.read)) rfl).as _ _ _
          (reads_and_ends sinkListener 0 [] _ 0 _)
    rw [← applyEach_tuple _ 0] at htr
    obtain ⟨cs', o', htr', -, halike⟩ := hagree sinkListener _ _ (.ordered (.refl _))
      (.ordered (List.reverse_perm _)) _ _ _ _ _ htr
    obtain ⟨n, hn, hn'⟩ := halike.looks
    obtain rfl := hn.unique ho.looks
    exact ⟨_, _, hpreset, cs, o, cs', o', u, htr, htr', ho.looks, hn'⟩

end Witness

end AlgebraicEffects
