import AlgebraicEffects.Proofs.Comparing.Hosting
import AlgebraicEffects.Proofs.Comparing.Residues

/-!
Handlers of programs that wait.

Where waits are passed, what the library does by itself goes likewise in both runs
(`Comparison.passing_fair`), and so does what depends on the private state only, such as giving messages to a
sink (`ActsWithin`). So the handlers for output, logging, environments, chance and choice
(`Venue.Serves`) keep runs aligned, also when they are applied to programs that wait
(`Comparison.Aligned.layered`).
-/

set_option autoImplicit false

namespace AlgebraicEffects

open Action (Traced)
open Choice (decideName failName)
open Comparison (elsewhere passing)
open Log (logName)
open Output (printName)
open Suspension (suspendName nowName)

variable {V τ : Type} {T : Venue V τ} {drawn : Nat → Prop} {L : Listener} {lists : Option (Nat × Nat)}

section Acting

/-- The library works for itself while a program runs: beside agendas and results it changes what it keeps. -/
structure Store.Stirs (drawn : Nat → Prop) (s t : Store) : Prop extends s.Moves drawn t where
  agendas : t.agendas = s.agendas
  completed : t.completed = s.completed

variable {α : Type} {hT : T.Lets drawn} {w u : T.World}

namespace Comparison

/-- Such work goes likewise if afterwards the generators that are drawn from are still the same. -/
theorem Likewise.writing {f g : Store → Store} {x x' : α} {P : T.World → T.World → α → α → Prop}
    (hlevel : (passing hT L lists).Level w u) (hf : (T.store w).Stirs drawn (f (T.store w)))
    (hg : (T.store u).Stirs drawn (g (T.store u)))
    (htwisters : ∀ i, drawn i → (f (T.store w)).twisters[i]? = (g (T.store u)).twisters[i]?)
    (hP : ∀ z y, P z y x x') :
    (passing hT L lists).Likewise (.write f (.done x)) w (.write g (.done x')) u P := by
  intro cs r t htr
  cases htr with
  | write htr =>
    cases htr
    obtain ⟨z, hz, hstore, hholds⟩ := hT.moved hf.toMoves
    obtain ⟨y, hy, hstore', hholds'⟩ := hT.moved hg.toMoves
    obtain ⟨⟨x, hx, hx'⟩, hlevels⟩ := hlevel
    have hkeeps {s t : Store} (h : s.Stirs drawn t) : (passing hT L lists).Keeps s [] t :=
      ⟨fun _ _ ha => h.agendas ▸ ha, fun _ _ _ hv => h.completed ▸ hv, nofun⟩
    refine ⟨[], _, z, y, ?_, hstore, hz, hy, ⟨⟨x, hholds x hx, hholds' x hx'⟩, ?_⟩, rfl, hkeeps hf, ?_,
      .ok (hP z y)⟩
    · show Traced _ _ _ _ (T.store y)
      rw [hstore']
      exact .write (.done _ _)
    · rw [show T.store z = _ from hstore, show T.store y = _ from hstore']
      refine ⟨fun hi => htwisters _ hi, ?_⟩
      rw [hf.completed, hg.completed]
      exact hlevels.completed
    · show (passing hT L lists).Keeps _ _ (T.store y)
      rw [hstore']
      exact hkeeps hg

end Comparison

/-- Acting depends on the private state only, leaves alone what runners keep, and does not wait. -/
def ActsWithin (T : Venue V τ) (drawn : Nat → Prop) (L : Listener) (act : List Value → Action α)
    (answer : α → List Value) : Prop :=
  ∃ react : Reaction V τ, (∀ ps x es o y, react ps x es o y → ∀ e ∈ es, e.isTold = true) ∧
    ActsAs (T.keeping drawn) L act answer (fun _ => []) react.spared

/-- Sights tell which of two values is less. -/
def Venue.Ranks (T : Venue V τ) : Prop :=
  ∀ w u x a a' b b', T.Holds w x → T.Holds u x → T.see a = T.see a' → T.see b = T.see b' →
    ((T.store w).show a).less? ((T.store w).show b) = ((T.store u).show a').less? ((T.store u).show b')

namespace Comparison

/-- So it goes likewise. -/
theorem likewise_of_within {act : List Value → Action α} {answer : α → List Value}
    (h : ActsWithin T drawn L act answer) (hlevel : (passing hT L lists).Level w u)
    {params params' : List Value} (hparams : List.Forall₂ ((passing hT L lists).Same w u) params params') :
    (passing hT L lists).Likewise (act params) w (act params') u fun _ _ b b' =>
      T.see (answered (answer b)) = T.see (answered (answer b')) := by
  obtain ⟨react, hquiet, hact⟩ := h
  obtain ⟨⟨x, hx, hx'⟩, hlevels⟩ := hlevel
  have hsee : params.map T.see = params'.map T.see := map_see hparams
  have hholds (w : T.World) (h : T.Holds w x) : (T.keeping drawn).Holds w (x, T.store w) := ⟨h, .refl _⟩
  have hkeeps {w z : T.World} {cs : List Call} (hheld : (T.store w).Respects drawn (T.store z))
      (htold : ∀ e ∈ L.events T.see cs, e.isTold = true) :
      (passing hT L lists).Keeps (T.store w) (L.events T.see cs) (T.store z) :=
    ⟨fun _ _ => hheld.agendas, fun _ _ _ => hheld.completed, htold⟩
  intro cs r t htr
  obtain ⟨es, q, ⟨y, b⟩, hreact, hb⟩ := hact.ends (hholds w hx) htr
  cases hb
  -- The reaction says how both actions end.
  cases q with
  | ok a =>
    obtain ⟨ds, b, z, hds, hz, hheld, -, hb, hevents⟩ := hact.answers (hholds w hx) ⟨hreact, rfl⟩
    obtain ⟨rfl, rfl, rfl⟩ := htr.unique hds
    rw [show params.map (T.keeping drawn).see = _ from hsee] at hreact
    obtain ⟨ds, b', z', hds', hz', hheld', -, hb', hevents'⟩ :=
      hact.answers (hholds u hx') (y := (y, T.store u)) ⟨hreact, rfl⟩
    have hsaid : L.events T.see cs = es := hevents
    have hsaid' : L.events T.see ds = es := hevents'
    have htold := hquiet _ _ _ _ _ hreact
    exact ⟨ds, _, z, z', hds', rfl, hz, hz', ⟨⟨y, hheld.1, hheld'.1⟩,
      hlevels.held hheld.2.holds hheld'.2.holds⟩, congrArg _ (hsaid.trans hsaid'.symm),
      hkeeps hheld.2 (hsaid ▸ htold), hkeeps hheld'.2 (hsaid' ▸ htold), .ok (hb.trans hb'.symm)⟩
  | error g =>
    obtain ⟨ds, f, z, hds, hz, hheld, hf, hevents⟩ := hact.fails (hholds w hx) ⟨hreact, rfl⟩
    obtain ⟨rfl, rfl, rfl⟩ := htr.unique hds
    rw [show params.map (T.keeping drawn).see = _ from hsee] at hreact
    obtain ⟨ds, f', z', hds', hz', hheld', hf', hevents'⟩ :=
      hact.fails (hholds u hx') (y := (y, T.store u)) ⟨hreact, rfl⟩
    have hsaid : L.events T.see cs = es := hevents
    have hsaid' : L.events T.see ds = es := hevents'
    have htold := hquiet _ _ _ _ _ hreact
    exact ⟨ds, _, z, z', hds', rfl, hz, hz', ⟨⟨y, hheld.1, hheld'.1⟩,
      hlevels.held hheld.2.holds hheld'.2.holds⟩, congrArg _ (hsaid.trans hsaid'.symm),
      hkeeps hheld.2 (hsaid ▸ htold), hkeeps hheld'.2 (hsaid' ▸ htold), .error (hf.trans hf'.symm)⟩

/-- The library treats what looks the same in the same way. -/
theorem passing_fair (hT : T.Lets drawn) : (passing hT L lists).Fair where
  nothing _ _ := rfl
  bool _ _ _ := rfl
  number _ _ _ := rfl
  list h := hT.list (map_see h)
  tuple h := hT.tuple (map_see h)
  log {w u m m'} level hlevel _ := by
    have hstirs (records : List Record) (w : T.World) :
        (T.store w).Stirs drawn { T.store w with records := records } :=
      ⟨⟨Nat.le_refl _, fun _ => rfl, rfl⟩, rfl, rfl⟩
    refine .read (.writing hlevel (hstirs _ w) (hstirs _ u) (fun _ hi => ?_) fun _ _ => trivial)
    exact hlevel.2.twisters hi

theorem passing_draws (hT : T.Lets drawn) {address : Nat} (haddress : drawn address) :
    (passing hT L lists).Draws address := by
  intro w u hlevel
  have hsame : (T.store w).twisters[address]? = (T.store u).twisters[address]? :=
    hlevel.2.twisters haddress
  refine .read ?_
  simp only [show (T.scene hT).store = T.store from rfl, ← hsame]
  cases htwister : (T.store w).twisters[address]? with
  | none => exact .fail _ hlevel
  | some twister =>
    have hstirs (w : T.World) : (T.store w).Stirs drawn { T.store w with
        twisters := (T.store w).twisters.setIfInBounds address twister.nextUnit.2 } :=
      ⟨⟨Nat.le_refl _, fun hi => Array.getElem?_setIfInBounds_ne (by rintro rfl; exact hi haddress), rfl⟩,
        rfl, rfl⟩
    refine .writing hlevel (hstirs w) (hstirs u) (fun i hi => ?_) fun _ _ => rfl
    show ((T.store w).twisters.setIfInBounds address _)[i]? = ((T.store u).twisters.setIfInBounds address _)[i]?
    by_cases hne : address = i
    · subst hne
      obtain ⟨hlt, -⟩ := Array.getElem?_eq_some_iff.1 htwister
      obtain ⟨hlt', -⟩ := Array.getElem?_eq_some_iff.1 (hsame.symm.trans htwister)
      rw [Array.getElem?_setIfInBounds_self, Array.getElem?_setIfInBounds_self, if_pos hlt, if_pos hlt']
    · rw [Array.getElem?_setIfInBounds_ne hne, Array.getElem?_setIfInBounds_ne hne]
      exact hlevel.2.twisters hi

theorem passing_ranks (h : T.Ranks) : (passing hT L lists).Ranks := by
  intro w u a a' b b' hlevel ha hb
  obtain ⟨x, hx, hx'⟩ := hlevel.1
  refine .read (.read ?_)
  show (passing hT L lists).Likewise (Value.ordered (((T.store w).show a).less? ((T.store w).show b))) w
    (Value.ordered (((T.store u).show a').less? ((T.store u).show b'))) u _
  rw [← h w u x a a' b b' hx hx' ha hb]
  cases ((T.store w).show a).less? ((T.store w).show b) with
  | some less => exact .done hlevel rfl
  | none => exact .fail _ hlevel

theorem passing_receives {sink : Value}
    (h : ActsWithin T drawn L (fun params => onOne params fun m => Action.ask sink [m]) fun _ => []) :
    (passing hT L lists).Receives sink := by
  intro w u m m' hlevel hm
  have hlikewise := likewise_of_within h hlevel (List.Forall₂.cons hm .nil)
  exact hlikewise.mono fun _ _ _ _ _ _ _ _ => trivial

theorem passing_provides {tag : Nat} {entries : List (Value × Value)}
    (h : ActsWithin T drawn L (fun params => onOne params (Environment.lookUp entries)) fun v => [v]) :
    (passing hT L lists).Provides tag entries where
  whole _ _ := rfl
  finds _ _ _ _ hlevel hkey :=
    likewise_of_within h hlevel (List.Forall₂.cons hkey .nil)

end Comparison

end Acting

/-- The handlers are applied to what an action comes to, one after the other. -/
def Handler.layered : List Value → Action Value → Action Value
  | [], a => a
  | h :: hs, a => layered hs (a.bind fun p => Action.ask h [Program.lift p])

/-- When all others have been applied, the last handler is. -/
theorem Handler.bind_applyAll (a : Action Value) (handlers : List Value) (last : Value) :
    (a.bind fun p => applyAll p (handlers ++ [last])) = (layered handlers a).bind fun p =>
      (Action.ask last [Program.lift p]).bind fun q => .done (Program.lift q) := by
  induction handlers generalizing a with
  | nil => rfl
  | cons h hs ih => exact (Action.bind_assoc a _ _).symm.trans (ih _)

section Layers

variable {S : Scene V} {E : Comparison S} {P P' : String → List Value → Prop} {n : Nat} {w u : S.World}
  {es fs : List (Event V)} {s t : Store} {a b : Action Value}

namespace Comparison.Aligned

/-- What respects twins keeps runs aligned, also where it is done with programs that wait. -/
theorem respected {k : Value → Action Value} (hk : E.Through k) (h : E.Respects P k P')
    (hab : E.Aligned n w es s a u fs t b (E.Twins (E.alike P))) :
    E.Aligned n w es s (a.bind k) u fs t (b.bind k) (E.Twins (E.alike P')) :=
  .bind hk hk (hab.mono fun j z v y v' _ _ hlevel htwins => h j z y v v' hlevel htwins)

/-- What goes on in the same way is done next. -/
theorem next {k l : Value → Action Value} {Φ : Nat → Likeness S}
    (h : ∀ v s, E.Leads s (k v) 0 [] s (l v))
    (hab : E.Aligned n w es s (a.bind l) u fs t (b.bind l) Φ) :
    E.Aligned n w es s (a.bind k) u fs t (b.bind k) Φ := by
  refine .of_leads (.next h a) (.next h b) fun m hm => ?_
  rw [List.append_nil, List.append_nil]
  exact hab.fewer hm

/-- A handler that respects twins is applied. -/
theorem handled {table : Handler.Table} {atLeaf : Option Value}
    (hsuspend : E.passes = true → table.lookup suspendName = none)
    (h : E.Respects P (Handler.evaluate table atLeaf) P') (tag : Nat)
    (hab : E.Aligned n w es s a u fs t b (E.Twins (E.alike P))) :
    E.Aligned n w es s (a.bind fun p => Action.ask (.handler tag table atLeaf) [Program.lift p]) u fs t
      (b.bind fun p => Action.ask (.handler tag table atLeaf) [Program.lift p])
      (E.Twins (E.alike P')) := by
  refine .next (l := Handler.evaluate table atLeaf) (fun v s => ?_)
    (hab.respected (continued_evaluate hsuspend).through h)
  have hleads := (Leads.handler (E := E) (s := s) tag table atLeaf (Program.lift v)).weaken
  rwa [Handler.evaluate_lift] at hleads

/-- The first solution is searched for. -/
theorem searched (hE : E.Fair) {h : Value}
    (hh : ∀ s p, E.Leads s (Action.ask h [p]) 0 [] s (Choice.firstSolution p))
    (hleft : ∀ name params, P name params → name ≠ decideName → name ≠ failName → P' name params)
    (hab : E.Aligned n w es s a u fs t b (E.Twins (E.alike P))) :
    E.Aligned n w es s (a.bind fun p => Action.ask h [Program.lift p]) u fs t
      (b.bind fun p => Action.ask h [Program.lift p]) (E.Twins (E.alike P')) := by
  obtain ⟨Q, hsearch, hfound⟩ := exists_respects_search hE hleft
  have hfirst := hab.respected (through_handled_one _ (by decide)) hsearch
  have hboth := hfirst.respected (through_handled_one _ (by decide)) hfound
  rw [Action.bind_assoc, Action.bind_assoc] at hboth
  refine .next (l := Choice.firstSolution) (fun v s => ?_) hboth
  have hleads := hh s (Program.lift v)
  unfold Choice.firstSolution at hleads ⊢
  rwa [Handler.evaluate_lift] at hleads

end Comparison.Aligned

end Layers

section Serving

/-- The handlers for output, logging, environments, chance and choice. Sinks and environments depend on the
private state only, the generators of numbers are known to be drawn from, and values are only compared where
sights tell which is less. -/
inductive Venue.Serves (T : Venue V τ) (drawn : Nat → Prop) (L : Listener) : Value → Prop where
  | print {sink h : Value} : (Output.printHandler sink).MayGive h →
      ActsWithin T drawn L (fun params => onOne params fun m => Action.ask sink [m]) (fun _ => []) →
      Serves T drawn L h
  | reversePrint : Serves T drawn L Output.reversePrintHandler
  | collectPrint : Serves T drawn L Output.collectPrintHandler
  | writer : Serves T drawn L Log.writerHandler
  | logger {level h : Value} : (Log.loggerHandler level).MayGive h → Serves T drawn L h
  | reader {environment : Value} {tag : Nat} {entries : List (Value × Value)} :
      (Environment.handler environment).MayGive (Handler.ofFunctions
        [(Environment.readName, .readAll tag entries), (Environment.askName, .askFor entries)] none) →
      ActsWithin T drawn L (fun params => onOne params (Environment.lookUp entries)) (fun v => [v]) →
      Serves T drawn L (Handler.ofFunctions
        [(Environment.readName, .readAll tag entries), (Environment.askName, .askFor entries)] none)
  | random {seed : Value} {address : Nat} :
      (Chance.handler seed).MayGive (Handler.ofFunctions [(Chance.randomName, .draw address)] none) →
      drawn address → Serves T drawn L (Handler.ofFunctions [(Chance.randomName, .draw address)] none)
  | allChoices : Serves T drawn L Choice.allChoices
  | pickMax : T.Ranks → Serves T drawn L Choice.pickMax
  | pickMin : T.Ranks → Serves T drawn L Choice.pickMin
  | backtrack : Serves T drawn L Choice.backtrack
  | firstSolution {h : Value} :
      (∀ s p, L.Leads T.see s (Action.ask h [p]) 0 [] s (Choice.firstSolution p)) → Serves T drawn L h

variable {hT : T.Lets drawn} {w u : T.World} {n : Nat} {es fs : List (Event V)} {s t : Store}
  {a b : Action Value}

/-- Each of them keeps runs aligned. -/
theorem Venue.Serves.layer {h : Value} (hh : T.Serves drawn L h)
    (hab : (passing hT L lists).Aligned n w es s a u fs t b
      ((passing hT L lists).Twins ((passing hT L lists).alike elsewhere))) :
    (passing hT L lists).Aligned n w es s (a.bind fun p => Action.ask h [Program.lift p]) u fs t
      (b.bind fun p => Action.ask h [Program.lift p])
      ((passing hT L lists).Twins ((passing hT L lists).alike elsewhere)) := by
  have hE : (passing hT L lists).Fair := Comparison.passing_fair hT
  have hsame (name : String) (params : List Value) (hp : elsewhere name params) : elsewhere name params := hp
  have hone {other : String} (name : String) (params : List Value) (hp : elsewhere name params)
      (_ : name ≠ other) : elsewhere name params := hp
  have htwo {first second : String} (name : String) (params : List Value) (hp : elsewhere name params)
      (_ : name ≠ first) (_ : name ≠ second) : elsewhere name params := hp
  have hprint (params : List Value) : elsewhere printName params := ⟨by decide, by decide⟩
  cases hh with
  | print hmade hsink =>
    rw [of_printHandler hmade]
    exact hab.handled (fun _ => rfl) (Comparison.respects_print hE (Comparison.passing_receives hsink) hone) 0
  | reversePrint =>
    exact hab.handled (fun _ => rfl) (Comparison.respects_reversePrint hE hprint hsame) 0
  | collectPrint =>
    exact hab.handled (fun _ => rfl) (Comparison.respects_gather hE (by decide) false hone) 0
  | writer => exact hab.handled (fun _ => rfl) (Comparison.respects_gather hE (by decide) true hone) 0
  | logger hmade =>
    obtain ⟨name, rfl⟩ := of_loggerHandler hmade
    exact hab.handled (fun _ => rfl) (Comparison.respects_logger hE hone) 0
  | reader _ hlookup =>
    exact hab.handled (fun _ => rfl) (Comparison.respects_reader (Comparison.passing_provides hlookup) htwo) 0
  | random _ haddress =>
    exact hab.handled (fun _ => rfl)
      (Comparison.respects_random hE (Comparison.passing_draws hT haddress) hone) 0
  | allChoices => exact hab.handled (fun _ => rfl) (Comparison.respects_allChoices hE htwo) 16
  | pickMax hranks =>
    exact hab.handled (fun _ => rfl)
      (Comparison.respects_extremum hE (Comparison.passing_ranks hranks) true hone) 14
  | pickMin hranks =>
    exact hab.handled (fun _ => rfl)
      (Comparison.respects_extremum hE (Comparison.passing_ranks hranks) false hone) 15
  | backtrack => exact hab.handled (fun _ => rfl) (Comparison.respects_backtrack hE hone) 13
  | firstSolution hsearch =>
    exact hab.searched hE (fun s p => ⟨hsearch s p, Comparison.keeps_refl s⟩) htwo

/-- So does a stack of them. -/
theorem Comparison.Aligned.layered {stack : List Value} (hstack : ∀ h ∈ stack, T.Serves drawn L h)
    (hab : (passing hT L lists).Aligned n w es s a u fs t b
      ((passing hT L lists).Twins ((passing hT L lists).alike elsewhere))) :
    (passing hT L lists).Aligned n w es s (Handler.layered stack a) u fs t (Handler.layered stack b)
      ((passing hT L lists).Twins ((passing hT L lists).alike elsewhere)) := by
  induction stack generalizing a b with
  | nil => exact hab
  | cons h stack ih =>
    exact ih (fun h hh => hstack h (List.mem_cons_of_mem _ hh)) ((hstack h List.mem_cons_self).layer hab)

end Serving

end AlgebraicEffects
