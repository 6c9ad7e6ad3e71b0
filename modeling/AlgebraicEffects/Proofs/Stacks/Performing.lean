import AlgebraicEffects.Effects.Chance
import AlgebraicEffects.Effects.Environment
import AlgebraicEffects.Effects.Output
import AlgebraicEffects.Proofs.Stacks.Playing

/-!
Implementations that resume as the last thing they do.

An implementation is given the parameters of an operation and a continuation. What it does by itself is
the same whatever the continuation is: it acts, and then it either fails or resumes with an answer, and
what follows the answer is what it gives, but for identities (`Reacts`). The implementations of the common
handlers, for environments, output and chance, are of this kind (`ActsAndResumes.reacts`).
-/

set_option autoImplicit false

namespace AlgebraicEffects

open Action (Traced)

section Programs

/-- The values that the action gives are programs. -/
def Action.GivesPrograms (a : Action Value) : Prop :=
  ∀ s cs v t, Traced a s cs (.ok v) t → v.isProgram = true

namespace Action.GivesPrograms

variable {α : Type}

theorem done {v : Value} (h : v.isProgram = true) : GivesPrograms (.done v) := by
  intro s cs w t htr
  cases htr
  exact h

theorem fail (f : Failure) : GivesPrograms (.fail f) := by
  intro s cs v t htr
  cases htr

theorem bind {a : Action α} {k : α → Action Value} (h : ∀ x, GivesPrograms (k x)) :
    GivesPrograms (a.bind k) := by
  intro s cs v t htr
  obtain ⟨ds, q, u, ha⟩ := htr.exists_of_bind
  cases q with
  | error f => cases (htr.unique ha.bind_error).2.1
  | ok x =>
    obtain ⟨es, -, hk⟩ := htr.of_bind ha
    exact h x u es v t hk

theorem lifted (a : Action Value) : GivesPrograms (Program.lift <$> a) :=
  bind (a := a) fun v => done (Program.isProgram_lift v)

theorem graft (p next : Value) : GivesPrograms (Program.graft p next) := by
  unfold Program.graft
  split
  · split
    · exact done rfl
    · exact lifted _
    · exact lifted _
  · exact fail _

theorem finish (factory history v : Value) (consumed : Nat) :
    GivesPrograms (Replay.finish factory history v consumed) := by
  unfold Replay.finish
  refine bind fun expected => ?_
  split
  · exact bind fun _ => bind fun _ => fail _
  · exact done (Program.isProgram_lift v)

/-- What is built is a program. -/
theorem build (factory : Value) (arguments : Value) :
    GivesPrograms (Replay.build factory arguments [] (.tuple 0 [])) := by
  refine bind fun arguments => bind fun positional => bind fun made => ?_
  split
  · refine bind fun progress => ?_
    cases progress with
    | returned v => exact finish _ _ _ _
    | yielded v =>
      refine bind fun items => bind fun fed => ?_
      cases fed with
      | yielded v => exact graft _ _
      | returned v consumed => exact finish _ _ _ _
  · exact done (Program.isProgram_lift _)

/-- What is evaluated under a handler is a program. -/
theorem evaluate (table : Handler.Table) (atLeaf : Option Value) (p : Value) :
    GivesPrograms (Handler.evaluate table atLeaf p) := by
  have hp := Program.isProgram_lift p
  unfold Handler.evaluate
  cases hlift : Program.lift p with
  | operation tag name params resume =>
    dsimp only
    split
    · exact done rfl
    · split
      · exact bind fun _ => bind fun _ => build _ _
      · exact build _ _
  | leaf tag v =>
    cases atLeaf with
    | none => exact done rfl
    | some f => exact lifted _
  | _ =>
    rw [hlift] at hp
    cases hp

end Action.GivesPrograms

variable {V : Type} {see : Value → V} {L : Listener}

/-- What leaves programs as they are may be done next with what gives programs. -/
theorem Listener.Leads.unchanged {a : Action Value} {k : Value → Action Value} {s : Store}
    (ha : a.GivesPrograms) (hk : ∀ v : Value, v.isProgram = true → k v = .done v) :
    L.Leads see s (a.bind k) 0 [] s a where
  forth cs o t htr := by
    obtain ⟨ds, q, u, hq⟩ := htr.exists_of_bind
    cases q with
    | error f =>
      obtain ⟨rfl, rfl, rfl⟩ := htr.unique hq.bind_error
      exact ⟨cs, hq, rfl, Nat.le_refl _⟩
    | ok v =>
      obtain ⟨es, rfl, hv⟩ := htr.of_bind hq
      rw [hk v (ha s ds v u hq)] at hv
      cases hv
      exact ⟨ds, hq, by rw [List.append_nil, List.nil_append], by rw [List.append_nil]; exact Nat.le_refl _⟩
  back ds o t htr := by
    cases o with
    | error f => exact ⟨ds, htr.bind_error, rfl⟩
    | ok v =>
      have hbind := htr.bind (k := k) (by rw [hk v (ha s ds v t htr)]; exact .done v t)
      exact ⟨ds ++ [], hbind, by rw [List.append_nil, List.nil_append]⟩

end Programs

namespace Handler

/-- What becomes of an operation that goes to this implementation. -/
def perform (implementation : Value) (params : List Value) (continuation : Value) : Action Value :=
  if implementation.isGeneratorFunction then do
    let memo ← Replay.allocateMemo
    let params ← Action.identifyAll (.of params)
    Replay.build (.arrowOf (.remembering memo implementation params.positional continuation))
      (.tuple 0 []) [] (.tuple 0 [])
  else Replay.build implementation (.tuple 0 (params ++ [continuation])) [] (.tuple 0 [])

theorem evaluate_performed {table : Table} {atLeaf : Option Value} {name : String}
    {implementation : Value} (h : table.lookup name = some implementation) (tag : Nat)
    (params : List Value) (resume : Value) :
    evaluate table atLeaf (.operation tag name params resume) =
      perform implementation params (.arrowOf (.under table atLeaf resume)) := by
  simp only [evaluate, Program.lift, Value.isProgram, if_true, h, perform]

end Handler

section Reactions

variable {V τ : Type} (T : Venue V τ) (L : Listener)

/-- The value, or the value with an identity. -/
def Renamed (v v' : Value) : Prop := v' = v ∨ ∃ n, v' = (v.tagged n).1

/-- An end of a run, and the same end after identities may have been given. -/
inductive Retagged (see : Value → V) : Ending → Ending → Prop where
  | same (o : Ending) : Retagged see o o
  | leaf {tag tag' : Nat} {x y : Value} :
      see y = see x → Retagged see (.ok (.leaf tag x)) (.ok (.leaf tag' y))
  | operation {tag tag' : Nat} {name : String} {params params' : List Value} {resume resume' : Value} :
      params'.map see = params.map see → Renamed resume resume' →
      Retagged see (.ok (.operation tag name params resume))
        (.ok (.operation tag' name params' resume'))

theorem Renamed.under {k : Nat} {table : Handler.Table} {atLeaf : Option Value} {resume v : Value}
    (h : Renamed (.function k (.under table atLeaf resume)) v) :
    ∃ k', v = .function k' (.under table atLeaf resume) := by
  rcases h with rfl | ⟨n, rfl⟩
  · exact ⟨k, rfl⟩
  · cases k <;> exact ⟨_, rfl⟩

/-- From the one world the action goes on, after these events, as the other action does from the other
world, and ends as that ends. -/
structure GoesOver (w : T.World) (a : Action Value) (es : List (Event V)) (u : T.World)
    (b : Action Value) : Prop where
  forth : ∀ cs o t, Traced a (T.store w) cs o t →
    ∃ ds q s, Traced b (T.store u) ds q s ∧ weight ds < weight cs
  back : ∀ ds q y, Traced b (T.store u) ds q (T.store y) → T.Later u y →
    ∃ cs o z, Traced a (T.store w) cs o (T.store z) ∧ T.Later y z ∧
      (∀ x, T.Holds y x → T.Holds z x) ∧ Retagged T.see q o ∧
        L.events T.see cs = es ++ L.events T.see ds

theorem Listener.Leads.goesOver {T : Venue V τ} {L : Listener} {w u : T.World} {a b : Action Value}
    {n : Nat} {es : List (Event V)} (h : L.Leads T.see (T.store w) a n es (T.store u) b) (hn : 0 < n) :
    GoesOver T L w a es u b where
  forth cs o t htr := by
    obtain ⟨ds, hds, -, hweight⟩ := h.forth cs o t htr
    exact ⟨ds, o, t, hds, by omega⟩
  back ds q y htr _ := by
    obtain ⟨cs, hcs, hevents⟩ := h.back ds q _ htr
    exact ⟨cs, q, y, hcs, T.refl y, fun _ hx => hx, .same q, hevents⟩

/-- Where an operation goes to this implementation, it comes to what the reaction says: the implementation
resumes once, as the last thing it does, or fails. -/
structure Reacts (implementation : Value) (react : Reaction V τ) : Prop where
  ends {w : T.World} {x : τ} {params : List Value} {table : Handler.Table} {resume : Value}
    {cs : List Call} {o : Ending} {t : Store} :
    T.Holds w x →
    Traced (Handler.perform implementation params (.arrowOf (.under table none resume))) (T.store w)
      cs o t → ∃ es q y, react (params.map T.see) x es q y
  resumes {w : T.World} {x y : τ} {params : List Value} {es : List (Event V)} {a : V} :
    T.Holds w x → react (params.map T.see) x es (.ok a) y → ∀ table resume, ∃ u answer,
      T.Later w u ∧ T.Holds u y ∧ T.Fit u answer ∧ T.see answer = a ∧
      GoesOver T L w (Handler.perform implementation params (.arrowOf (.under table none resume))) es u
        ((Function.under table none resume).apply (.of [answer]))
  fails {w : T.World} {x y : τ} {params : List Value} {es : List (Event V)} {g : V} :
    T.Holds w x → react (params.map T.see) x es (.error g) y → ∀ table resume, ∃ cs f u,
      Traced (Handler.perform implementation params (.arrowOf (.under table none resume))) (T.store w)
        cs (.error f) (T.store u) ∧
      T.Later w u ∧ T.Holds u y ∧ T.see (.failure f) = g ∧ L.events T.see cs = es

/-- What an implementation comes to, if it always does what some reaction says. -/
def Venue.reaction (implementation : Value) : Reaction V τ :=
  fun ps x es q y => ∃ react, Reacts T L implementation react ∧ react ps x es q y

theorem Reacts.canonical {T : Venue V τ} {L : Listener} {implementation : Value}
    {react : Reaction V τ} (h : Reacts T L implementation react) :
    Reacts T L implementation (T.reaction L implementation) where
  ends hx htr := by
    obtain ⟨es, q, y, hq⟩ := h.ends hx htr
    exact ⟨es, q, y, react, h, hq⟩
  resumes hx hq := by
    obtain ⟨react', h', hq'⟩ := hq
    exact h'.resumes hx hq'
  fails hx hq := by
    obtain ⟨react', h', hq'⟩ := hq
    exact h'.fails hx hq'

end Reactions

section Library

variable {V : Type} {see : Value → V} {L : Listener} {α : Type} {f : Function}
  {act : List Value → Action α} {answer : α → List Value} {said : α → List (Event V)}

/-- The answer that a continuation is called with, which may leave it out. -/
def answered : List Value → Value
  | [v] => v
  | _ => .nothing

/-- A function of the library that acts, and resumes with what it has come to. -/
structure ActsAndResumes (L : Listener) (see : Value → V) (f : Function)
    (act : List Value → Action α) (answer : α → List Value) (said : α → List (Event V)) : Prop where
  library : (Value.arrowOf f).isScripted = false
  plain : (Value.arrowOf f).isGeneratorFunction = false
  apply (params : List Value) (c : Value) :
    f.apply (.of (params ++ [c])) = (act params).bind fun x => Action.ask c (answer x)
  answers (x : α) : answer x = [] ∨ ∃ v, answer x = [v]
  resumed {params : List Value} {s t : Store} {cs : List Call} {x : α} :
    Traced (act params) s cs (.ok x) t → ∀ c rest,
      L.events see [.mk (.arrowOf f) (.of (params ++ [c])) (cs ++ [.mk c (.of (answer x)) rest])] =
        said x ++ L.events see (cs ++ [.mk c (.of (answer x)) rest])
  failed {params : List Value} {s t : Store} {cs : List Call} {g : Failure} :
    Traced (act params) s cs (.error g) t → ∀ c,
      L.events see [.mk (.arrowOf f) (.of (params ++ [c])) cs] = L.events see cs

namespace ActsAndResumes

variable {params : List Value} {s t : Store} {cs : List Call}

theorem apply_under (h : ActsAndResumes L see f act answer said) (x : α) (table : Handler.Table)
    (resume : Value) : (Function.under table none resume).apply (.of (answer x)) =
      (Function.under table none resume).apply (.of [answered (answer x)]) := by
  rcases h.answers x with hnone | ⟨v, hone⟩
  · rw [hnone]
    rfl
  · rw [hone]
    rfl

/-- A function of which nothing is observed is called with an answer. -/
theorem events_answered {g : Function} (hg : g.isSilent = true) (vs : List Value) (inner : List Call) :
    L.events see [.mk (.arrowOf g) (.of vs) inner] = L.events see inner :=
  L.events_silent hg _ _ inner

/-- After it has acted, the function goes on as its continuation does with the answer. -/
theorem leads (h : ActsAndResumes L see f act answer said) {x : α}
    (hact : Traced (act params) s cs (.ok x) t) {g : Function} (hg : g.isSilent = true) :
    L.Leads see s (Action.invoke (.arrowOf f) (.of (params ++ [.arrowOf g]))) 1
      (said x ++ L.events see cs) t (g.apply (.of (answer x))) where
  forth ds o u htr := by
    obtain ⟨inner, rfl, hbody⟩ := htr.of_invoke
    rw [show Value.apply (.arrowOf f) _ = _ from h.apply params _] at hbody
    obtain ⟨es, rfl, hask⟩ := hbody.of_bind hact
    obtain ⟨rest, rfl, hrest⟩ := hask.of_invoke
    refine ⟨rest, hrest, ?_, by simp only [weight_singleton, weight_append]; omega⟩
    rw [h.resumed hact, L.events_append, events_answered hg, List.append_assoc]
  back rest o u hrest := by
    have hbody := hact.bind (k := fun x => Action.ask (.arrowOf g) (answer x)) (Traced.invoke hrest)
    rw [← h.apply params] at hbody
    refine ⟨_, Traced.invoke hbody, ?_⟩
    rw [h.resumed hact, L.events_append, events_answered hg, List.append_assoc]

theorem perform_eq (h : ActsAndResumes L see f act answer said) (params : List Value) (c : Value) :
    ∃ k : Value → Action Value, (∀ v : Value, v.isProgram = true → k v = .done v) ∧
      Handler.perform (.arrowOf f) params c =
        (Action.invoke (.arrowOf f) (.of (params ++ [c]))).bind k := by
  rw [Handler.perform, h.plain, if_neg Bool.false_ne_true, Replay.build_eq h.library]
  refine ⟨_, fun v hv => ?_, rfl⟩
  cases v with
  | leaf | operation => rfl
  | _ => cases hv

/-- Whatever becomes of the operation, the function has acted first. -/
theorem exists_acted (h : ActsAndResumes L see f act answer said) {c : Value} {o : Ending}
    (htr : Traced (Handler.perform (.arrowOf f) params c) s cs o t) :
    ∃ ds q u, Traced (act params) s ds q u := by
  obtain ⟨k, -, hperform⟩ := h.perform_eq params c
  rw [hperform] at htr
  obtain ⟨ds, q, u, hcall⟩ := htr.exists_of_bind
  obtain ⟨inner, -, hbody⟩ := hcall.of_invoke
  rw [show Value.apply (.arrowOf f) _ = _ from h.apply params _] at hbody
  exact hbody.exists_of_bind

/-- If it has acted, the operation comes to the resumption with the answer. -/
theorem leads_perform (h : ActsAndResumes L see f act answer said) {x : α}
    (hact : Traced (act params) s cs (.ok x) t) (table : Handler.Table) (resume : Value) :
    L.Leads see s (Handler.perform (.arrowOf f) params (.arrowOf (.under table none resume))) 1
      (said x ++ L.events see cs) t
      ((Function.under table none resume).apply (.of [answered (answer x)])) := by
  obtain ⟨k, hk, hperform⟩ := h.perform_eq params (.arrowOf (.under table none resume))
  have hleads := (h.leads hact (g := .under table none resume) rfl).bind k
  rw [← hperform, h.apply_under] at hleads
  have hprograms :
      ((Function.under table none resume).apply (.of [answered (answer x)])).GivesPrograms :=
    .bind (a := Action.ask resume [_]) fun p => .evaluate table none p
  have hunchanged := hleads.trans (.unchanged hprograms hk)
  rwa [List.append_nil] at hunchanged

/-- If it has failed to act, the operation fails. -/
theorem perform_failed (h : ActsAndResumes L see f act answer said) {g : Failure}
    (hact : Traced (act params) s cs (.error g) t) (c : Value) :
    ∃ ds, Traced (Handler.perform (.arrowOf f) params c) s ds (.error g) t ∧
      L.events see ds = L.events see cs := by
  obtain ⟨k, -, hperform⟩ := h.perform_eq params c
  have hbody : Traced (f.apply (.of (params ++ [c]))) s cs (.error g) t := by
    rw [h.apply]
    exact hact.bind_error
  rw [hperform]
  exact ⟨_, (Traced.invoke (f := .arrowOf f) hbody).bind_error, h.failed hact c⟩

/-- A function of which nothing is observed, but for what it calls. -/
theorem silent (hsilent : f.isSilent = true) (library : (Value.arrowOf f).isScripted = false)
    (plain : (Value.arrowOf f).isGeneratorFunction = false)
    (apply : ∀ params c,
      f.apply (.of (params ++ [c])) = (act params).bind fun x => Action.ask c (answer x))
    (answers : ∀ x, answer x = [] ∨ ∃ v, answer x = [v]) :
    ActsAndResumes L see f act answer fun _ => [] where
  library := library
  plain := plain
  apply := apply
  answers := answers
  resumed _ _ _ := L.events_silent hsilent _ _ _
  failed _ _ := L.events_silent hsilent _ _ _

end ActsAndResumes

variable {τ : Type}

/-- How acting comes to an end on a venue: what a reaction says is what happens, and something is always
said. -/
structure ActsAs (T : Venue V τ) (L : Listener) (act : List Value → Action α)
    (answer : α → List Value) (said : α → List (Event V)) (react : Reaction V τ) : Prop where
  ends {w : T.World} {x : τ} {params : List Value} {cs : List Call} {r : Except Failure α} {t : Store} :
    T.Holds w x → Traced (act params) (T.store w) cs r t →
      ∃ es q y, react (params.map T.see) x es q y
  answers {w : T.World} {x y : τ} {params : List Value} {es : List (Event V)} {a : V} :
    T.Holds w x → react (params.map T.see) x es (.ok a) y → ∃ cs b u,
      Traced (act params) (T.store w) cs (.ok b) (T.store u) ∧ T.Later w u ∧ T.Holds u y ∧
      T.Fit u (answered (answer b)) ∧ T.see (answered (answer b)) = a ∧
      said b ++ L.events T.see cs = es
  fails {w : T.World} {x y : τ} {params : List Value} {es : List (Event V)} {f : V} :
    T.Holds w x → react (params.map T.see) x es (.error f) y → ∃ cs g u,
      Traced (act params) (T.store w) cs (.error g) (T.store u) ∧ T.Later w u ∧ T.Holds u y ∧
      T.see (.failure g) = f ∧ L.events T.see cs = es

/-- A function of the library that acts and resumes does what its acting comes to. -/
theorem ActsAndResumes.reacts {T : Venue V τ} {react : Reaction V τ}
    (h : ActsAndResumes L T.see f act answer said) (hact : ActsAs T L act answer said react) :
    Reacts T L (.arrowOf f) react where
  ends hx htr := by
    obtain ⟨cs, q, u, hq⟩ := h.exists_acted htr
    exact hact.ends hx hq
  resumes hx hq table resume := by
    obtain ⟨cs, b, u, htr, hu, hy, hfit, hsee, rfl⟩ := hact.answers hx hq
    exact ⟨u, _, hu, hy, hfit, hsee, (h.leads_perform htr table resume).goesOver Nat.one_pos⟩
  fails hx hq table resume := by
    obtain ⟨cs, g, u, htr, hu, hy, hsee, rfl⟩ := hact.fails hx hq
    obtain ⟨ds, hds, hevents⟩ := h.perform_failed htr (.arrowOf (.under table none resume))
    exact ⟨ds, g, u, hds, hu, hy, hsee, hevents⟩

/-- What acting comes to where nothing is overlooked. -/
def doing (L : Listener) (act : List Value → Action α) (answer : α → List Value)
    (said : α → List (Event Value)) : Reaction Value Store :=
  fun params s es q t => ∃ cs r, Traced (act params) s cs r t ∧
    match r with
    | .ok b => q = .ok (answered (answer b)) ∧ said b ++ L.events id cs = es
    | .error g => q = .error (.failure g) ∧ L.events id cs = es

theorem actsAs_doing (L : Listener) (act : List Value → Action α) (answer : α → List Value)
    (said : α → List (Event Value)) :
    ActsAs Venue.exact L act answer said (doing L act answer said) where
  ends {w x params cs r t} hx htr := by
    obtain rfl : x = w := hx
    have hparams : params.map Venue.exact.see = params := List.map_id params
    rw [hparams]
    cases r with
    | ok b => exact ⟨_, _, t, cs, _, htr, rfl, rfl⟩
    | error g => exact ⟨_, _, t, cs, _, htr, rfl, rfl⟩
  answers {w x y params es a} hx hq := by
    obtain rfl : x = w := hx
    obtain ⟨cs, r, htr, hr⟩ := hq
    rw [show params.map Venue.exact.see = params from List.map_id params] at htr
    cases r with
    | ok b =>
      obtain ⟨⟨rfl⟩, rfl⟩ := hr
      exact ⟨cs, b, y, htr, trivial, rfl, trivial, rfl, rfl⟩
    | error g => cases hr.1
  fails {w x y params es f} hx hq := by
    obtain rfl : x = w := hx
    obtain ⟨cs, r, htr, hr⟩ := hq
    rw [show params.map Venue.exact.see = params from List.map_id params] at htr
    cases r with
    | ok b => cases hr.1
    | error g =>
      obtain ⟨⟨rfl⟩, rfl⟩ := hr
      exact ⟨cs, g, y, htr, trivial, rfl, rfl, rfl⟩

/-- Goes on with the only parameter of an operation. -/
def onOne (params : List Value) (act : Value → Action α) : Action α :=
  match params with
  | [param] => act param
  | _ => Action.fault .badType

/-- Goes on if an operation has no parameters. -/
def onNone (params : List Value) (act : Action α) : Action α :=
  match params with
  | [] => act
  | _ => Action.fault .badType

theorem takeTwo_concat (first second : String) (params : List Value) (c : Value)
    (act : Value → Action α) (answer : α → List Value) :
    Action.takeTwo first second (.of (params ++ [c]))
        (fun param c => (act param).bind fun x => Action.ask c (answer x)) =
      (onOne params act).bind fun x => Action.ask c (answer x) := by
  match params with
  | [param] => rfl
  | [] => rfl
  | _ :: _ :: _ => exact takeTwo_of_length (by simp)

theorem takeOne_concat (name : String) (params : List Value) (c : Value) (act : Action α)
    (answer : α → List Value) :
    Action.takeOne name (.of (params ++ [c])) (fun c => act.bind fun x => Action.ask c (answer x)) =
      (onNone params act).bind fun x => Action.ask c (answer x) := by
  cases params with
  | nil => rfl
  | cons param params => exact takeOne_of_length (by simp)

/-- The message is given to the sink first. -/
theorem Output.actsAndResumes (sink : Value) : ActsAndResumes L see (.emitTo sink)
    (fun params => onOne params fun message => Action.ask sink [message]) (fun _ => []) fun _ => [] :=
  .silent rfl rfl rfl (fun params c => takeTwo_concat _ _ params c _ _) fun _ => .inl rfl

theorem Environment.readAll_actsAndResumes (tag : Nat) (environment : List (Value × Value)) :
    ActsAndResumes L see (.readAll tag environment) (fun params => onNone params (.done ()))
      (fun _ => [.frozen tag environment]) fun _ => [] :=
  .silent rfl rfl rfl
    (fun params c => takeOne_concat _ params c (.done ()) fun _ => [.frozen tag environment])
    fun _ => .inr ⟨_, rfl⟩

/-- The value under a key, or the failure that it is missing. -/
def Environment.lookUp (environment : List (Value × Value)) (key : Value) : Action Value := do
  match ← Value.find environment key with
  | some v => return v
  | none => .fail (← Action.missing key)

theorem Environment.askFor_actsAndResumes (environment : List (Value × Value)) :
    ActsAndResumes L see (.askFor environment)
      (fun params => onOne params (Environment.lookUp environment)) (fun v => [v]) fun _ => [] := by
  refine .silent rfl rfl rfl (fun params c => ?_) fun v => .inr ⟨v, rfl⟩
  rw [← takeTwo_concat "key" "resume" params c (Environment.lookUp environment)]
  unfold Environment.lookUp
  show Action.takeTwo _ _ _ (fun _ _ => Action.bind _ _) = _
  congr 1
  funext key c
  show _ = Action.bind (Action.bind _ _) _
  rw [Action.bind_assoc]
  congr 1
  funext found
  cases found with
  | some v => rfl
  | none => exact (Action.bind_assoc (Action.missing key) .fail _).symm

/-- A draw makes no calls. -/
theorem Chance.calls_of_draw {address : Nat} {s t : Store} {cs : List Call} {q : Except Failure Float}
    (h : Traced (Chance.draw address) s cs q t) : cs = [] := by
  cases h with
  | read h =>
    cases ht : s.twisters[address]? with
    | none =>
      simp only [ht] at h
      cases h
      rfl
    | some twister =>
      simp only [ht] at h
      cases h with
      | write h =>
        cases h
        rfl

theorem Chance.actsAndResumes (address : Nat) :
    ActsAndResumes L see (.draw address) (fun params => onNone params (Chance.draw address))
      (fun x => [.float 0 x]) fun x => [.drew x] where
  library := rfl
  plain := rfl
  apply params c := takeOne_concat _ params c _ _
  answers x := .inr ⟨_, rfl⟩
  resumed {params _ _ cs x} h c rest := by
    obtain rfl : cs = [] := by
      match params, h with
      | [], h => exact Chance.calls_of_draw h
    exact L.events_mk _ _ _
  failed {params _ _ cs g} h c := by
    obtain rfl : cs = [] := by
      match params, h with
      | [], h => exact Chance.calls_of_draw h
      | _ :: _, h =>
        cases h
        rfl
    exact L.events_mk _ _ _

end Library

end AlgebraicEffects
