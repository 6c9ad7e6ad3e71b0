import AlgebraicEffects.Proofs.Listening

/-!
What is observed of a run beside its result.

A listener observes calls of sinks, messages that are logged, numbers that are drawn, and waits; of the
functions by which the library puts programs together nothing is observed. An action leads to another one
if it goes on as that one does, after certain events (`Listener.Leads`): each run of the one is a run of
the other one, with the events in front.
-/

set_option autoImplicit false

namespace AlgebraicEffects

open Action (Traced)

/-- What is observed of a run beside its result. -/
inductive Event (V : Type) where
  /-- A sink is given a message. -/
  | said (message : V)
  | logged (level : String) (message : V)
  /-- A number is drawn. -/
  | drew (x : Float)
  | waited (delay : Number)

variable {V : Type} {see : Value → V}

/-- What is observed at a call. -/
def Listener.observed (L : Listener) (see : Value → V) : Call → List (Event V)
  | .mk callee arguments inner =>
    match callee with
    | .function _ (.waitStart delay) => (delay.number?.map .waited).toList
    | .function _ (.logAt level) =>
      match arguments.positional with
      | [message, _] => [.logged level (see message)]
      | _ => []
    | .function _ (.draw _) =>
      match inner with
      | .mk _ ⟨[.float _ x], _⟩ _ :: _ => [.drew x]
      | _ => []
    | callee => if L.hears callee then arguments.positional.map fun m => .said (see m) else []

/-- What is observed of a run, in order. -/
def Listener.events (L : Listener) (see : Value → V) : List Call → List (Event V) :=
  collect (L.observed see)

/-- Whether nothing is observed when the function is called. -/
def Function.isSilent : Function → Bool
  | .waitStart _ | .logAt _ | .draw _ => false
  | f => f.isInternal

section Events

variable {L : Listener}

theorem Listener.events_append (cs ds : List Call) :
    L.events see (cs ++ ds) = L.events see cs ++ L.events see ds :=
  collect_append _ cs ds

theorem Listener.events_mk (callee : Value) (arguments : Arguments Value) (inner : List Call) :
    L.events see [.mk callee arguments inner] =
      L.observed see (.mk callee arguments inner) ++ L.events see inner :=
  collect_singleton _ callee arguments inner

theorem Listener.events_silent {f : Function} (h : f.isSilent = true) (tag : Nat)
    (arguments : Arguments Value) (inner : List Call) :
    L.events see [.mk (.function tag f) arguments inner] = L.events see inner := by
  have hdeaf (hf : f.isInternal = true) : (if L.hears (.function tag f) then
      arguments.positional.map fun m => Event.said (see m) else []) = [] := by
    rw [L.deaf tag hf, if_neg Bool.false_ne_true]
  rw [Listener.events_mk]
  cases f with
  | waitStart | logAt | draw | closure | generatorBody | method | boundTo | binder | standardOutput =>
    cases h
  | _ => exact congrArg (· ++ L.events see inner) (hdeaf rfl)

/-- A handler that is called is not heard itself. -/
theorem Listener.events_handler (tag : Nat) (table : Handler.Table) (atLeaf : Option Value)
    (arguments : Arguments Value) (inner : List Call) :
    L.events see [.mk (.handler tag table atLeaf) arguments inner] = L.events see inner := by
  rw [Listener.events_mk]
  show (if L.hears (.handler tag table atLeaf) then _ else []) ++ _ = _
  rw [L.deaf_handler, if_neg Bool.false_ne_true, List.nil_append]

/-- An arrow that is called is not heard itself if the listener does not hear it. -/
theorem Listener.events_arrow {tag : Nat} {a : Arrow} (hdeaf : L.hears (.arrow tag a) = false)
    (arguments : Arguments Value) (inner : List Call) :
    L.events see [.mk (.arrow tag a) arguments inner] = L.events see inner := by
  rw [Listener.events_mk]
  show (if L.hears (.arrow tag a) then _ else []) ++ _ = _
  rw [hdeaf, if_neg Bool.false_ne_true, List.nil_append]

end Events

/-- From the one store the action goes on, after these events and at least so many calls, as the other
action does from the other store. -/
structure Listener.Leads (L : Listener) (see : Value → V) (s : Store) (a : Action Value) (calls : Nat)
    (es : List (Event V)) (t : Store) (b : Action Value) : Prop where
  forth : ∀ cs o v, Traced a s cs o v →
    ∃ ds, Traced b t ds o v ∧ L.events see cs = es ++ L.events see ds ∧ weight ds + calls ≤ weight cs
  back : ∀ ds o v, Traced b t ds o v →
    ∃ cs, Traced a s cs o v ∧ L.events see cs = es ++ L.events see ds

namespace Listener.Leads

variable {L : Listener} {s t u : Store} {a b c : Action Value} {m n : Nat} {es fs : List (Event V)}

theorem refl (s : Store) (a : Action Value) : L.Leads see s a 0 [] s a :=
  ⟨fun cs _ _ h => ⟨cs, h, rfl, Nat.le_refl _⟩, fun ds _ _ h => ⟨ds, h, rfl⟩⟩

theorem trans (h : L.Leads see s a m es t b) (g : L.Leads see t b n fs u c) :
    L.Leads see s a (m + n) (es ++ fs) u c where
  forth cs o v hcs := by
    obtain ⟨ds, hds, hevents, hweight⟩ := h.forth cs o v hcs
    obtain ⟨gs, hgs, hevents', hweight'⟩ := g.forth ds o v hds
    exact ⟨gs, hgs, by rw [hevents, hevents', List.append_assoc], by omega⟩
  back gs o v hgs := by
    obtain ⟨ds, hds, hevents⟩ := g.back gs o v hgs
    obtain ⟨cs, hcs, hevents'⟩ := h.back ds o v hds
    exact ⟨cs, hcs, by rw [hevents', hevents, List.append_assoc]⟩

/-- After a first part with a known run. -/
theorem after {α : Type} {a : Action α} {k : α → Action Value} {x : α} {cs : List Call}
    (h : Traced a s cs (.ok x) t) : L.Leads see s (a.bind k) (weight cs) (L.events see cs) t (k x) where
  forth ds o v hds := by
    obtain ⟨gs, rfl, hgs⟩ := hds.of_bind h
    exact ⟨gs, hgs, L.events_append cs gs, by rw [weight_append]; omega⟩
  back ds o v hds := ⟨cs ++ ds, h.bind hds, L.events_append cs ds⟩

/-- A call of which this is observed, whatever is called inside it. -/
theorem call {f : Value} {arguments : Arguments Value}
    (h : ∀ inner, L.events see [.mk f arguments inner] = es ++ L.events see inner) :
    L.Leads see s (Action.invoke f arguments) 1 es s (f.apply arguments) where
  forth cs o v hcs := by
    obtain ⟨inner, rfl, hf⟩ := hcs.of_invoke
    exact ⟨inner, hf, h inner, by rw [weight_singleton]; omega⟩
  back ds o v hds := ⟨_, hds.invoke, h ds⟩

theorem ask {f : Function} {tag : Nat} {arguments : List Value} (hf : f.isSilent = true) :
    L.Leads see s (Action.ask (.function tag f) arguments) 1 [] s (f.apply (.of arguments)) :=
  .call (L.events_silent hf tag _)

theorem handler (tag : Nat) (table : Handler.Table) (atLeaf : Option Value) (p : Value) :
    L.Leads see s (Action.ask (.handler tag table atLeaf) [p]) 1 [] s (Handler.evaluate table atLeaf p) :=
  .call fun inner => L.events_handler tag table atLeaf _ inner

/-- What goes on as another action does so also when something is done next. -/
theorem bind (h : L.Leads see s a n es t b) (k : Value → Action Value) :
    L.Leads see s (a.bind k) n es t (b.bind k) where
  forth cs o v hcs := by
    obtain ⟨cs₁, q, u, ha⟩ := hcs.exists_of_bind
    obtain ⟨ds₁, hb, hevents, hweight⟩ := h.forth cs₁ q u ha
    cases q with
    | error f =>
      obtain ⟨rfl, rfl, rfl⟩ := hcs.unique ha.bind_error
      exact ⟨ds₁, hb.bind_error, hevents, hweight⟩
    | ok x =>
      obtain ⟨gs, rfl, hgs⟩ := hcs.of_bind ha
      refine ⟨ds₁ ++ gs, hb.bind hgs, ?_, by rw [weight_append, weight_append]; omega⟩
      rw [L.events_append, L.events_append, hevents, List.append_assoc]
  back ds o v hds := by
    obtain ⟨ds₁, q, u, hb⟩ := hds.exists_of_bind
    obtain ⟨cs₁, ha, hevents⟩ := h.back ds₁ q u hb
    cases q with
    | error f =>
      obtain ⟨rfl, rfl, rfl⟩ := hds.unique hb.bind_error
      exact ⟨cs₁, ha.bind_error, hevents⟩
    | ok x =>
      obtain ⟨gs, rfl, hgs⟩ := hds.of_bind hb
      refine ⟨cs₁ ++ gs, ha.bind hgs, ?_⟩
      rw [L.events_append, L.events_append, hevents, List.append_assoc]

/-- What is done next may be replaced by what it goes on as. -/
theorem next {k l : Value → Action Value} (h : ∀ x t, L.Leads see t (k x) 0 [] t (l x)) (a : Action Value) :
    L.Leads see s (a.bind k) 0 [] s (a.bind l) where
  forth cs o v hcs := by
    obtain ⟨cs₁, q, u, ha⟩ := hcs.exists_of_bind
    cases q with
    | error f =>
      obtain ⟨rfl, rfl, rfl⟩ := hcs.unique ha.bind_error
      exact ⟨cs, ha.bind_error, rfl, Nat.le_refl _⟩
    | ok x =>
      obtain ⟨gs, rfl, hgs⟩ := hcs.of_bind ha
      obtain ⟨ds, hds, hevents, hweight⟩ := (h x u).forth gs o v hgs
      refine ⟨cs₁ ++ ds, ha.bind hds, ?_, by rw [weight_append, weight_append]; omega⟩
      rw [List.nil_append, L.events_append, L.events_append, hevents, List.nil_append]
  back ds o v hds := by
    obtain ⟨ds₁, q, u, ha⟩ := hds.exists_of_bind
    cases q with
    | error f =>
      obtain ⟨rfl, rfl, rfl⟩ := hds.unique ha.bind_error
      exact ⟨ds, ha.bind_error, rfl⟩
    | ok x =>
      obtain ⟨gs, rfl, hgs⟩ := hds.of_bind ha
      obtain ⟨cs, hcs, hevents⟩ := (h x u).back gs o v hgs
      refine ⟨ds₁ ++ cs, ha.bind hcs, ?_⟩
      rw [List.nil_append, L.events_append, L.events_append, hevents, List.nil_append]

theorem weaken (h : L.Leads see s a n es t b) : L.Leads see s a 0 es t b where
  forth cs o v hcs := by
    obtain ⟨ds, hds, hevents, hweight⟩ := h.forth cs o v hcs
    exact ⟨ds, hds, hevents, by omega⟩
  back := h.back

end Listener.Leads

end AlgebraicEffects
