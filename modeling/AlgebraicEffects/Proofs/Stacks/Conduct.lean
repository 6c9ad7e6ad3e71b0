import AlgebraicEffects.Proofs.Events

/-!
How programs conduct themselves.

Where a program runs in turn with others, what it does next may depend on what they have done: it is told
the answer of its operation, and it finds the private states as they are then. So its conduct is a machine
with states of its own; at each of them a node is seen, and resumed at an operation it acts and goes on to
a next one, or never comes back. A program that is no machine of this kind is its own conduct where
nothing is overlooked (`conducts_itself`).
-/

set_option autoImplicit false

namespace AlgebraicEffects

open Action (Traced)

/-- What is done next, unless a failure is passed on. -/
def Action.after (k : Value → Action Value) : Ending → Action Value
  | .ok v => k v
  | .error f => .fail f

theorem traced_bind_after {a : Action Value} {k : Value → Action Value} {s t u : Store}
    {cs ds : List Call} {o q : Ending} (h : Traced a s cs o t) (g : Traced (Action.after k o) t ds q u) :
    Traced (a.bind k) s (cs ++ ds) q u := by
  cases o with
  | ok v => exact h.bind g
  | error f =>
    cases g
    rw [List.append_nil]
    exact h.bind_error

theorem traced_of_bind_after {a : Action Value} {k : Value → Action Value} {s t u : Store}
    {cs ds : List Call} {o q : Ending} (h : Traced (a.bind k) s cs q u) (g : Traced a s ds o t) :
    ∃ es, cs = ds ++ es ∧ Traced (Action.after k o) t es q u := by
  cases o with
  | ok v => exact h.of_bind g
  | error f =>
    obtain ⟨rfl, rfl, rfl⟩ := h.unique g.bind_error
    exact ⟨[], (List.append_nil cs).symm, .fail f _⟩

/-- Where programs are evaluated: the worlds and how they follow each other, what is seen of values and
which may be offered as answers, and which private state there is in a world. -/
structure Venue (V τ : Type) where
  World : Type
  store : World → Store
  Later : World → World → Prop
  refl (w : World) : Later w w
  trans {w u z : World} : Later w u → Later u z → Later w z
  see : Value → V
  Fit : World → Value → Prop
  Holds : World → τ → Prop

/-- How the end of a run looks. What is no program counts as a leaf. -/
inductive Looks {V : Type} (see : Value → V) : Ending → Node V → Prop where
  | leaf {v x : Value} {tag : Nat} : Program.lift v = .leaf tag x → Looks see (.ok v) (.leaf (see x))
  | operation {tag : Nat} {name : String} {params : List Value} {resume : Value} :
      Looks see (.ok (.operation tag name params resume)) (.operation name (params.map see))
  | failure {f : Failure} : Looks see (.error f) (.failure (see (.failure f)))

/-- A machine that shows a node in each state. Resumed with an answer, while the private state is so, it
goes on to another state after certain events, and leaves another private state. -/
structure Conduct (V τ σ : Type) where
  node : σ → Node V
  next : σ → V → τ → List (Event V) → σ → τ → Prop

variable {V τ σ ρ : Type} {T : Venue V τ} {L : Listener} {K : Conduct V τ σ}

/-- Begun in this world the action ends in the ways that are said and in no other. -/
structure EndsAs (T : Venue V τ) (L : Listener) (a : Action Value) (w : T.World)
    (ways : List (Event V) → σ → τ → Prop) (Is : T.World → Ending → σ → Prop) : Prop where
  ends : ∀ cs o t, Traced a (T.store w) cs o t → ∃ es q x, ways es q x
  as : ∀ es q x, ways es q x → ∃ cs o z, Traced a (T.store w) cs o (T.store z) ∧ T.Later w z ∧
    L.events T.see cs = es ∧ T.Holds z x ∧ Is z o q

/-- What is related to a state shows its node, and when it is resumed in a later world it goes on as the
machine does. -/
def Conduct.IsKept (T : Venue V τ) (L : Listener) (K : Conduct V τ σ)
    (R : T.World → Ending → σ → Prop) : Prop :=
  ∀ w e q, R w e q → Looks T.see e (K.node q) ∧
    ∀ tag name params resume, e = .ok (.operation tag name params resume) →
      ∀ u a x, T.Later w u → T.Fit u a → T.Holds u x →
        EndsAs T L (Action.ask resume [a]) u (K.next q (T.see a) x) R

/-- What a run has ended as conducts itself as this machine does in this state. -/
def Conducts (T : Venue V τ) (L : Listener) (K : Conduct V τ σ) (w : T.World) (e : Ending) (q : σ) :
    Prop :=
  ∃ R, K.IsKept T L R ∧ R w e q

theorem Looks.exists_operation {see : Value → V} {e : Ending} {name : String} {ps : List V}
    (h : Looks see e (.operation name ps)) : ∃ tag params resume,
      e = .ok (.operation tag name params resume) ∧ params.map see = ps := by
  cases h
  exact ⟨_, _, _, rfl, rfl⟩

/-- One node is seen at a time. -/
theorem Looks.unique {see : Value → V} {e : Ending} {m n : Node V} (h : Looks see e m)
    (g : Looks see e n) : m = n := by
  cases h with
  | leaf hv =>
    cases g with
    | leaf hu =>
      rw [hv] at hu
      cases hu
      rfl
    | operation => simp [Program.lift, Value.isProgram] at hv
  | operation =>
    cases g with
    | leaf hu => simp [Program.lift, Value.isProgram] at hu
    | operation => rfl
  | failure => cases g; rfl

namespace EndsAs

variable {a : Action Value} {w : T.World} {ways : List (Event V) → σ → τ → Prop}
  {Is : T.World → Ending → σ → Prop}

theorem mono {Was : T.World → Ending → σ → Prop} (h : EndsAs T L a w ways Was)
    (himp : ∀ z o q, T.Later w z → Was z o q → Is z o q) : EndsAs T L a w ways Is where
  ends := h.ends
  as es q x hway := by
    obtain ⟨cs, o, z, htr, hz, hevents, hx, hq⟩ := h.as es q x hway
    exact ⟨cs, o, z, htr, hz, hevents, hx, himp z o q hz hq⟩

/-- The one way in which an action has ended. -/
theorem exists_of_traced (h : EndsAs T L a w ways Is) {cs : List Call} {o : Ending} {t : Store}
    (htr : Traced a (T.store w) cs o t) : ∃ es q x z, ways es q x ∧ T.store z = t ∧ T.Later w z ∧
      L.events T.see cs = es ∧ T.Holds z x ∧ Is z o q := by
  obtain ⟨es, q, x, hway⟩ := h.ends cs o t htr
  obtain ⟨ds, p, z, hds, hz, hevents, hx, hq⟩ := h.as es q x hway
  obtain ⟨rfl, rfl, rfl⟩ := htr.unique hds
  exact ⟨es, q, x, z, hway, rfl, hz, hevents, hx, hq⟩

/-- What has ended already. -/
theorem ended {o : Ending} {q : σ} {x : τ} (hx : T.Holds w x) (hq : Is w o q) :
    EndsAs T L (Action.after .done o) w (fun es p y => es = [] ∧ p = q ∧ y = x) Is where
  ends _ _ _ _ := ⟨[], q, x, rfl, rfl, rfl⟩
  as := by
    rintro _ _ _ ⟨rfl, rfl, rfl⟩
    cases o with
    | ok v => exact ⟨[], .ok v, w, .done v _, T.refl w, rfl, hx, hq⟩
    | error f => exact ⟨[], .error f, w, .fail f _, T.refl w, rfl, hx, hq⟩

/-- What goes on as an action does ends as that does. -/
theorem of_leads {b : Action Value} {n : Nat} (h : EndsAs T L b w ways Is)
    (hleads : L.Leads T.see (T.store w) a n [] (T.store w) b) : EndsAs T L a w ways Is where
  ends cs o t htr := by
    obtain ⟨ds, hds, -, -⟩ := hleads.forth cs o t htr
    exact h.ends ds o t hds
  as es q x hway := by
    obtain ⟨ds, o, z, hds, hz, rfl, hx, hq⟩ := h.as es q x hway
    obtain ⟨cs, hcs, hevents⟩ := hleads.back ds o _ hds
    exact ⟨cs, o, z, hcs, hz, hevents, hx, hq⟩

/-- One part after the other. -/
theorem bind {k : Value → Action Value} {further : σ → τ → List (Event V) → ρ → τ → Prop}
    {Are : T.World → Ending → ρ → Prop} (h : EndsAs T L a w ways Is)
    (hk : ∀ es q x z o, ways es q x → T.Later w z → T.Holds z x → Is z o q →
      EndsAs T L (Action.after k o) z (further q x) Are) :
    EndsAs T L (a.bind k) w (fun es p y => ∃ fs q x gs, ways fs q x ∧ further q x gs p y ∧
      es = fs ++ gs) Are where
  ends cs o t htr := by
    obtain ⟨ds, p, s, hds⟩ := htr.exists_of_bind
    obtain ⟨es, q, x, z, hway, rfl, hz, -, hx, hq⟩ := h.exists_of_traced hds
    obtain ⟨fs, rfl, hfs⟩ := traced_of_bind_after htr hds
    obtain ⟨gs, p', y, hp⟩ := (hk es q x z p hway hz hx hq).ends fs o t hfs
    exact ⟨_, p', y, es, q, x, gs, hway, hp, rfl⟩
  as := by
    rintro es p y ⟨fs, q, x, gs, hway, hp, rfl⟩
    obtain ⟨cs, o, z, hcs, hz, rfl, hx, hq⟩ := h.as fs q x hway
    obtain ⟨ds, o', u, hds, hu, rfl, hy, hp'⟩ := (hk _ q x z o hway hz hx hq).as gs p y hp
    exact ⟨cs ++ ds, o', u, traced_bind_after hcs hds, T.trans hz hu, L.events_append cs ds, hy, hp'⟩

/-- The ways may be named otherwise. -/
theorem image {f : σ → ρ} {further : List (Event V) → ρ → τ → Prop}
    {Are : T.World → Ending → ρ → Prop} (h : EndsAs T L a w ways Is)
    (hways : ∀ es p y, further es p y ↔ ∃ q, ways es q y ∧ f q = p)
    (himp : ∀ z o q, Is z o q → Are z o (f q)) : EndsAs T L a w further Are where
  ends cs o t htr := by
    obtain ⟨es, q, x, hway⟩ := h.ends cs o t htr
    exact ⟨es, f q, x, (hways es (f q) x).2 ⟨q, hway, rfl⟩⟩
  as es p y hp := by
    obtain ⟨q, hway, rfl⟩ := (hways es p y).1 hp
    obtain ⟨cs, o, z, htr, hz, hevents, hx, hq⟩ := h.as es q y hway
    exact ⟨cs, o, z, htr, hz, hevents, hx, himp z o q hq⟩

end EndsAs

namespace Conducts

variable {w : T.World} {e : Ending} {q : σ}

theorem looks (h : Conducts T L K w e q) : Looks T.see e (K.node q) := by
  obtain ⟨R, hR, hr⟩ := h
  exact (hR w e q hr).1

theorem resume {u : T.World} {tag : Nat} {name : String} {params : List Value} {resume a : Value}
    {x : τ} (h : Conducts T L K w (.ok (.operation tag name params resume)) q) (hu : T.Later w u)
    (ha : T.Fit u a) (hx : T.Holds u x) :
    EndsAs T L (Action.ask resume [a]) u (K.next q (T.see a) x) (Conducts T L K) := by
  obtain ⟨R, hR, hr⟩ := h
  exact ((hR w _ q hr).2 tag name params resume rfl u a x hu ha hx).mono
    fun z o q' _ hq' => ⟨R, hR, hq'⟩

theorem later {u : T.World} (h : Conducts T L K w e q) (hu : T.Later w u) :
    Conducts T L K u e q := by
  obtain ⟨R, hR, hr⟩ := h
  refine ⟨fun u e q => ∃ w, T.Later w u ∧ R w e q, ?_, w, hu, hr⟩
  rintro u e q ⟨w, hw, hr⟩
  refine ⟨(hR w e q hr).1, fun tag name params resume he z a x hz ha hx => ?_⟩
  exact ((hR w e q hr).2 tag name params resume he z a x (T.trans hw hz) ha hx).mono
    fun y o q' _ hq' => ⟨y, T.refl y, hq'⟩

/-- What keeps to a machine keeps to one that takes the same steps in related states. -/
theorem simulates {M : Conduct V τ ρ} (rel : σ → ρ → Prop)
    (hnode : ∀ q p, rel q p → M.node p = K.node q)
    (hforth : ∀ q p a x es q' x', rel q p → K.next q a x es q' x' →
      ∃ p', rel q' p' ∧ M.next p a x es p' x')
    (hback : ∀ q p a x es p' x', rel q p → M.next p a x es p' x' →
      ∃ q', rel q' p' ∧ K.next q a x es q' x')
    (h : Conducts T L K w e q) {p : ρ} (hp : rel q p) : Conducts T L M w e p := by
  obtain ⟨R, hR, hr⟩ := h
  refine ⟨fun w e p => ∃ q, rel q p ∧ R w e q, ?_, q, hp, hr⟩
  rintro w e p ⟨q, hqp, hr⟩
  obtain ⟨hlooks, hresume⟩ := hR w e q hr
  refine ⟨hnode q p hqp ▸ hlooks, fun tag name params resume he u a x hu ha hx => ?_⟩
  have hends := hresume tag name params resume he u a x hu ha hx
  constructor
  · intro cs o t htr
    obtain ⟨es, q', x', hnext⟩ := hends.ends cs o t htr
    obtain ⟨p', -, hnext'⟩ := hforth q p _ x es q' x' hqp hnext
    exact ⟨es, p', x', hnext'⟩
  · intro es p' x' hnext
    obtain ⟨q', hqp', hnext'⟩ := hback q p _ x es p' x' hqp hnext
    obtain ⟨cs, o, z, htr, hz, hevents, hx', hq'⟩ := hends.as es q' x' hnext'
    exact ⟨cs, o, z, htr, hz, hevents, hx', q', hqp', hq'⟩

/-- What cannot be resumed conducts itself as any machine that shows the same. -/
theorem of_looks (h : Looks T.see e (K.node q)) (he : ∀ tag name params resume,
    e ≠ .ok (.operation tag name params resume)) : Conducts T L K w e q := by
  refine ⟨fun _ e' q' => e' = e ∧ q' = q, ?_, rfl, rfl⟩
  rintro _ _ _ ⟨rfl, rfl⟩
  exact ⟨h, fun tag name params resume he' => absurd he' (he tag name params resume)⟩

/-- A program for its value makes no difference. -/
theorem lift {p : Value} (h : Conducts T L K w (.ok p) q) :
    Conducts T L K w (.ok (Program.lift p)) q := by
  by_cases hp : p.isProgram = true
  · rwa [show Program.lift p = p from if_pos hp]
  · have hlift : Program.lift p = .leaf 0 p := if_neg hp
    refine .of_looks ?_ fun tag name params resume he => ?_
    · have hlooks := h.looks
      cases hnode : K.node q with
      | leaf v =>
        rw [hnode] at hlooks
        cases hlooks with
        | leaf hv =>
          rw [hv]
          exact .leaf rfl
      | operation name ps =>
        rw [hnode] at hlooks
        obtain ⟨tag, params, resume, ⟨rfl⟩, -⟩ := hlooks.exists_operation
        exact absurd rfl hp
      | failure f =>
        rw [hnode] at hlooks
        cases hlooks
    · rw [hlift] at he
      cases he

end Conducts

section Alike

/-- Nobody can tell these two ends apart: they are in one state of one machine. -/
def Alike (T : Venue V τ) (L : Listener) (w w' : T.World) (o o' : Ending) : Prop :=
  ∃ (σ : Type) (K : Conduct V τ σ) (q : σ), Conducts T L K w o q ∧ Conducts T L K w' o' q

variable {w w' : T.World} {o o' : Ending}

theorem Alike.looks (h : Alike T L w w' o o') : ∃ n, Looks T.see o n ∧ Looks T.see o' n := by
  obtain ⟨σ, K, q, hq, hq'⟩ := h
  exact ⟨K.node q, hq.looks, hq'.looks⟩

/-- Resumed with answers that look the same, while the private states are the same, both go on in the same
way and can still not be told apart. -/
theorem Alike.resume {tag tag' : Nat} {name name' : String} {params params' : List Value}
    {resume resume' a a' : Value} {u u' : T.World} {x : τ}
    (h : Alike T L w w' (.ok (.operation tag name params resume))
      (.ok (.operation tag' name' params' resume')))
    (hu : T.Later w u) (hu' : T.Later w' u') (ha : T.Fit u a) (ha' : T.Fit u' a')
    (hsee : T.see a' = T.see a) (hx : T.Holds u x) (hx' : T.Holds u' x) {cs : List Call} {t : Store}
    (htr : Traced (Action.ask resume [a]) (T.store u) cs o t) : ∃ cs' o' z z' y, T.store z = t ∧
      Traced (Action.ask resume' [a']) (T.store u') cs' o' (T.store z') ∧
      L.events T.see cs' = L.events T.see cs ∧ T.Holds z y ∧ T.Holds z' y ∧ Alike T L z z' o o' := by
  obtain ⟨σ, K, q, hq, hq'⟩ := h
  obtain ⟨es, p, y, z, hnext, rfl, -, rfl, hy, hp⟩ := (hq.resume hu ha hx).exists_of_traced htr
  rw [← hsee] at hnext
  obtain ⟨cs', o', z', htr', -, hevents, hy', hp'⟩ := (hq'.resume hu' ha' hx').as _ p y hnext
  exact ⟨cs', o', z, z', y, rfl, htr', hevents, hy, hy', σ, K, p, hp, hp'⟩

end Alike

section Exact

/-- The venue on which nothing is overlooked: the private state is all that there is. -/
def Venue.exact : Venue Value Store where
  World := Store
  store := id
  Later _ _ := True
  refl _ := trivial
  trans _ _ := trivial
  see := id
  Fit _ _ := True
  Holds s x := x = s

/-- The node of a program. -/
def nodeAt : Value → Node Value
  | .operation _ name params _ => .operation name params
  | .leaf _ x => .leaf x
  | v => .leaf v

/-- The node of an end. -/
def nodeOf : Ending → Node Value
  | .error f => .failure (.failure f)
  | .ok v => nodeAt (Program.lift v)

theorem looks_nodeAt (v : Value) : Looks id (.ok v) (nodeAt (Program.lift v)) := by
  by_cases hv : v.isProgram = true
  · rw [show Program.lift v = v from if_pos hv]
    cases v with
    | leaf tag x =>
      have h : Looks id (.ok (.leaf tag x)) (.leaf x) := .leaf rfl
      exact h
    | operation tag name params resume =>
      have h : Looks id (.ok (.operation tag name params resume)) (.operation name (params.map id)) :=
        .operation
      rwa [List.map_id] at h
    | _ => cases hv
  · have hlift : Program.lift v = .leaf 0 v := if_neg hv
    rw [hlift]
    exact .leaf hlift

theorem looks_nodeOf : (e : Ending) → Looks id e (nodeOf e)
  | .error _ => .failure
  | .ok v => looks_nodeAt v

/-- Every end of a run, as a machine: it goes on as it does. -/
def Conduct.itself (L : Listener) : Conduct Value Store Ending where
  node := nodeOf
  next e a s es o t := ∃ tag name params resume cs, e = .ok (.operation tag name params resume) ∧
    Traced (Action.ask resume [a]) s cs o t ∧ L.events id cs = es

/-- Where nothing is overlooked, every program conducts itself as itself. -/
theorem conducts_itself (L : Listener) (s : Store) (e : Ending) :
    Conducts Venue.exact L (.itself L) s e e := by
  refine ⟨fun _ e q => q = e, ?_, rfl⟩
  rintro _ _ e rfl
  refine ⟨looks_nodeOf e, ?_⟩
  rintro tag name params resume rfl u a _ - - rfl
  constructor
  · intro cs o t htr
    exact ⟨_, o, t, tag, name, params, resume, cs, rfl, htr, rfl⟩
  · rintro es o t ⟨tag, name, params, resume, cs, ⟨rfl⟩, htr, hevents⟩
    exact ⟨cs, o, t, htr, trivial, hevents, rfl, rfl⟩

end Exact

end AlgebraicEffects
