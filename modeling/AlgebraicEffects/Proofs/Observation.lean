import AlgebraicEffects.Proofs.Identities

/-!
What can be observed of a program.

A program is looked at from outside: at a node one sees a leaf, an operation or a failure, and below
an operation what its continuation gives for an answer. Nothing is said about when the enclosing
interpreter does so. Between two resumptions the world may move on, any node may be resumed any
number of times, and every resumption starts in the world as it is then. So the specification of a
program is a relation that holds at all later worlds (`Respects`), and a program behaves as specified
when it lies in some such relation (`Behaves`).

A scene says which worlds there are, what is seen of a value, which values a world knows and which
may be offered as answers; a course says how worlds follow each other.
-/

set_option autoImplicit false

namespace AlgebraicEffects

open Action (Traced)

/-- What is seen of values, and which worlds there are. Identities are not seen. -/
structure Scene (V : Type) where
  World : Type
  store : World → Store
  see : Value → V
  /-- The value has its identity in this world. -/
  Known : World → Value → Prop
  /-- The value may be offered as an answer in this world. -/
  Fit : World → Value → Prop
  see_tagged (v : Value) (n : Nat) : see (v.tagged n).1 = see v

/-- What is seen at a node. -/
inductive Node (V : Type) where
  | leaf (v : V)
  | operation (name : String) (params : List V)
  | failure (f : V)

/-- A tree, as the nodes that are reached along sequences of answers. -/
abbrev Tree (V : Type) := List V → Node V → Prop

/-- The tree below an answer. -/
def Tree.below {V : Type} (t : Tree V) (a : V) : Tree V := fun path n => t (a :: path) n

variable {V : Type}

namespace Scene

variable {S : Scene V}

theorem see_identify (S : Scene V) (s : Store) (v : Value) : S.see (s.identify v).1 = S.see v := by
  unfold Store.identify
  by_cases h : v.isIdentified
  · simp only [h, if_true]
  · simp only [h, if_false, Bool.false_eq_true]
    exact S.see_tagged v s.nextTag

theorem see_taggedItems (done vs : List Value) (n : Nat) :
    (taggedItems done vs n).1.map S.see = (done.reverse ++ vs).map S.see := by
  induction vs generalizing done n with
  | nil =>
    show done.reverse.map S.see = _
    rw [List.append_nil]
  | cons v vs ih =>
    have h := ih ((v.tagged n).1 :: done) (v.tagged n).2
    simp only [List.reverse_cons, List.append_assoc, List.map_append, List.map_cons,
      S.see_tagged, List.cons_append, List.nil_append] at h
    simp only [List.map_append, List.map_cons]
    exact h

/-- The identity of a tuple of arguments changes nothing that is seen of them. -/
theorem see_identify_tuple (s : Store) (tag : Nat) (vs : List Value) :
    ∃ t us, (s.identify (.tuple tag vs)).1 = .tuple t us ∧ us.map S.see = vs.map S.see := by
  unfold Store.identify
  by_cases h : (Value.tuple tag vs).isIdentified
  · exact ⟨tag, vs, by simp only [h, if_true], rfl⟩
  · simp only [h, if_false, Bool.false_eq_true]
    cases tag with
    | succ n => simp [Value.isIdentified] at h
    | zero =>
      cases vs with
      | nil => simp [Value.isIdentified] at h
      | cons v vs =>
        refine ⟨_, _, rfl, ?_⟩
        have hsee := see_taggedItems (S := S) [(v.tagged (s.nextTag + 1)).1] vs
          (v.tagged (s.nextTag + 1)).2
        simp only [List.reverse_singleton, List.map_cons, S.see_tagged, List.cons_append,
          List.nil_append] at hsee
        exact hsee

/-- How the end of a run is seen as the node of a program. What is no program counts as a leaf. -/
inductive Shows (S : Scene V) (w : S.World) : Ending → Node V → Prop where
  | leaf {v u : Value} {tag : Nat} :
      Program.lift v = .leaf tag u → S.Fit w u → Shows S w (.ok v) (.leaf (S.see u))
  | operation {tag : Nat} {name : String} {params : List Value} {resume : Value} :
      Shows S w (.ok (.operation tag name params resume)) (.operation name (params.map S.see))
  | failure {f : Failure} : Shows S w (.error f) (.failure (S.see (.failure f)))

/-- One node is seen at a time. -/
theorem Shows.unique {w : S.World} {e : Ending} {m n : Node V} (h : S.Shows w e m)
    (g : S.Shows w e n) : m = n := by
  cases h with
  | leaf hv _ =>
    cases g with
    | leaf hu _ =>
      rw [hv] at hu
      cases hu
      rfl
    | operation => simp [Program.lift, Value.isProgram] at hv
  | operation =>
    cases g with
    | leaf hu _ => simp [Program.lift, Value.isProgram] at hu
    | operation => rfl
  | failure => cases g; rfl

theorem Shows.exists_operation {w : S.World} {e : Ending} {name : String} {shown : List V}
    (h : S.Shows w e (.operation name shown)) : ∃ tag params resume,
      e = .ok (.operation tag name params resume) ∧ params.map S.see = shown := by
  cases h
  exact ⟨_, _, _, rfl, rfl⟩

end Scene

/-- How worlds follow each other: a later world knows what an earlier one knew, and values can be
given their identities. -/
structure Course (S : Scene V) where
  Later : S.World → S.World → Prop
  refl (w : S.World) : Later w w
  trans {w u z : S.World} : Later w u → Later u z → Later w z
  known {w u : S.World} {v : Value} : Later w u → S.Known w v → S.Known u v
  fit {w u : S.World} {v : Value} : Later w u → S.Fit w v → S.Fit u v
  identified (w : S.World) (v : Value) :
    ∃ u, Later w u ∧ S.store u = ((S.store w).identify v).2 ∧
      (S.Fit w v → S.Known u ((S.store w).identify v).1)
  identifiedAll (w : S.World) (call : Arguments Value) :
    ∃ u, Later w u ∧ S.store u = ((S.store w).identifyAll call).2

theorem Course.shows {S : Scene V} (C : Course S) {w u : S.World} {e : Ending} {n : Node V}
    (h : C.Later w u) (hn : S.Shows w e n) : S.Shows u e n := by
  cases hn with
  | leaf hv hf => exact .leaf hv (C.fit h hf)
  | operation => exact .operation
  | failure => exact .failure

/-- A specification of programs with states of its own: what a program in a state has to meet, which
answers it awaits, and what a resumption has to do. -/
structure Protocol (S : Scene V) (σ : Type) where
  meets : S.World → Ending → σ → Prop
  awaits : σ → V → Prop
  next : S.World → σ → V → List Call → S.World → σ → Prop

section Behaviour

variable {S : Scene V} {σ : Type}

/-- Programs related to a state meet it, and wherever an operation is resumed, in any world that the
interludes between resumptions can lead to, its continuation ends related to a next state. -/
def Respects (C : Course S) (Interlude : S.World → S.World → Prop) (P : Protocol S σ)
    (R : S.World → Ending → σ → Prop) : Prop :=
  ∀ w e x, R w e x → P.meets w e x ∧
    ∀ tag name params resume, e = .ok (.operation tag name params resume) →
      ∀ u a, Interlude w u → S.Fit u a → P.awaits x (S.see a) →
        ∃ cs o z y, Traced (Action.ask resume [a]) (S.store u) cs o (S.store z) ∧ C.Later u z ∧
          P.next u x (S.see a) cs z y ∧ R z o y

/-- The program behaves as the state of the protocol says, however it is resumed. -/
def Behaves (C : Course S) (Interlude : S.World → S.World → Prop) (P : Protocol S σ)
    (w : S.World) (e : Ending) (x : σ) : Prop :=
  ∃ R, Respects C Interlude P R ∧ R w e x

/-- What behaves under a protocol behaves under one that is met by related states. How states are
related may depend on the world, if interludes keep it. -/
theorem Behaves.simulates {τ : Type} {C D : Course S} {I J : S.World → S.World → Prop}
    {P : Protocol S σ} {Q : Protocol S τ} (rel : S.World → σ → τ → Prop)
    (hI : ∀ w u, J w u → I w u) (hmove : ∀ w u x y, J w u → rel w x y → rel u x y)
    (hmeets : ∀ w e x y, rel w x y → P.meets w e x → Q.meets w e y)
    (hawaits : ∀ w x y a, rel w x y → Q.awaits y a → P.awaits x a)
    (hnext : ∀ w x y a cs u x', rel w x y → Q.awaits y a → C.Later w u → P.next w x a cs u x' →
      D.Later w u ∧ ∃ y', rel u x' y' ∧ Q.next w y a cs u y')
    {w : S.World} {e : Ending} {x : σ} {y : τ} (h : Behaves C I P w e x) (hxy : rel w x y) :
    Behaves D J Q w e y := by
  obtain ⟨R, hR, hr⟩ := h
  refine ⟨fun w e y => ∃ x, rel w x y ∧ R w e x, ?_, x, hxy, hr⟩
  rintro w e y ⟨x, hxy, hr⟩
  obtain ⟨hm, hstep⟩ := hR w e x hr
  refine ⟨hmeets w e x y hxy hm, fun tag name params resume he u a hu ha hy => ?_⟩
  have hxy' := hmove w u x y hu hxy
  obtain ⟨cs, o, z, x', htr, hz, hnx, hr'⟩ :=
    hstep tag name params resume he u a (hI w u hu) ha (hawaits u x y _ hxy' hy)
  obtain ⟨hz', y', hrel, hny⟩ := hnext u x y _ cs z x' hxy' hy hz hnx
  exact ⟨cs, o, z, y', htr, hz', hny, x', hrel, hr'⟩

/-- Programs related to a state meet it, and wherever an operation is resumed, in any world that the
interludes between resumptions can lead to, each run of its continuation that ends does so related to
a next state. Nothing is said of runs that do not end. -/
def Obeys (C : Course S) (Interlude : S.World → S.World → Prop) (P : Protocol S σ)
    (R : S.World → Ending → σ → Prop) : Prop :=
  ∀ w e x, R w e x → P.meets w e x ∧
    ∀ tag name params resume, e = .ok (.operation tag name params resume) →
      ∀ u a, Interlude w u → S.Fit u a → P.awaits x (S.see a) →
        ∀ cs o t, Traced (Action.ask resume [a]) (S.store u) cs o t →
          ∃ z y, S.store z = t ∧ C.Later u z ∧ P.next u x (S.see a) cs z y ∧ R z o y

/-- In all runs that end the program abides by the state of the protocol, however it is resumed. -/
def Abides (C : Course S) (Interlude : S.World → S.World → Prop) (P : Protocol S σ)
    (w : S.World) (e : Ending) (x : σ) : Prop :=
  ∃ R, Obeys C Interlude P R ∧ R w e x

/-- What abides by a protocol abides by one that is met by related states. -/
theorem Abides.simulates {τ : Type} {C D : Course S} {I J : S.World → S.World → Prop}
    {P : Protocol S σ} {Q : Protocol S τ} (rel : S.World → σ → τ → Prop)
    (hI : ∀ w u, J w u → I w u) (hmove : ∀ w u x y, J w u → rel w x y → rel u x y)
    (hmeets : ∀ w e x y, rel w x y → P.meets w e x → Q.meets w e y)
    (hawaits : ∀ w x y a, rel w x y → Q.awaits y a → P.awaits x a)
    (hnext : ∀ w x y a cs u x', rel w x y → Q.awaits y a → C.Later w u → P.next w x a cs u x' →
      D.Later w u ∧ ∃ y', rel u x' y' ∧ Q.next w y a cs u y')
    {w : S.World} {e : Ending} {x : σ} {y : τ} (h : Abides C I P w e x) (hxy : rel w x y) :
    Abides D J Q w e y := by
  obtain ⟨R, hR, hr⟩ := h
  refine ⟨fun w e y => ∃ x, rel w x y ∧ R w e x, ?_, x, hxy, hr⟩
  rintro w e y ⟨x, hxy, hr⟩
  obtain ⟨hm, hstep⟩ := hR w e x hr
  refine ⟨hmeets w e x y hxy hm, fun tag name params resume he u a hu ha hy cs o t htr => ?_⟩
  have hxy' := hmove w u x y hu hxy
  obtain ⟨z, x', hstore, hz, hnx, hr'⟩ :=
    hstep tag name params resume he u a (hI w u hu) ha (hawaits u x y _ hxy' hy) cs o t htr
  obtain ⟨hz', y', hrel, hny⟩ := hnext u x y _ cs z x' hxy' hy hz hnx
  exact ⟨z, y', hstore, hz', hny, x', hrel, hr'⟩

theorem Abides.later {C : Course S} {P : Protocol S σ} {w u : S.World} {e : Ending} {x : σ}
    (h : Abides C C.Later P w e x) (hu : C.Later w u)
    (hmeets : ∀ w u e x, C.Later w u → P.meets w e x → P.meets u e x) :
    Abides C C.Later P u e x := by
  obtain ⟨R, hR, hr⟩ := h
  refine ⟨fun u e x => ∃ w, C.Later w u ∧ R w e x, ?_, w, hu, hr⟩
  rintro u e x ⟨w, hw, hr⟩
  obtain ⟨hm, hstep⟩ := hR w e x hr
  refine ⟨hmeets w u e x hw hm, fun tag name params resume he z a hz ha hx cs o t htr => ?_⟩
  obtain ⟨y, x', hstore, hy, hnx, hr'⟩ :=
    hstep tag name params resume he z a (C.trans hw hz) ha hx cs o t htr
  exact ⟨y, x', hstore, hy, hnx, y, C.refl y, hr'⟩

end Behaviour

section Trees

variable {S : Scene V}

/-- The protocol of a tree, with what its resumptions may do to the world beside. -/
def Tree.protocol (S : Scene V) (Idle : S.World → List Call → S.World → Prop) :
    Protocol S (Tree V) where
  meets w e t := ∀ n, t [] n → S.Shows w e n
  awaits t a := ∃ n, t [a] n
  next w t a cs u t' := Idle w cs u ∧ t' = t.below a

/-- What a run has ended as unfolds to a tree, in all worlds from now on. -/
def Unfolds (C : Course S) (Idle : S.World → List Call → S.World → Prop) (w : S.World)
    (e : Ending) (t : Tree V) : Prop :=
  Behaves C C.Later (Tree.protocol S Idle) w e t

/-- Nothing is said of what resumptions do beside. -/
def Freely (_ : S.World) (_ : List Call) (_ : S.World) : Prop := True

variable {C : Course S} {Idle : S.World → List Call → S.World → Prop}

theorem Unfolds.shows {w : S.World} {e : Ending} {t : Tree V} {n : Node V}
    (h : Unfolds C Idle w e t) (hn : t [] n) : S.Shows w e n := by
  obtain ⟨R, hR, hr⟩ := h
  exact (hR w e t hr).1 n hn

theorem Unfolds.resume {w u : S.World} {t : Tree V} {tag : Nat} {name : String}
    {params : List Value} {resume a : Value} {n : Node V}
    (h : Unfolds C Idle w (.ok (.operation tag name params resume)) t) (hu : C.Later w u)
    (ha : S.Fit u a) (hn : t [S.see a] n) :
    ∃ cs o z, Traced (Action.ask resume [a]) (S.store u) cs o (S.store z) ∧ C.Later u z ∧
      Idle u cs z ∧ Unfolds C Idle z o (t.below (S.see a)) := by
  obtain ⟨R, hR, hr⟩ := h
  obtain ⟨cs, o, z, y, htr, hz, ⟨hidle, rfl⟩, hy⟩ :=
    (hR w _ t hr).2 tag name params resume rfl u a hu ha ⟨n, hn⟩
  exact ⟨cs, o, z, htr, hz, hidle, R, hR, hy⟩

theorem Unfolds.later {w u : S.World} {e : Ending} {t : Tree V} (h : Unfolds C Idle w e t)
    (hu : C.Later w u) : Unfolds C Idle u e t := by
  obtain ⟨R, hR, hr⟩ := h
  refine ⟨fun u e t => ∃ w, C.Later w u ∧ R w e t, ?_, w, hu, hr⟩
  rintro u e t ⟨w, hw, hr⟩
  obtain ⟨hm, hstep⟩ := hR w e t hr
  refine ⟨fun n hn => C.shows hw (hm n hn), fun tag name params resume he z a hz ha ht => ?_⟩
  obtain ⟨cs, o, y, t', htr, hy, hnx, hr'⟩ :=
    hstep tag name params resume he z a (C.trans hw hz) ha ht
  exact ⟨cs, o, y, t', htr, hy, hnx, y, C.refl y, hr'⟩

/-- What unfolds to a tree unfolds to every part of it, also when the world may take fewer steps and
resumptions are known to take such steps. -/
theorem Unfolds.mono {D : Course S} {Calm : S.World → List Call → S.World → Prop}
    (hlater : ∀ w u, D.Later w u → C.Later w u)
    (hcalm : ∀ w cs u, C.Later w u → Idle w cs u → D.Later w u ∧ Calm w cs u)
    {w : S.World} {e : Ending} {t t' : Tree V} (h : Unfolds C Idle w e t)
    (ht : ∀ path n, t' path n → t path n) : Unfolds D Calm w e t' := by
  refine Behaves.simulates (fun _ t t' => ∀ path n, t' path n → t path n) hlater ?_ ?_ ?_ ?_ h ht
  · exact fun _ _ _ _ _ hsub => hsub
  · intro w e t t' hsub hm n hn
    exact hm n (hsub [] n hn)
  · rintro w t t' a hsub ⟨n, hn⟩
    exact ⟨n, hsub [a] n hn⟩
  · rintro w t t' a cs u x hsub - hu ⟨hidle, rfl⟩
    obtain ⟨hD, hc⟩ := hcalm w cs u hu hidle
    exact ⟨hD, t'.below a, fun path n hn => hsub (a :: path) n hn, hc, rfl⟩

/-- The tree of a leaf. -/
def Tree.leaf (v : V) : Tree V := fun path n => path = [] ∧ n = .leaf v

/-- The tree of an operation whose answer is its value. -/
def Tree.bare (name : String) (params : List V) : Tree V := fun path n =>
  path = [] ∧ n = .operation name params ∨ ∃ a, path = [a] ∧ n = .leaf a

theorem unfolds_leaf {w : S.World} {v x : Value} {tag : Nat} (hv : Program.lift v = .leaf tag x)
    (h : S.Fit w x) : Unfolds C Idle w (.ok v) (Tree.leaf (S.see x)) := by
  refine ⟨fun u e t => S.Fit u x ∧ e = .ok v ∧ ∀ n, t [] n → n = .leaf (S.see x),
    ?_, h, rfl, fun n hn => hn.2⟩
  rintro u e t ⟨hf, rfl, ht⟩
  refine ⟨fun n hn => ?_, fun tag name params resume he => ?_⟩
  · rw [ht n hn]
    exact .leaf hv hf
  · cases he
    simp [Program.lift, Value.isProgram] at hv

theorem unfolds_bare (w : S.World) (tag : Nat) (name : String) (params : List Value)
    (hidle : ∀ u a, S.Fit u a → Idle u [.mk (.arrowOf .leaf) (.of [a]) []] u) :
    Unfolds C Idle w (.ok (.operation tag name params (.arrowOf .leaf)))
      (Tree.bare name (params.map S.see)) := by
  refine ⟨fun u e t => (e = .ok (.operation tag name params (.arrowOf .leaf)) ∧
      t = Tree.bare name (params.map S.see)) ∨ Unfolds C Idle u e t, ?_, .inl ⟨rfl, rfl⟩⟩
  rintro u e t (⟨rfl, rfl⟩ | h)
  · refine ⟨fun n hn => ?_, fun _ _ _ _ he z a _ ha _ => ?_⟩
    · rcases hn with ⟨-, rfl⟩ | ⟨a, ha, -⟩
      · exact .operation
      · cases ha
    · cases he
      refine ⟨[.mk (.arrowOf .leaf) (.of [a]) []], .ok (.leaf 0 a), z, _,
        Traced.invoke (.done _ _), C.refl z, ⟨hidle z a ha, rfl⟩, .inr ?_⟩
      refine (unfolds_leaf (v := .leaf 0 a) rfl ha).mono (fun _ _ hu => hu) (fun _ _ _ hu hi => ⟨hu, hi⟩) ?_
      rintro path n (⟨hnil, -⟩ | ⟨b, hb, rfl⟩)
      · cases hnil
      · cases hb
        exact ⟨rfl, rfl⟩
  · obtain ⟨R, hR, hr⟩ := h
    obtain ⟨hm, hstep⟩ := hR u e t hr
    refine ⟨hm, fun tag name params resume he z a hz ha ht => ?_⟩
    obtain ⟨cs, o, y, t', htr, hy, hnx, hr'⟩ := hstep tag name params resume he z a hz ha ht
    exact ⟨cs, o, y, t', htr, hy, hnx, .inr ⟨R, hR, hr'⟩⟩

/-- The tree of an operation with the trees below its answers. -/
def Tree.node (name : String) (params : List V) (next : V → Tree V) : Tree V
  | [], n => n = .operation name params
  | a :: path, n => next a path n

/-- An operation unfolds to the trees to which its continuation leads. -/
theorem unfolds_node {w : S.World} {tag : Nat} {name : String} {params : List Value}
    {resume : Value} {next : V → Tree V}
    (h : ∀ u a, C.Later w u → S.Fit u a → ∃ cs o z,
      Traced (Action.ask resume [a]) (S.store u) cs o (S.store z) ∧ C.Later u z ∧ Idle u cs z ∧
        Unfolds C Idle z o (next (S.see a))) :
    Unfolds C Idle w (.ok (.operation tag name params resume))
      (Tree.node name (params.map S.see) next) := by
  refine ⟨fun u e t => C.Later w u ∧ e = .ok (.operation tag name params resume) ∧
    t = Tree.node name (params.map S.see) next ∨ Unfolds C Idle u e t, ?_,
    .inl ⟨C.refl w, rfl, rfl⟩⟩
  rintro u e t (⟨hu, rfl, rfl⟩ | ⟨R, hR, hr⟩)
  · refine ⟨fun n hn => ?_, fun _ _ _ _ he z a hz ha _ => ?_⟩
    · cases hn
      exact .operation
    · cases he
      obtain ⟨cs, o, y, htr, hy, hidle, hnext⟩ := h z a (C.trans hu hz) ha
      exact ⟨cs, o, y, _, htr, hy, ⟨hidle, rfl⟩, .inr hnext⟩
  · obtain ⟨hm, hstep⟩ := hR u e t hr
    refine ⟨hm, fun tag name params resume he z a hz ha ht => ?_⟩
    obtain ⟨cs, o, y, t', htr, hy, hnx, hr'⟩ := hstep tag name params resume he z a hz ha ht
    exact ⟨cs, o, y, t', htr, hy, hnx, .inr ⟨R, hR, hr'⟩⟩

end Trees

section Integers

/-- The integer that a value is. -/
def Value.integer? : Value → Option Int
  | .int n => some n
  | _ => none

theorem integer?_tagged (v : Value) (n : Nat) : ((v.tagged n).1).integer? = v.integer? := by
  cases v with
  | int m => rfl
  | nothing => rfl
  | bool b => rfl
  | text s => rfl
  | bytes bs => rfl
  | generator a name => rfl
  | agenda a => rfl
  | loopHost a => rfl
  | notAvailable => rfl
  | failure f => cases f <;> rfl
  | tuple tag items => cases tag <;> cases items <;> rfl
  | handler tag table atLeaf => cases tag <;> cases atLeaf <;> rfl
  | float tag => cases tag <;> rfl
  | list tag => cases tag <;> rfl
  | names tag => cases tag <;> rfl
  | dict tag => cases tag <;> rfl
  | frozen tag => cases tag <;> rfl
  | view tag => cases tag <;> rfl
  | leaf tag => cases tag <;> rfl
  | operation tag => cases tag <;> rfl
  | function tag => cases tag <;> rfl
  | arrow tag => cases tag <;> rfl
  | ok tag => cases tag <;> rfl
  | err tag => cases tag <;> rfl
  | outcome tag => cases tag <;> rfl

/-- The scene of all stores in which only integers are seen, known and offered. -/
def Scene.integers : Scene (Option Int) where
  World := Store
  store := id
  see := Value.integer?
  Known _ v := ∃ n, v = .int n
  Fit _ v := ∃ n, v = .int n
  see_tagged := integer?_tagged

/-- The course of integers in which any store may follow any other. -/
def Course.integers : Course Scene.integers where
  Later _ _ := True
  refl _ := trivial
  trans _ _ := trivial
  known _ h := h
  fit _ h := h
  identified w v := by
    refine ⟨((show Store from w).identify v).2, trivial, rfl, ?_⟩
    rintro ⟨n, rfl⟩
    exact ⟨n, rfl⟩
  identifiedAll w call := ⟨((show Store from w).identifyAll call).2, trivial, rfl⟩

end Integers

end AlgebraicEffects
