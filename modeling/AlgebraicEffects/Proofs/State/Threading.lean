import AlgebraicEffects.Proofs.Replay.Coroutine
import AlgebraicEffects.Proofs.Shapes

/-!
State passing is correct.

The state handler keeps no state: what it makes of a program is a function from the state to the rest
of the program, and these functions are applied as states become known. The reference is an
interpreter that walks the tree of a program with a current state (`Threads`). Run from a state, a
program unfolds to what the reference walks (`State.run_unfolds`), in all later worlds and however the
operations that are forwarded are resumed. So every resumption starts from the state at its operation.
-/

set_option autoImplicit false

namespace AlgebraicEffects

open Action (Traced Runs)

variable {V : Type} {S : Scene V} {C : Course S} {Idle : S.World → List Call → S.World → Prop}

section Reference

variable (pair : V → V → V) (nothing : V)

/-- Walks a tree with a current state. `get` is answered the state, `put` replaces it and is answered
nothing, any other operation is left to be answered from outside, and a value is paired with the
state in which it is reached. -/
inductive Threads : Tree V → V → List V → Node V → Prop
  | leaf {t : Tree V} {s v : V} : t [] (.leaf v) → Threads t s [] (.leaf (pair v s))
  | failure {t : Tree V} {s f : V} : t [] (.failure f) → Threads t s [] (.failure f)
  | get {t : Tree V} {s : V} {path : List V} {n : Node V} :
      t [] (.operation State.getName []) → Threads (t.below s) s path n → Threads t s path n
  | put {t : Tree V} {s v : V} {path : List V} {n : Node V} :
      t [] (.operation State.putName [v]) → Threads (t.below nothing) v path n →
      Threads t s path n
  | forwarded {t : Tree V} {s : V} {name : String} {params : List V} :
      t [] (.operation name params) → name ≠ State.getName → name ≠ State.putName →
      Threads t s [] (.operation name params)
  | answered {t : Tree V} {s a : V} {path : List V} {n : Node V} {name : String} {params : List V} :
      t [] (.operation name params) → name ≠ State.getName → name ≠ State.putName →
      Threads (t.below a) s path n → Threads t s (a :: path) n

variable {pair nothing} {t : Tree V} {s : V} {path : List V} {n : Node V}

theorem Threads.exists_node (h : Threads pair nothing t s path n) : ∃ m, t [] m := by
  cases h <;> exact ⟨_, by assumption⟩

theorem Threads.of_leaf {v : V} (ht : ∀ m, t [] m → m = .leaf v)
    (h : Threads pair nothing t s path n) : n = .leaf (pair v s) := by
  cases h with
  | leaf hm => cases ht _ hm; rfl
  | failure hm | get hm | put hm | forwarded hm | answered hm => cases ht _ hm

theorem Threads.of_failure {f : V} (ht : ∀ m, t [] m → m = .failure f)
    (h : Threads pair nothing t s path n) : n = .failure f := by
  cases h with
  | failure hm => cases ht _ hm; rfl
  | leaf hm | get hm | put hm | forwarded hm | answered hm => cases ht _ hm

/-- Below `get` the walk goes on with the answer that is the state. -/
theorem Threads.of_get (ht : ∀ m, t [] m → m = .operation State.getName [])
    (h : Threads pair nothing t s path n) : Threads pair nothing (t.below s) s path n := by
  cases h with
  | get _ h => exact h
  | leaf hm | failure hm => cases ht _ hm
  | put hm => exact absurd (Node.operation.inj (ht _ hm)).1 (by decide)
  | forwarded hm hget | answered hm hget => cases ht _ hm; exact absurd rfl hget

/-- Below `put` the walk goes on in the new state. -/
theorem Threads.of_put {v : V} (ht : ∀ m, t [] m → m = .operation State.putName [v])
    (h : Threads pair nothing t s path n) : Threads pair nothing (t.below nothing) v path n := by
  cases h with
  | put hm h => cases ht _ hm; exact h
  | leaf hm | failure hm => cases ht _ hm
  | get hm => exact absurd (Node.operation.inj (ht _ hm)).1 (by decide)
  | forwarded hm _ hput | answered hm _ hput => cases ht _ hm; exact absurd rfl hput

/-- At any other operation the walk waits for an answer. -/
theorem Threads.of_forwarded {name : String} {params : List V} (hget : name ≠ State.getName)
    (hput : name ≠ State.putName) (ht : ∀ m, t [] m → m = .operation name params)
    (h : Threads pair nothing t s path n) :
    path = [] ∧ n = .operation name params ∨
      ∃ a rest, path = a :: rest ∧ Threads pair nothing (t.below a) s rest n := by
  cases h with
  | forwarded hm => exact .inl ⟨rfl, ht _ hm⟩
  | answered _ _ _ h => exact .inr ⟨_, _, rfl, h⟩
  | leaf hm | failure hm => cases ht _ hm
  | get hm => cases ht _ hm; exact absurd rfl hget
  | put hm => cases ht _ hm; exact absurd rfl hput

end Reference

theorem Program.runs_graft_of_leaf {x next : Value} {s t : Store} {e : Ending}
    (hnext : next.isCallable = true) (h : Runs Value.apply (next.apply (.of [x])) s e t) (tag : Nat) :
    Runs Value.apply (Program.graft (.leaf tag x) next) s (e.map Program.lift) t := by
  rw [Replay.graft_of_leaf rfl hnext]
  exact (Runs.invoke h).map _

theorem Program.map_lift_lift (e : Ending) :
    (e.map Program.lift).map Program.lift = e.map Program.lift := by
  cases e with
  | ok v =>
    refine congrArg Except.ok ?_
    rcases Replay.lift_cases v with ⟨tag, name, params, resume, rfl⟩ | ⟨tag, x, hv⟩
    · rfl
    · rw [hv]
      rfl
  | error f => rfl

namespace State

/-- The table of the handler, as values. -/
def implementations : Handler.Table :=
  [(getName, .arrowOf .getState), (putName, .arrowOf .putState)]

/-- What is made of a program: a program of functions from the state. -/
def carrier (program : Value) : Action Value :=
  Handler.evaluate implementations (some (.arrowOf (.finishState true))) program

/-- The continuation of an operation under the handler. -/
def continued (resume : Value) : Value :=
  .arrowOf (.under implementations (some (.arrowOf (.finishState true))) resume)

/-- Supplies a state. -/
def supply (s function : Value) : Action Value := Program.applyTo function [.leaf 0 s]

theorem carrier_of_leaf {program v : Value} {tag : Nat}
    (h : Program.lift program = .leaf tag v) (s : Store) :
    Runs Value.apply (carrier program) s (.ok (.leaf 0 (.arrowOf (.finishAt true v)))) s := by
  unfold carrier Handler.evaluate
  rw [h]
  exact .call (.done _ _) (.done _ _)

theorem carrier_of_get (tag : Nat) (resume : Value) (s : Store) :
    Runs Value.apply (carrier (.operation tag getName [] resume)) s
      (.ok (.leaf 0 (.arrowOf (.getAt (continued resume))))) s :=
  .call (.done _ _) (.done _ _)

theorem carrier_of_put (tag : Nat) (v resume : Value) (s : Store) :
    Runs Value.apply (carrier (.operation tag putName [v] resume)) s
      (.ok (.leaf 0 (.arrowOf (.putAt v (continued resume))))) s :=
  .call (.done _ _) (.done _ _)

theorem carrier_of_other {name : String} (hget : name ≠ getName)
    (hput : name ≠ putName) (tag : Nat) (params : List Value) (resume : Value) :
    carrier (.operation tag name params resume) =
      .done (.operation 0 name params (continued resume)) := by
  have hlookup : implementations.lookup name = none := by
    rw [List.lookup_eq_none_iff]
    intro entry hentry
    rcases List.mem_cons.1 hentry with rfl | hentry
    · exact bne_iff_ne.2 hget
    · rw [List.mem_singleton.1 hentry]
      exact bne_iff_ne.2 hput
  have hlift : Program.lift (.operation tag name params resume) =
      .operation tag name params resume := rfl
  unfold carrier Handler.evaluate
  rw [hlift]
  simp only [hlookup]
  rfl

/-- Supplying a state calls the function that the program carries with it. -/
theorem supply_of_leaf {f σ : Value} {s t : Store} {e : Ending}
    (h : Runs Value.apply (f.apply (.of [σ])) s e t) (tag : Nat) :
    Runs Value.apply (supply σ (.leaf tag f)) s (e.map Program.lift) t := by
  have hcollect : Runs Value.apply ((Value.arrowOf (.collecting [] [])).apply (.of [σ])) s
      (.ok (.leaf 0 (.list 0 [σ]))) s :=
    .done _ _
  have hlist : Runs Value.apply (Program.collectAll [.leaf 0 σ]) s
      (.ok (.leaf 0 (.list 0 [σ]))) s :=
    Program.runs_graft_of_leaf rfl hcollect 0
  have hspread : Runs Value.apply (Program.graft (.leaf 0 (.list 0 [σ])) (.arrowOf (.spreading f)))
      s (e.map Program.lift) t := by
    refine Program.runs_graft_of_leaf rfl ?_ 0
    exact .invoke h
  have happly : Runs Value.apply ((Value.arrowOf (.applying [.leaf 0 σ])).apply (.of [f])) s
      (e.map Program.lift) t :=
    hlist.bind hspread
  rw [← Program.map_lift_lift e]
  exact Program.runs_graft_of_leaf rfl happly tag

/-- What is left to do of a program that has come to an end: it is carried and supplied a state. -/
def pass (σ : Value) (e : Ending) : Action Value :=
  (Action.ofExcept e).bind fun program => (carrier program).bind (supply σ)

/-- The continuation of an operation under the handler goes on with what is below the answer. -/
theorem continued_runs {resume a σ : Value} {arguments : Arguments Value}
    {s t u : Store} {o e : Ending}
    (hbody : (continued resume).apply arguments = (Action.ask resume [a]).bind carrier)
    (h : Runs Value.apply (Action.ask resume [a]) s o t)
    (hpass : Runs Value.apply (pass σ o) t e u) :
    Runs Value.apply ((Action.invoke (continued resume) arguments).bind (supply σ)) s e u := by
  cases o with
  | error f =>
    cases hpass
    have hcall : Runs Value.apply ((continued resume).apply arguments) s (.error f) t :=
      hbody ▸ h.bind_error
    exact (Runs.invoke hcall).bind_error
  | ok p =>
    have hcarried : Runs Value.apply ((carrier p).bind (supply σ)) t e u := hpass
    rcases Action.runs_bind_iff.1 hcarried with ⟨c, v, hc, hsupply⟩ | ⟨f, rfl, hf⟩
    · have hcall : Runs Value.apply ((continued resume).apply arguments) s (.ok c) v :=
        hbody ▸ h.bind hc
      exact (Runs.invoke hcall).bind hsupply
    · have hcall : Runs Value.apply ((continued resume).apply arguments) s (.error f) u :=
        hbody ▸ h.bind hf
      exact (Runs.invoke hcall).bind_error

end State

open State

section Simulation

variable (pair : V → V → V)

/-- A program run from a state is a leaf or a failure, or waits at an operation that is forwarded with
the state kept for its continuation. -/
inductive Kept (C : Course S) (Idle : S.World → List Call → S.World → Prop) (w : S.World) :
    Ending → Tree V → Prop where
  | ended {e : Ending} {t : Tree V} : (∀ n, t [] n → S.Shows w e n) →
      (∀ tag name params resume, e ≠ .ok (.operation tag name params resume)) → Kept C Idle w e t
  | waiting {tag : Nat} {name : String} {params : List Value} {resume σ : Value} {t t' : Tree V} :
      Unfolds C Idle w (.ok (.operation tag name params resume)) t' → name ≠ State.getName →
      name ≠ State.putName →
      (∀ path n, t path n → Threads pair (S.see .nothing) t' (S.see σ) path n) →
      Kept C Idle w (.ok (.operation 0 name params
        (.arrowOf (.grafted (continued resume) (.arrowOf (.applying [.leaf 0 σ])))))) t

variable {pair} {w : S.World} {t : Tree V} {n : Node V}

theorem Kept.mono {e : Ending} {t' : Tree V} (h : Kept pair C Idle w e t)
    (hsub : ∀ path n, t' path n → t path n) : Kept pair C Idle w e t' := by
  cases h with
  | ended hshows hne => exact .ended (fun n hn => hshows n (hsub [] n hn)) hne
  | waiting hunfolds hget hput hwalk =>
    exact .waiting hunfolds hget hput fun path n hn => hwalk path n (hsub path n hn)

theorem Kept.lifted {e : Ending} (h : Kept pair C Idle w e t) :
    Kept pair C Idle w (e.map Program.lift) t := by
  cases h with
  | waiting hunfolds hget hput hwalk => exact .waiting hunfolds hget hput hwalk
  | ended hshows hne =>
    cases e with
    | error f => exact .ended hshows hne
    | ok v =>
      rcases Replay.lift_cases v with ⟨tag, name, params, resume, rfl⟩ | ⟨tag, x, hv⟩
      · exact absurd rfl (hne tag name params resume)
      · show Kept pair C Idle w (.ok (Program.lift v)) t
        rw [hv]
        refine .ended (fun n hn => ?_) fun _ _ _ _ h => by cases h
        cases hshows n hn with
        | leaf hx hfit =>
          rw [hv] at hx
          cases hx
          exact .leaf rfl hfit
        | operation => exact absurd rfl (hne _ _ _ _)

/-- At an operation nothing else is seen. -/
theorem Unfolds.eq_operation {tag : Nat} {name : String} {params : List Value} {resume : Value}
    (h : Unfolds C Idle w (.ok (.operation tag name params resume)) t) (hn : t [] n) :
    n = .operation name (params.map S.see) :=
  (h.shows hn).unique .operation

theorem Kept.shows {e : Ending} (h : Kept pair C Idle w e t) (hn : t [] n) : S.Shows w e n := by
  cases h with
  | ended hshows _ => exact hshows n hn
  | waiting hunfolds hget hput hwalk =>
    rcases (hwalk _ n hn).of_forwarded hget hput fun _ => hunfolds.eq_operation with
      ⟨-, rfl⟩ | ⟨_, _, hpath, -⟩
    · exact .operation
    · cases hpath

variable (hfit : ∀ w v, S.Fit w v)
  (hpair : ∀ v s, S.see (.tuple 0 [v, s]) = pair (S.see v) (S.see s))

include hfit hpair in
/-- A program that is passed a state comes to its end or to an operation that is forwarded, as the
reference does. The induction is on the walk of the reference to that place. -/
theorem exists_kept {e : Ending} {σ : Value} (h : Unfolds C Idle w e t)
    (hn : Threads pair (S.see .nothing) t (S.see σ) [] n) :
    ∃ o u, Runs Value.apply (pass σ e) (S.store w) o (S.store u) ∧ C.Later w u ∧
      Kept pair C Idle u o (Threads pair (S.see .nothing) t (S.see σ)) := by
  generalize hs : S.see σ = s at hn
  generalize hpath : ([] : List V) = path at hn
  induction hn generalizing w e σ with
  | @leaf t s v ht =>
    have hroot m (hm : t [] m) := (h.shows hm).unique (h.shows ht)
    cases h.shows ht with
    | @leaf p x tag hp _ =>
      have hfinish : Runs Value.apply ((Value.arrowOf (.finishAt true x)).apply (.of [σ]))
          (S.store w) (.ok (.tuple 0 [x, σ])) (S.store w) :=
        .done _ _
      refine ⟨_, w, (carrier_of_leaf hp _).bind (supply_of_leaf hfinish 0), C.refl w, .ended ?_ ?_⟩
      · intro n hn
        rw [hn.of_leaf hroot, ← hs, ← hpair]
        exact .leaf rfl (hfit w _)
      · intro _ _ _ _ he
        cases he
  | @failure t s f ht =>
    have hroot m (hm : t [] m) := (h.shows hm).unique (h.shows ht)
    cases h.shows ht with
    | @failure f =>
      refine ⟨.error f, w, .fail f _, C.refl w, .ended ?_ ?_⟩
      · intro n hn
        rw [hn.of_failure hroot]
        exact .failure
      · intro _ _ _ _ he
        cases he
  | @get t s path n ht hwalk ih =>
    subst hs hpath
    have hroot m (hm : t [] m) := (h.shows hm).unique (h.shows ht)
    obtain ⟨tag, params, resume, rfl, hparams⟩ := (h.shows ht).exists_operation
    obtain rfl := List.map_eq_nil_iff.1 hparams
    obtain ⟨m, hm⟩ := hwalk.exists_node
    obtain ⟨cs, o, z, htr, hz, -, hbelow⟩ := h.resume (C.refl w) (hfit w σ) hm
    obtain ⟨e, u, hrun, hu, hkept⟩ := ih hbelow rfl rfl
    have hgot : Runs Value.apply ((Value.arrowOf (.getAt (continued resume))).apply (.of [σ]))
        (S.store w) e (S.store u) :=
      continued_runs rfl htr.runs hrun
    refine ⟨_, u, (carrier_of_get tag resume _).bind (supply_of_leaf hgot 0), C.trans hz hu, ?_⟩
    exact (hkept.mono fun _ _ hn => hn.of_get hroot).lifted
  | @put t s v path n ht hwalk ih =>
    subst hs hpath
    have hroot m (hm : t [] m) := (h.shows hm).unique (h.shows ht)
    obtain ⟨tag, params, resume, rfl, hparams⟩ := (h.shows ht).exists_operation
    obtain ⟨x, rfl, rfl⟩ := List.map_eq_singleton_iff.1 hparams
    obtain ⟨m, hm⟩ := hwalk.exists_node
    obtain ⟨cs, o, z, htr, hz, -, hbelow⟩ := h.resume (C.refl w) (hfit w .nothing) hm
    obtain ⟨e, u, hrun, hu, hkept⟩ := ih hbelow rfl rfl
    have hput : Runs Value.apply ((Value.arrowOf (.putAt x (continued resume))).apply (.of [σ]))
        (S.store w) e (S.store u) :=
      continued_runs rfl htr.runs hrun
    refine ⟨_, u, (carrier_of_put tag x resume _).bind (supply_of_leaf hput 0), C.trans hz hu, ?_⟩
    exact (hkept.mono fun _ _ hn => hn.of_put hroot).lifted
  | @forwarded t s name params ht hget hput =>
    obtain ⟨tag, params, resume, rfl, -⟩ := (h.shows ht).exists_operation
    subst hs
    refine ⟨_, w, ?_, C.refl w, .waiting h hget hput fun _ _ hn => hn⟩
    show Runs Value.apply ((carrier _).bind (supply σ)) _ _ _
    rw [carrier_of_other hget hput]
    exact .done _ _
  | answered => cases hpath

include hfit hpair in
/-- Wherever a forwarded operation is resumed, the program goes on in the state of that operation. -/
theorem Kept.resume {u : S.World} {tag : Nat} {name : String} {params : List Value}
    {resume a : Value} (h : Kept pair C Idle w (.ok (.operation tag name params resume)) t)
    (hu : C.Later w u) (hn : t [S.see a] n) :
    ∃ cs o z, Traced (Action.ask resume [a]) (S.store u) cs o (S.store z) ∧ C.Later u z ∧
      Kept pair C Idle z o (t.below (S.see a)) := by
  cases h with
  | ended _ hne => exact absurd rfl (hne _ _ _ _)
  | @waiting tag' _ _ resume σ _ t' hunfolds hget hput hwalk =>
    have hbelow {b path m} (hm : t (b :: path) m) :
        Threads pair (S.see .nothing) (t'.below b) (S.see σ) path m := by
      rcases (hwalk _ m hm).of_forwarded hget hput fun _ => hunfolds.eq_operation with
        ⟨hnil, -⟩ | ⟨_, _, hpath, hwalk⟩
      · cases hnil
      · cases hpath
        exact hwalk
    obtain ⟨m, hm⟩ := (hbelow hn).exists_node
    obtain ⟨cs, o, y, htr, hy, -, hunfolded⟩ := hunfolds.resume hu (hfit u a) hm
    obtain ⟨e, z, hrun, hz, hkept⟩ := exists_kept hfit hpair hunfolded (hbelow hn)
    have hgraft : Runs Value.apply ((Value.arrowOf (.grafted (continued resume)
        (.arrowOf (.applying [.leaf 0 σ])))).apply (.of [a])) (S.store u) e (S.store z) :=
      continued_runs rfl htr.runs hrun
    obtain ⟨ds, hds⟩ := (Runs.invoke hgraft).exists_traced
    exact ⟨ds, e, z, hds, C.trans hy hz, hkept.mono fun _ _ hm => hbelow hm⟩

/-- Run from a state, a program unfolds to what the reference walks from that state. -/
theorem State.run_unfolds (hfit : ∀ w v, S.Fit w v)
    (hpair : ∀ v s, S.see (.tuple 0 [v, s]) = pair (S.see v) (S.see s)) {program initial : Value}
    (hprogram : Unfolds C Idle w (.ok program) t)
    (hn : Threads pair (S.see .nothing) t (S.see initial) [] n) :
    ∃ e u, Runs Value.apply (State.run program initial (.bool true)) (S.store w) e (S.store u) ∧
      C.Later w u ∧
      Unfolds C Freely u e (Threads pair (S.see .nothing) t (S.see initial)) := by
  obtain ⟨e, u, hrun, hu, hkept⟩ := exists_kept hfit hpair hprogram hn
  refine ⟨e, u, hrun, hu, fun w e t => ∃ z, C.Later z w ∧ Kept pair C Idle z e t, ?_, u, C.refl u,
    hkept⟩
  rintro w e t ⟨z, hz, hkept⟩
  refine ⟨fun n hn => C.shows hz (hkept.shows hn), ?_⟩
  rintro tag name params resume rfl u a hu - ⟨n, hn⟩
  obtain ⟨cs, o, y, htr, hy, hnext⟩ := hkept.resume hfit hpair (C.trans hz hu) hn
  exact ⟨cs, o, y, _, htr, hy, ⟨trivial, rfl⟩, y, C.refl y, hnext⟩

end Simulation

section Replacing

/-- Replaces the state by seven and reads it. -/
private def replacing : Value :=
  .operation 0 State.putName [.int 7]
    (.arrowOf (.grafted (.arrowOf .leaf) (.arrowOf (.constant State.get))))

private def replacingTree : Tree Shape :=
  Tree.node State.putName [.int 7] fun _ => Tree.bare State.getName []

private theorem unfolds_replacing (w : Store) :
    Unfolds Course.shapes Freely w (.ok replacing) replacingTree := by
  refine unfolds_node (S := Scene.shapes) fun u a _ _ => ?_
  have hget : Unfolds Course.shapes Freely u (.ok State.get) (Tree.bare State.getName []) :=
    unfolds_bare (S := Scene.shapes) u 0 State.getName [] fun _ _ _ => trivial
  have hcarried : Runs Value.apply (Action.ask (.arrowOf .leaf) [a]) u (.ok (.leaf 0 a)) u :=
    .invoke (.done _ _)
  have hconstant : Runs Value.apply ((Value.arrowOf (.constant State.get)).apply (.of [a])) u
      (.ok State.get) u :=
    .done _ _
  have hgrafted : Runs Value.apply (Program.graft (.leaf 0 a) (.arrowOf (.constant State.get))) u
      (.ok State.get) u :=
    Program.runs_graft_of_leaf rfl hconstant 0
  have hbody : Runs Value.apply ((Value.arrowOf (.grafted (.arrowOf .leaf)
      (.arrowOf (.constant State.get)))).apply (.of [a])) u (.ok State.get) u :=
    hcarried.bind hgrafted
  have hresume := Runs.invoke hbody
  obtain ⟨cs, htr⟩ := hresume.exists_traced
  exact ⟨cs, _, u, htr, trivial, trivial, hget⟩

theorem State.run_unfolds_replacing : ∃ e u,
    Runs Value.apply (State.run replacing (.int 5) (.bool true)) Store.empty e u ∧
      Unfolds Course.shapes Freely u e
        (Threads (fun v s => .tuple [v, s]) .nothing replacingTree (.int 5)) := by
  have hwalk : Threads (fun v s => Shape.tuple [v, s]) (Scene.shapes.see .nothing) replacingTree
      (Scene.shapes.see (.int 5)) []
      (.leaf (.tuple [.int 7, .int 7])) :=
    .put rfl (.get (.inl ⟨rfl, rfl⟩) (.leaf (.inr ⟨_, rfl, rfl⟩)))
  obtain ⟨e, u, hrun, -, hunfolds⟩ := State.run_unfolds (S := Scene.shapes)
    (fun _ _ => trivial) (fun _ _ => rfl) (unfolds_replacing Store.empty) hwalk
  exact ⟨e, u, hrun, hunfolds⟩

end Replacing

end AlgebraicEffects
