import AlgebraicEffects.Proofs.Comparing.Choosing

/-!
The same twice.

A program may be compared with itself in one and the same world, where only what is the same goes together
(`Comparison.exact`). Every program is then its own twin, and what is said of the operations that it
performs, and of the values that it reaches, holds of all that answers lead to, in whatever worlds it is
resumed (`Twins.refl_holding`, `Twins.of_performs`); and twins of twins are twins (`Twins.trans`). So two
actions that are matched both ways cannot be told apart by any answers (`Course.Agree`).
-/

set_option autoImplicit false

namespace AlgebraicEffects

open Action (Traced)

variable {V : Type} {S : Scene V} {α β : Type}

/-- Whatever an action does, the course goes on with it. -/
def Course.Includes (C : Course S) (a : Action α) (w : S.World) : Prop :=
  ∀ cs r t, Traced a (S.store w) cs r t → ∃ u, S.store u = t ∧ C.Later w u

/-- Worlds are told apart by their stores, and the course goes on with whatever is called, and with what
the library logs and draws. -/
structure Course.IsOpen (C : Course S) : Prop where
  injective {w u : S.World} : S.store w = S.store u → w = u
  called (f : Value) (arguments : Arguments Value) (w : S.World) : C.Includes (f.apply arguments) w
  noted (level : String) (message : Value) (w : S.World) : C.Includes (Log.note level message) w
  drawn (address : Nat) (w : S.World) : C.Includes (Chance.draw address) w

/-- In this world or later, answers lead from the program to such an operation. -/
inductive Course.Performs (C : Course S) : S.World → Value → String → List Value → Prop where
  | now {w : S.World} {tag : Nat} {name : String} {params : List Value} {resume : Value} :
      Performs C w (.operation tag name params resume) name params
  | later {w u z : S.World} {tag : Nat} {name name' : String} {params params' : List Value}
      {resume answer p : Value} {cs : List Call} : C.Later w u →
      Traced (Program.continueWith resume answer) (S.store u) cs (.ok p) (S.store z) → C.Later u z →
      Performs C z p name' params' → Performs C w (.operation tag name params resume) name' params'

/-- In this world or later, answers lead from the program to a leaf with such a value. What is no program
is the leaf that carries it. -/
inductive Course.Reaches (C : Course S) : S.World → Value → Value → Prop where
  | here {w : S.World} {tag : Nat} {p x : Value} : Program.lift p = .leaf tag x → Reaches C w p x
  | later {w u z : S.World} {tag : Nat} {name : String} {params : List Value} {resume answer p x : Value}
      {cs : List Call} : C.Later w u →
      Traced (Program.continueWith resume answer) (S.store u) cs (.ok p) (S.store z) → C.Later u z →
      Reaches C z p x → Reaches C w (.operation tag name params resume) x

variable {C : Course S} {L : Listener} {w u z : S.World} {n : Nat} {a b : Action Value}

namespace Course

section Includes

theorem includes_done (x : α) : C.Includes (.done x) w := by
  intro cs r t h
  cases h
  exact ⟨w, rfl, C.refl w⟩

theorem includes_fail (f : Failure) : C.Includes (.fail f : Action α) w := by
  intro cs r t h
  cases h
  exact ⟨w, rfl, C.refl w⟩

/-- Looking at the store does not change it. -/
theorem includes_read {k : Store → Action α} (hk : C.Includes (k (S.store w)) w) :
    C.Includes (.read k) w := by
  intro cs r t h
  cases h with
  | read h => exact hk cs r t h

theorem includes_inspect (view : Store → α) : C.Includes (Action.inspect view) w :=
  includes_read (includes_done _)

theorem Includes.bind {a : Action α} {k : α → Action β} (h : C.Includes a w)
    (hk : ∀ x z, C.Later w z → C.Includes (k x) z) : C.Includes (a.bind k) w := by
  intro cs r t htr
  obtain ⟨ds, q, s, ha⟩ := htr.exists_of_bind
  obtain ⟨z, rfl, hz⟩ := h ds q s ha
  cases q with
  | error f =>
    obtain ⟨-, -, rfl⟩ := htr.unique ha.bind_error
    exact ⟨z, rfl, hz⟩
  | ok x =>
    obtain ⟨es, -, hes⟩ := htr.of_bind ha
    obtain ⟨y, rfl, hy⟩ := hk x z hz es r t hes
    exact ⟨y, rfl, C.trans hz hy⟩

theorem IsOpen.invoke (hC : C.IsOpen) (f : Value) (arguments : Arguments Value) :
    C.Includes (Action.invoke f arguments) w := by
  intro cs r t h
  obtain ⟨inner, -, hbody⟩ := h.of_invoke
  exact hC.called f arguments w inner r t hbody

theorem IsOpen.ask (hC : C.IsOpen) (f : Value) (arguments : List Value) :
    C.Includes (Action.ask f arguments) w := hC.invoke f _

theorem IsOpen.continueWith (hC : C.IsOpen) (resume answer : Value) :
    C.Includes (Program.continueWith resume answer) w :=
  Includes.bind (hC.ask resume [answer]) fun _ _ _ => includes_done _

end Includes

/-- Where any store may follow any other one, every course goes on. -/
theorem isOpen_shapes : Course.shapes.IsOpen where
  injective h := h
  called _ _ _ _ _ t _ := ⟨t, rfl, trivial⟩
  noted _ _ _ _ _ t _ := ⟨t, rfl, trivial⟩
  drawn _ _ _ _ t _ := ⟨t, rfl, trivial⟩

/-- Of an operation whose answer is its value nothing else is performed. -/
theorem Performs.of_bare {name name' : String} {params params' : List Value}
    (h : C.Performs w (.bare name params) name' params') : name' = name ∧ params' = params := by
  cases h with
  | now => exact ⟨rfl, rfl⟩
  | @later _ u _ _ _ _ _ _ _ answer _ _ _ hrun _ hp =>
    obtain ⟨q, hq, hask⟩ := hrun.of_map
    obtain ⟨inner, -, hbody⟩ := hask.of_invoke
    have hleaf : Traced ((Value.arrowOf .leaf).apply (.of [answer])) (S.store u) [] (.ok (.leaf 0 answer))
        (S.store u) := .done _ _
    obtain ⟨-, rfl, -⟩ := hbody.unique hleaf
    cases hq
    cases hp

/-- What is reached later may be reached now. -/
theorem Reaches.earlier {p x : Value} (hz : C.Later w z) (h : C.Reaches z p x) : C.Reaches w p x := by
  cases h with
  | here hp => exact .here hp
  | later hu hrun hy hx => exact .later (C.trans hz hu) hrun hy hx

/-- What is no program reaches only itself. -/
theorem Reaches.of_not_program {v x : Value} (hv : v.isProgram = false) (h : C.Reaches w v x) : x = v := by
  cases h with
  | here hleaf =>
    rw [lift_of_not_program hv] at hleaf
    cases hleaf
    rfl
  | later => cases hv

theorem Reaches.of_lift {p x : Value} (h : C.Reaches w (Program.lift p) x) : C.Reaches w p x := by
  by_cases hp : p.isProgram
  · rwa [lift_of_isProgram hp] at h
  · have hlift := lift_of_not_program (Bool.eq_false_iff.2 hp)
    rw [hlift] at h
    cases h with
    | here hx =>
      cases hx
      exact .here hlift

/-- An operation that goes on with one value, whatever it is answered, reaches that value only. -/
theorem Reaches.of_constant {tag : Nat} {name : String} {params : List Value} {v x : Value}
    (hv : v.isProgram = false)
    (h : C.Reaches w (.operation tag name params (.arrowOf (.constant v))) x) : x = v := by
  cases h with
  | here hleaf => cases hleaf
  | @later _ u _ _ _ _ _ answer _ _ _ _ hrun _ hx =>
    have hasked : Traced (Action.ask (.arrowOf (.constant v)) [answer]) (S.store u) _ (.ok v) (S.store u) :=
      Traced.invoke (.done _ _)
    obtain ⟨q, hgiven, hq⟩ := hrun.of_map
    obtain ⟨-, rfl, -⟩ := hq.unique hasked
    cases hgiven
    exact hx.of_lift.of_not_program hv

/-- Only operations perform anything. -/
theorem Performs.lift {p : Value} {name : String} {params : List Value} (h : C.Performs w p name params) :
    C.Performs w (Program.lift p) name params := by
  cases h with
  | now => exact .now
  | later hu hrun hz hp => exact .later hu hrun hz hp

end Course

/-- Where only what is the same goes together. -/
def Comparison.exact (C : Course S) (L : Listener) : Comparison S where
  course := C
  listener := L
  Level w u := w = u
  Same _ _ x x' := x = x'
  Fails f f' := f = f'
  passes := false
  same_later _ _ h := h
  see h := congrArg S.see h
  fails _ := rfl
  Keeps _ _ _ := True
  keeps_told _ _ := trivial
  keeps_append _ _ := trivial

namespace Comparison

theorem exact_rests (e : Ending) : (exact C L).Rests e := fun _ _ h => Bool.false_ne_true h.1

theorem exact_through (k : Value → Action Value) : (exact C L).Through k :=
  fun h => absurd h Bool.false_ne_true

/-- An action matches one that ends whenever it does, in the same world, in the same way and with the same
observed. -/
theorem matched_of_ends {Φ : Nat → Likeness S} (h : ∀ cs o t, Traced a (S.store w) cs o t → ∃ z ds o',
      S.store z = t ∧ C.Later w z ∧ Traced b (S.store w) ds o' t ∧
        (exact C L).events cs = (exact C L).events ds ∧
        EndAlike (fun v v' => ∀ j, j ≤ n → Φ j z v z v') Eq o o') : (exact C L).Matched n a w b w Φ := by
  refine .intro (fun _ _ _ _ _ => trivial) (fun cs o t j htr hj _ => ?_)
    fun _ _ _ _ _ _ _ _ _ ho => absurd ho.1 Bool.false_ne_true
  obtain ⟨z, ds, o', rfl, hz, htr', hevents, hends⟩ := h cs o t htr
  refine .ends htr' trivial (exact_rests o') ⟨z, z, rfl, rfl, hz, hz, rfl, hevents, ?_⟩
  cases hends with
  | ok hv => exact .ok (hv j (by omega))
  | error hf => exact .error hf

/-- What an action does it does twice. -/
theorem exact_matched {Φ : Nat → Likeness S} (ha : C.Includes a w)
    (h : ∀ j cs v z, j ≤ n → C.Later w z → Traced a (S.store w) cs (.ok v) (S.store z) → Φ j z v z v) :
    (exact C L).Matched n a w a w Φ := by
  refine matched_of_ends fun cs o t htr => ?_
  obtain ⟨z, rfl, hz⟩ := ha cs o t htr
  refine ⟨z, cs, o, rfl, hz, htr, rfl, ?_⟩
  cases o with
  | ok v => exact .ok fun j hj => h j cs v z hj hz htr
  | error f => exact .error rfl

theorem exact_likewise {a : Action α} (ha : C.Includes a w) :
    (exact C L).Likewise a w a w fun _ _ => Eq := by
  intro cs r t htr
  obtain ⟨z, rfl, hz⟩ := ha cs r t htr
  refine ⟨cs, r, z, z, htr, rfl, hz, hz, rfl, rfl, trivial, trivial, ?_⟩
  cases r with
  | ok x => exact .ok rfl
  | error f => exact .error rfl

/-- Leaves that go together, with values of which this is said, and operations of which that is. -/
def holding (E : Comparison S) (Q : Value → Prop) (P : String → List Value → Prop) : Traits S where
  carries _ w x u x' := E.Same w u x x' ∧ Q x
  fewer _ h := h
  performs := P

variable {P : String → List Value → Prop} {Q : Value → Prop} {v v' : Value}

/-- A program is its own twin, with all that it performs and all values that it reaches. -/
theorem Twins.refl_holding (hC : C.IsOpen) (hv : v.isProgram = true)
    (hP : ∀ name params, C.Performs w v name params → P name params)
    (hQ : ∀ x, C.Reaches w v x → Q x) :
    (exact C L).Twins ((exact C L).holding Q P) n w v w v := by
  induction n using Nat.strong_induction_on generalizing w v with
  | _ n ih =>
    cases v with
    | leaf tag x => exact .leaf ⟨rfl, hQ x (.here rfl)⟩
    | operation tag name params resume =>
      refine .operation (fun h => absurd h Bool.false_ne_true) (hP _ _ .now)
        (List.forall₂_same.2 fun _ _ => rfl) ?_
      rintro z _ x _ hz - rfl rfl
      -- A resumption takes a call, so what it gives is compared for fewer calls.
      have hresumed : (exact C L).Matched n (Program.continueWith resume x) z
          (Program.continueWith resume x) z fun j z v y v' =>
            j < n → (exact C L).Twins ((exact C L).holding Q P) j z v y v' := by
        refine exact_matched (hC.continueWith resume x) fun j cs p y _ hy hrun hj => ?_
        have hp : p.isProgram = true := Action.GivesPrograms.lifted _ _ _ _ _ hrun
        exact ih j hj hp (fun name params h => hP name params (.later hz hrun hy h))
          fun x h => hQ x (.later hz hrun hy h)
      exact (Always.guarded hresumed).mono fun j said t o _ ⟨hj, hR⟩ => hR.mono fun _ _ _ hmeet =>
        hmeet.mono fun _ _ _ _ _ _ _ htwins => htwins hj
    | _ => cases hv

theorem Twins.refl (hC : C.IsOpen) (hv : v.isProgram = true)
    (hP : ∀ name params, C.Performs w v name params → P name params) :
    (exact C L).Twins ((exact C L).alike P) n w v w v :=
  .relax (Λ := (exact C L).holding (fun _ => True) P) (fun _ _ _ _ _ _ _ h => h.1) (fun _ _ h => h)
    (.refl_holding hC hv hP fun _ _ => trivial)

/-- What matches a run that has ended has ended in the same world and in the same way, if with programs
then with twins. -/
theorem exists_exact_end (hC : C.IsOpen) {Λ : Traits S} {cs : List Call} {o : Ending} {t : Store}
    (h : ∀ n, (exact C L).Matched n a w b w ((exact C L).Twins Λ)) (hrun : Traced a (S.store w) cs o t) :
    ∃ z ds o', S.store z = t ∧ C.Later w z ∧ Traced b (S.store w) ds o' t ∧
      (exact C L).events cs = (exact C L).events ds ∧
      EndAlike (fun v v' => ∀ n, (exact C L).Twins Λ n z v z v') Eq o o' := by
  have hnext (n : Nat) : ∃ z ds o', S.store z = t ∧ C.Later w z ∧ Traced b (S.store w) ds o' t ∧
      (exact C L).events cs = (exact C L).events ds ∧
      EndAlike (fun v v' => (exact C L).Twins Λ n z v z v') Eq o o' := by
    cases h (weight cs + n) with
    | intro _ ends _ =>
      cases ends cs _ _ n hrun (Nat.le_refl _) (exact_rests _) with
      | waits _ _ ho _ => exact absurd ho.1 Bool.false_ne_true
      | @ends _ _ _ ds _ _ htr _ _ hmeet =>
        obtain ⟨z, _, rfl, hstore, hlater, -, rfl, htold, hends⟩ := hmeet
        rw [← hstore] at htr
        exact ⟨z, ds, _, rfl, hlater, htr, htold, hends⟩
  obtain ⟨z, ds, o', rfl, hlater, htr, htold, hends⟩ := hnext 0
  refine ⟨z, ds, o', rfl, hlater, htr, htold, ?_⟩
  cases hends with
  | error hf => exact .error hf
  | ok =>
    refine .ok fun n => ?_
    -- The other run is the same for any number of calls that are left.
    obtain ⟨y, es, q, hstore, -, hq, -, hends⟩ := hnext n
    obtain ⟨-, rfl, -⟩ := hq.unique htr
    cases hC.injective hstore
    cases hends with
    | ok htwins => exact htwins

/-- What matches a run that has ended as a program has ended in twins of it. -/
theorem exists_exact_run (hC : C.IsOpen) {Λ : Traits S} {cs : List Call}
    (h : ∀ n, (exact C L).Matched n a w b w ((exact C L).Twins Λ))
    (hrun : Traced a (S.store w) cs (.ok v) (S.store z)) : ∃ ds v', C.Later w z ∧
      Traced b (S.store w) ds (.ok v') (S.store z) ∧ (exact C L).events cs = (exact C L).events ds ∧
      ∀ n, (exact C L).Twins Λ n z v z v' := by
  obtain ⟨y, ds, o', hstore, hlater, htr, htold, hends⟩ := exists_exact_end hC h hrun
  cases hC.injective hstore
  cases hends with
  | ok htwins => exact ⟨ds, _, hlater, htr, htold, htwins⟩

/-- What is a twin of an operation, for any number of calls, is an operation with a continuation that
matches. -/
theorem Twins.exists_operation {Λ : Traits S} {tag : Nat} {name : String} {params : List Value}
    {resume : Value} (h : ∀ n, (exact C L).Twins Λ n w (.operation tag name params resume) w v') :
    Λ.performs name params ∧ ∃ tag' params' resume', v' = .operation tag' name params' resume' ∧
      List.Forall₂ ((exact C L).Same w w) params params' ∧ ∀ n, (exact C L).Resume Λ n w resume w resume' := by
  have hshown (n : Nat) : Λ.performs name params ∧ ∃ tag' params' resume',
      v' = .operation tag' name params' resume' ∧ List.Forall₂ ((exact C L).Same w w) params params' ∧
        (exact C L).Resume Λ n w resume w resume' := by
    refine (h n).elim ?_ ?_
    · rintro _ _ _ _ hleaf
      cases hleaf
    · rintro _ tag' _ _ params' _ resume' hoperation rfl _ hperforms hparams hresume
      cases hoperation
      exact ⟨hperforms, tag', params', resume', rfl, hparams, hresume⟩
  obtain ⟨hperforms, tag', params', resume', rfl, hparams, -⟩ := hshown 0
  refine ⟨hperforms, tag', params', resume', rfl, hparams, fun n => ?_⟩
  obtain ⟨-, _, _, _, hoperation, -, hresume⟩ := hshown n
  cases hoperation
  exact hresume

/-- What is a twin of a leaf is a leaf. -/
theorem Twins.exists_leaf {Λ : Traits S} {tag : Nat} {x : Value}
    (h : (exact C L).Twins Λ n w (.leaf tag x) w v') :
    ∃ tag' x', v' = .leaf tag' x' ∧ Λ.carries n w x w x' := by
  refine h.elim ?_ ?_
  · rintro _ tag' _ x' hleaf rfl hx
    cases hleaf
    exact ⟨tag', x', rfl, hx⟩
  · rintro _ _ _ _ _ _ _ hoperation
    cases hoperation

/-- Whatever answers lead to from the first of two twins is said of it. -/
theorem Twins.of_performs (hC : C.IsOpen) {name : String} {params : List Value}
    (h : ∀ n, (exact C L).Twins ((exact C L).alike P) n w v w v') (hp : C.Performs w v name params) :
    P name params := by
  induction hp generalizing v' with
  | now => exact (Twins.exists_operation h).1
  | @later w u z tag name name' params params' resume answer p cs hu hrun hz hp ih =>
    obtain ⟨-, tag', params', resume', rfl, -, hresume⟩ := Twins.exists_operation h
    obtain ⟨ds, p', -, -, -, htwins⟩ :=
      exists_exact_run hC (fun n => hresume n u u answer answer hu hu rfl rfl) hrun
    exact ih htwins

/-- What is the same, item by item, is the same. -/
theorem eq_of_forall₂_same {xs xs' : List Value} (h : List.Forall₂ ((exact C L).Same w u) xs xs') :
    xs = xs' := by
  induction h with
  | nil => rfl
  | cons hx _ ih => rw [show _ = _ from hx, ih]

/-- What matches an action that matches another one matches that one, if twins of what the first ends as
are related so. -/
theorem matched_trans (hC : C.IsOpen) {c : Action Value} {Λ Λ' : Traits S} {Φ : Nat → Likeness S}
    (h : ∀ n, (exact C L).Matched n a w b w ((exact C L).Twins Λ))
    (h' : ∀ n, (exact C L).Matched n b w c w ((exact C L).Twins Λ'))
    (hΦ : ∀ z v v' v'', (∀ n, (exact C L).Twins Λ n z v z v') → (∀ n, (exact C L).Twins Λ' n z v' z v'') →
      ∀ j, j ≤ n → Φ j z v z v'') : (exact C L).Matched n a w c w Φ := by
  refine matched_of_ends fun cs o t hrun => ?_
  obtain ⟨z, ds, o', rfl, hlater, hrun', hevents, hends⟩ := exists_exact_end hC h hrun
  obtain ⟨y, es, o'', hstore, -, hrun'', hevents', hends'⟩ := exists_exact_end hC h' hrun'
  cases hC.injective hstore
  refine ⟨z, es, o'', rfl, hlater, hrun'', hevents.trans hevents', ?_⟩
  cases hends with
  | error hf =>
    cases hends' with
    | error hf' => exact .error (hf.trans hf')
  | ok htwins =>
    cases hends' with
    | ok htwins' => exact .ok (hΦ _ _ _ _ htwins htwins')

/-- Twins of twins are twins. -/
theorem Twins.trans (hC : C.IsOpen) {v'' : Value}
    (h : ∀ n, (exact C L).Twins ((exact C L).alike P) n w v w v')
    (h' : ∀ n, (exact C L).Twins ((exact C L).alike P) n w v' w v'') (n : Nat) :
    (exact C L).Twins ((exact C L).alike P) n w v w v'' := by
  induction n using Nat.strong_induction_on generalizing w v v' v'' with
  | _ n ih =>
    cases v with
    | leaf tag x =>
      obtain ⟨tag', _, rfl, rfl⟩ := (h n).exists_leaf
      obtain ⟨tag'', _, rfl, rfl⟩ := (h' n).exists_leaf
      exact .leaf rfl
    | operation tag name params resume =>
      obtain ⟨hperforms, tag', params', resume', rfl, hparams, hresume⟩ := Twins.exists_operation h
      obtain ⟨-, tag'', params'', resume'', rfl, hparams', hresume'⟩ := Twins.exists_operation h'
      obtain rfl := eq_of_forall₂_same hparams
      refine .operation (fun hpassed => absurd hpassed Bool.false_ne_true) hperforms hparams' ?_
      rintro z _ x _ hz - rfl rfl
      have hresumed := matched_trans (n := n) hC (fun m => hresume m z z x x hz hz rfl rfl)
        (fun m => hresume' m z z x x hz hz rfl rfl) (Φ := fun j z v y v' =>
          j < n → (exact C L).Twins ((exact C L).alike P) j z v y v')
        fun y p p' p'' htwins htwins' j _ hj => ih j hj htwins htwins'
      exact (Always.guarded hresumed).mono fun j said t o _ ⟨hj, hR⟩ => hR.mono fun _ _ _ hmeet =>
        hmeet.mono fun _ _ _ _ _ _ _ htwins => htwins hj
    | _ => cases (h 0).isProgram.1

theorem includes_less (x y : Value) : C.Includes (Value.less x y) w := by
  refine .bind (Course.includes_inspect _) fun s z _ => .bind (Course.includes_inspect _) fun t z' _ => ?_
  cases s.less? t with
  | some b => exact Course.includes_done b
  | none => exact Course.includes_fail _

theorem includes_missing (key : Value) : C.Includes (Action.missing key) w := by
  have hwritable : C.Includes (Action.writable key) w := by
    refine .bind (Course.includes_inspect _) fun s z _ => ?_
    split
    · exact Course.includes_fail _
    · exact Course.includes_fail _
    · exact Course.includes_done s
  exact hwritable.bind fun _ _ _ => Course.includes_done _

/-- The library treats what is the same in the same way. -/
theorem exact_fair (hC : C.IsOpen) : (exact C L).Fair where
  nothing _ _ := rfl
  bool _ _ _ := rfl
  number _ _ _ := rfl
  list h := congrArg (Value.list 0) (eq_of_forall₂_same h)
  tuple h := congrArg (Value.tuple 0) (eq_of_forall₂_same h)
  log := by
    rintro w _ m _ level rfl rfl
    exact (exact_likewise (hC.noted level m w)).mono fun _ _ _ _ _ _ _ _ => trivial

theorem exact_draws (hC : C.IsOpen) (address : Nat) : (exact C L).Draws address := by
  rintro w _ rfl
  exact exact_likewise (hC.drawn address w)

theorem exact_ranks : (exact C L).Ranks := by
  rintro w _ x _ y _ rfl rfl rfl
  exact exact_likewise (includes_less x y)

theorem exact_receives (hC : C.IsOpen) (sink : Value) : (exact C L).Receives sink := by
  rintro w _ m _ rfl rfl
  exact (exact_likewise (hC.ask sink [m])).mono fun _ _ _ _ _ _ _ _ => trivial

theorem exact_provides (tag : Nat) (entries : List (Value × Value)) : (exact C L).Provides tag entries where
  whole _ _ := rfl
  finds := by
    rintro w _ key _ rfl rfl
    refine exact_likewise (.bind ?_ fun found z _ => ?_)
    · unfold Value.find
      split
      · exact Course.includes_inspect _
      · exact Course.includes_fail _
    · cases found with
      | some v => exact Course.includes_done v
      | none => exact .bind (includes_missing key) fun f _ _ => Course.includes_fail f

end Comparison

end AlgebraicEffects
