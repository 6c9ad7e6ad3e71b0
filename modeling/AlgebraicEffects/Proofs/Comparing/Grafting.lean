import AlgebraicEffects.Proofs.Comparing.Residues

/-!
The laws of grafting.

Grafts, maps over leaves and sequences of them go through a program in the same way: each operation is
rebuilt, and behind it the same is done again (`Comparison.Rebuilds`). So two of them that cannot be told
apart at leaves cannot be told apart at any program, however its operations are answered
(`Course.agree_rebuilt`). Substitution is associative, the leaf itself is its unit also where the leaves
carry programs, and maps over leaves compose, without what they give being performed (`graft_laws`).
-/

set_option autoImplicit false

namespace AlgebraicEffects

open Action (Traced)
open Output (printName)

variable {V : Type} {S : Scene V}

/-- Mapping over leaves is grafting leaves with what is mapped to. -/
theorem map_eq_graft {f : Value} (hf : f.isCallable = true) :
    (Program.map · f) = (Program.graft · (.arrowOf (.mapped f))) := funext fun _ => if_pos hf

namespace Comparison

variable {E : Comparison S} {Λ Λ' : Traits S} {n : Nat} {w u : S.World} {v v' : Value}
  {k k' : Value → Action Value}

section Rebuilding

/-- What rebuilds the operations of programs and does the same again behind them. A value counts as the
leaf that carries it. -/
structure Rebuilds (E : Comparison S) (k : Value → Action Value) : Prop where
  lifts (v : Value) : k (Program.lift v) = k v
  operation (tag : Nat) (name : String) (params : List Value) (resume : Value) : ∃ tag' again,
    k (.operation tag name params resume) = .done (.operation tag' name params again) ∧
    ∀ x s, ∃ calls, E.Leads s (Program.continueWith again x) calls [] s
      (Program.lift <$> (Program.continueWith resume x).bind k)

theorem rebuilds_lift : E.Rebuilds fun v => .done (Program.lift v) where
  lifts v := congrArg Action.done (lift_lift v)
  operation tag name params resume := by
    refine ⟨tag, resume, rfl, fun x s => ⟨0, ?_⟩⟩
    have hsame : Program.lift <$> (Program.continueWith resume x).bind (fun v => .done (Program.lift v)) =
        Program.continueWith resume x := by
      show (((Action.ask resume [x]).bind fun v => .done (Program.lift v)).bind _).bind _ = _
      simp only [Action.bind_assoc, Action.bind, Function.comp_apply, lift_lift]
      rfl
    rw [hsame]
    exact .refl s _

theorem rebuilds_graft {f : Value} (hf : f.isCallable = true) : E.Rebuilds (Program.graft · f) where
  lifts v := graft_lift v f
  operation tag name params resume := by
    refine ⟨0, _, graft_operation hf .., fun x s => ⟨1, ?_⟩⟩
    rw [← (continued_graft (E := E) hf).continueWith]
    exact (Leads.ask rfl).bind _

theorem rebuilds_map {f : Value} (hf : f.isCallable = true) : E.Rebuilds (Program.map · f) := by
  rw [map_eq_graft hf]
  exact rebuilds_graft rfl

/-- One after the other. -/
theorem Rebuilds.andThen (hk : E.Rebuilds k) (hk' : E.Rebuilds k') :
    E.Rebuilds fun v => (k v).bind k' where
  lifts v := congrArg (Action.bind · k') (hk.lifts v)
  operation tag name params resume := by
    obtain ⟨tag₁, again₁, heq₁, hagain₁⟩ := hk.operation tag name params resume
    obtain ⟨tag₂, again₂, heq₂, hagain₂⟩ := hk'.operation tag₁ name params again₁
    refine ⟨tag₂, again₂, (congrArg (Action.bind · k') heq₁).trans heq₂, fun x s => ?_⟩
    obtain ⟨calls₁, hfirst⟩ := hagain₁ x s
    obtain ⟨calls₂, hsecond⟩ := hagain₂ x s
    refine ⟨calls₂ + calls₁, hsecond.trans ?_⟩
    -- Lifting in between makes no difference to what comes second.
    have hbetween : (Program.lift <$> (Program.continueWith resume x).bind k).bind k' =
        (Program.continueWith resume x).bind fun v => (k v).bind k' := by
      show (((Program.continueWith resume x).bind k).bind fun v => .done (Program.lift v)).bind k' = _
      simp only [Action.bind_assoc, Action.bind, hk'.lifts]
    have hleads := (hfirst.bind k').bind fun v => .done (Program.lift v)
    rw [hbetween] at hleads
    exact hleads

/-- What two of them make of twins is matched if it is so at leaves. -/
theorem Twins.rebuilt (hpasses : E.passes = false) (hk : E.Rebuilds k) (hk' : E.Rebuilds k')
    (hperforms : ∀ name params, Λ.performs name params → Λ'.performs name params)
    (hleaf : ∀ j z y tag tag' x x', j ≤ n → E.course.Later w z → E.course.Later u y → E.Level z y →
      Λ.carries j z x y x' → E.Matched j (k (.leaf tag x)) z (k' (.leaf tag' x')) y (E.Twins Λ'))
    (h : E.Twins Λ n w v u v') (hlevel : E.Level w u) :
    E.Matched n (k v) w (k' v') u (E.Twins Λ') := by
  have hlift (v : Value) (hv : v.isProgram = true) : Action.done (Program.lift v) = .done v :=
    congrArg Action.done (lift_of_isProgram hv)
  induction n using Nat.strong_induction_on generalizing w u v v' with
  | _ n ih =>
    refine h.elim ?_ ?_
    · rintro tag tag' x x' rfl rfl hx
      exact hleaf n w u tag tag' x x' (Nat.le_refl n) (E.course.refl w) (E.course.refl u) hlevel hx
    · rintro tag tag' name params params' resume resume' rfl rfl hadmits hp hparams hresume
      obtain ⟨_, again, heq, hagain⟩ := hk.operation tag name params resume
      obtain ⟨_, again', heq', hagain'⟩ := hk'.operation tag' name params' resume'
      rw [heq, heq']
      refine Twins.done (.operation hadmits (hperforms _ _ hp) hparams ?_) hlevel
      refine hresume.goingOn hpasses hlift hlift hagain hagain' fun j z y v v' hj hz hy hlevel htwins => ?_
      refine ih j hj (fun i z' y' tag tag' x x' hi hz' hy' => ?_) htwins hlevel
      exact hleaf i z' y' tag tag' x x' (by omega) (E.course.trans hz hz') (E.course.trans hy hy')

end Rebuilding

end Comparison

open Comparison (exact Twins)

variable {C : Course S} {L : Listener} {w z : S.World} {a b c : Action Value} {k k' : Value → Action Value}
  {p f g h x : Value}

namespace Course

/-- Neither action can be told from the other one, and both give the same value. -/
def Coincide (C : Course S) (L : Listener) (w : S.World) (a b : Action Value) : Prop :=
  (exact C L).Likewise a w b w (fun _ _ => Eq) ∧ (exact C L).Likewise b w a w fun _ _ => Eq

theorem Agree.symm (h : C.Agree L w a b) : C.Agree L w b a := fun n => (h n).symm

theorem Agree.trans (hC : C.IsOpen) (h : C.Agree L w a b) (h' : C.Agree L w b c) : C.Agree L w a c := by
  refine fun n => ⟨Comparison.matched_trans hC (fun m => (h m).1) (fun m => (h' m).1) ?_,
    Comparison.matched_trans hC (fun m => (h' m).2) (fun m => (h m).2) ?_⟩
  all_goals exact fun z v v' v'' htwins htwins' j _ => Twins.trans hC htwins htwins' j

/-- What goes on as another action cannot be told from what that one cannot be told from. -/
theorem Agree.of_leads {m n : Nat} {a' b' : Action Value}
    (ha : (exact C L).Leads (S.store w) a m [] (S.store w) a')
    (hb : (exact C L).Leads (S.store w) b n [] (S.store w) b') (h : C.Agree L w a' b') :
    C.Agree L w a b :=
  fun _ => ⟨.leading ha hb fun i _ => (h i).1, .leading hb ha fun i _ => (h i).2⟩

/-- Leaves with the same value. -/
theorem agree_leaf (tag tag' : Nat) (x : Value) : C.Agree L w (.done (.leaf tag x)) (.done (.leaf tag' x)) :=
  fun _ => ⟨(Twins.leaf (Λ := (exact C L).alike fun _ _ => True) rfl).done rfl,
    (Twins.leaf (Λ := (exact C L).alike fun _ _ => True) rfl).done rfl⟩

/-- Leaves with values that two actions give. -/
theorem Coincide.leaves (h : C.Coincide L w a b) :
    C.Agree L w (a.bind fun y => .done (.leaf 0 y)) (b.bind fun y => .done (.leaf 0 y)) := by
  refine fun n => ⟨h.1.matched ?_, h.2.matched ?_⟩
  all_goals
    rintro z _ y _ _ _ rfl rfl
    exact (agree_leaf 0 0 y n).1

/-- Programs that two actions give, or leaves with what else they give. -/
theorem Coincide.lifted (hC : C.IsOpen) (h : C.Coincide L w a b) :
    C.Agree L w (Program.lift <$> a) (Program.lift <$> b) := by
  refine fun n => ⟨h.1.matched ?_, h.2.matched ?_⟩
  all_goals
    rintro z _ y _ _ _ rfl rfl
    exact (Twins.refl hC (Program.isProgram_lift y) fun _ _ _ => trivial).done rfl

/-- Two ways through a program cannot be told apart if they cannot be so at the leaves that it reaches. -/
theorem agree_rebuilt (hC : C.IsOpen) (hk : (exact C L).Rebuilds k) (hk' : (exact C L).Rebuilds k')
    (hleaf : ∀ z tag tag' x, C.Later w z → C.Reaches w p x →
      C.Agree L z (k (.leaf tag x)) (k' (.leaf tag' x))) : C.Agree L w (k p) (k' p) := by
  have hsame (n : Nat) : (exact C L).Twins ((exact C L).holding (C.Reaches w p) fun _ _ => True) n w
      (Program.lift p) w (Program.lift p) :=
    .refl_holding hC (Program.isProgram_lift p) (fun _ _ _ => trivial) fun _ => Reaches.of_lift
  rw [← hk.lifts, ← hk'.lifts]
  refine fun n => ⟨(hsame n).rebuilt rfl hk hk' (fun _ _ _ => trivial) ?_ rfl,
    (hsame n).rebuilt rfl hk' hk (fun _ _ _ => trivial) ?_ rfl⟩
  all_goals
    rintro j z _ tag tag' x _ _ hz _ rfl ⟨rfl, hx⟩
  · exact (hleaf z tag tag' x hz hx j).1
  · exact (hleaf z tag' tag x hz hx j).2

theorem IsOpen.graft (hC : C.IsOpen) (p next : Value) : C.Includes (Program.graft p next) w := by
  have hasked (x : Value) : C.Includes (Program.lift <$> Action.ask next [x]) w :=
    .bind (hC.ask next [x]) fun _ _ _ => includes_done _
  unfold Program.graft
  split
  · split
    · exact includes_done _
    · exact hasked _
    · exact hasked _
  · exact includes_fail _

end Course

section Leaves

/-- What gives programs cannot be told from itself. -/
theorem Course.agree_refl (hC : C.IsOpen) (ha : C.Includes a w) (hprograms : a.GivesPrograms) :
    C.Agree L w a a := by
  have hmatched (n : Nat) :
      (exact C L).Matched n a w a w ((exact C L).Twins ((exact C L).alike fun _ _ => True)) :=
    Comparison.exact_matched ha fun _ _ _ _ _ _ hrun =>
      .refl hC (hprograms _ _ _ _ hrun) fun _ _ _ => trivial
  exact fun n => ⟨hmatched n, hmatched n⟩

/-- Lifting makes no difference to what gives programs. -/
theorem Course.Agree.lifted (h : C.Agree L w a b) : C.Agree L w (Program.lift <$> a) b := by
  have hlift (v : Value) (hv : v.isProgram = true) : Action.done (Program.lift v) = .done v :=
    congrArg Action.done (lift_of_isProgram hv)
  refine fun n => ⟨?_, ?_⟩
  · have hmatched := (h n).1.unchanged hlift fun _ _ => rfl
    rwa [Action.bind_done] at hmatched
  · have hmatched := (h n).2.unchanged (fun _ _ => rfl) hlift
    rwa [Action.bind_done] at hmatched

/-- What gives programs goes on as if they were lifted. -/
theorem Comparison.Leads.lifted {E : Comparison S} (h : a.GivesPrograms) (s : Store) :
    E.Leads s a 0 [] s (Program.lift <$> a) where
  forth cs o t htr := by
    refine ⟨cs, ?_, rfl, Nat.le_refl _⟩
    cases o with
    | error f => exact htr.bind_error
    | ok p =>
      have hlifted : Traced (a.bind fun v => .done (Program.lift v)) s (cs ++ []) _ t :=
        htr.bind (.done (Program.lift p) t)
      rwa [lift_of_isProgram (h _ _ _ _ htr), List.append_nil] at hlifted
  back ds o t htr := by
    obtain ⟨q, rfl, hq⟩ := htr.of_map
    refine ⟨ds, ?_, rfl⟩
    cases q with
    | error f => exact hq
    | ok p =>
      show Traced a s ds (.ok (Program.lift p)) t
      rwa [lift_of_isProgram (h _ _ _ _ hq)]
  keeps := Comparison.keeps_refl s

/-- Lifting makes no difference to what is done alike with what is lifted. -/
theorem lift_bind (hk : ∀ v, k (Program.lift v) = k v) (a : Action Value) :
    (Program.lift <$> a).bind k = a.bind k := by
  show (a.bind fun v => .done (Program.lift v)).bind k = _
  rw [Action.bind_assoc]
  exact congrArg (Action.bind a) (funext hk)

/-- A graft on a leaf that goes on goes on with what the function gives. -/
theorem graft_leaf_bind (hf : f.isCallable = true) (tag : Nat) (x : Value)
    (hk : ∀ v, k (Program.lift v) = k v) :
    (Program.graft (.leaf tag x) f).bind k = (Action.ask f [x]).bind k := by
  rw [Replay.graft_of_leaf rfl hf]
  exact lift_bind hk _

/-- At a leaf one function and then another one do what one does that goes on like both. -/
theorem agree_graft_leaf_leaf (hf : f.isCallable = true) (hh : h.isCallable = true) (tag tag' : Nat)
    (hdoes : C.Agree L z (Program.lift <$> Action.ask h [x]) ((Action.ask f [x]).bind (Program.graft · g))) :
    C.Agree L z ((Program.graft (.leaf tag x) f).bind (Program.graft · g))
      (Program.graft (.leaf tag' x) h) := by
  rw [graft_leaf_bind hf tag x (graft_lift · g), Replay.graft_of_leaf rfl hh]
  exact hdoes.symm

/-- A map over a leaf gives the leaf with what the function gives, whatever that is. -/
theorem map_leaf_leads (hf : f.isCallable = true) (tag : Nat) (x : Value) (s : Store) :
    (exact C L).Leads s (Program.map (.leaf tag x) f) 1 [] s
      ((Action.ask f [x]).bind fun y => .done (.leaf 0 y)) := by
  have hmap : Program.map (.leaf tag x) f = Program.lift <$> Action.ask (.arrowOf (.mapped f)) [x] :=
    (congrFun (map_eq_graft hf) _).trans (Replay.graft_of_leaf rfl rfl)
  have hgiven : ((Function.mapped f).apply (.of [x])).bind (fun v => .done (Program.lift v)) =
      (Action.ask f [x]).bind fun y => .done (.leaf 0 y) := by
    show ((Action.ask f [x]).bind fun y => Action.done (Value.leaf 0 y)).bind _ = _
    rw [Action.bind_assoc]
    rfl
  rw [hmap, ← hgiven]
  exact (Comparison.Leads.ask rfl).bind _

theorem agree_map_leaf (hC : C.IsOpen) (hf : f.isCallable = true) (tag : Nat) (x : Value) (w : S.World) :
    C.Agree L w (Program.map (.leaf tag x) f) ((Action.ask f [x]).bind fun y => .done (.leaf 0 y)) :=
  .of_leads (map_leaf_leads hf tag x _) (.refl _ _)
    (Course.agree_refl hC (.bind (hC.ask f [x]) fun _ _ _ => Course.includes_done _)
      (.bind fun _ => .done rfl))

/-- What is done next with what cannot be told apart cannot be told apart, if it cannot be so at leaves. -/
theorem Course.Agree.rebuilt (hk : (exact C L).Rebuilds k) (hk' : (exact C L).Rebuilds k')
    (hleaf : ∀ z tag tag' x, C.Later w z → C.Agree L z (k (.leaf tag x)) (k' (.leaf tag' x)))
    (h : C.Agree L w a b) : C.Agree L w (a.bind k) (b.bind k') := by
  refine fun n => ⟨.bind (Comparison.exact_through _) (Comparison.exact_through _) ((h n).1.mono ?_),
    .bind (Comparison.exact_through _) (Comparison.exact_through _) ((h n).2.mono ?_)⟩
  all_goals
    rintro j z v _ v' _ hz _ rfl htwins
  · refine htwins.rebuilt rfl hk hk' (fun _ _ _ => trivial) ?_ rfl
    rintro i y _ tag tag' x _ _ hy _ rfl rfl
    exact (hleaf y tag tag' x (C.trans hz hy) i).1
  · refine htwins.rebuilt rfl hk' hk (fun _ _ _ => trivial) ?_ rfl
    rintro i y _ tag tag' x _ _ hy _ rfl rfl
    exact (hleaf y tag' tag x (C.trans hz hy) i).2

/-- Grafting one function onto what cannot be told apart. -/
theorem Course.Agree.grafted (hC : C.IsOpen) (hf : f.isCallable = true) (h : C.Agree L w a b) :
    C.Agree L w (a.bind (Program.graft · f)) (b.bind (Program.graft · f)) := by
  refine h.rebuilt (Comparison.rebuilds_graft hf) (Comparison.rebuilds_graft hf) fun z tag tag' x _ => ?_
  rw [Replay.graft_of_leaf rfl hf, Replay.graft_of_leaf rfl hf]
  exact Course.agree_refl hC (.bind (hC.ask f [x]) fun _ _ _ => Course.includes_done _) (.lifted _)

/-- Going on after what is lifted is grafting onto what was lifted. -/
theorem Value.andThen_lift (p f : Value) : Value.andThen (Program.lift p) f = Program.graft p f := by
  rw [andThen, if_pos (Program.isProgram_lift p), graft_lift]

theorem Value.mapOver_lift (hf : f.isCallable = true) (p : Value) :
    Value.mapOver (Program.lift p) f = Program.graft p (.arrowOf (.mapped f)) := by
  rw [mapOver, if_pos (Program.isProgram_lift p), ← graft_lift]
  exact congrFun (map_eq_graft hf) _

/-- The arrow of a function followed by a binder does what the function does, and then goes on with the
binder. -/
theorem agree_chained (hC : C.IsOpen) (hdeaf : L.hears (Arrow.ofCallable f) = false) (x : Value)
    (z : S.World) :
    C.Agree L z (Program.lift <$> Action.ask (.arrowOf (.chained (Arrow.ofCallable f) g)) [x])
      ((Action.ask f [x]).bind (Program.graft · g)) := by
  have hlifted : ((Arrow.ofCallable f).apply (.of [x])).bind (·.andThen g) =
      (Action.ask f [x]).bind (Program.graft · g) := by
    show ((Action.ask f [x]).bind fun v => .done (Program.lift v)).bind (·.andThen g) = _
    rw [Action.bind_assoc]
    exact congrArg (Action.bind _) (funext fun v => Value.andThen_lift v g)
  have hcalled := (Comparison.Leads.call (E := exact C L) (s := S.store z) (f := Arrow.ofCallable f)
    (L.events_arrow hdeaf (.of [x]))).bind (·.andThen g)
  rw [hlifted] at hcalled
  refine .lifted (.of_leads ((Comparison.Leads.ask rfl).trans hcalled) (.refl _ _) ?_)
  exact Course.agree_refl hC (.bind (hC.ask f [x]) fun _ _ _ => hC.graft _ _) (.bind fun _ => .graft _ _)

end Leaves

section Laws

variable (hC : C.IsOpen)
include hC

/-- The leaf itself is the unit, whatever the leaves carry. -/
theorem agree_graft_leaf : C.Agree L w (Program.graft p (.arrowOf .leaf)) (.done (Program.lift p)) := by
  have hleaf (z : S.World) (tag tag' : Nat) (x : Value) (_ : C.Later w z) (_ : C.Reaches w p x) :
      C.Agree L z (Program.graft (.leaf tag x) (.arrowOf .leaf)) (.done (Program.lift (.leaf tag' x))) := by
    rw [Replay.graft_of_leaf rfl rfl]
    exact .lifted (.of_leads (.ask rfl) (.refl _ _) (Course.agree_leaf 0 tag' x))
  have hagree := Course.agree_rebuilt (p := p) hC (Comparison.rebuilds_graft rfl) Comparison.rebuilds_lift hleaf
  exact hagree

/-- A map performs nothing but what the program itself performs: what is mapped to is never performed. -/
theorem leaves_map (hf : f.isCallable = true) : C.Leaves [] (Program.map · f) := by
  refine leaves_of_respects hC fun P n w u p p' hlevel htwins => ?_
  cases hlevel
  have hperforms (name : String) (params : List Value) (hp : P name params) :
      ((exact C .scripts).alike fun name params => P name params ∧ name ∉ []).performs name params :=
    ⟨hp, List.not_mem_nil⟩
  have hmatched := htwins.rebuilt rfl (Comparison.rebuilds_map hf) (Comparison.rebuilds_map hf) hperforms ?_ rfl
  · exact hmatched
  rintro j z _ tag tag' x _ _ _ _ rfl rfl
  refine .leading (map_leaf_leads hf tag x _) (map_leaf_leads hf tag' x _) fun m _ => ?_
  refine .bind (Comparison.exact_through _) (Comparison.exact_through _) ?_
  exact Comparison.exact_matched (hC.ask f [x]) fun i _ y v _ _ _ => (Twins.leaf rfl).done rfl

variable (hf : f.isCallable = true) (hg : g.isCallable = true)
include hf hg

/-- Grafting one function and then another one is grafting what does the first and goes on with the other
one. -/
theorem agree_graft_graft (hh : h.isCallable = true) (hdoes : ∀ x z, C.Later w z →
      C.Agree L z (Program.lift <$> Action.ask h [x]) ((Action.ask f [x]).bind (Program.graft · g))) :
    C.Agree L w ((Program.graft p f).bind (Program.graft · g)) (Program.graft p h) := by
  exact Course.agree_rebuilt hC ((Comparison.rebuilds_graft hf).andThen (Comparison.rebuilds_graft hg))
    (Comparison.rebuilds_graft hh) fun z tag tag' x hz _ => agree_graft_leaf_leaf hf hh tag tag' (hdoes x z hz)

/-- Maps over leaves compose. -/
theorem agree_map_map (hh : h.isCallable = true) (hdoes : ∀ x z, C.Later w z →
      C.Coincide L z (Action.ask h [x]) ((Action.ask f [x]).bind fun y => Action.ask g [y])) :
    C.Agree L w ((Program.map p f).bind (Program.map · g)) (Program.map p h) := by
  refine Course.agree_rebuilt hC ((Comparison.rebuilds_map hf).andThen (Comparison.rebuilds_map hg))
    (Comparison.rebuilds_map hh) fun z tag tag' x hz _ => ?_
  have hfirst := (map_leaf_leads (C := C) (L := L) hf tag x (S.store z)).bind (Program.map · g)
  have hsecond := Comparison.Leads.next (fun y t => (map_leaf_leads (C := C) (L := L) hg 0 y t).weaken)
    (s := S.store z) (Action.ask f [x])
  rw [Action.bind_assoc] at hfirst
  rw [← Action.bind_assoc] at hsecond
  exact .of_leads (hfirst.trans hsecond) (map_leaf_leads hh tag' x _) (hdoes x z hz).leaves.symm

/-- Grafting is a lawful substitution. It is associative; on a leaf it is what the function gives, lifted; the
leaf itself is its unit, also where leaves carry programs; and maps over leaves compose, where a map leaves
each leaf with what the function gives, and performs nothing but what the program itself performs. -/
theorem graft_laws (w : S.World) (p : Value) :
    (∀ h : Value, h.isCallable = true → (∀ x z, C.Later w z →
        C.Agree L z (Program.lift <$> Action.ask h [x]) ((Action.ask f [x]).bind (Program.graft · g))) →
      C.Agree L w ((Program.graft p f).bind (Program.graft · g)) (Program.graft p h)) ∧
    (L.hears (Arrow.ofCallable f) = false →
      C.Agree L w ((Program.graft p f).bind (Program.graft · g))
        (Program.graft p (.arrowOf (.chained (Arrow.ofCallable f) g)))) ∧
    (∀ tag x, Program.graft (.leaf tag x) f = Program.lift <$> Action.ask f [x]) ∧
    C.Agree L w (Program.graft p (.arrowOf .leaf)) (.done (Program.lift p)) ∧
    (∀ h : Value, h.isCallable = true → (∀ x z, C.Later w z →
        C.Coincide L z (Action.ask h [x]) ((Action.ask f [x]).bind fun y => Action.ask g [y])) →
      C.Agree L w ((Program.map p f).bind (Program.map · g)) (Program.map p h)) ∧
    (∀ tag x, C.Agree L w (Program.map (.leaf tag x) f)
      ((Action.ask f [x]).bind fun y => .done (.leaf 0 y))) ∧
    ∀ q cs z, Traced (Program.map p f) (S.store w) cs (.ok q) (S.store z) → ∀ name params,
      C.Performs z q name params → C.Performs w (Program.lift p) name params := by
  refine ⟨fun h hh hdoes => agree_graft_graft hC hf hg hh hdoes, fun hdeaf => ?_, fun tag x => ?_,
    agree_graft_leaf hC, fun h hh hdoes => agree_map_map hC hf hg hh hdoes,
    fun tag x => agree_map_leaf hC hf tag x w, fun q cs z hrun name params hp => ?_⟩
  · exact agree_graft_graft hC hf hg rfl fun x z _ => agree_chained hC hdeaf x z
  · exact Replay.graft_of_leaf rfl hf
  · rw [← (Comparison.rebuilds_map (E := exact C L) hf).lifts] at hrun
    exact (leaves_map hC hf w z _ q cs (Program.isProgram_lift p) hrun name params hp).2

end Laws

/-- Actions with known runs that end alike, with the same observed. -/
theorem Course.Coincide.of_traced {cs ds : List Call} {o : Ending} (ha : Traced a (S.store w) cs o (S.store z))
    (hb : Traced b (S.store w) ds o (S.store z)) (hz : C.Later w z)
    (hevents : (exact C L).events cs = (exact C L).events ds) : C.Coincide L w a b := by
  have halike : EndAlike (fun _ _ => True) (exact C L).Fails o o ∧
      EndAlike (Eq : Value → Value → Prop) (exact C L).Fails o o := by
    cases o with
    | ok v => exact ⟨.ok trivial, .ok rfl⟩
    | error f => exact ⟨.error rfl, .error rfl⟩
  refine ⟨fun es r t htr => ?_, fun es r t htr => ?_⟩
  · obtain ⟨rfl, rfl, rfl⟩ := htr.unique ha
    exact ⟨ds, r, z, z, hb, rfl, hz, hz, rfl, hevents, trivial, trivial, halike.2⟩
  · obtain ⟨rfl, rfl, rfl⟩ := htr.unique hb
    exact ⟨cs, r, z, z, ha, rfl, hz, hz, rfl, hevents.symm, trivial, trivial, halike.2⟩

/-- Mapping to leaves twice is mapping to leaves of leaves, none of which is performed. -/
theorem graft_laws_wrapping :
    Course.shapes.Agree .scripts Store.empty
      ((Program.map (Output.print (.text "hello")) (.arrowOf .leaf)).bind (Program.map · (.arrowOf .leaf)))
      (Program.map (Output.print (.text "hello"))
        (.arrowOf (.fmapped (.arrowOf .leaf) (.arrowOf .leaf)))) ∧
    Course.shapes.Agree .scripts Store.empty
      ((Program.graft (Output.print (.text "hello")) (.arrowOf .leaf)).bind
        (Program.graft · (.arrowOf .leaf)))
      (Program.graft (Output.print (.text "hello"))
        (.arrowOf (.chained (Arrow.ofCallable (.arrowOf .leaf)) (.arrowOf .leaf)))) := by
  obtain ⟨-, hchained, -, -, hmaps, -⟩ := graft_laws (L := .scripts) (f := .arrowOf .leaf)
    (g := .arrowOf .leaf) Course.isOpen_shapes rfl rfl Store.empty (Output.print (.text "hello"))
  refine ⟨hmaps _ rfl fun x z _ => ?_, hchained rfl⟩
  -- Both ways the value is wrapped twice, and nothing is observed.
  have hwrapped (v : Value) : Traced (Action.ask (.arrowOf .leaf) [v]) z
      [.mk (.arrowOf .leaf) (.of [v]) []] (.ok (.leaf 0 v)) z := Traced.invoke (.done _ _)
  have hinner : Traced ((Value.arrowOf (.mapped (.arrowOf .leaf))).apply (.of [x])) z _
      (.ok (.leaf 0 (.leaf 0 x))) z := (hwrapped x).bind (.done _ _)
  have hmapped : Traced (Program.map (.leaf 0 x) (.arrowOf .leaf)) z _ (.ok (.leaf 0 (.leaf 0 x))) z :=
    Traced.bind (Traced.invoke hinner) (.done _ _)
  have hcomposed : Traced ((Value.arrowOf (.fmapped (.arrowOf .leaf) (.arrowOf .leaf))).apply (.of [x])) z _
      (.ok (.leaf 0 (.leaf 0 x))) z := (hwrapped x).bind hmapped
  exact .of_traced hcomposed.invoke ((hwrapped x).bind (hwrapped (.leaf 0 x))) trivial rfl

end AlgebraicEffects
