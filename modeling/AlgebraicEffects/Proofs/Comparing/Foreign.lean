import AlgebraicEffects.Proofs.Choice.Offers
import AlgebraicEffects.Proofs.Comparing.Exact

/-!
Handlers leave foreign effects alone.

A handler rebuilds what it forwards, and goes on behind it. So a program that performs nothing that a
handler has an implementation for cannot be told from what the handler makes of it; a leaf transform is
grafted onto it (`foreign_transparent`). Whatever handler encloses it, as long as its implementations do
not tell apart continuations that go on alike (`Comparison.Opaque`), does the same with both.
-/

set_option autoImplicit false

namespace AlgebraicEffects

open Action (Traced)
open Choice (decideName)
open Output (printName)

variable {V : Type} {S : Scene V}

namespace Comparison

variable {E : Comparison S} {Λ Λ' : Traits S} {n : Nat} {w u : S.World} {v v' : Value}
  {foreign : String → Prop} {table : Handler.Table} {k k' : Value → Action Value}

section GoingOn

/-- Continuations that go on as others, and then each its own way, are matched if these ways are whenever
fewer calls are left. -/
theorem Resume.goingOn {resume resume' again again' : Value} {l l' : Value → Action Value}
    (hpasses : E.passes = false) (h : E.Resume Λ n w resume u resume')
    (hl : ∀ v : Value, v.isProgram = true → l v = .done v)
    (hl' : ∀ v : Value, v.isProgram = true → l' v = .done v)
    (hagain : ∀ x s, ∃ calls, E.Leads s (Program.continueWith again x) calls [] s
      (((Program.continueWith resume x).bind k).bind l))
    (hagain' : ∀ x s, ∃ calls, E.Leads s (Program.continueWith again' x) calls [] s
      (((Program.continueWith resume' x).bind k').bind l'))
    (hbelow : ∀ j z y v v', j < n → E.course.Later w z → E.course.Later u y → E.Level z y →
      E.Twins Λ j z v y v' → E.Matched j (k v) z (k' v') y (E.Twins Λ')) :
    E.Resume Λ' n w again u again' := by
  have hthrough (l : Value → Action Value) : E.Through l :=
    fun hpassed => absurd (hpasses.symm.trans hpassed) Bool.false_ne_true
  intro z y x x' hz hy hlevel hx
  obtain ⟨calls, ha⟩ := hagain x (S.store z)
  obtain ⟨calls', hb⟩ := hagain' x' (S.store y)
  refine .leading ha hb fun m hm => .unchanged (.bind (hthrough k) (hthrough k') ?_) hl hl'
  -- A resumption takes a call, so fewer are left behind it.
  have hguarded := Always.guarded ((h z y x x' hz hy hlevel hx).fewer (m := m) (by omega))
  refine hguarded.mono fun j said s o _ ⟨hj, hR⟩ => hR.mono fun _ _ _ hmeet => ?_
  exact hmeet.mono fun z' v y' v' hz' hy' hlevel' htwins =>
    hbelow j z' y' v v' (by omega) (E.course.trans hz hz') (E.course.trans hy hy') hlevel' htwins

end GoingOn

section LeavingAlone

/-- What leaves the leaves of programs alone, and also operations of these names but for what follows
them. -/
structure LeavesAlone (E : Comparison S) (foreign : String → Prop) (k : Value → Action Value) : Prop where
  leaf (tag : Nat) (x : Value) : k (.leaf tag x) = .done (.leaf tag x)
  operation {name : String} (tag : Nat) (params : List Value) (resume : Value) : foreign name →
    ∃ tag' again, k (.operation tag name params resume) = .done (.operation tag' name params again) ∧
      ∃ l : Value → Action Value, (∀ v : Value, v.isProgram = true → l v = .done v) ∧ ∀ x s, ∃ calls,
        E.Leads s (Program.continueWith again x) calls [] s (((Program.continueWith resume x).bind k).bind l)

theorem leavesAlone_done : E.LeavesAlone foreign .done where
  leaf _ _ := rfl
  operation tag params resume _ := by
    refine ⟨tag, resume, rfl, .done, fun _ _ => rfl, fun x s => ⟨0, ?_⟩⟩
    rw [Action.bind_done, Action.bind_done]
    exact .refl s _

theorem leavesAlone_evaluate (hpasses : E.passes = false)
    (h : ∀ name, foreign name → table.lookup name = none) :
    E.LeavesAlone foreign (Handler.evaluate table none) where
  leaf tag x := Handler.evaluate_leaf rfl
  operation {name} tag params resume hname := by
    refine ⟨0, _, Handler.evaluate_forwarded (h name hname) .., fun v => .done (Program.lift v),
      fun v hv => congrArg Action.done (lift_of_isProgram hv), fun x s => ⟨1, ?_⟩⟩
    have hcontinued : E.Continued (Handler.evaluate table none) (.under table none ·) :=
      continued_evaluate fun hpassed => absurd (hpasses.symm.trans hpassed) Bool.false_ne_true
    rw [← hcontinued.continueWith]
    exact (Leads.ask rfl).bind _

/-- Twins that perform only such operations stay twins. -/
theorem Twins.left_alone (hpasses : E.passes = false) (hk : E.LeavesAlone foreign k)
    (hk' : E.LeavesAlone foreign k') (hforeign : ∀ name params, Λ.performs name params → foreign name)
    (h : E.Twins Λ n w v u v') (hlevel : E.Level w u) :
    E.Matched n (k v) w (k' v') u (E.Twins Λ) := by
  induction n using Nat.strong_induction_on generalizing w u v v' with
  | _ n ih =>
    refine h.elim ?_ ?_
    · rintro tag tag' x x' rfl rfl hx
      rw [hk.leaf, hk'.leaf]
      exact (Twins.leaf hx).done hlevel
    · rintro tag tag' name params params' resume resume' rfl rfl hadmits hperforms hparams hresume
      obtain ⟨t, again, heq, l, hl, hagain⟩ := hk.operation tag params resume (hforeign _ _ hperforms)
      obtain ⟨t', again', heq', l', hl', hagain'⟩ :=
        hk'.operation tag' params' resume' (hforeign _ _ hperforms)
      rw [heq, heq']
      refine Twins.done (.operation hadmits hperforms hparams ?_) hlevel
      exact hresume.goingOn hpasses hl hl' hagain hagain' fun j _ _ _ _ hj _ _ hlevel htwins =>
        ih j hj htwins hlevel

end LeavingAlone

section Grafting

/-- What puts a function at the leaves of programs, and goes on behind operations of these names. -/
structure GraftsOnto (E : Comparison S) (foreign : String → Prop) (f : Value) (k : Value → Action Value)
    (go : Value → Function) : Prop extends E.Continued k go where
  silent (resume : Value) : (go resume).isSilent = true
  leaf (tag : Nat) (x : Value) : k (.leaf tag x) = Program.lift <$> Action.ask f [x]
  operation {name : String} (tag : Nat) (params : List Value) (resume : Value) : foreign name →
    k (.operation tag name params resume) = .done (.operation 0 name params (.arrowOf (go resume)))

variable {f f' : Value} {go go' : Value → Function}

theorem graftsOnto_graft (hf : f.isCallable = true) :
    E.GraftsOnto foreign f (Program.graft · f) (.grafted · f) where
  toContinued := continued_graft hf
  silent _ := rfl
  leaf _ _ := Replay.graft_of_leaf rfl hf
  operation _ _ _ _ := graft_operation hf ..

theorem graftsOnto_evaluate (hpasses : E.passes = false)
    (h : ∀ name, foreign name → table.lookup name = none) :
    E.GraftsOnto foreign f (Handler.evaluate table (some f)) (.under table (some f) ·) where
  toContinued :=
    continued_evaluate fun hpassed => absurd (hpasses.symm.trans hpassed) Bool.false_ne_true
  silent _ := rfl
  leaf _ _ := Handler.evaluate_transformed rfl
  operation _ _ _ hname := Handler.evaluate_forwarded (h _ hname) ..

/-- Functions that give twins at the leaves give twins. -/
theorem Twins.grafted_onto (hk : E.GraftsOnto foreign f k go) (hk' : E.GraftsOnto foreign f' k' go')
    (hforeign : ∀ name params, Λ.performs name params → foreign name ∧ Λ'.performs name params)
    (hleaf : ∀ j z y x x', j ≤ n → E.course.Later w z → E.course.Later u y → E.Level z y →
      Λ.carries j z x y x' → E.Matched j (Program.lift <$> Action.ask f [x]) z
        (Program.lift <$> Action.ask f' [x']) y (E.Twins Λ'))
    (h : E.Twins Λ n w v u v') (hlevel : E.Level w u) :
    E.Matched n (k v) w (k' v') u (E.Twins Λ') := by
  refine h.next { continued := hk.toContinued, continued' := hk'.toContinued, leaf := ?_, operation := ?_ }
    hlevel
  · intro j z y tag tag' x x' hj hz hy hlevel hx
    rw [hk.leaf, hk'.leaf]
    exact hleaf j z y x x' hj hz hy hlevel hx
  · intro j z y tag tag' name params params' resume resume' _ _ _ hlevel hadmits hp hparams hgoes
    obtain ⟨hname, hp'⟩ := hforeign _ _ hp
    rw [hk.operation tag params resume hname, hk'.operation tag' params' resume' hname]
    exact (Twins.operation hadmits hp' hparams
      (hgoes.resume (hk.silent resume) (hk'.silent resume') _ _)).done hlevel

end Grafting

end Comparison

open Comparison (exact Twins Implements)

variable {C : Course S} {L : Listener} {w : S.World} {a b : Action Value}

/-- Neither action can be told from the other one. Whenever one of them comes to an end, the other one
does so in the same way, with the same observed, and so do what follows the operations of the programs that
they end as, however often they are answered. -/
def Course.Agree (C : Course S) (L : Listener) (w : S.World) (a b : Action Value) : Prop :=
  ∀ n, (exact C L).Matched n a w b w ((exact C L).Twins ((exact C L).alike fun _ _ => True)) ∧
    (exact C L).Matched n b w a w ((exact C L).Twins ((exact C L).alike fun _ _ => True))

/-- The implementation does not tell apart continuations that go on alike. -/
def Comparison.Opaque (C : Course S) (L : Listener) (implementation : Value) : Prop :=
  ∀ n w, (exact C L).Implements ((exact C L).alike fun _ _ => True) n w implementation w implementation

namespace Course

/-- What functions give is the same both times. -/
theorem exact_lifted (hC : C.IsOpen) (f x : Value) (n : Nat) (w : S.World) :
    (exact C L).Matched n (Program.lift <$> Action.ask f [x]) w (Program.lift <$> Action.ask f [x]) w
      ((exact C L).Twins ((exact C L).alike fun _ _ => True)) := by
  refine Comparison.exact_matched (.bind (hC.ask f [x]) fun _ _ _ => includes_done _) ?_
  exact fun j cs v z _ _ hrun =>
    .refl hC (Action.GivesPrograms.lifted _ _ _ _ _ hrun) fun _ _ _ => trivial

/-- A handler whose implementations do not tell continuations apart does the same with both. -/
theorem Agree.handled {table : Handler.Table} {atLeaf : Option Value} {tag : Nat} (hC : C.IsOpen)
    (htable : ∀ entry ∈ table, Comparison.Opaque C L entry.2) (h : C.Agree L w a b) :
    C.Agree L w (a.bind fun q => Action.ask (.handler tag table atLeaf) [q])
      (b.bind fun q => Action.ask (.handler tag table atLeaf) [q]) := by
  have hhandled (n : Nat) {a b : Action Value} (h : (exact C L).Matched n a w b w
      ((exact C L).Twins ((exact C L).alike fun _ _ => True))) :
      (exact C L).Matched n (a.bind fun q => Action.ask (.handler tag table atLeaf) [q]) w
        (b.bind fun q => Action.ask (.handler tag table atLeaf) [q]) w
        ((exact C L).Twins ((exact C L).alike fun _ _ => True)) := by
    refine .bind (Comparison.exact_through _) (Comparison.exact_through _) (h.mono ?_)
    intro j z v y v' _ _ _ hlevel htwins
    cases hlevel
    refine .handled (htwins.evaluate (fun hpassed => absurd hpassed Bool.false_ne_true)
      (fun _ _ _ _ => trivial) ?_ ?_ rfl)
    · exact List.forall₂_same.2 fun entry hentry => .intro entry.1 (htable entry hentry j z)
    · intro i z y tag tag' x x' _ _ _ hlevel hx
      cases hlevel
      cases hx
      cases atLeaf with
      | none =>
        rw [Handler.evaluate_leaf (p := .leaf tag x) rfl, Handler.evaluate_leaf (p := .leaf tag' x) rfl]
        exact (Twins.leaf (Λ := (exact C L).alike fun _ _ => True) rfl).done rfl
      | some f =>
        rw [Handler.evaluate_transformed (p := .leaf tag x) rfl,
          Handler.evaluate_transformed (p := .leaf tag' x) rfl]
        exact exact_lifted hC f x i z
  exact fun n => ⟨hhandled n (h n).1, hhandled n (h n).2⟩

end Course

variable {table : Handler.Table} {p : Value}

section Transparent

variable (hC : C.IsOpen) (hp : p.isProgram = true)
  (hforeign : ∀ name params, C.Performs w p name params → table.lookup name = none)
include hC hp hforeign

/-- A program that performs nothing that a handler has an implementation for cannot be told from what the
handler makes of it. -/
theorem agree_evaluated (tag : Nat) : C.Agree L w (Action.ask (.handler tag table none) [p]) (.done p) := by
  have hsame (n : Nat) : (exact C L).Twins ((exact C L).alike (C.Performs w p)) n w p w p :=
    .refl hC hp fun _ _ h => h
  have hevaluate : (exact C L).LeavesAlone (fun name => table.lookup name = none)
      (Handler.evaluate table none) := Comparison.leavesAlone_evaluate rfl fun _ h => h
  refine fun n => ⟨?_, ?_⟩
  · refine .leading (.handler tag table none p) (.refl _ _) fun m _ => ?_
    exact .admitting (fun _ _ _ => trivial)
      ((hsame m).left_alone rfl hevaluate Comparison.leavesAlone_done hforeign rfl)
  · refine .leading (.refl _ _) (.handler tag table none p) fun m _ => ?_
    exact .admitting (fun _ _ _ => trivial)
      ((hsame m).left_alone rfl Comparison.leavesAlone_done hevaluate hforeign rfl)

/-- A handler with a leaf transform cannot be told from a graft of it. -/
theorem agree_transformed {f : Value} (hf : f.isCallable = true) (tag : Nat) :
    C.Agree L w (Action.ask (.handler tag table (some f)) [p]) (Program.graft p f) := by
  have hsame (n : Nat) : (exact C L).Twins ((exact C L).alike (C.Performs w p)) n w p w p :=
    .refl hC hp fun _ _ h => h
  have hevaluate : (exact C L).GraftsOnto (fun name => table.lookup name = none) f
      (Handler.evaluate table (some f)) (.under table (some f) ·) :=
    Comparison.graftsOnto_evaluate rfl fun _ h => h
  have hgraft : (exact C L).GraftsOnto (fun name => table.lookup name = none) f (Program.graft · f)
      (.grafted · f) := Comparison.graftsOnto_graft hf
  have hleaf (j : Nat) (z y : S.World) (x x' : Value) (hlevel : z = y) (hx : x = x') :
      (exact C L).Matched j (Program.lift <$> Action.ask f [x]) z (Program.lift <$> Action.ask f [x']) y
        ((exact C L).Twins ((exact C L).alike fun _ _ => True)) := by
    cases hlevel
    cases hx
    exact Course.exact_lifted hC f x j z
  have hnames (name : String) (params : List Value) (h : C.Performs w p name params) :
      table.lookup name = none ∧ ((exact C L).alike fun _ _ => True).performs name params :=
    ⟨hforeign name params h, trivial⟩
  refine fun n => ⟨?_, ?_⟩
  · refine .leading (.handler tag table (some f) p) (.refl _ _) fun m _ => ?_
    have hmatched := Twins.grafted_onto (Λ := (exact C L).alike (C.Performs w p)) hevaluate hgraft hnames
      (fun j z y x x' _ _ _ => hleaf j z y x x') (hsame m) rfl
    exact hmatched
  · refine .leading (.refl _ _) (.handler tag table (some f) p) fun m _ => ?_
    have hmatched := Twins.grafted_onto (Λ := (exact C L).alike (C.Performs w p)) hgraft hevaluate hnames
      (fun j z y x x' _ _ _ => hleaf j z y x x') (hsame m) rfl
    exact hmatched

/-- Handlers are transparent for foreign effects. What is made of a program that performs nothing that the
handler has an implementation for cannot be told from the program itself, or from the program with the leaf
transform grafted onto it; and another handler does the same with both. -/
theorem foreign_transparent (tag : Nat) :
    C.Agree L w (Action.ask (.handler tag table none) [p]) (.done p) ∧
    (∀ f : Value, f.isCallable = true →
      C.Agree L w (Action.ask (.handler tag table (some f)) [p]) (Program.graft p f)) ∧
    ∀ tag' table' atLeaf', (∀ entry ∈ table', Comparison.Opaque C L entry.2) →
      C.Agree L w
        ((Action.ask (.handler tag table none) [p]).bind fun q =>
          Action.ask (.handler tag' table' atLeaf') [q])
        (Action.ask (.handler tag' table' atLeaf') [p]) ∧
      ∀ f : Value, f.isCallable = true → C.Agree L w
        ((Action.ask (.handler tag table (some f)) [p]).bind fun q =>
          Action.ask (.handler tag' table' atLeaf') [q])
        ((Program.graft p f).bind fun q => Action.ask (.handler tag' table' atLeaf') [q]) :=
  ⟨agree_evaluated hC hp hforeign tag, fun _ hf => agree_transformed hC hp hforeign hf tag,
    fun _ _ _ htable => ⟨(agree_evaluated hC hp hforeign tag).handled hC htable,
      fun _ hf => (agree_transformed hC hp hforeign hf tag).handled hC htable⟩⟩

end Transparent

/-- Printing does not tell continuations apart. -/
theorem Comparison.opaque_emitTo (hC : C.IsOpen) (sink : Value) :
    Comparison.Opaque C L (.arrowOf (.emitTo sink)) :=
  fun _ _ => Comparison.implements_emitTo (Comparison.exact_fair hC) (Comparison.exact_receives hC sink)

theorem foreign_transparent_printed : Course.shapes.Agree .scripts Store.empty
    ((Action.ask (.handler 0 [(decideName, .arrowOf .tryBoth)] none) [Output.print (.text "hello")]).bind
      fun q => Action.ask (.handler 0 [(printName, .arrowOf (.emitTo .nothing))] none) [q])
    (Action.ask (.handler 0 [(printName, .arrowOf (.emitTo .nothing))] none)
      [Output.print (.text "hello")]) := by
  have hforeign (name : String) (params : List Value)
      (h : Course.shapes.Performs Store.empty (Output.print (.text "hello")) name params) :
      List.lookup name [(decideName, Value.arrowOf .tryBoth)] = none := by
    rw [h.of_bare.1]
    rfl
  refine ((foreign_transparent Course.isOpen_shapes rfl hforeign 0).2.2 0 _ none ?_).1
  intro entry hentry
  rw [List.mem_singleton.1 hentry]
  exact Comparison.opaque_emitTo Course.isOpen_shapes .nothing

end AlgebraicEffects
