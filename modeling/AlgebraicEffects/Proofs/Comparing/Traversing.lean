import AlgebraicEffects.Proofs.Comparing.Collecting
import AlgebraicEffects.Proofs.Comparing.Walking

/-!
Collecting is an ordered traversal.

Walking through several programs in turn is one leg through each of them to a leaf, the next one from the
world in which the last one has ended (`Course.Legs`). Collecting comes to a program without anything being
observed (`Program.collected`), and a walk through that program stands at a leaf just after the legs through
all programs, with the list of the values that they have reached, and else within one of the programs, just
after the legs through those before it (`collectAll_traverses`).
-/

set_option autoImplicit false

namespace AlgebraicEffects

open Action (Traced)
open Comparison (exact)
open Output (printName)
open Program (collectFrom collectAll)

variable {V : Type} {S : Scene V} {C : Course S} {L : Listener} {w u y z : S.World} {p : Value}
  {ps found : List Value} {e : Ending} {n : Node Value} {path before after : List (Stride V)}

/-- Walks through the programs in turn, each to a leaf with one of the values, and the next one from the
world in which the last one stands there. -/
inductive Course.Legs (C : Course S) (L : Listener) :
    S.World → List Value → List (Stride V) → List Value → S.World → Prop where
  | nil {w : S.World} : Legs C L w [] [] [] w
  | cons {w u y : S.World} {p x : Value} {ps xs : List Value} {before after : List (Stride V)} :
      Walks C L w (.ok p) before (.leaf x) u → Legs C L u ps after xs y →
      Legs C L w (p :: ps) (before ++ after) (x :: xs) y

/-- The program to which collecting comes: the first operation that is met, or the list of all values. -/
def Program.collected : List Value → List Value → Value
  | [], found => .leaf 0 (.list 0 found)
  | .operation _ name params resume :: ps, found =>
    .operation 0 name params (.arrowOf (.grafted resume (.arrowOf (.collecting ps found))))
  | .leaf _ x :: ps, found => Program.collected ps (found ++ [x])
  | v :: ps, found => Program.collected ps (found ++ [v])

namespace Program

theorem collected_of_leaf {tag : Nat} {x : Value} (hp : lift p = .leaf tag x) :
    Program.collected (p :: ps) found = Program.collected ps (found ++ [x]) := by
  cases p <;> cases hp <;> rfl

theorem isProgram_collected (ps found : List Value) : (Program.collected ps found).isProgram = true := by
  induction ps generalizing found with
  | nil => rfl
  | cons p ps ih =>
    rcases Replay.lift_cases p with ⟨tag, name, params, resume, rfl⟩ | ⟨tag, x, hp⟩
    · rfl
    · rw [collected_of_leaf hp]
      exact ih _

/-- Lifting makes no difference to the program to which collecting comes. -/
theorem leads_lifted {a : Action Value} {s : Store} {m : Nat}
    (h : L.Leads S.see s a m [] s (.done (Program.collected ps found))) :
    L.Leads S.see s (lift <$> a) m [] s (.done (Program.collected ps found)) := by
  have hlifted := h.bind fun v => .done (lift v)
  rwa [Action.bind, lift_of_isProgram (isProgram_collected ps found)] at hlifted

/-- Collecting comes to its program, and nothing is observed meanwhile. -/
theorem leads_collectFrom (ps found : List Value) (s : Store) : ∃ m,
    L.Leads S.see s (collectFrom ps found) m [] s (.done (Program.collected ps found)) := by
  induction ps generalizing found with
  | nil => exact ⟨0, .refl _ _⟩
  | cons p ps ih =>
    rcases Replay.lift_cases p with ⟨tag, name, params, resume, rfl⟩ | ⟨tag, x, hp⟩
    · exact ⟨0, .refl _ _⟩
    · obtain ⟨m, hrest⟩ := ih (found ++ [x])
      rw [collected_of_leaf hp]
      refine ⟨1 + m, ?_⟩
      show L.Leads S.see s (graft p (.arrowOf (.collecting ps found))) _ [] s _
      rw [Replay.graft_of_leaf hp rfl]
      exact ((Listener.Leads.ask rfl).bind _).trans (leads_lifted hrest)

/-- Where an operation of a program is answered, collecting goes on with what follows it. -/
theorem leads_resumed (resume answer : Value) (ps found : List Value) (s : Store) :
    L.Leads S.see s (continueWith (.arrowOf (.grafted resume (.arrowOf (.collecting ps found)))) answer) 0 []
      s ((fun q => Program.collected (q :: ps) found) <$> continueWith resume answer) := by
  have hasked : L.Leads S.see s
      (continueWith (.arrowOf (.grafted resume (.arrowOf (.collecting ps found)))) answer) 1 [] s
      (lift <$> ((continueWith resume answer).bind fun q => collectFrom (q :: ps) found)) := by
    have hbody : (continueWith resume answer).bind (fun q => collectFrom (q :: ps) found) =
        (Function.grafted resume (.arrowOf (.collecting ps found))).apply (.of [answer]) :=
      lift_bind (graft_lift · _) _
    rw [hbody]
    exact (Listener.Leads.ask rfl).bind _
  have hnext (q : Value) (t : Store) : L.Leads S.see t (lift <$> collectFrom (q :: ps) found) 0 [] t
      (.done (Program.collected (q :: ps) found)) := by
    obtain ⟨m, hcollected⟩ := leads_collectFrom (L := L) (S := S) (q :: ps) found t
    exact (leads_lifted hcollected).weaken
  have hrest := Listener.Leads.next hnext (s := s) (continueWith resume answer)
  rw [show (fun q => lift <$> collectFrom (q :: ps) found) =
    fun q => (collectFrom (q :: ps) found).bind fun v => .done (lift v) from rfl, ← Action.bind_assoc] at hrest
  exact (hasked.trans hrest).weaken

end Program

namespace Course

theorem legs_map_lift {xs : List Value} :
    C.Legs L w (ps.map Program.lift) path xs y ↔ C.Legs L w ps path xs y := by
  induction ps generalizing w path xs with
  | nil => rfl
  | cons p ps ih =>
    refine ⟨fun h => ?_, fun h => ?_⟩
    · cases h with
      | cons hwalk hlegs => exact .cons (walks_lift.1 hwalk) (ih.1 hlegs)
    · cases h with
      | cons hwalk hlegs => exact .cons (walks_lift.2 hwalk) (ih.2 hlegs)

/-- Each of the programs has reached one value. -/
theorem Legs.length_eq {xs : List Value} (h : C.Legs L w ps path xs y) : xs.length = ps.length := by
  induction h with
  | nil => rfl
  | cons _ _ ih => rw [List.length_cons, List.length_cons, ih]

/-- At a leaf the walk through the program is over, and it goes on through what is collected of further ones. -/
theorem Walks.past_leaf {tag : Nat} {x : Value} (hp : Program.lift p = .leaf tag x)
    (h : C.Walks L w (.ok (Program.collected (p :: ps) found)) path n y) :
    ∃ before after x u, path = before ++ after ∧ C.Walks L w (.ok p) before (.leaf x) u ∧
      C.Walks L u (.ok (Program.collected ps (found ++ [x]))) after n y := by
  rw [Program.collected_of_leaf hp] at h
  exact ⟨[], path, x, w, rfl, (walks_leaf hp).2 ⟨rfl, rfl, rfl⟩, h⟩

/-- A walk through what is collected of a program and of further ones stands within the program, or it has gone
through the program to a leaf, and then on through what is collected of the further ones with that value. -/
theorem Walks.of_collected (h : C.Walks L w (e.map fun q => Program.collected (q :: ps) found) path n y) :
    C.Walks L w e path n y ∧ (∀ x, n ≠ .leaf x) ∨ ∃ before after x u, path = before ++ after ∧
      C.Walks L w e before (.leaf x) u ∧ C.Walks L u (.ok (Program.collected ps (found ++ [x]))) after n y := by
  generalize he : e.map (fun q => Program.collected (q :: ps) found) = e' at h
  induction h generalizing e with
  | @stay w e' =>
    subst he
    cases e with
    | error f => exact .inl ⟨.stay, nofun⟩
    | ok p =>
      rcases Replay.lift_cases p with ⟨tag, name, params, resume, rfl⟩ | ⟨tag, x, hp⟩
      · exact .inl ⟨.stay, nofun⟩
      · exact .inr (Walks.past_leaf hp .stay)
  | @stride w u z y tag name params resume' answer cs o path n hu hrun hz hwalk ih =>
    cases e with
    | error f => cases he
    | ok p =>
      rcases Replay.lift_cases p with ⟨_, _, _, resume, rfl⟩ | ⟨_, x, hp⟩
      · cases he
        obtain ⟨ds, hds, hevents, -⟩ := (Program.leads_resumed (L := L) resume answer ps found _).forth _ _ _ hrun
        obtain ⟨o, rfl, hresumed⟩ := hds.of_map
        rw [List.nil_append] at hevents
        rw [hevents]
        rcases ih rfl with ⟨hwithin, hn⟩ | ⟨before, after, x, v, rfl, hbefore, hafter⟩
        · exact .inl ⟨.stride hu hresumed hz hwithin, hn⟩
        · exact .inr ⟨_ :: before, after, x, v, rfl, .stride hu hresumed hz hbefore, hafter⟩
      · refine .inr (Walks.past_leaf hp ?_)
        rw [show Program.collected (p :: ps) found = .operation tag name params resume' from Except.ok.inj he]
        exact .stride hu hrun hz hwalk

/-- What follows an answer to a program follows it in what is collected of it. -/
theorem Walks.resumed {tag : Nat} {name : String} {params : List Value} {resume answer : Value}
    {cs : List Call} {o : Ending} (hu : C.Later w u)
    (hrun : Traced (Program.continueWith resume answer) (S.store u) cs o (S.store z)) (hz : C.Later u z)
    (h : C.Walks L z (o.map fun q => Program.collected (q :: ps) found) path n y) :
    C.Walks L w (.ok (Program.collected (.operation tag name params resume :: ps) found))
      (⟨name, params, answer, L.events S.see cs⟩ :: path) n y := by
  obtain ⟨ds, hds, hevents⟩ := (Program.leads_resumed (L := L) resume answer ps found _).back _ _ _
    (hrun.map fun q => Program.collected (q :: ps) found)
  rw [List.nil_append] at hevents
  rw [← hevents]
  exact .stride hu hds hz h

/-- A walk within a program is one through what is collected of it. -/
theorem Walks.within (h : C.Walks L w e path n y) (hn : ∀ x, n ≠ .leaf x) :
    C.Walks L w (e.map fun q => Program.collected (q :: ps) found) path n y := by
  induction h with
  | @stay w e =>
    cases e with
    | error f => exact .stay
    | ok p =>
      rcases Replay.lift_cases p with ⟨tag, name, params, resume, rfl⟩ | ⟨tag, x, hp⟩
      · exact .stay
      · exact absurd (Node.of_leaf hp) (hn x)
  | stride hu hrun hz _ ih => exact .resumed hu hrun hz (ih hn)

/-- A walk through a program to a leaf goes on as one through what is collected next. -/
theorem Walks.onward {x : Value} {m : Node Value} (h : C.Walks L w e before m u) (hm : m = .leaf x)
    (hnext : C.Walks L u (.ok (Program.collected ps (found ++ [x]))) after n y) :
    C.Walks L w (e.map fun q => Program.collected (q :: ps) found) (before ++ after) n y := by
  induction h with
  | @stay w e =>
    cases e with
    | error f => cases hm
    | ok p =>
      rcases Replay.lift_cases p with ⟨tag, name, params, resume, rfl⟩ | ⟨tag, v, hp⟩
      · cases hm
      · rw [Node.of_leaf hp] at hm
        cases hm
        rwa [← Program.collected_of_leaf hp] at hnext
  | stride hu hrun hz _ ih => exact .resumed hu hrun hz (ih hm hnext)

/-- After the legs through some programs a walk goes on through what is collected of the further ones. -/
theorem Legs.walks {qs xs : List Value} (h : C.Legs L w ps before xs u)
    (hrest : C.Walks L u (.ok (Program.collected qs (found ++ xs))) after n y) :
    C.Walks L w (.ok (Program.collected (ps ++ qs) found)) (before ++ after) n y := by
  induction h generalizing found with
  | nil => rwa [List.append_nil] at hrest
  | cons hwalk _ ih =>
    rw [List.append_cons] at hrest
    rw [List.append_assoc]
    exact hwalk.onward rfl (ih hrest)

/-- A walk through what is collected stands at a leaf just after the legs through all programs, and that carries
the values they have reached after those that were there. -/
theorem walks_collected_leaf {v : Value} : C.Walks L w (.ok (Program.collected ps found)) path (.leaf v) y ↔
    ∃ xs, v = .list 0 (found ++ xs) ∧ C.Legs L w ps path xs y := by
  refine ⟨fun h => ?_, ?_⟩
  · induction ps generalizing w found path with
    | nil =>
      obtain ⟨rfl, hv, rfl⟩ := (walks_leaf rfl).1 h
      cases hv
      exact ⟨[], by rw [List.append_nil], .nil⟩
    | cons p ps ih =>
      rcases Walks.of_collected (e := .ok p) h with ⟨-, hn⟩ | ⟨before, after, x, u, rfl, hbefore, hafter⟩
      · exact absurd rfl (hn v)
      · obtain ⟨xs, rfl, hlegs⟩ := ih hafter
        exact ⟨x :: xs, by rw [List.append_assoc]; rfl, .cons hbefore hlegs⟩
  · rintro ⟨xs, rfl, hlegs⟩
    have hstay : C.Walks L y (.ok (Program.collected [] (found ++ xs))) [] (.leaf (.list 0 (found ++ xs))) y :=
      .stay
    have hwalk := hlegs.walks hstay
    rwa [List.append_nil, List.append_nil] at hwalk

/-- And it stands at any other node within one of the programs, just after the legs through those before. -/
theorem walks_collected_within (hn : ∀ x, n ≠ .leaf x) :
    C.Walks L w (.ok (Program.collected ps found)) path n y ↔ ∃ earlier p further before after xs u,
      ps = earlier ++ p :: further ∧ path = before ++ after ∧ C.Legs L w earlier before xs u ∧
        C.Walks L u (.ok p) after n y := by
  refine ⟨fun h => ?_, ?_⟩
  · induction ps generalizing w found path with
    | nil =>
      obtain ⟨-, hleaf, -⟩ := (walks_leaf rfl).1 h
      exact absurd hleaf (hn _)
    | cons p ps ih =>
      rcases Walks.of_collected (e := .ok p) h with ⟨hwithin, -⟩ | ⟨before, after, x, u, rfl, hbefore, hafter⟩
      · exact ⟨[], p, ps, [], path, [], w, rfl, rfl, .nil, hwithin⟩
      · obtain ⟨earlier, q, further, before', after', xs, v, rfl, rfl, hlegs, hwithin⟩ := ih hafter
        exact ⟨p :: earlier, q, further, before ++ before', after', x :: xs, v, rfl,
          (List.append_assoc ..).symm, .cons hbefore hlegs, hwithin⟩
  · rintro ⟨earlier, p, further, before, after, xs, u, rfl, rfl, hlegs, hwithin⟩
    exact hlegs.walks (hwithin.within hn)

end Course

section Collecting

/-- Collecting two lists one after the other, and then one list behind the other, is collecting both. -/
theorem agree_collectAll_append {qs : List Value} {f : Value} {g : List Value → Value} (hC : C.IsOpen)
    (hf : f.isCallable = true) (hg : ∀ xs, (g xs).isCallable = true)
    (hconcat : ∀ z xs ys, C.Later w z →
      C.Coincide L z (Action.ask (g xs) [.list 0 ys]) (.done (.list 0 (xs ++ ys))))
    (hdoes : ∀ z xs, C.Later w z → List.Forall₂ (C.Reaches w) ps xs →
      C.Agree L z (Program.lift <$> Action.ask f [.list 0 xs]) ((collectAll qs).bind (Program.map · (g xs)))) :
    C.Agree L w (collectAll (ps ++ qs)) ((collectAll ps).bind (Program.graft · f)) := by
  have hlists (u : S.World) (xs : List Value) (hu : C.Later w u) :
      C.Agree L u ((collectFrom (qs.map Program.lift) xs).bind fun v => .done (Program.lift v))
        ((collectAll qs).bind (Program.map · (g xs))) :=
    Course.agree_collected hC Comparison.rebuilds_lift (Comparison.rebuilds_map (hg xs)) _ xs []
      fun z ys hz _ => .of_leads (.refl _ _) (map_leaf_leads (hg xs) 0 _ _)
        (hconcat z xs ys (C.trans hu hz)).leaves.symm
  refine .of_leads (.lifted (givesPrograms_collectFrom _ []) _) (.refl _ _) ?_
  rw [List.map_append]
  refine Course.agree_collect_append hC Comparison.rebuilds_lift (Comparison.rebuilds_graft hf) _ _ [] []
    fun z xs hz hxs => ?_
  have hreached : List.Forall₂ (C.Reaches w) ps xs :=
    (List.forall₂_map_left_iff.1 hxs).imp fun _ _ => Course.Reaches.of_lift
  rw [Replay.graft_of_leaf rfl hf]
  exact (hlists z xs hz).trans hC (hdoes z xs hz hreached).symm

/-- Collecting is an ordered traversal. It comes to a program without anything being observed, and walks through
that program, however it is resumed, are legs through the programs in turn: where it carries a value, that is
the list of the values which the programs have reached on this walk, in order and one for each of them; and
anywhere else it stands within one of them, which has been started when the one before it had reached its
value. And collecting two lists one after the other is collecting both. -/
theorem collectAll_traverses (hC : C.IsOpen) (w : S.World) (ps : List Value) :
    (∃ cs r, Traced (collectAll ps) (S.store w) cs (.ok r) (S.store w) ∧ L.events S.see cs = [] ∧
      (∀ path v y, C.Walks L w (.ok r) path (.leaf v) y ↔
        ∃ xs, v = .list 0 xs ∧ xs.length = ps.length ∧ C.Legs L w ps path xs y) ∧
      ∀ path n y, (∀ x, n ≠ .leaf x) → (C.Walks L w (.ok r) path n y ↔
        ∃ earlier p further before after xs u, ps = earlier ++ p :: further ∧ path = before ++ after ∧
          C.Legs L w earlier before xs u ∧ C.Walks L u (.ok p) after n y)) ∧
    ∀ (qs : List Value) (f : Value) (g : List Value → Value), f.isCallable = true →
      (∀ xs, (g xs).isCallable = true) →
      (∀ z xs ys, C.Later w z →
        C.Coincide L z (Action.ask (g xs) [.list 0 ys]) (.done (.list 0 (xs ++ ys)))) →
      (∀ z xs, C.Later w z → List.Forall₂ (C.Reaches w) ps xs →
        C.Agree L z (Program.lift <$> Action.ask f [.list 0 xs])
          ((collectAll qs).bind (Program.map · (g xs)))) →
      C.Agree L w (collectAll (ps ++ qs)) ((collectAll ps).bind (Program.graft · f)) := by
  refine ⟨?_, fun qs f g => agree_collectAll_append hC⟩
  obtain ⟨m, hleads⟩ := Program.leads_collectFrom (L := L) (ps.map Program.lift) [] (S.store w)
  obtain ⟨cs, hrun, hsilent⟩ := hleads.back [] _ _ (.done _ _)
  refine ⟨cs, _, hrun, hsilent, fun path v y => ?_, fun path n y hn => ?_⟩
  · rw [Course.walks_collected_leaf]
    simp only [Course.legs_map_lift, List.nil_append]
    refine exists_congr fun xs => and_congr_right fun _ => ?_
    exact ⟨fun hlegs => ⟨hlegs.length_eq, hlegs⟩, fun h => h.2⟩
  · rw [Course.walks_collected_within hn]
    refine ⟨?_, ?_⟩
    · rintro ⟨_, _, _, before, after, xs, u, hps, rfl, hlegs, hwithin⟩
      obtain ⟨earlier, rest, rfl, rfl, hrest⟩ := List.map_eq_append_iff.1 hps
      obtain ⟨p, further, rfl, rfl, rfl⟩ := List.map_eq_cons_iff.1 hrest
      exact ⟨earlier, p, further, before, after, xs, u, rfl, rfl, Course.legs_map_lift.1 hlegs,
        Course.walks_lift.1 hwithin⟩
    · rintro ⟨earlier, p, further, before, after, xs, u, rfl, rfl, hlegs, hwithin⟩
      exact ⟨earlier.map Program.lift, Program.lift p, further.map Program.lift, before, after, xs, u,
        by rw [List.map_append, List.map_cons], rfl, Course.legs_map_lift.2 hlegs, Course.walks_lift.2 hwithin⟩

end Collecting

/-- What collects the programs and puts the list with which it is called in front of what they reach. -/
def joining (qs : List Value) : Value :=
  .arrowOf (.enumerateSecond (.arrowOf (.constant (Program.collected (qs.map Program.lift) []))))

/-- It does so. -/
theorem agree_joining (hC : C.IsOpen) (qs xs : List Value) :
    C.Agree L w (Program.lift <$> Action.ask (joining qs) [.list 0 xs])
      ((collectAll qs).bind (Program.map · (.arrowOf (.appended (.list 0 xs))))) := by
  let rest : Value := Program.collected (qs.map Program.lift) []
  let front : Value := .arrowOf (.appended (.list 0 xs))
  have hasked : (exact C L).Leads (S.store w) (Action.ask (joining qs) [.list 0 xs]) 1 [] (S.store w)
      ((Action.ask (.arrowOf (.constant rest)) [.bool false]).bind (Program.map · front)) := .ask rfl
  have hgiven : (exact C L).Leads (S.store w) (Action.ask (.arrowOf (.constant rest)) [.bool false]) 1 []
      (S.store w) (.done rest) := .ask rfl
  obtain ⟨m, hcollected⟩ := Program.leads_collectFrom (L := L) (qs.map Program.lift) [] (S.store w)
  refine .lifted (.of_leads (hasked.trans (hgiven.bind _))
    ⟨hcollected.bind (Program.map · front), Comparison.keeps_refl _⟩ ?_)
  show C.Agree L w (Program.map rest front) (Program.map rest front)
  rw [show Program.map rest front = Program.graft rest (.arrowOf (.mapped front)) from if_pos rfl]
  exact Course.agree_refl hC (hC.graft _ _) (.graft _ _)

/-- What is printed is answered and collected, then the value five, and then what is printed again. -/
theorem collectAll_traverses_printing :
    (∀ z xs ys, Course.shapes.Later Store.empty z → Course.shapes.Coincide .scripts z
      (Action.ask (.arrowOf (.appended (.list 0 xs))) [.list 0 ys]) (.done (.list 0 (xs ++ ys)))) ∧
    (∀ z xs, Course.shapes.Later Store.empty z →
      List.Forall₂ (Course.shapes.Reaches Store.empty) [Output.print (.text "hello"), .int 5] xs →
      Course.shapes.Agree .scripts z
        (Program.lift <$> Action.ask (joining [Output.print (.text "again")]) [.list 0 xs])
        ((collectAll [Output.print (.text "again")]).bind
          (Program.map · (.arrowOf (.appended (.list 0 xs)))))) ∧
    Course.shapes.Agree .scripts Store.empty
      (collectAll ([Output.print (.text "hello"), .int 5] ++ [Output.print (.text "again")]))
      ((collectAll [Output.print (.text "hello"), .int 5]).bind
        (Program.graft · (joining [Output.print (.text "again")]))) := by
  have hconcat (z : Store) (xs ys : List Value) (_ : Course.shapes.Later Store.empty z) :
      Course.shapes.Coincide .scripts z (Action.ask (.arrowOf (.appended (.list 0 xs))) [.list 0 ys])
        (.done (.list 0 (xs ++ ys))) := by
    have hasked : Traced (Action.ask (.arrowOf (.appended (.list 0 xs))) [.list 0 ys]) z _
        (.ok (.list 0 (xs ++ ys))) z := Traced.invoke (.done _ _)
    exact .of_traced hasked (.done _ z) trivial rfl
  refine ⟨hconcat, fun z xs _ _ => agree_joining Course.isOpen_shapes _ xs, ?_⟩
  exact (collectAll_traverses Course.isOpen_shapes Store.empty _).2 _ _ _ rfl (fun _ => rfl) hconcat
    fun z xs _ _ => agree_joining Course.isOpen_shapes _ xs

end AlgebraicEffects
