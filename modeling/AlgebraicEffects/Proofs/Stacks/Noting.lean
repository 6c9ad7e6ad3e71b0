import AlgebraicEffects.Proofs.Identities
import AlgebraicEffects.Proofs.Stacks.Evaluating
import AlgebraicEffects.Run

/-!
Programs whose values are noted by a runner.

A runner keeps things for itself while a program runs: the values that have reached the end, and a host.
To the program this is a private state that it leaves alone (`Conduct.spared`). With the noting grafted
onto its leaves, a program conducts itself as the machine that it is, except that this private state has
the value at each leaf (`ends_note`, `NotesValues.conducts`), and under reactions the machine comes to the same as
without it (`plays_beside_iff`).
-/

set_option autoImplicit false

namespace AlgebraicEffects

open Action (Traced)

variable {V τ σ β : Type} {K : Conduct V τ σ} {r : Reactions V τ}

section Beside

/-- The reaction beside another private state, which it leaves alone. -/
def Reaction.spared (react : Reaction V τ) : Reaction V (τ × β) :=
  fun ps x es o y => react ps x.1 es o y.1 ∧ y.2 = x.2

def Reactions.spared (r : Reactions V τ) : Reactions V (τ × β) := fun name => (r name).map Reaction.spared

/-- The machine beside another private state, of which something is made at each node. -/
def Conduct.beside (K : Conduct V τ σ) (f : Node V → β → β) : Conduct V (τ × β) σ where
  node := K.node
  next q a x es p y := K.next q a x.1 es p y.1 ∧ y.2 = f (K.node p) x.2

/-- The machine beside another private state, which it leaves alone. -/
def Conduct.spared (K : Conduct V τ σ) : Conduct V (τ × β) σ := K.beside fun _ b => b

/-- At a leaf one more value is noted. -/
def Node.note : Node V → List V → List V
  | .leaf v, vs => vs ++ [v]
  | _, vs => vs

theorem Node.note_eq {n : Node V} (hn : ∀ v, n ≠ .leaf v) (vs : List V) : n.note vs = vs := by
  cases n with
  | leaf v => exact absurd rfl (hn v)
  | _ => rfl

theorem Conduct.rests_spared {q : σ} {f : Node V → β → β} :
    (K.beside f).Rests r.spared q ↔ K.Rests r q := by
  constructor
  · exact fun h name ps hq => Option.map_eq_none_iff.1 (h name ps hq)
  · exact fun h name ps hq => Option.map_eq_none_iff.2 (h name ps hq)

theorem Conduct.node_spared {f : Node V → β → β} (v : Verdict V σ) :
    ((K.beside f).under r.spared).node v = (K.under r).node v := by
  cases v <;> rfl

variable {f : Node V → β → β} {q : σ} {x y : τ} {es : List (Event V)} {v : Verdict V σ}

theorem Conduct.Plays.beside (hf : ∀ n, (∀ v, n ≠ .leaf v) → ∀ b, f n b = b) (h : K.Plays r q x es v y)
    (b : β) :
    (K.beside f).Plays r.spared q (x, f (K.node q) b) es v (y, f ((K.under r).node v) b) := by
  induction h with
  | rests h => exact .rests (Conduct.rests_spared.2 h)
  | @fails q x y name ps react es g hq hr hg =>
    have hoperation : f (K.node q) b = b := hf _ (fun v => by rw [hq]; exact nofun) b
    have hfailure : f ((K.under r).node (.fails g)) b = b := hf (.failure g) nofun b
    rw [hoperation, hfailure]
    exact .fails hq (congrArg (Option.map _) hr) ⟨hg, rfl⟩
  | @resumes q p x y z u name ps react es fs gs a v hq hr ha hnext _ ih =>
    have hoperation : f (K.node q) b = b := hf _ (fun v => by rw [hq]; exact nofun) b
    rw [hoperation]
    exact .resumes (y := (y, b)) hq (congrArg (Option.map _) hr) ⟨ha, rfl⟩ ⟨hnext, rfl⟩ ih

theorem Conduct.Plays.of_beside (hf : ∀ n, (∀ v, n ≠ .leaf v) → ∀ b, f n b = b) {X Y : τ × β}
    (h : (K.beside f).Plays r.spared q X es v Y) {b : β} (hb : X.2 = f (K.node q) b) :
    K.Plays r q X.1 es v Y.1 ∧ Y.2 = f ((K.under r).node v) b := by
  induction h with
  | rests h => exact ⟨.rests (Conduct.rests_spared.1 h), hb⟩
  | @fails q X Y name ps react es g hq hr hg =>
    obtain ⟨react', hr', rfl⟩ := Option.map_eq_some_iff.1 hr
    have hoperation : f (K.node q) b = b := hf _ (fun v => by rw [show K.node q = _ from hq]; exact nofun) b
    have hfailure : f ((K.under r).node (.fails g)) b = b := hf (.failure g) nofun b
    refine ⟨.fails hq hr' hg.1, ?_⟩
    rw [hfailure, hg.2, hb, hoperation]
  | @resumes q p X Y Z U name ps react es fs gs a v hq hr ha hnext _ ih =>
    obtain ⟨react', hr', rfl⟩ := Option.map_eq_some_iff.1 hr
    have hoperation : f (K.node q) b = b := hf _ (fun v => by rw [show K.node q = _ from hq]; exact nofun) b
    obtain ⟨hplays, hU⟩ := ih (by rw [hnext.2, ha.2, hb, hoperation])
    exact ⟨.resumes hq hr' ha.1 hnext.1 hplays, hU⟩

/-- Beside another private state, of which something is made at leaves only, the machine comes to the
same, and that state is what is made of it at the end. -/
theorem plays_beside_iff (hf : ∀ n, (∀ v, n ≠ .leaf v) → ∀ b, f n b = b) {b b' : β} :
    (K.beside f).Plays r.spared q (x, f (K.node q) b) es v (y, b') ↔
      K.Plays r q x es v y ∧ b' = f ((K.under r).node v) b := by
  constructor
  · exact fun h => h.of_beside hf rfl
  · rintro ⟨h, rfl⟩
    exact h.beside hf b

end Beside

section Desks

/-- Where a runner keeps what it keeps for itself: the values that have reached the end, and a host. -/
structure Desk where
  completed : Option Nat
  agenda : Option Nat
  loop : Option Nat

/-- These values are on the desk, and nobody has handed anything to the host. -/
structure Store.OnDesk (s : Store) (d : Desk) (see : Value → V) (vs : List V) : Prop where
  values : ∀ i ∈ d.completed, ∃ l, s.completed[i]? = some l ∧ l.map see = vs
  agenda : ∀ i ∈ d.agenda, ∃ a, s.agendas[i]? = some a ∧ a.queue = .empty
  loop : ∀ i ∈ d.loop, s.loops[i]? = some .starting

/-- The venue with the desk of a runner. -/
def Venue.hosting (T : Venue V τ) (d : Desk) : Venue V (τ × List V) where
  World := T.World
  store := T.store
  Later := T.Later
  refl := T.refl
  trans := T.trans
  see := T.see
  Fit := T.Fit
  Holds w x := T.Holds w x.1 ∧ (T.store w).OnDesk d T.see x.2

/-- All that differs is what a runner may do: give identities out, and work on its desk. -/
structure Store.Books (d : Desk) (s t : Store) : Prop where
  rest : t = { s with
    nextTag := t.nextTag, completed := t.completed, agendas := t.agendas, loops := t.loops,
    loopIsRunning := t.loopIsRunning }
  nextTag : s.nextTag ≤ t.nextTag
  completed : ∀ i, i ∉ d.completed → t.completed[i]? = s.completed[i]?
  agendas : ∀ i, i ∉ d.agenda → t.agendas[i]? = s.agendas[i]?
  loops : ∀ i, i ∉ d.loop → t.loops[i]? = s.loops[i]?

/-- What a runner does for itself is not seen, and leads to later worlds with the same private states. -/
structure Venue.Allows (T : Venue V τ) (d : Desk) : Prop where
  see_tagged (v : Value) (n : Nat) : T.see (v.tagged n).1 = T.see v
  booked (w : T.World) (t : Store) : (T.store w).Books d t →
    ∃ u, T.Later w u ∧ T.store u = t ∧ ∀ x, T.Holds w x → T.Holds u x

variable {T : Venue V τ} {d : Desk} {w u : T.World}

theorem Venue.Allows.see_identify (hT : T.Allows d) (s : Store) (v : Value) :
    T.see (s.identify v).1 = T.see v := by
  unfold Store.identify
  split
  · rfl
  · exact hT.see_tagged v s.nextTag

end Desks

section Notes

variable {T : Venue V τ} {d : Desk} {L : Listener} {dest : Nat}

/-- The value gets its identity and is noted. -/
theorem exists_noted (hT : T.Allows d) (hdest : dest ∈ d.completed) {w : T.World} {x : τ} {vs : List V}
    (hx : (T.hosting d).Holds w (x, vs)) (v : Value) :
    ∃ cs v' u, Traced (Action.ask (.arrowOf (.recordIn dest)) [v]) (T.store w) cs (.ok (.leaf 0 v'))
        (T.store u) ∧ T.Later w u ∧ L.events T.see cs = [] ∧ T.see v' = T.see v ∧
      (T.hosting d).Holds u (x, vs ++ [T.see v]) := by
  obtain ⟨n, hn, htags⟩ := (T.store w).identify_snd v
  have hidentify := traced_identify (T.store w) v
  rw [htags] at hidentify
  let noted : Store := { (T.store w).tagsFrom n with
    completed := (T.store w).completed.modify dest (· ++ [((T.store w).identify v).1]) }
  have hbooks : (T.store w).Books d noted := {
    rest := rfl
    nextTag := hn
    completed := fun i hi => by
      rw [Array.getElem?_modify, if_neg (by rintro rfl; exact hi hdest)]
    agendas := fun _ _ => rfl
    loops := fun _ _ => rfl }
  obtain ⟨u, hu, hstore, hholds⟩ := hT.booked w noted hbooks
  have hbody : Traced (Function.apply (.recordIn dest) (.of [v])) (T.store w) []
      (.ok (.leaf 0 ((T.store w).identify v).1)) (T.store u) := by
    refine hidentify.bind (.write ?_)
    rw [hstore]
    exact .done _ _
  refine ⟨_, ((T.store w).identify v).1, u, .invoke hbody, hu,
    L.events_silent (f := .recordIn dest) rfl 0 _ [], hT.see_identify _ v, hholds x hx.1, ?_⟩
  refine ⟨fun i hi => ?_, fun i hi => ?_, fun i hi => ?_⟩
  all_goals rw [hstore]
  · obtain rfl : dest = i := Option.some.inj (hdest.symm.trans hi)
    obtain ⟨l, hl, hsee⟩ := hx.2.values dest hi
    refine ⟨l ++ [((T.store w).identify v).1], ?_, ?_⟩
    · simp only [noted, Array.getElem?_modify, hl, if_true, Option.map_some]
    · rw [List.map_append, hsee, List.map_singleton, hT.see_identify]
  · exact hx.2.agenda i hi
  · exact hx.2.loop i hi

/-- What a program has come to onto which the noting was grafted. -/
inductive NotesValues (T : Venue V τ) (L : Listener) (K : Conduct V τ σ) (d : Desk) (dest : Nat) :
    T.World → Ending → σ → Prop where
  | leaf {w : T.World} {tag : Nat} {x : Value} {q : σ} :
      K.node q = .leaf (T.see x) → NotesValues T L K d dest w (.ok (.leaf tag x)) q
  | failure {w : T.World} {f : Failure} {q : σ} :
      K.node q = .failure (T.see (.failure f)) → NotesValues T L K d dest w (.error f) q
  | operation {w : T.World} {tag tag' k : Nat} {name : String} {params : List Value} {resume : Value}
      {q : σ} :
      K.node q = .operation name (params.map T.see) →
      Conducts (T.hosting d) L K.spared w (.ok (.operation tag' name params resume)) q →
      NotesValues T L K d dest w
        (.ok (.operation tag name params (.function k (.grafted resume (.arrowOf (.recordIn dest)))))) q

variable {e : Ending} {q : σ} {x : τ} {vs : List V}

/-- The noting is grafted onto a program, or a failure is passed on. -/
theorem ends_note (hT : T.Allows d) (hdest : dest ∈ d.completed) {w : (T.hosting d).World}
    (hp : Conducts (T.hosting d) L K.spared w e q) (hx : (T.hosting d).Holds w (x, vs)) :
    EndsAs (T.hosting d) L
      (Action.after (fun p => Program.graft p (.arrowOf (.recordIn dest))) e) w
      (fun es p y => es = [] ∧ p = q ∧ y = (x, (K.node q).note vs)) (NotesValues T L K d dest) := by
  have hlooks := hp.looks
  have hended (n : Node V) (hn : K.node q = n) (hleaf : ∀ v, n ≠ .leaf v) {o : Ending}
      (ho : NotesValues T L K d dest w o q) : EndsAs (T.hosting d) L (Action.after .done o) w
        (fun es p y => es = [] ∧ p = q ∧ y = (x, (K.node q).note vs)) (NotesValues T L K d dest) := by
    rw [Node.note_eq (by rw [hn]; exact hleaf)]
    exact EndsAs.ended hx ho
  obtain ⟨n, hnode⟩ : ∃ n, K.node q = n := ⟨_, rfl⟩
  rw [show K.spared.node q = n from hnode] at hlooks
  cases hlooks with
  | @leaf p v tag hv =>
    refine ⟨fun _ _ _ _ => ⟨_, _, _, rfl, rfl, rfl⟩, ?_⟩
    rintro _ _ _ ⟨rfl, rfl, rfl⟩
    obtain ⟨cs, v', u, htr, hu, hevents, hsee, hholds⟩ := exists_noted (L := L) hT hdest hx v
    refine ⟨cs, .ok (.leaf 0 v'), u, ?_, hu, hevents, ?_, .leaf ?_⟩
    · show Traced (Program.graft p _) _ _ _ _
      rw [Replay.graft_of_leaf hv rfl]
      exact htr.map Program.lift
    · rw [show K.node _ = _ from hnode]
      exact hholds
    · rw [hsee]
      exact hnode
  | @operation tag name params resume =>
    exact hended _ hnode nofun (o := .ok _) (.operation hnode hp)
  | @failure g => exact hended _ hnode nofun (o := .error g) (.failure hnode)

/-- A program onto which the noting was grafted conducts itself as the machine that notes its values. -/
theorem NotesValues.conducts (hT : T.Allows d) (hdest : dest ∈ d.completed) {w : (T.hosting d).World}
    (h : NotesValues T L K d dest w e q) : Conducts (T.hosting d) L (K.beside Node.note) w e q := by
  refine ⟨NotesValues T L K d dest, ?_, h⟩
  clear h
  intro w e q h
  cases h with
  | @leaf tag v q hq =>
    refine ⟨?_, nofun⟩
    show Looks T.see (.ok (.leaf tag v)) (K.node q)
    rw [hq]
    exact .leaf rfl
  | failure hq =>
    refine ⟨?_, nofun⟩
    show Looks T.see _ (K.node q)
    rw [hq]
    exact .failure
  | @operation tag tag' k name params resume q hq hp =>
    refine ⟨?_, ?_⟩
    · show Looks T.see _ (K.node q)
      rw [hq]
      exact .operation
    · rintro _ _ _ _ ⟨rfl⟩ u a x hu ha hx
      have hends := (hp.resume hu ha hx).bind
        fun _ _ _ _ _ _ _ hx' hp' => ends_note hT hdest hp' hx'
      refine EndsAs.of_leads (b := (Action.ask resume [a]).bind fun p =>
        Program.graft p (.arrowOf (.recordIn dest))) ?_
        (Listener.Leads.ask (f := .grafted resume (.arrowOf (.recordIn dest))) rfl)
      refine hends.image (f := id) (fun es p y => ?_) fun _ _ _ h => h
      constructor
      · rintro ⟨hnext, hy⟩
        refine ⟨p, ⟨es, p, (y.1, x.2), [], ⟨hnext, rfl⟩, ⟨rfl, rfl, ?_⟩, (List.append_nil es).symm⟩, rfl⟩
        rw [← hy]
      · rintro ⟨_, ⟨fs, p', x', _, hnext, ⟨rfl, rfl, rfl⟩, rfl⟩, rfl⟩
        rw [List.append_nil]
        exact ⟨hnext.1, congrArg (Node.note _) hnext.2⟩

end Notes

end AlgebraicEffects
