import AlgebraicEffects.Proofs.Stacks.Evaluating

/-!
Machines that are followed by others.

Where a function is grafted onto a program, the program goes on at its leaves as what the function gives. So
it conducts itself as a machine that is followed by another one, which is opened at its leaves
(`ends_graft`, `Grafted.conducts`). Under reactions both parts are reacted to: a machine that is followed by
another one comes to the same as the two do one after the other, each under the reactions
(`plays_followed_iff`, `Conducts.joined`).
-/

set_option autoImplicit false

namespace AlgebraicEffects

open Action (Traced)

variable {V τ σ ρ : Type}

/-- How a machine is opened with a value, while the private state is so: after these events it is in this
state, and this private state is left. -/
abbrev Opening (V τ ρ : Type) := V → τ → List (Event V) → ρ → τ → Prop

section Machines

variable {K : Conduct V τ σ} {M : Conduct V τ ρ} {o : Opening V τ ρ} {r : Reactions V τ} {q : σ} {m : ρ}
  {x y z : τ} {es fs gs : List (Event V)} {s : σ ⊕ ρ}

/-- At a leaf the other machine is opened, and elsewhere nothing happens. -/
inductive Conduct.Opens (K : Conduct V τ σ) (o : Opening V τ ρ) :
    σ → τ → List (Event V) → σ ⊕ ρ → τ → Prop where
  | stays {q : σ} {x : τ} : (∀ v, K.node q ≠ .leaf v) → K.Opens o q x [] (.inl q) x
  | opens {q : σ} {m : ρ} {x y : τ} {v : V} {es : List (Event V)} :
      K.node q = .leaf v → o v x es m y → K.Opens o q x es (.inr m) y

theorem Conduct.opens_iff (h : ∀ v, K.node q ≠ .leaf v) :
    K.Opens o q x es s y ↔ es = [] ∧ s = .inl q ∧ y = x := by
  constructor
  · intro hopens
    cases hopens with
    | stays => exact ⟨rfl, rfl, rfl⟩
    | opens hq => exact absurd hq (h _)
  · rintro ⟨rfl, rfl, rfl⟩
    exact .stays h

/-- The machine, with the other one opened at its leaves. -/
def Conduct.followed (K : Conduct V τ σ) (o : Opening V τ ρ) (M : Conduct V τ ρ) : Conduct V τ (σ ⊕ ρ) where
  node
    | .inl q => K.node q
    | .inr m => M.node m
  next
    | .inl q, a, x, es, s, y => ∃ p z fs gs, K.next q a x fs p z ∧ K.Opens o p z gs s y ∧ es = fs ++ gs
    | .inr m, a, x, es, s, y => ∃ m', s = .inr m' ∧ M.next m a x es m' y

/-- How a machine is opened and then goes on under reactions. -/
def Opening.under (o : Opening V τ ρ) (M : Conduct V τ ρ) (r : Reactions V τ) :
    Opening V τ (Verdict V ρ) :=
  fun v x es n y => ∃ fs m z gs, o v x fs m z ∧ M.Plays r m z gs n y ∧ es = fs ++ gs

def Verdict.map (f : σ → ρ) : Verdict V σ → Verdict V ρ
  | .rests q => .rests (f q)
  | .fails g => .fails g

/-- Where two machines are that follow each other, each under reactions, seen as one machine under them. -/
def Verdict.joined : Verdict V σ ⊕ Verdict V ρ → Verdict V (σ ⊕ ρ)
  | .inl v => v.map .inl
  | .inr v => v.map .inr

/-- Once the other machine is opened, it goes on by itself. -/
theorem Conduct.Plays.inr {v : Verdict V ρ} (h : M.Plays r m x es v y) :
    (K.followed o M).Plays r (.inr m) x es (v.map .inr) y := by
  induction h with
  | rests h => exact .rests h
  | fails hm hr hf => exact .fails (K := K.followed o M) hm hr hf
  | resumes hm hr ha hnext _ ih => exact .resumes (K := K.followed o M) hm hr ha ⟨_, rfl, hnext⟩ ih

theorem Conduct.Plays.of_inr {v : Verdict V (σ ⊕ ρ)} (h : (K.followed o M).Plays r (.inr m) x es v y) :
    ∃ v', M.Plays r m x es v' y ∧ v'.map .inr = v := by
  generalize hs : (Sum.inr m : σ ⊕ ρ) = s at h
  induction h generalizing m with
  | rests h =>
    subst hs
    exact ⟨.rests m, .rests h, rfl⟩
  | fails hm hr hf =>
    subst hs
    exact ⟨_, .fails hm hr hf, rfl⟩
  | resumes hm hr ha hnext _ ih =>
    subst hs
    obtain ⟨m', rfl, hnext⟩ := hnext
    obtain ⟨v', hplays, rfl⟩ := ih rfl
    exact ⟨v', .resumes hm hr ha hnext hplays, rfl⟩

/-- What the machine that is followed does from where it is opened is what the two do one after the other. -/
theorem Conduct.Plays.parted {v : Verdict V (σ ⊕ ρ)} (h : (K.followed o M).Plays r s z gs v y)
    (hopens : K.Opens o q x fs s z) : ∃ hs v' u is s', K.Plays r q x hs v' u ∧
      (K.under r).Opens (o.under M r) v' u is s' y ∧ fs ++ gs = hs ++ is ∧ Verdict.joined s' = v := by
  -- Where the other machine has been opened, the first one has come to its leaf.
  have hopened {q : σ} {m : ρ} {x z y : τ} {v₀ : V} {fs gs : List (Event V)} {v : Verdict V (σ ⊕ ρ)}
      (hq : K.node q = .leaf v₀) (ho : o v₀ x fs m z) (h : (K.followed o M).Plays r (.inr m) z gs v y) :
      ∃ hs v' u is s', K.Plays r q x hs v' u ∧ (K.under r).Opens (o.under M r) v' u is s' y ∧
        fs ++ gs = hs ++ is ∧ Verdict.joined s' = v := by
    obtain ⟨v', hplays, rfl⟩ := h.of_inr
    have hrests : K.Rests r q := fun name ps hname => by
      rw [hq] at hname
      cases hname
    exact ⟨[], .rests q, x, _, .inr v', .rests hrests, .opens hq ⟨fs, m, z, gs, ho, hplays, rfl⟩, rfl, rfl⟩
  induction h generalizing q x fs with
  | rests h =>
    cases hopens with
    | stays hq => exact ⟨[], .rests q, _, [], .inl (.rests q), .rests h, .stays hq, rfl, rfl⟩
    | opens hq ho => exact hopened hq ho (.rests h)
  | @fails s z y name ps react gs f hs hr hf =>
    cases hopens with
    | stays _ =>
      exact ⟨gs, .fails f, y, [], .inl (.fails f), .fails hs hr hf, .stays nofun,
        (List.append_nil gs).symm, rfl⟩
    | opens hq ho => exact hopened hq ho (.fails hs hr hf)
  | @resumes s s₁ z z₁ z₂ y name ps react gs gs₁ gs₂ a v hs hr ha hnext hplays ih =>
    cases hopens with
    | stays _ =>
      obtain ⟨p, u, hs₁, is, hnext, hopens, rfl⟩ := hnext
      obtain ⟨hs₂, v', u', is', s', hfirst, hsecond, heq, rfl⟩ := ih hopens
      refine ⟨gs ++ (hs₁ ++ hs₂), v', u', is', s', .resumes hs hr ha hnext hfirst, hsecond, ?_, rfl⟩
      simp only [List.nil_append, List.append_assoc, heq]
    | opens hq ho => exact hopened hq ho (.resumes hs hr ha hnext hplays)

/-- What the two do one after the other the machine that is followed does from where it is opened. -/
theorem Conduct.Plays.connected {v : Verdict V σ} {s : Verdict V σ ⊕ Verdict V ρ}
    (h : K.Plays r q x fs v z) (hopens : (K.under r).Opens (o.under M r) v z gs s y) :
    ∃ hs s' u is, K.Opens o q x hs s' u ∧ (K.followed o M).Plays r s' u is (Verdict.joined s) y ∧
      fs ++ gs = hs ++ is := by
  induction h with
  | @rests q x h =>
    cases hopens with
    | stays hq => exact ⟨[], .inl q, _, [], .stays hq, .rests h, rfl⟩
    | opens hq ho =>
      obtain ⟨hs, m, u, is, ho, hplays, rfl⟩ := ho
      exact ⟨hs, .inr m, u, is, .opens hq ho, hplays.inr, rfl⟩
  | @fails q x z name ps react fs f hq hr hf =>
    have hstays : K.Opens o q x [] (.inl q) x := .stays fun v => by rw [hq]; exact nofun
    cases hopens with
    | stays _ =>
      exact ⟨[], .inl q, _, fs, hstays, .fails (K := K.followed o M) hq hr hf, by rw [List.append_nil]; rfl⟩
    | opens hleaf => cases hleaf
  | @resumes q p x x₁ x₂ z name ps react es fs gs' a v hq hr ha hnext _ ih =>
    have hstays : K.Opens o q x [] (.inl q) x := .stays fun v => by rw [hq]; exact nofun
    obtain ⟨hs, s', u, is, hopened, hplays, heq⟩ := ih hopens
    refine ⟨[], .inl q, x, es ++ ((fs ++ hs) ++ is), hstays,
      .resumes (K := K.followed o M) hq hr ha ⟨p, x₂, fs, hs, hnext, hopened, rfl⟩ hplays, ?_⟩
    simp only [List.nil_append, List.append_assoc, heq]

/-- A machine that is followed by another one comes to the same under reactions as the two do one after the
other. -/
theorem plays_followed_iff {v : Verdict V (σ ⊕ ρ)} :
    (∃ fs s z gs, K.Opens o q x fs s z ∧ (K.followed o M).Plays r s z gs v y ∧ es = fs ++ gs) ↔
      ∃ s, (∃ fs v' z gs, K.Plays r q x fs v' z ∧ (K.under r).Opens (o.under M r) v' z gs s y ∧
        es = fs ++ gs) ∧ Verdict.joined s = v := by
  constructor
  · rintro ⟨fs, s, z, gs, hopens, hplays, rfl⟩
    obtain ⟨hs, v', u, is, s', hfirst, hsecond, heq, rfl⟩ := hplays.parted hopens
    exact ⟨s', ⟨hs, v', u, is, hfirst, hsecond, heq⟩, rfl⟩
  · rintro ⟨s, ⟨fs, v', z, gs, hfirst, hsecond, rfl⟩, rfl⟩
    obtain ⟨hs, s', u, is, hopens, hplays, heq⟩ := hfirst.connected hsecond
    exact ⟨hs, s', u, is, hopens, hplays, heq⟩

theorem node_joined (s : Verdict V σ ⊕ Verdict V ρ) : ((K.followed o M).under r).node (Verdict.joined s) =
    ((K.under r).followed (o.under M r) (M.under r)).node s := by
  rcases s with (_ | _) | (_ | _) <;> rfl

variable {T : Venue V τ} {L : Listener} {w : T.World} {e : Ending}

/-- What conducts itself as the two machines one after the other, each under the reactions, conducts itself
as the machine that is followed under them. -/
theorem Conducts.joined {s : Verdict V σ ⊕ Verdict V ρ}
    (h : Conducts T L ((K.under r).followed (o.under M r) (M.under r)) w e s) :
    Conducts T L ((K.followed o M).under r) w e (Verdict.joined s) := by
  refine h.simulates (fun s v => v = Verdict.joined s) ?_ ?_ ?_ rfl
  · rintro s _ rfl
    exact node_joined s
  · rintro (v | v) _ a x es s y rfl hnext
    · obtain ⟨v', z, fs, gs, ⟨q, p, u, hs, is, rfl, hnext, hplays, rfl⟩, hopens, rfl⟩ := hnext
      obtain ⟨js, s', u', ks, hopened, hplays', heq⟩ := hplays.connected hopens
      refine ⟨_, rfl, .inl q, s', u', hs ++ js, ks, rfl, ⟨p, u, hs, js, hnext, hopened, rfl⟩, hplays', ?_⟩
      simp only [List.append_assoc, heq]
    · obtain ⟨v', rfl, m, m', u, hs, is, rfl, hnext, hplays, rfl⟩ := hnext
      exact ⟨_, rfl, .inr m, .inr m', u, hs, is, rfl, ⟨m', rfl, hnext⟩, hplays.inr, rfl⟩
  · rintro (v | v) _ a x es n y rfl ⟨s, s', z, fs, gs, hs, hnext, hplays, rfl⟩
    · cases v with
      | rests q =>
        obtain rfl : Sum.inl q = s := by simpa [Verdict.joined, Verdict.map] using hs
        obtain ⟨p, u, hs₁, is, hnext, hopens, rfl⟩ := hnext
        obtain ⟨js, v', u', ks, s'', hfirst, hsecond, heq, rfl⟩ := hplays.parted hopens
        refine ⟨s'', rfl, v', u', hs₁ ++ js, ks, ⟨q, p, u, hs₁, js, rfl, hnext, hfirst, rfl⟩, hsecond, ?_⟩
        simp only [List.append_assoc, heq]
      | fails f => cases hs
    · cases v with
      | rests m =>
        obtain rfl : Sum.inr m = s := by simpa [Verdict.joined, Verdict.map] using hs
        obtain ⟨m', rfl, hnext⟩ := hnext
        obtain ⟨v', hplays', rfl⟩ := hplays.of_inr
        exact ⟨.inr v', rfl, v', rfl, m, m', z, fs, gs, rfl, hnext, hplays', rfl⟩
      | fails f => cases hs

end Machines

section Grafting

variable {K : Conduct V τ σ} {M : Conduct V τ ρ} {o : Opening V τ ρ} {T : Venue V τ} {L : Listener}
  {w u : T.World} {f : Value} {q : σ} {x : τ} {e : Ending}

/-- From this world on, called with a value at a leaf of the machine, the function opens the other machine. -/
def OpensAtLeaves (T : Venue V τ) (L : Listener) (K : Conduct V τ σ) (o : Opening V τ ρ)
    (M : Conduct V τ ρ) (f : Value) (w : T.World) : Prop :=
  ∀ u a q x, T.Later w u → K.node q = .leaf (T.see a) → T.Holds u x →
    EndsAs T L (Action.ask f [a]) u (o (T.see a) x) (Conducts T L M)

theorem OpensAtLeaves.later (h : OpensAtLeaves T L K o M f w) (hu : T.Later w u) :
    OpensAtLeaves T L K o M f u := fun z a q x hz => h z a q x (T.trans hu hz)

/-- What a program has come to onto which the function was grafted. -/
inductive Grafted (T : Venue V τ) (L : Listener) (K : Conduct V τ σ) (o : Opening V τ ρ)
    (M : Conduct V τ ρ) (f : Value) : T.World → Ending → σ ⊕ ρ → Prop where
  | opened {w : T.World} {e : Ending} {m : ρ} : Conducts T L M w e m → Grafted T L K o M f w e (.inr m)
  | failure {w : T.World} {g : Failure} {q : σ} :
      K.node q = .failure (T.see (.failure g)) → Grafted T L K o M f w (.error g) (.inl q)
  | operation {w : T.World} {tag tag' k : Nat} {name : String} {params : List Value} {resume : Value}
      {q : σ} :
      K.node q = .operation name (params.map T.see) → OpensAtLeaves T L K o M f w →
      Conducts T L K w (.ok (.operation tag' name params resume)) q →
      Grafted T L K o M f w (.ok (.operation tag name params (.function k (.grafted resume f)))) (.inl q)

/-- The function is grafted onto a program, or a failure is passed on. -/
theorem ends_graft (hf : f.isCallable = true) (hopens : OpensAtLeaves T L K o M f w)
    (hp : Conducts T L K w e q) (hx : T.Holds w x) :
    EndsAs T L (Action.after (Program.graft · f) e) w (K.Opens o q x) (Grafted T L K o M f) := by
  have hlooks := hp.looks
  have hended (n : Node V) (hn : K.node q = n) (hleaf : ∀ v, n ≠ .leaf v) (e' : Ending)
      (he : Grafted T L K o M f w e' (.inl q)) :
      EndsAs T L (Action.after .done e') w (K.Opens o q x) (Grafted T L K o M f) := by
    refine (EndsAs.ended hx he).image (f := id) (fun es s y => ?_) fun _ _ _ h => h
    rw [Conduct.opens_iff (by rw [hn]; exact hleaf)]
    exact ⟨fun h => ⟨s, h, rfl⟩, by rintro ⟨_, h, rfl⟩; exact h⟩
  generalize hnode : K.node q = n at hlooks
  cases hlooks with
  | @leaf p a tag hleaf =>
    have hlifted : EndsAs T L (Program.lift <$> Action.ask f [a]) w (fun es m' y => ∃ fs m z gs,
        o (T.see a) x fs m z ∧ (gs = [] ∧ m' = m ∧ y = z) ∧ es = fs ++ gs) (Conducts T L M) :=
      (hopens w a q x (T.refl w) hnode hx).bind fun es m y z o' _ _ hy hm => by
        cases o' with
        | ok v => exact EndsAs.ended (o := .ok (Program.lift v)) hy hm.lift
        | error g => exact EndsAs.ended (o := .error g) hy hm
    rw [← Replay.graft_of_leaf hleaf hf] at hlifted
    refine hlifted.image (f := .inr) (fun es s y => ?_) fun _ _ _ h => .opened h
    constructor
    · rintro (hstays | ⟨hq, hopened⟩)
      · exact absurd hnode (hstays _)
      · obtain rfl := Node.leaf.inj (hnode.symm.trans hq)
        exact ⟨_, ⟨_, _, _, [], hopened, ⟨rfl, rfl, rfl⟩, (List.append_nil es).symm⟩, rfl⟩
    · rintro ⟨m, ⟨fs, m', y', _, hopened, ⟨rfl, rfl, rfl⟩, rfl⟩, rfl⟩
      rw [List.append_nil]
      exact .opens hnode hopened
  | @operation tag name params resume =>
    rw [Action.after, Program.graft, if_pos hf]
    exact hended _ hnode (by rintro _ ⟨⟩) (.ok _) (.operation hnode hopens hp)
  | @failure g => exact hended _ hnode (by rintro _ ⟨⟩) (.error g) (.failure hnode)

/-- A program onto which the function was grafted conducts itself as the machine that is followed. -/
theorem Grafted.conducts {s : σ ⊕ ρ} (hf : f.isCallable = true) (h : Grafted T L K o M f w e s) :
    Conducts T L (K.followed o M) w e s := by
  refine ⟨Grafted T L K o M f, ?_, h⟩
  clear h
  intro w e s h
  cases h with
  | opened hm =>
    refine ⟨hm.looks, ?_⟩
    rintro tag name params resume rfl u a x hu ha hx
    refine (hm.resume hu ha hx).image (f := .inr) (fun es s y => ?_) fun _ _ _ h => .opened h
    exact ⟨fun ⟨m', hs, hnext⟩ => ⟨m', hnext, hs.symm⟩, fun ⟨m', hnext, hs⟩ => ⟨m', hs.symm, hnext⟩⟩
  | failure hq =>
    refine ⟨?_, nofun⟩
    show Looks T.see _ (K.node _)
    rw [hq]
    exact .failure
  | @operation tag tag' k name params resume q hq hopens hp =>
    refine ⟨?_, ?_⟩
    · show Looks T.see _ (K.node q)
      rw [hq]
      exact .operation
    · rintro _ _ _ _ ⟨rfl⟩ u a x hu ha hx
      have hends := (hp.resume hu ha hx).bind
        fun _ _ _ _ _ _ hz hx' hp' => ends_graft hf (hopens.later (T.trans hu hz)) hp' hx'
      refine EndsAs.of_leads (b := (Action.ask resume [a]).bind (Program.graft · f)) ?_
        (Listener.Leads.ask (f := .grafted resume f) rfl)
      refine hends.image (f := id) (fun es s y => ?_) fun _ _ _ h => h
      constructor
      · rintro ⟨p, z, fs, gs, hnext, hopened, rfl⟩
        exact ⟨s, ⟨fs, p, z, gs, hnext, hopened, rfl⟩, rfl⟩
      · rintro ⟨_, ⟨fs, p, z, gs, hnext, hopened, rfl⟩, rfl⟩
        exact ⟨p, z, fs, gs, hnext, hopened, rfl⟩

end Grafting

end AlgebraicEffects
