import AlgebraicEffects.Proofs.Stacks.Conduct

/-!
Machines whose operations are reacted to.

A reaction says what becomes of an operation: after certain events it is answered or fails. A machine
under reactions goes on by itself as long as there is one, and stops at what nobody reacts to; seen from
outside it is a machine again (`Conduct.under`). Main statements: reactions one after the other are
reactions side by side, where the first one found counts (`plays_under_iff`, `Conducts.flat`).
-/

set_option autoImplicit false

namespace AlgebraicEffects

/-- What becomes of an operation with parameters that look so, while the private state is so: after these
events it is answered, or fails, and this private state is left. -/
abbrev Reaction (V τ : Type) := List V → τ → List (Event V) → Except V V → τ → Prop

/-- The reactions to operations by the names of these. -/
abbrev Reactions (V τ : Type) := String → Option (Reaction V τ)

/-- The one reactions, and where there is none the others. -/
def Reactions.orElse {V τ : Type} (r r' : Reactions V τ) : Reactions V τ :=
  fun name => (r name).or (r' name)

/-- How a machine under reactions stops: in one of its states, or because a reaction has failed. -/
inductive Verdict (V σ : Type) where
  | rests (q : σ)
  | fails (f : V)

variable {V τ σ : Type} {K : Conduct V τ σ} {r r' : Reactions V τ}

/-- In this state there is nothing to react to. -/
def Conduct.Rests (K : Conduct V τ σ) (r : Reactions V τ) (q : σ) : Prop :=
  ∀ name ps, K.node q = .operation name ps → r name = none

/-- From this state and private state the machine goes on, and stops so after these events. -/
inductive Conduct.Plays (K : Conduct V τ σ) (r : Reactions V τ) :
    σ → τ → List (Event V) → Verdict V σ → τ → Prop where
  | rests {q : σ} {x : τ} : K.Rests r q → K.Plays r q x [] (.rests q) x
  | fails {q : σ} {x y : τ} {name : String} {ps : List V} {react : Reaction V τ} {es : List (Event V)}
      {f : V} :
      K.node q = .operation name ps → r name = some react → react ps x es (.error f) y →
      K.Plays r q x es (.fails f) y
  | resumes {q p : σ} {x y z u : τ} {name : String} {ps : List V} {react : Reaction V τ}
      {es fs gs : List (Event V)} {a : V} {v : Verdict V σ} :
      K.node q = .operation name ps → r name = some react → react ps x es (.ok a) y →
      K.next q a y fs p z → K.Plays r p z gs v u → K.Plays r q x (es ++ (fs ++ gs)) v u

/-- Where there is nothing to react to the machine stops at once. -/
theorem Conduct.Rests.plays_iff {q : σ} (h : K.Rests r q) {x y : τ} {es : List (Event V)}
    {v : Verdict V σ} : K.Plays r q x es v y ↔ es = [] ∧ v = .rests q ∧ y = x := by
  constructor
  · intro hplays
    cases hplays with
    | rests => exact ⟨rfl, rfl, rfl⟩
    | fails hq hr => simp [h _ _ hq] at hr
    | resumes hq hr => simp [h _ _ hq] at hr
  · rintro ⟨rfl, rfl, rfl⟩
    exact .rests h

/-- The machine under the reactions. -/
def Conduct.under (K : Conduct V τ σ) (r : Reactions V τ) : Conduct V τ (Verdict V σ) where
  node
    | .rests q => K.node q
    | .fails f => .failure f
  next v a x es v' y := ∃ q p z fs gs, v = .rests q ∧ K.next q a x fs p z ∧ K.Plays r p z gs v' y ∧
    es = fs ++ gs

theorem Conduct.Plays.rests_of {q p : σ} {x y : τ} {es : List (Event V)}
    (h : K.Plays r q x es (.rests p) y) : K.Rests r p := by
  generalize hv : Verdict.rests p = v at h
  induction h with
  | rests h => cases hv; exact h
  | fails => cases hv
  | resumes _ _ _ _ _ ih => exact ih hv

/-- What a machine with two kinds of reactions is in, seen as one with both. -/
def Verdict.flat : Verdict V (Verdict V σ) → Verdict V σ
  | .rests v => v
  | .fails f => .fails f

theorem node_flat (v : Verdict V (Verdict V σ)) :
    (K.under (r.orElse r')).node v.flat = ((K.under r).under r').node v := by
  cases v with
  | rests v => cases v <;> rfl
  | fails f => rfl

section Lookups

variable {name : String} {react : Reaction V τ}

theorem Reactions.orElse_left (h : r name = some react) : r.orElse r' name = some react := by
  rw [orElse, h, Option.some_or]

theorem Reactions.orElse_right (h : r name = none) : r.orElse r' name = r' name := by
  rw [orElse, h, Option.none_or]

/-- Where both have no reaction there is none. -/
theorem Conduct.rests_orElse {q : σ} :
    K.Rests (r.orElse r') q ↔ K.Rests r q ∧ (K.under r).Rests r' (.rests q) := by
  constructor
  · intro h
    constructor
    · intro name ps hq
      exact (Option.or_eq_none_iff.1 (h name ps hq)).1
    · intro name ps hq
      exact (Option.or_eq_none_iff.1 (h name ps hq)).2
  · rintro ⟨h, h'⟩ name ps hq
    exact Option.or_eq_none_iff.2 ⟨h name ps hq, h' name ps hq⟩

end Lookups

/-- What a machine does that has both kinds of reactions begins with what it does without the others. -/
theorem Conduct.Plays.split {q : σ} {x y : τ} {es : List (Event V)} {v : Verdict V σ}
    (h : K.Plays (r.orElse r') q x es v y) : ∃ fs v' z gs w, K.Plays r q x fs v' z ∧
      (K.under r).Plays r' v' z gs w y ∧ es = fs ++ gs ∧ w.flat = v := by
  induction h with
  | @rests q x h =>
    have hboth := Conduct.rests_orElse.1 h
    exact ⟨[], _, x, [], _, .rests hboth.1, .rests hboth.2, rfl, rfl⟩
  | @fails q x y name ps react es f hq hr hf =>
    cases hname : r name with
    | some inner =>
      rw [Reactions.orElse_left hname] at hr
      cases hr
      exact ⟨es, _, y, [], .rests (.fails f), .fails hq hname hf, .rests nofun,
        (List.append_nil es).symm, rfl⟩
    | none =>
      rw [Reactions.orElse_right hname] at hr
      have hrests : K.Rests r q := fun n ps' hn => by
        rw [hq] at hn
        cases hn
        exact hname
      have hv : (K.under r).node (.rests q) = .operation name ps := hq
      exact ⟨[], _, x, es, .fails f, .rests hrests, .fails hv hr hf, rfl, rfl⟩
  | @resumes q p x y z u name ps react es fs gs a v hq hr ha hnext _ ih =>
    obtain ⟨hs, v', t, is, w, hfirst, hsecond, rfl, hw⟩ := ih
    cases hname : r name with
    | some inner =>
      rw [Reactions.orElse_left hname] at hr
      cases hr
      refine ⟨es ++ (fs ++ hs), v', t, is, w, .resumes hq hname ha hnext hfirst, hsecond, ?_, hw⟩
      simp only [List.append_assoc]
    | none =>
      rw [Reactions.orElse_right hname] at hr
      have hrests : K.Rests r q := fun n ps' hn => by
        rw [hq] at hn
        cases hn
        exact hname
      have hv₀ : (K.under r).node (.rests q) = .operation name ps := hq
      refine ⟨[], _, x, _, w, .rests hrests, .resumes hv₀ hr ha
        ⟨q, p, z, fs, hs, rfl, hnext, hfirst, rfl⟩ hsecond, ?_, hw⟩
      simp only [List.append_assoc, List.nil_append]

/-- What a machine has done without the others it also does with them. -/
theorem Conduct.Plays.before {q : σ} {x y : τ} {es : List (Event V)} {v : Verdict V σ}
    (h : K.Plays r q x es v y) : match v with
      | .rests p => ∀ fs v' z, K.Plays (r.orElse r') p y fs v' z →
          K.Plays (r.orElse r') q x (es ++ fs) v' z
      | .fails f => K.Plays (r.orElse r') q x es (.fails f) y := by
  induction h with
  | rests h => exact fun fs v' z h' => h'
  | fails hq hr hf => exact .fails hq (Reactions.orElse_left hr) hf
  | @resumes q p x y z u name ps react es fs gs a v hq hr ha hnext _ ih =>
    cases v with
    | rests p' =>
      intro hs v' t h'
      have hboth : r.orElse r' name = some react := Reactions.orElse_left hr
      have hall := Conduct.Plays.resumes hq hboth ha hnext (ih hs v' t h')
      simpa only [List.append_assoc] using hall
    | fails f => exact .resumes hq (Reactions.orElse_left hr) ha hnext ih

/-- One after the other they do what both do together. -/
theorem Conduct.Plays.join {w : Verdict V (Verdict V σ)} {v : Verdict V σ} {z y : τ} {gs : List (Event V)}
    (h : (K.under r).Plays r' v z gs w y) {q : σ} {x : τ} {fs : List (Event V)}
    (hfirst : K.Plays r q x fs v z) : K.Plays (r.orElse r') q x (fs ++ gs) w.flat y := by
  induction h generalizing q x fs with
  | @rests v x' h =>
    cases v with
    | rests p =>
      exact hfirst.before [] _ _ (.rests (Conduct.rests_orElse.2 ⟨hfirst.rests_of, h⟩))
    | fails f =>
      rw [List.append_nil]
      exact hfirst.before
  | @fails v x' y name ps react es f hv hr hf =>
    cases v with
    | rests p =>
      have hnone := hfirst.rests_of name ps hv
      exact hfirst.before es _ _ (.fails hv ((Reactions.orElse_right hnone).trans hr) hf)
    | fails f => cases hv
  | @resumes v v₂ x' y z u name ps react es fs' gs a w hv hr ha hnext _ ih =>
    obtain ⟨p, p', z', is, js, rfl, hp, hplays, rfl⟩ := hnext
    have hnone := hfirst.rests_of name ps hv
    have hrest := Conduct.Plays.resumes (K := K) hv ((Reactions.orElse_right hnone).trans hr) ha hp (ih hplays)
    have hall := hfirst.before _ _ _ hrest
    simpa only [List.append_assoc] using hall

theorem plays_under_iff {q : σ} {x y : τ} {es : List (Event V)} {v : Verdict V σ} :
    K.Plays (r.orElse r') q x es v y ↔ ∃ fs v' z gs w, K.Plays r q x fs v' z ∧
      (K.under r).Plays r' v' z gs w y ∧ es = fs ++ gs ∧ w.flat = v := by
  refine ⟨Conduct.Plays.split, ?_⟩
  rintro ⟨fs, v', z, gs, w, hfirst, hsecond, rfl, rfl⟩
  exact hsecond.join hfirst

variable {T : Venue V τ} {L : Listener} {w : T.World} {e : Ending}

/-- What conducts itself as a machine with both reactions, one after the other, conducts itself as the
machine with both at once. -/
theorem Conducts.flat {v : Verdict V (Verdict V σ)} (h : Conducts T L ((K.under r).under r') w e v) :
    Conducts T L (K.under (r.orElse r')) w e v.flat := by
  refine h.simulates (fun v v' => v' = v.flat) ?_ ?_ ?_ rfl
  · rintro v _ rfl
    exact node_flat v
  · rintro v _ a x es v' y rfl ⟨_, p, z, fs, gs, rfl, ⟨q, p', z', is, js, rfl, hq, hfirst, rfl⟩, h, rfl⟩
    exact ⟨_, rfl, q, p', z', is, js ++ gs, rfl, hq, h.join hfirst, List.append_assoc _ _ _⟩
  · rintro v _ a x es v' y rfl ⟨q, p, z, fs, gs, hv, hq, hplays, rfl⟩
    obtain ⟨hs, v₁, t, is, v₂, hfirst, hsecond, rfl, rfl⟩ := hplays.split
    cases v with
    | rests v =>
      obtain rfl : v = .rests q := hv
      exact ⟨v₂, rfl, .rests q, v₁, t, fs ++ hs, is, rfl, ⟨q, p, z, fs, hs, rfl, hq, hfirst, rfl⟩,
        hsecond, (List.append_assoc _ _ _).symm⟩
    | fails f => cases hv

end AlgebraicEffects
