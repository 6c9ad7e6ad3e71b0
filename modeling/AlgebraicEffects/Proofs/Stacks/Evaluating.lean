import AlgebraicEffects.Proofs.Stacks.Performing

/-!
Programs under handlers that resume last.

Under a handler whose implementations resume last, a program conducts itself as the machine that it is,
with the reactions of the implementations (`ends_evaluate`), so under a stack of them as the machine with
all of their reactions, of which the first one found counts (`ends_applyAll`).
-/

set_option autoImplicit false

namespace AlgebraicEffects

open Action (Traced)

variable {V τ σ ρ : Type} {T : Venue V τ} {L : Listener} {K : Conduct V τ σ} {r : Reactions V τ}

section Evaluating

/-- The operations with these names that a handler has implementations for are those that are reacted to,
and the implementations do what the reactions say. -/
def Handled (T : Venue V τ) (L : Listener) (occurs : String → Prop) (table : Handler.Table)
    (r : Reactions V τ) : Prop :=
  ∀ name, occurs name → table.lookup name = none ∧ r name = none ∨
    ∃ implementation react, table.lookup name = some implementation ∧ r name = some react ∧
      Reacts T L implementation react

/-- The machine may stop at an operation with this name. -/
def Conduct.Occurs (K : Conduct V τ σ) (name : String) : Prop := ∃ q ps, K.node q = .operation name ps

theorem Conduct.Occurs.of_under {name : String} (h : (K.under r).Occurs name) : K.Occurs name := by
  obtain ⟨v, ps, hv⟩ := h
  cases v with
  | rests q => exact ⟨q, ps, hv⟩
  | fails f => cases hv

/-- What a program that was evaluated under the handler has come to. -/
inductive Evaluated (T : Venue V τ) (L : Listener) (K : Conduct V τ σ) (r : Reactions V τ)
    (table : Handler.Table) : T.World → Ending → Verdict V σ → Prop where
  | leaf {w : T.World} {tag : Nat} {x : Value} {q : σ} :
      K.node q = .leaf (T.see x) → Evaluated T L K r table w (.ok (.leaf tag x)) (.rests q)
  | failure {w : T.World} {f : Failure} {q : σ} :
      K.node q = .failure (T.see (.failure f)) → Evaluated T L K r table w (.error f) (.rests q)
  | operation {w u : T.World} {tag tag' k : Nat} {name : String} {params params' : List Value}
      {resume : Value} {q : σ} :
      K.node q = .operation name (params.map T.see) → r name = none →
      Conducts T L K w (.ok (.operation tag' name params' resume)) q → T.Later w u →
      Evaluated T L K r table u
        (.ok (.operation tag name params (.function k (.under table none resume)))) (.rests q)
  | fails {w : T.World} {f : Failure} :
      Evaluated T L K r table w (.error f) (.fails (T.see (.failure f)))

variable {table : Handler.Table} {w u : T.World}

/-- Identities that are given later make no difference to what an evaluation has come to. -/
theorem Evaluated.retagged {o o' : Ending} {v : Verdict V σ} (h : Evaluated T L K r table w o v)
    (ho : Retagged T.see o o') (hu : T.Later w u) : Evaluated T L K r table u o' v := by
  cases h with
  | leaf hq =>
    cases ho with
    | same => exact .leaf hq
    | leaf hx => exact .leaf (hq.trans (congrArg Node.leaf hx.symm))
  | failure hq =>
    cases ho
    exact .failure hq
  | operation hq hr hp hw =>
    cases ho with
    | same => exact .operation hq hr hp (T.trans hw hu)
    | operation hparams hresume =>
      obtain ⟨k', rfl⟩ := hresume.under
      refine .operation ?_ hr hp (T.trans hw hu)
      rw [hq, hparams]
  | fails =>
    cases ho
    exact .fails

variable {occurs : String → Prop}

/-- The handler leaves what nobody reacts to: a leaf, a failure, or an operation that it forwards. -/
theorem ends_rests {e : Ending} {q : σ} (htable : Handled T L occurs table r)
    (hoccurs : ∀ name, K.Occurs name → occurs name) (hp : Conducts T L K w e q)
    (hq : K.Rests r q) : ∃ o, Action.after (Handler.evaluate table none) e = Action.after .done o ∧
      Evaluated T L K r table w o (.rests q) := by
  have hlooks := hp.looks
  generalize hnode : K.node q = n at hlooks
  cases hlooks with
  | @leaf v y tag hv =>
    exact ⟨.ok (.leaf tag y), Handler.evaluate_leaf hv, .leaf hnode⟩
  | @operation tag name params resume =>
    have hr := hq name _ hnode
    have hnone : table.lookup name = none := by
      rcases htable name (hoccurs name ⟨q, _, hnode⟩) with ⟨hnone, -⟩ | ⟨_, _, -, hsome, -⟩
      · exact hnone
      · rw [hr] at hsome
        cases hsome
    exact ⟨.ok (.operation 0 name params (.arrowOf (.under table none resume))),
      Handler.evaluate_forwarded hnone tag params resume, .operation hnode hr hp (T.refl w)⟩
  | @failure f => exact ⟨.error f, rfl, .failure hnode⟩

/-- What the machine comes to under the reactions, the program comes to under the handler. -/
theorem Conduct.Plays.exists_evaluated {e : Ending} {q : σ} {x y : τ} {es : List (Event V)} {v : Verdict V σ}
    (h : K.Plays r q x es v y) (htable : Handled T L occurs table r)
    (hoccurs : ∀ name, K.Occurs name → occurs name) (hp : Conducts T L K w e q) (hx : T.Holds w x) :
    ∃ cs o z, Traced (Action.after (Handler.evaluate table none) e) (T.store w) cs o (T.store z) ∧
      T.Later w z ∧ L.events T.see cs = es ∧ T.Holds z y ∧ Evaluated T L K r table z o v := by
  induction h generalizing w e with
  | @rests q x hq =>
    obtain ⟨o, ho, hevaluated⟩ := ends_rests htable hoccurs hp hq
    rw [ho]
    exact (EndsAs.ended (L := L) hx hevaluated).as _ _ _ ⟨rfl, rfl, rfl⟩
  | @fails q x y name ps react es f hq hr hf =>
    obtain ⟨tag, params, resume, rfl, rfl⟩ := (hq ▸ hp.looks).exists_operation
    rcases htable name (hoccurs name ⟨q, _, hq⟩) with ⟨-, hnone⟩ | ⟨implementation, react', hi, hr', h⟩
    · rw [hr] at hnone
      cases hnone
    · obtain rfl : react = react' := Option.some.inj (hr.symm.trans hr')
      obtain ⟨cs, g, u, htr, hu, hy, rfl, hevents⟩ := h.fails hx hf table resume
      refine ⟨cs, _, u, ?_, hu, hevents, hy, .fails⟩
      rwa [Action.after, Handler.evaluate_performed hi]
  | @resumes q p x y z u name ps react es fs gs a v hq hr ha hnext _ ih =>
    obtain ⟨tag, params, resume, rfl, rfl⟩ := (hq ▸ hp.looks).exists_operation
    rcases htable name (hoccurs name ⟨q, _, hq⟩) with ⟨-, hnone⟩ | ⟨implementation, react', hi, hr', h⟩
    · rw [hr] at hnone
      cases hnone
    · obtain rfl : react = react' := Option.some.inj (hr.symm.trans hr')
      obtain ⟨w₁, answer, hw₁, hy, hfit, rfl, hgoes⟩ := h.resumes hx ha table resume
      obtain ⟨cs₁, o₁, w₂, htr₁, hw₂, rfl, hz, hp₂⟩ := (hp.resume hw₁ hfit hy).as fs p z hnext
      obtain ⟨cs₂, o₂, w₃, htr₂, hw₃, rfl, hu, hev⟩ := ih hp₂ hz
      obtain ⟨cs, o, w₄, htr, hw₄, hholds, hretagged, hevents⟩ :=
        hgoes.back _ _ _ (traced_bind_after htr₁ htr₂) (T.trans hw₂ hw₃)
      refine ⟨cs, o, w₄, ?_, T.trans hw₁ (T.trans hw₂ (T.trans hw₃ hw₄)), ?_, hholds u hu,
        hev.retagged hretagged hw₄⟩
      · rwa [Action.after, Handler.evaluate_performed hi]
      · rw [hevents, L.events_append]

/-- If the evaluation comes to an end, the machine comes to something. -/
theorem exists_plays {n : Nat} {e o : Ending} {q : σ} {x : τ} {cs : List Call} {t : Store}
    (htable : Handled T L occurs table r) (hoccurs : ∀ name, K.Occurs name → occurs name)
    (hp : Conducts T L K w e q) (hx : T.Holds w x) (hn : weight cs = n)
    (htr : Traced (Action.after (Handler.evaluate table none) e) (T.store w) cs o t) :
    ∃ es v y, K.Plays r q x es v y := by
  induction n using Nat.strongRecOn generalizing w e o q x cs t with
  | ind n ih =>
    by_cases hrests : K.Rests r q
    · exact ⟨[], _, x, .rests hrests⟩
    · obtain ⟨name, ps, hq, hr⟩ : ∃ name ps, K.node q = .operation name ps ∧ r name ≠ none := by
        simpa [Conduct.Rests] using hrests
      obtain ⟨tag, params, resume, rfl, rfl⟩ := (hq ▸ hp.looks).exists_operation
      rcases htable name (hoccurs name ⟨q, _, hq⟩) with ⟨-, hnone⟩ | ⟨implementation, react, hi, hr', h⟩
      · exact absurd hnone hr
      rw [Action.after, Handler.evaluate_performed hi] at htr
      obtain ⟨es, ending, y, hreact⟩ := h.ends hx htr
      cases ending with
      | error f => exact ⟨es, _, y, .fails hq hr' hreact⟩
      | ok a =>
        obtain ⟨w₁, answer, hw₁, hy, hfit, rfl, hgoes⟩ := h.resumes hx hreact table resume
        obtain ⟨ds, o', s, hds, hweight⟩ := hgoes.forth cs o t htr
        have hbody : Traced ((Action.ask resume [answer]).bind (Handler.evaluate table none))
            (T.store w₁) ds o' s := hds
        obtain ⟨ds₁, o₁, s₁, hds₁⟩ := hbody.exists_of_bind
        obtain ⟨fs, p, z, w₂, hnext, rfl, -, -, hz, hp₂⟩ := (hp.resume hw₁ hfit hy).exists_of_traced hds₁
        obtain ⟨ds₂, rfl, hds₂⟩ := traced_of_bind_after hbody hds₁
        obtain ⟨gs, v, u, hplays⟩ := ih (weight ds₂) (by rw [weight_append] at hweight; omega) hp₂ hz
          rfl hds₂
        exact ⟨_, v, u, .resumes hq hr' hreact hnext hplays⟩

theorem ends_evaluated {e : Ending} {q : σ} {x : τ} (htable : Handled T L occurs table r)
    (hoccurs : ∀ name, K.Occurs name → occurs name) (hp : Conducts T L K w e q) (hx : T.Holds w x) :
    EndsAs T L (Action.after (Handler.evaluate table none) e) w (K.Plays r q x)
      (Evaluated T L K r table) where
  ends _ _ _ htr := exists_plays htable hoccurs hp hx rfl htr
  as _ _ _ h := h.exists_evaluated htable hoccurs hp hx

/-- What was evaluated under the handler conducts itself as the machine under the reactions. -/
theorem Evaluated.conducts {o : Ending} {v : Verdict V σ} (h : Evaluated T L K r table w o v)
    (htable : Handled T L occurs table r) (hoccurs : ∀ name, K.Occurs name → occurs name) :
    Conducts T L (K.under r) w o v := by
  refine ⟨Evaluated T L K r table, ?_, h⟩
  clear h
  intro w o v h
  cases h with
  | @leaf w tag x q hq =>
    refine ⟨?_, nofun⟩
    show Looks T.see (.ok (.leaf tag x)) (K.node q)
    rw [hq]
    exact .leaf rfl
  | @failure w f q hq =>
    refine ⟨?_, nofun⟩
    show Looks T.see _ (K.node q)
    rw [hq]
    exact .failure
  | @operation w u tag tag' k name params params' resume q hq hr hp hw =>
    refine ⟨?_, ?_⟩
    · show Looks T.see _ (K.node q)
      rw [hq]
      exact .operation
    · rintro _ _ _ _ ⟨rfl⟩ z a x hz ha hx
      have hends := (hp.resume (T.trans hw hz) ha hx).bind (k := Handler.evaluate table none)
        fun _ _ _ _ _ _ _ hx' hp' => ends_evaluated htable hoccurs hp' hx'
      refine EndsAs.of_leads (b := (Action.ask resume [a]).bind (Handler.evaluate table none)) ?_
        (Listener.Leads.ask (f := .under table none resume) rfl)
      refine hends.image (f := id) (fun es p y => ?_) fun _ _ _ h => h
      constructor
      · rintro ⟨q', p', z', fs, gs, ⟨rfl⟩, hnext, hplays, rfl⟩
        exact ⟨p, ⟨fs, p', z', gs, hnext, hplays, rfl⟩, rfl⟩
      · rintro ⟨_, ⟨fs, p', z', gs, hnext, hplays, rfl⟩, rfl⟩
        exact ⟨q, p', z', fs, gs, rfl, hnext, hplays, rfl⟩
  | fails => exact ⟨.failure, nofun⟩

/-- Under the handler the program goes on as the machine under the reactions does. -/
theorem ends_evaluate {p : Value} {q : σ} {x : τ} (htable : Handled T L occurs table r)
    (hoccurs : ∀ name, K.Occurs name → occurs name) (hp : Conducts T L K w (.ok p) q)
    (hx : T.Holds w x) :
    EndsAs T L (Handler.evaluate table none p) w (K.Plays r q x) (Conducts T L (K.under r)) :=
  (ends_evaluated htable hoccurs hp hx).mono fun _ _ _ _ h => h.conducts htable hoccurs

end Evaluating

section Stacking

/-- These handlers, applied in this order, have the reactions. -/
inductive Stacked (T : Venue V τ) (L : Listener) (occurs : String → Prop) :
    List Value → Reactions V τ → Prop where
  | nil : Stacked T L occurs [] fun _ => none
  | cons {tag : Nat} {table : Handler.Table} {handlers : List Value} {r r' : Reactions V τ} :
      Handled T L occurs table r → Stacked T L occurs handlers r' →
      Stacked T L occurs (.handler tag table none :: handlers) (r.orElse r')

variable {occurs : String → Prop} {handlers : List Value}

/-- What ended as a state of the machine with both reactions, one after the other, is in a state of the
machine with both at once. -/
theorem EndsAs.flat {r' : Reactions V τ} {a : Action Value} {w : T.World} {q : σ} {x : τ}
    (h : EndsAs T L a w (fun es v y => ∃ fs v' z gs, K.Plays r q x fs v' z ∧
      (K.under r).Plays r' v' z gs v y ∧ es = fs ++ gs) (Conducts T L ((K.under r).under r'))) :
    EndsAs T L a w (K.Plays (r.orElse r') q x) (Conducts T L (K.under (r.orElse r'))) := by
  refine h.image (f := Verdict.flat) (fun es v y => ?_) fun _ _ _ h => h.flat
  rw [plays_under_iff]
  constructor
  · rintro ⟨fs, v', z, gs, w, hfirst, hsecond, rfl, rfl⟩
    exact ⟨w, ⟨fs, v', z, gs, hfirst, hsecond, rfl⟩, rfl⟩
  · rintro ⟨w, ⟨fs, v', z, gs, hfirst, hsecond, rfl⟩, rfl⟩
    exact ⟨fs, v', z, gs, w, hfirst, hsecond, rfl, rfl⟩

/-- What has ended where there is nothing to react to. -/
theorem EndsAs.rests {a : Action Value} {w : T.World} {q : σ} {x : τ}
    {Is : T.World → Ending → Verdict V σ → Prop}
    (h : EndsAs T L a w (fun es v y => es = [] ∧ v = .rests q ∧ y = x) Is) (hq : K.Rests r q) :
    EndsAs T L a w (K.Plays r q x) Is :=
  h.image (f := id) (fun _ v _ => ⟨fun h => ⟨v, hq.plays_iff.1 h, rfl⟩, by
    rintro ⟨_, h, rfl⟩
    exact hq.plays_iff.2 h⟩) fun _ _ _ h => h

/-- Without reactions the machine is what it is. -/
theorem Conducts.under_nothing {w : T.World} {e : Ending} {q : σ} (h : Conducts T L K w e q) :
    Conducts T L (K.under fun _ => none) w e (.rests q) := by
  refine h.simulates (fun q v => v = .rests q) ?_ ?_ ?_ rfl
  · rintro q _ rfl
    rfl
  · rintro q _ a x es p y rfl hnext
    exact ⟨_, rfl, q, p, y, es, [], rfl, hnext, .rests fun _ _ _ => rfl, (List.append_nil es).symm⟩
  · rintro q _ a x es v y rfl ⟨_, p, z, fs, gs, ⟨rfl⟩, hnext, hplays, rfl⟩
    obtain ⟨rfl, rfl, rfl⟩ := (Conduct.Rests.plays_iff fun _ _ _ => rfl).1 hplays
    exact ⟨p, rfl, by rwa [List.append_nil]⟩

/-- Under the handlers, one after the other, the program goes on as the machine under all of their
reactions does. -/
theorem ends_applyAll (hstack : Stacked T L occurs handlers r)
    (hoccurs : ∀ name, K.Occurs name → occurs name) {w : T.World} {p : Value} {q : σ} {x : τ}
    (hp : Conducts T L K w (.ok p) q) (hx : T.Holds w x) :
    EndsAs T L (Handler.applyAll p handlers) w (K.Plays r q x) (Conducts T L (K.under r)) := by
  induction hstack generalizing σ w p x with
  | nil =>
    rw [Handler.applyAll_nil]
    exact (EndsAs.ended (L := L) (o := .ok (Program.lift p)) hx hp.lift.under_nothing).rests
      fun _ _ _ => rfl
  | @cons tag table handlers r r' htable _ ih =>
    rw [Handler.applyAll_cons]
    refine EndsAs.flat (EndsAs.bind (EndsAs.of_leads (ends_evaluate htable hoccurs hp.lift hx)
      (.handler tag table none (Program.lift p))) ?_)
    intro es v y z o _ _ hz hv
    cases o with
    | ok p' => exact ih (fun name hname => hoccurs name hname.of_under) hv hz
    | error f =>
      have hfails : Conducts T L ((K.under r).under r') z (.error f) (.rests v) :=
        .of_looks hv.looks nofun
      refine (EndsAs.ended hz hfails).rests fun name ps hname => ?_
      have hlooks := hv.looks
      rw [hname] at hlooks
      cases hlooks

end Stacking

end AlgebraicEffects
