import AlgebraicEffects.Proofs.Comparing.Sequencing

/-!
Implementations that act and resume.

Two actions go likewise when, whenever the first comes to an end, the second does so too, in worlds that
go together, and with results that are related. What is done next may then be compared by itself
(`Comparison.Likewise.matched`). So functions that act and then resume with what they have come to are
implementations that act alike if their actions go likewise (`Comparison.implements_resuming`).
-/

set_option autoImplicit false

namespace AlgebraicEffects

open Action (Traced)

variable {V : Type} {S : Scene V} {E : Comparison S} {Λ : Traits S} {α : Type}

namespace Comparison

/-- Whenever the first action comes to an end, the second one does so too, and the ends go together. -/
def Likewise (E : Comparison S) (a : Action α) (w : S.World) (b : Action α) (u : S.World)
    (P : S.World → S.World → α → α → Prop) : Prop :=
  ∀ cs r t, Traced a (S.store w) cs r t → ∃ ds q z y, Traced b (S.store u) ds q (S.store y) ∧
    S.store z = t ∧ E.course.Later w z ∧ E.course.Later u y ∧ E.Level z y ∧
    E.told (E.events cs) = E.told (E.events ds) ∧ E.Keeps (S.store w) (E.events cs) t ∧
    E.Keeps (S.store u) (E.events ds) (S.store y) ∧ EndAlike (P z y) E.Fails r q

variable {w u : S.World} {a b : Action α} {P Q : S.World → S.World → α → α → Prop} {n : Nat}

theorem Likewise.mono (h : E.Likewise a w b u P) (hPQ : ∀ z y x x', E.course.Later w z →
    E.course.Later u y → E.Level z y → P z y x x' → Q z y x x') : E.Likewise a w b u Q := by
  intro cs r t htr
  obtain ⟨ds, q, z, y, hb, rfl, hz, hy, hlevel, htold, hkeeps, hkeeps', hends⟩ := h cs r t htr
  exact ⟨ds, q, z, y, hb, rfl, hz, hy, hlevel, htold, hkeeps, hkeeps',
    hends.mono fun x x' => hPQ z y x x' hz hy hlevel⟩

theorem Likewise.done {x x' : α} (hlevel : E.Level w u) (h : P w u x x') :
    E.Likewise (.done x) w (.done x') u P := by
  intro cs r t htr
  cases htr
  exact ⟨[], .ok x', w, u, .done x' _, rfl, E.course.refl w, E.course.refl u, hlevel, rfl, E.keeps_refl _,
    E.keeps_refl _, .ok h⟩

theorem Likewise.fail (f : Failure) (hlevel : E.Level w u) :
    E.Likewise (.fail f : Action α) w (.fail f) u P := by
  intro cs r t htr
  cases htr
  exact ⟨[], .error f, w, u, .fail f _, rfl, E.course.refl w, E.course.refl u, hlevel, rfl, E.keeps_refl _,
    E.keeps_refl _, .error (E.fails f)⟩

/-- Looking at the stores first. -/
theorem Likewise.read {k k' : Store → Action α} (h : E.Likewise (k (S.store w)) w (k' (S.store u)) u P) :
    E.Likewise (.read k) w (.read k') u P := by
  intro cs r t htr
  cases htr with
  | read htr =>
    obtain ⟨ds, q, z, y, hb, hrest⟩ := h cs r t htr
    exact ⟨ds, q, z, y, .read hb, hrest⟩

/-- What is done next goes likewise if it does so for all results that are related. -/
theorem Likewise.bind {β : Type} {R : S.World → S.World → β → β → Prop} {k k' : α → Action β}
    (h : E.Likewise a w b u P) (hk : ∀ z y x x', E.course.Later w z → E.course.Later u y → E.Level z y →
      P z y x x' → E.Likewise (k x) z (k' x') y R) : E.Likewise (a.bind k) w (b.bind k') u R := by
  intro cs r t htr
  obtain ⟨ds, q, v, ha⟩ := htr.exists_of_bind
  obtain ⟨ds', q', z, y, hb, rfl, hz, hy, hlevel, htold, hkeeps, hkeeps', hends⟩ := h ds q v ha
  cases hends with
  | error hf =>
    obtain ⟨rfl, rfl, rfl⟩ := htr.unique ha.bind_error
    exact ⟨ds', _, z, y, hb.bind_error, rfl, hz, hy, hlevel, htold, hkeeps, hkeeps', .error hf⟩
  | @ok x x' hx =>
    obtain ⟨es, rfl, hes⟩ := htr.of_bind ha
    obtain ⟨es', q, z', y', hb', rfl, hz', hy', hlevel', htold', hkeep, hkeep', hends⟩ :=
      hk z y x x' hz hy hlevel hx es r t hes
    refine ⟨ds' ++ es', q, z', y', hb.bind hb', rfl, E.course.trans hz hz', E.course.trans hy hy', hlevel', ?_⟩
    rw [E.events_append, E.events_append]
    exact ⟨E.told_append_congr htold htold', E.keeps_append hkeeps hkeep, E.keeps_append hkeeps' hkeep', hends⟩

/-- What is done next is matched if it is so for all results that are related. -/
theorem Likewise.matched {Φ : Nat → Likeness S} {k k' : α → Action Value} (h : E.Likewise a w b u P)
    (hk : ∀ z y x x', E.course.Later w z → E.course.Later u y → E.Level z y → P z y x x' →
      E.Matched n (k x) z (k' x') y Φ) : E.Matched n (a.bind k) w (b.bind k') u Φ := by
  by_cases hends : ∃ cs r t, Traced a (S.store w) cs r t
  · obtain ⟨cs, r, t, ha⟩ := hends
    obtain ⟨ds, q, z, y, hb, rfl, hz, hy, hlevel, htold, hkeeps, hkeeps', hends⟩ := h cs r t ha
    cases hends with
    | error hf => exact .failing ha hb hkeeps hkeeps' hz hy hlevel htold hf
    | @ok x x' hx =>
      exact .of_leads (.after ha hkeeps) (.after hb hkeeps') hz hy htold fun m hm =>
        (hk z y x x' hz hy hlevel hx).fewer (by omega)
  · refine Always.of_not_ending fun cs o t htr => ?_
    obtain ⟨ds, q, v, ha⟩ := htr.exists_of_bind
    exact hends ⟨ds, q, v, ha⟩

/-- What is known whenever the actions have come to a result. -/
theorem Likewise.knowing {K K' : α → Prop} (h : E.Likewise a w b u P)
    (ha : ∀ s cs x t, Traced a s cs (.ok x) t → K x) (hb : ∀ s cs x t, Traced b s cs (.ok x) t → K' x) :
    E.Likewise a w b u fun z y x x' => P z y x x' ∧ K x ∧ K' x' := by
  intro cs r t htr
  obtain ⟨ds, q, z, y, htr', rfl, hz, hy, hlevel, htold, hkeeps, hkeeps', hends⟩ := h cs r t htr
  refine ⟨ds, q, z, y, htr', rfl, hz, hy, hlevel, htold, hkeeps, hkeeps', ?_⟩
  cases hends with
  | ok hx => exact .ok ⟨hx, ha _ cs _ _ htr, hb _ ds _ _ htr'⟩
  | error hf => exact .error hf

section Library

variable {f f' : Function} {params params' : List Value} {c c' : Value}

/-- What is performed by functions of the library that give twins when they are called are twins. -/
theorem Matched.performed (hf : (Value.arrowOf f).isScripted = false)
    (hplain : (Value.arrowOf f).isGeneratorFunction = false)
    (hf' : (Value.arrowOf f').isScripted = false)
    (hplain' : (Value.arrowOf f').isGeneratorFunction = false)
    (h : E.Matched n (Action.invoke (.arrowOf f) (.of (params ++ [c]))) w
      (Action.invoke (.arrowOf f') (.of (params' ++ [c']))) u (E.Twins Λ)) :
    E.Matched n (Handler.perform (.arrowOf f) params c) w (Handler.perform (.arrowOf f') params' c') u
      (E.Twins Λ) := by
  rw [Handler.perform, hplain, if_neg Bool.false_ne_true, Handler.perform, hplain',
    if_neg Bool.false_ne_true, Replay.build_eq hf, Replay.build_eq hf']
  refine h.unchanged ?_ ?_
  all_goals
    intro v hv
    cases v with
    | leaf | operation => rfl
    | _ => cases hv

variable {act act' : List Value → Action α} {answer : α → List Value} {said : α → List (Event V)}

/-- After it has acted, the function goes on as its continuation does with the answer, also when the answer
is left out. -/
theorem leads_answered {s t : Store} {cs : List Call} {x : α} {g : Function}
    (hf : ActsAndResumes E.listener S.see f act answer said) (hsaid : ∀ e ∈ said x, e.isTold = true)
    (hact : Traced (act params) s cs (.ok x) t) (hkeeps : E.Keeps s (E.events cs) t) (hg : g.isSilent = true)
    (hnone : g.apply (.of []) = g.apply (.of [.nothing])) :
    E.Leads s (Action.invoke (.arrowOf f) (.of (params ++ [.arrowOf g]))) 1 (said x ++ E.events cs) t
      (g.apply (.of [answered (answer x)])) := by
  have hleads := hf.leads hact hg
  refine ⟨?_, E.keeps_append (E.keeps_told s hsaid) hkeeps⟩
  rcases hf.answers x with hempty | ⟨v, hone⟩
  · rw [hempty, hnone] at hleads
    rw [hempty]
    exact hleads
  · rw [hone] at hleads
    rw [hone]
    exact hleads

/-- A function that has failed to act has failed. -/
theorem traced_failed {s t : Store} {cs : List Call} {e : Failure}
    (hf : ActsAndResumes E.listener S.see f act answer said) (hact : Traced (act params) s cs (.error e) t) :
    Traced (Action.invoke (.arrowOf f) (.of (params ++ [c]))) s
      [.mk (.arrowOf f) (.of (params ++ [c])) cs] (.error e) t := by
  refine Traced.invoke (f := .arrowOf f) ?_
  rw [show Value.apply (.arrowOf f) _ = _ from hf.apply params c]
  exact hact.bind_error

/-- Functions that act likewise, and resume with answers that go together, act alike as
implementations. -/
theorem implements_resuming (hf : ActsAndResumes E.listener S.see f act answer said)
    (hf' : ActsAndResumes E.listener S.see f' act' answer said)
    (hsaid : ∀ x, ∀ e ∈ said x, e.isTold = true) (hact : ∀ z y params params', E.course.Later w z → E.course.Later u y → E.Level z y →
      List.Forall₂ (E.Same z y) params params' → E.Likewise (act params) z (act' params') y fun z y x x' =>
        E.told (said x) = E.told (said x') ∧ E.Same z y (answered (answer x)) (answered (answer x'))) :
    E.Implements Λ n w (.arrowOf f) u (.arrowOf f') := by
  intro j z y params params' g g' hj hz hy hlevel hparams hg
  refine .performed hf.library hf.plain hf'.library hf'.plain ?_
  by_cases hends : ∃ cs r t, Traced (act params) (S.store z) cs r t
  · obtain ⟨cs, r, t, ha⟩ := hends
    obtain ⟨ds, q, z', y', hb, rfl, hz', hy', hlevel', htold, hkeeps, hkeeps', hends⟩ :=
      hact z y params params' hz hy hlevel hparams cs r t ha
    cases hends with
    | @error e e' he =>
      -- Neither has resumed, so what is observed of the calls is what is observed of the actions.
      have hcs : E.events [_] = E.events cs := hf.failed ha (.arrowOf g)
      have hds : E.events [_] = E.events ds := hf'.failed hb (.arrowOf g')
      exact .of_traced (traced_failed hf ha) (traced_failed hf' hb) (hcs ▸ hkeeps) (hds ▸ hkeeps')
        (E.rests_error e) (E.rests_error e') hz' hy' hlevel' (by rw [hcs, hds]; exact htold)
        fun _ _ => .error he
    | @ok x x' hx =>
      refine .of_leads (leads_answered hf (hsaid x) ha hkeeps hg.silent hg.unanswered)
        (leads_answered hf' (hsaid x') hb hkeeps' hg.silent' hg.unanswered') hz' hy'
        (E.told_append_congr hx.1 htold) fun m hm => ?_
      exact hg.goes m (by omega) z' y' _ _ hz' hy' hlevel' hx.2
  · refine Always.of_not_ending fun cs o t htr => ?_
    obtain ⟨inner, -, hbody⟩ := htr.of_invoke
    rw [show Value.apply (.arrowOf f) _ = _ from hf.apply params _] at hbody
    obtain ⟨ds, q, v, ha⟩ := hbody.exists_of_bind
    exact hends ⟨ds, q, v, ha⟩

end Library

end Comparison

end AlgebraicEffects
