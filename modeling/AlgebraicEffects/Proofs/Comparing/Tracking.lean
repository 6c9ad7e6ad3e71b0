import AlgebraicEffects.Proofs.Comparing.Driving
import AlgebraicEffects.Proofs.Stacks.Runners

/-!
Runs of programs whose waits are passed.

A program that waits is run on a scheduler that drives it, together with the same program whose waits are
passed. Both are put under the same handlers, and the values that their branches reach are noted. If their
machines come to the same once the waits are passed, they go on aligned from their beginnings, also when they
are run from an initial state (`PassedAlike.tracked`, `PassedAlike.tracked_stateRun`). Then the runs end with
outcomes that look the same, the same is said, logged and drawn meanwhile, and the clock shows the time after
all waits (`TrackedAlike.runScheduled`).
-/

set_option autoImplicit false

namespace AlgebraicEffects

open Action (Traced)
open Comparison (elsewhere endings passing)
open Suspension (suspendName nowName)

variable {V τ σ : Type} {T : Venue V τ} {drawn : Nat → Prop} {L : Listener} {K M : Conduct V τ σ}
  {s t s' t' : Store}

section Outcomes

/-- Outcomes that look the same: so do the values that were reached, and the result or the failure. -/
inductive AlikeOutcomes (see : Value → V) : Value → Value → Prop where
  | value {x x' : Value} {vs vs' : List Value} : see x = see x' → vs.map see = vs'.map see →
      AlikeOutcomes see (.outcome 0 (.ok 0 x) (.tuple 0 vs)) (.outcome 0 (.ok 0 x') (.tuple 0 vs'))
  | failure {f f' : Value} {vs vs' : List Value} : see f = see f' → vs.map see = vs'.map see →
      AlikeOutcomes see (.outcome 0 (.err 0 f) (.tuple 0 vs)) (.outcome 0 (.err 0 f') (.tuple 0 vs'))

variable {see : Value → V} {vs vs' : List Value} {dest address : Nat} {now : Number}

/-- Values that look the same settle results that do. -/
theorem Settled.alike (hsee : ∀ (v : Value) (n : Nat), see (v.tagged n).1 = see v) {r r' : Value}
    (h : Settled vs r) (h' : Settled vs' r') (hvs : vs.map see = vs'.map see) :
    AlikeOutcomes see (.outcome 0 r (.tuple 0 vs)) (.outcome 0 r' (.tuple 0 vs')) := by
  have hnone (n : Nat) : see (.failure (.caught n .noResult)) = see (.failure .noResult) :=
    hsee (.failure .noResult) n
  cases h with
  | first v vs =>
    cases h' with
    | first v' vs' => exact .value (List.cons.inj hvs).1 hvs
    | none => cases hvs
  | none n =>
    cases h' with
    | first => cases hvs
    | none m => exact .failure ((hnone n).trans (hnone m).symm) rfl

/-- A failure is reported with the values that were reached before. -/
theorem exists_traced_conclude_error (f : Failure) (address : Nat) (hvs : s.completed[dest]? = some vs) :
    ∃ n records, Traced (Run.conclude (.agenda address) dest (.error f)) s []
      (.ok (.outcome 0 (.err 0 (s.identify (.failure f)).1) (.tuple 0 vs)))
      { s.tagsFrom n with records := records } := by
  let logged : Store := s.logged
    ⟨"DEBUG", Run.logComponent, "run_scheduled failed: " ++ (s.show (.failure f)).quoted⟩
  have hcompleted : logged.completedAt dest = vs := by
    simp [logged, Store.logged, Store.completedAt, Array.getD_eq_getD_getElem?, hvs]
  obtain ⟨n, -, hn⟩ := logged.identify_snd (.failure f)
  have hfailed : Traced (Run.failed f (logged.completedAt dest)) logged [] _ _ :=
    (traced_identify logged (.failure f)).bind (.done _ _)
  rw [hcompleted, hn, s.identify_logged] at hfailed
  refine ⟨n, logged.records, .read (.write (.read ?_))⟩
  show Traced (Run.failed f (logged.completedAt dest)) logged [] _ _
  rw [hcompleted]
  exact hfailed

/-- However the flows of a run have ended, the outcome is made without anything else being done. -/
theorem exists_traced_conclude (hsee : ∀ (v : Value) (n : Nat), see (v.tagged n).1 = see v)
    {e e' : Except Failure Value} {vs' : List Value} {address' dest' : Nat} {now' : Number}
    (he : EndAlike (fun _ _ => True) (fun f f' => see (.failure f) = see (.failure f')) e e')
    (hat : s.AtRest address now) (hat' : t.AtRest address' now') (hvs : s.completed[dest]? = some vs)
    (hvs' : t.completed[dest']? = some vs') (hsame : vs.map see = vs'.map see) :
    ∃ outcome outcome' n records m records',
      Traced (Run.conclude (.agenda address) dest e) s [] (.ok outcome)
        { s.tagsFrom n with records := records } ∧
      Traced (Run.conclude (.agenda address') dest' e') t [] (.ok outcome')
        { t.tagsFrom m with records := records' } ∧ AlikeOutcomes see outcome outcome' := by
  obtain ⟨a, ha, -⟩ := hat
  obtain ⟨a', ha', -⟩ := hat'
  cases he with
  | @ok x x' _ =>
    obtain ⟨r, n, records, hr, -, htr⟩ := traced_concluded ha hvs x
    obtain ⟨r', m, records', hr', -, htr'⟩ := traced_concluded ha' hvs' x'
    exact ⟨_, _, n, records, m, records', htr, htr', hr.alike hsee hr' hsame⟩
  | @error f f' hf =>
    have hidentify (s : Store) (v : Value) : see (s.identify v).1 = see v := by
      unfold Store.identify
      split
      · rfl
      · exact hsee v s.nextTag
    obtain ⟨n, records, htr⟩ := exists_traced_conclude_error f address hvs
    obtain ⟨m, records', htr'⟩ := exists_traced_conclude_error f' address' hvs'
    exact ⟨_, _, n, records, m, records', htr, htr',
      .failure ((hidentify s _).trans (hf.trans (hidentify t _).symm)) hsame⟩

end Outcomes

section Hosting

variable {scheduler p : Value} {start : Number} {tag address dest : Nat} {stack : List Value}

/-- The agenda on which a run is scheduled: the one that is given, or else a new one. -/
def Store.agendaFor (s : Store) : Value → Nat
  | .agenda address => address
  | _ => s.agendas.size

/-- A run has a scheduler at rest and an empty list of values before its program begins. -/
theorem Fresh.exists_hosting (h : Fresh s scheduler start) :
    ∃ t, Traced (Run.hosting scheduler) s [] (.ok (.agenda (s.agendaFor scheduler), s.completed.size)) t ∧
      s.Elapses t ∧ t.AtRest (s.agendaFor scheduler) start ∧ t.completed[s.completed.size]? = some [] := by
  have hkeeps {i : Nat} {vs : List Value} (hvs : s.completed[i]? = some vs) :
      (s.completed.push [])[i]? = some vs := by
    rw [Array.getElem?_push, if_neg (Nat.ne_of_lt (Array.getElem?_eq_some_iff.1 hvs).1), hvs]
  cases h with
  | default =>
    exact ⟨_, .read (.write (.read (.write (.read (.write (.done _ _)))))),
      ⟨Nat.le_succ _, hkeeps, rfl⟩,
      ⟨_, Array.getElem?_push_size, rfl, rfl, rfl, TimeDomain.mem_zero⟩, Array.getElem?_push_size⟩
  | @given address startTime _ hagenda hstart hmem =>
    exact ⟨_, .read (.write (.done _ _)), ⟨Nat.le_refl _, hkeeps, rfl⟩,
      ⟨_, hagenda, rfl, rfl, hstart, hmem⟩, Array.getElem?_push_size⟩

theorem ensureHandled_lift (p : Value) :
    Suspension.ensureHandled (Program.lift p) = Suspension.ensureHandled p := by
  unfold Suspension.ensureHandled
  rw [lift_lift]

/-- A run on an agenda drives the program under its handlers. -/
theorem leads_onAgenda (see : Value → V) (s : Store) : L.Leads see s
    (Run.onAgenda p (.tuple tag stack) (.agenda address) dest) 0 [] s
    (Run.driven address 0 (Handler.layered stack (Program.graft p (.arrowOf (.recordIn dest))))) := by
  have honAgenda : Run.onAgenda p (.tuple tag stack) (.agenda address) dest =
      (Handler.layered stack (Program.graft p (.arrowOf (.recordIn dest)))).bind fun q =>
        (Action.ask (Suspension.handler (.agenda address)) [Program.lift q]).bind fun r =>
          (Suspension.ensureHandled r).bind fun _ => Host.drainingBody address 0 := by
    show (Run.begin _ _ _ _).bind _ = _
    rw [begin_tuple, tracked, Handler.bind_applyAll]
    simp only [Action.bind_assoc, Action.bind, ensureHandled_lift]
    rfl
  rw [honAgenda, Run.driven_eq]
  refine .next (fun q s => ?_) _
  have hhandler : L.Leads see s
      (Action.ask (.handler 0 (suspensionTable (.agenda address)) none) [Program.lift q]) 1 [] s
      (Handler.evaluate (suspensionTable (.agenda address)) none (Program.lift q)) :=
    .handler 0 _ none _
  rw [Handler.evaluate_lift] at hhandler
  have hleads := (hhandler.weaken.bind Suspension.ensureHandled).bind fun _ => Host.drainingBody address 0
  rw [Action.bind_assoc] at hleads
  exact hleads

variable {see : Value → V} {s₁ z : Store} {cs ds gs : List Call} {e : Except Failure Value} {o : Ending}

/-- What a run that has ended has done once it had a scheduler: it has driven the program under its handlers,
and made its outcome. -/
theorem exists_driven_of_runScheduled (L : Listener) (see : Value → V)
    (hhosting : Traced (Run.hosting scheduler) s [] (.ok (.agenda address, dest)) s₁)
    (htr : Traced (Run.runScheduled p (.tuple tag stack) scheduler .nothing) s cs o t) :
    ∃ ds e z gs, Traced (Run.driven address 0 (Handler.layered stack
        (Program.graft p (.arrowOf (.recordIn dest))))) s₁ ds e z ∧
      Traced (Run.conclude (.agenda address) dest e) z gs o t ∧
      L.events see cs = L.events see ds ++ L.events see gs ∧ weight ds ≤ weight cs := by
  rw [Run.runScheduled_eq] at htr
  obtain ⟨_, rfl, hflows⟩ := htr.of_bind hhosting
  replace hflows : Traced ((Run.onAgenda p (.tuple tag stack) (.agenda address) dest).attempt.bind
    (Run.conclude (.agenda address) dest)) s₁ cs o t := hflows
  obtain ⟨ds, e, z, hattempt⟩ := hflows.exists_of_bind
  obtain ⟨e, rfl, honAgenda⟩ := hattempt.of_attempt
  obtain ⟨gs, rfl, hconclude⟩ := hflows.of_bind hattempt
  obtain ⟨fs, hdriven, hevents, hweight⟩ := (leads_onAgenda (L := L) see s₁).forth _ _ _ honAgenda
  refine ⟨fs, e, z, gs, hdriven, hconclude, ?_, ?_⟩
  · rw [L.events_append, hevents]
    rfl
  · rw [weight_append]
    omega

/-- A run that has a scheduler, has driven the program and made its outcome has ended. -/
theorem exists_runScheduled_of_driven (L : Listener) (see : Value → V) (tag : Nat)
    (hhosting : Traced (Run.hosting scheduler) s [] (.ok (.agenda address, dest)) s₁)
    (hdriven : Traced (Run.driven address 0 (Handler.layered stack
      (Program.graft p (.arrowOf (.recordIn dest))))) s₁ ds e z)
    (hconclude : Traced (Run.conclude (.agenda address) dest e) z gs o t) :
    ∃ cs, Traced (Run.runScheduled p (.tuple tag stack) scheduler .nothing) s cs o t ∧
      L.events see cs = L.events see ds ++ L.events see gs := by
  obtain ⟨fs, honAgenda, hevents⟩ := (leads_onAgenda (L := L) see s₁).back _ _ _ hdriven
  have hrun : Traced (Run.runScheduled p (.tuple tag stack) scheduler .nothing) s ([] ++ (fs ++ gs)) o t := by
    rw [Run.runScheduled_eq]
    exact hhosting.bind (honAgenda.attempt.bind hconclude)
  refine ⟨_, hrun, ?_⟩
  rw [List.nil_append, L.events_append, hevents]
  rfl

end Hosting

section Running

variable {hT : T.Lets drawn} {left : String → List V → V} {pre post : List (Event V)} {p p' : Value}
  {address address' : Nat} {now now' : Number}

/-- What is left when both flows have ended is the same. -/
theorem exists_traced_ends (hleft : T.Tells left) {lists : Option (Nat × Nat)} {n : Nat}
    {z y : T.World} {e e' : Ending} (hat : (T.store z).AtRest address now)
    (hat' : (T.store y).AtRest address' now') (executed executed' : Nat)
    (he : EndAlike (fun v v' => (passing hT L lists).Twins ((passing hT L lists).alike elsewhere) n z v y v')
      (passing hT L lists).Fails e e') :
    ∃ r r', Traced (Run.driven address executed (.ofExcept e)) (T.store z) [] r (T.store z) ∧
      Traced (Run.driven address' executed' (.ofExcept e')) (T.store y) [] r' (T.store y) ∧
      EndAlike (fun _ _ => True) (fun f f' => T.see (.failure f) = T.see (.failure f')) r r' := by
  cases he with
  | error hf => exact ⟨_, _, .fail _ _, .fail _ _, .error hf⟩
  | ok htwins =>
    refine htwins.elim ?_ ?_
    · rintro tag tag' x x' rfl rfl _
      exact ⟨_, _, traced_driven_leaf hat executed tag x, traced_driven_leaf hat' executed' tag' x',
        .ok trivial⟩
    · rintro tag tag' name params params' resume resume' rfl rfl _ hname hparams _
      have hsee : params.map T.see = params'.map T.see := Comparison.map_see hparams
      refine ⟨_, _, traced_driven_operation hname address executed tag resume _,
        traced_driven_operation (show elsewhere name params' from hname) address' executed' tag' resume' _, .error ?_⟩
      rw [hleft z, hleft y, hsee]

/-- With the noting of their values grafted onto them, the programs go on aligned on any schedulers, as soon
as there are lists to note them in. -/
def TrackedAlike (hT : T.Lets drawn) (L : Listener) (s t : Store) (pre post : List (Event V))
    (p p' : Value) : Prop :=
  ∀ n s' t', s.Elapses s' → t.Elapses t' → s'.completed[s.completed.size]? = some [] →
    t'.completed[t.completed.size]? = some [] → ∃ w u : T.World,
      (passing hT L (some (s.completed.size, t.completed.size))).Aligned n w pre s'
        (Program.graft p (.arrowOf (.recordIn s.completed.size))) u post t'
        (Program.graft p' (.arrowOf (.recordIn t.completed.size)))
        ((passing hT L (some (s.completed.size, t.completed.size))).Twins
          ((passing hT L (some (s.completed.size, t.completed.size))).alike elsewhere))

section Beginnings

variable {w u : T.World}

/-- Programs that conduct themselves as machines which come to the same once their waits are passed. What is
told before they rest is the same, and the generators that are drawn from are. -/
structure PassedAlike (T : Venue V τ) (drawn : Nat → Prop) (L : Listener) (K M : Conduct V τ σ)
    (w u : T.World) (pre post : List (Event V)) (p p' : Value) : Prop where
  onlyWaits : K.OnlyWaits T.see
  onlyWaits' : M.OnlyWaits T.see
  same : K.passing (T.see .nothing) = M.passing (T.see .nothing)
  twisters : ∀ i, drawn i → (T.store w).twisters[i]? = (T.store u).twisters[i]?
  rests : ∃ q q' r x x' y es fs, K.Passes (T.see .nothing) q x es r y ∧
    M.Passes (T.see .nothing) q' x' fs r y ∧ Conducts (T.keeping drawn) L K.spared w (.ok p) q ∧
    Conducts (T.keeping drawn) L M.spared u (.ok p') q' ∧ T.Holds w x ∧ T.Holds u x' ∧
    (pre ++ es).filter Event.isTold = (post ++ fs).filter Event.isTold

theorem PassedAlike.symm (h : PassedAlike T drawn L K M w u pre post p p') :
    PassedAlike T drawn L M K u w post pre p' p where
  onlyWaits := h.onlyWaits'
  onlyWaits' := h.onlyWaits
  same := h.same.symm
  twisters i hi := (h.twisters i hi).symm
  rests := by
    obtain ⟨q, q', r, x, x', y, es, fs, hpath, hpath', hp, hp', hx, hx', htold⟩ := h.rests
    exact ⟨q', q, r, x', x, y, fs, es, hpath', hpath, hp', hp, hx', hx, htold.symm⟩

/-- Values to which the machine comes are noted. -/
theorem proceeds_noting (K : Conduct V τ σ) (l m n : Nat) (w u : T.World) :
    (passing hT L (some (l, m))).Proceeds (endings hT K)
      ((passing hT L (some (l, m))).alike elsewhere) n w u
      (Program.graft · (.arrowOf (.recordIn l))) (Program.graft · (.arrowOf (.recordIn m)))
      (.grafted · (.arrowOf (.recordIn l))) (.grafted · (.arrowOf (.recordIn m))) :=
  Comparison.proceeds_graft rfl rfl (fun _ _ hp => hp) fun _ _ _ _ _ _ _ _ hlevel hx =>
    Comparison.matched_recordIn hlevel hx.1

/-- Such programs are tracked alike. -/
theorem PassedAlike.tracked (h : PassedAlike T drawn L K M w u pre post p p') :
    TrackedAlike hT L (T.store w) (T.store u) pre post p p' := by
  intro n s' t' hs ht hlist hlist'
  obtain ⟨q, q', r, x, x', y, es, fs, hpath, hpath', hp, hp', hx, hx', htold⟩ := h.rests
  obtain ⟨z, hz, rfl, hholds⟩ := hT.moved (w := w) hs.moves
  obtain ⟨v, hv, rfl, hholds'⟩ := hT.moved (w := u) ht.moves
  refine ⟨z, v, ?_⟩
  refine Comparison.aligned_of_conducts h.onlyWaits h.onlyWaits' h.same (proceeds_noting K _ _ n z v) hpath
    hpath' (hp.later hz) (hp'.later hv) (hholds _ hx) (hholds' _ hx') htold ⟨fun hi => ?_, ?_⟩
  · rw [hs.holds.twisters hi, ht.holds.twisters hi, h.twisters _ hi]
  · rintro _ _ ⟨⟩
    exact ⟨[], [], hlist, hlist', rfl⟩

/-- So are they when they are run from an initial state. -/
theorem PassedAlike.tracked_stateRun (h : PassedAlike T drawn L K M w u pre post p p')
    {initial withFinalState p₁ p₁' : Value} {paired : Bool}
    (hpaired : Action.truth withFinalState = .done paired)
    (hplain : paired = true ∨ ∀ q x, K.node q = .leaf (T.see x) → x.isProgram = false)
    {cs cs' : List Call} (hmade : Traced (State.run p initial withFinalState) (T.store w) cs (.ok p₁) s)
    (hmade' : Traced (State.run p' initial withFinalState) (T.store u) cs' (.ok p₁') t) :
    TrackedAlike hT L s t (pre ++ L.events T.see cs) (post ++ L.events T.see cs') p₁ p₁' := by
  intro n s' t' hs ht hlist hlist'
  obtain ⟨q, q', r, x, x', y, es, fs, hpath, hpath', hp, hp', hx, hx', htold⟩ := h.rests
  refine ⟨w, u, ?_⟩
  have hleft (name : String) (params : List Value) (hname : (endings hT K).performs name params)
      (_ : name ≠ State.getName) (_ : name ≠ State.putName) : elsewhere name params := hname
  have hproceeds := Comparison.proceeds_state (E := passing hT L none) (n := weight cs + n) (w := w)
    (u := u) (Λ := endings hT K) (Comparison.passing_fair hT) (fun _ _ _ _ _ hx => hx.1)
    (hplain.imp_right fun h _ _ _ x x' ⟨hx, q, hq⟩ => ⟨h q x hq, h q x' (hx ▸ hq)⟩) hleft
  have haligned := Comparison.aligned_of_conducts h.onlyWaits h.onlyWaits' h.same hproceeds hpath hpath' hp
    hp' hx hx' htold ⟨fun hi => h.twisters _ hi, nofun⟩
  have hstated := (haligned.stated hpaired fun _ _ => rfl).resumed hmade hs hmade' ht
  -- From now on the values are compared that are noted, and so far none is.
  have hlisted : (passing hT L (some (s.completed.size, t.completed.size))).Aligned n w
      (pre ++ L.events T.see cs) s' (.done p₁) u (post ++ L.events T.see cs') t' (.done p₁')
      ((passing hT L (some (s.completed.size, t.completed.size))).Twins
        ((passing hT L (some (s.completed.size, t.completed.size))).alike elsewhere)) := by
    refine hstated.listed ?_ fun _ _ _ _ _ htwins => htwins.listed _
    rintro _ _ ⟨⟩
    exact ⟨[], [], hlist, hlist', rfl⟩
  refine Comparison.Aligned.bind (Comparison.through_graft _ rfl) (Comparison.through_graft _ rfl)
    (hlisted.mono fun j z v y v' _ _ hlevel htwins => ?_)
  exact htwins.graft rfl rfl (fun _ _ hp => hp)
    (fun _ _ _ _ _ _ _ _ hlevel hx => Comparison.matched_recordIn hlevel hx) hlevel

end Beginnings

/-- So when the run of the one has ended, the run of the other ends with an outcome that looks the same. -/
theorem TrackedAlike.runScheduled (h : TrackedAlike hT L s t pre post p p') (hleft : T.Tells left)
    {stack : List Value} (hstack : ∀ h ∈ stack, T.Serves drawn L h) {scheduler scheduler' : Value}
    {start start' : Number} (hs : Fresh s scheduler start) (ht : Fresh t scheduler' start') {tag tag' : Nat}
    {cs : List Call} {o : Ending}
    (htr : Traced (Run.runScheduled p (.tuple tag stack) scheduler .nothing) s cs o s') :
    ∃ ds outcome outcome' t', Traced (Run.runScheduled p' (.tuple tag' stack) scheduler' .nothing) t ds
        (.ok outcome') t' ∧ o = .ok outcome ∧ AlikeOutcomes T.see outcome outcome' ∧
      (pre ++ L.events T.see cs).filter Event.isTold = (post ++ L.events T.see ds).filter Event.isTold ∧
      (∀ i, drawn i → s'.twisters[i]? = t'.twisters[i]?) ∧
      s'.AtRest (s.agendaFor scheduler) (start.afterWaits (L.events T.see cs)) := by
  obtain ⟨s₁, hhosting, hs₁, hat, hlist⟩ := hs.exists_hosting
  obtain ⟨t₁, hhosting', ht₁, hat', hlist'⟩ := ht.exists_hosting
  obtain ⟨w, u, haligned⟩ := h (weight cs) s₁ t₁ hs₁ ht₁ hlist hlist'
  replace haligned := haligned.layered hstack
  obtain ⟨fs, e, z₁, gs, hdriven, hconclude, hcs, hle⟩ :=
    exists_driven_of_runScheduled L T.see hhosting htr
  -- Both programs are driven until neither waits, and then they look the same.
  obtain ⟨j, said, v, e₁, _, executed, hR, hv, hend, hsaid⟩ := haligned.driven hat hdriven hle
  obtain ⟨said', v', e₁', executed', hmeet, hv', hback⟩ := hR.driven hat' 0
  obtain ⟨z, y, rfl, rfl, -, -, ⟨-, hlevels⟩, htold, hends⟩ := hmeet
  obtain ⟨vs, vs', hvs, hvs', hsame⟩ := hlevels.completed rfl
  obtain ⟨r, r', hr, hr', hrs⟩ := exists_traced_ends hleft hv hv' executed executed' hends
  obtain ⟨rfl, rfl, rfl⟩ := hend.unique hr
  obtain ⟨outcome, outcome', n, records, m, records', hmade, hmade', halike⟩ :=
    exists_traced_conclude hT.see_tagged hrs hv hv' hvs hvs' hsame
  obtain ⟨rfl, rfl, rfl⟩ := hconclude.unique hmade
  obtain ⟨fs', hdriven', hsaid'⟩ := hback _ _ _ hr'
  obtain ⟨ds, hrun', hds⟩ := exists_runScheduled_of_driven L T.see tag' hhosting' hdriven' hmade'
  rw [hsaid, show L.events T.see [] = [] from rfl, List.append_nil, List.append_nil] at hcs
  rw [hsaid', show L.events T.see [] = [] from rfl, List.append_nil, List.append_nil] at hds
  rw [hcs]
  refine ⟨ds, outcome, outcome', _, hrun', rfl, halike, ?_, fun i hi => hlevels.twisters hi, hv⟩
  rw [hds]
  exact htold

end Running

end AlgebraicEffects
