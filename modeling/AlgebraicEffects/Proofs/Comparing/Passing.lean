import AlgebraicEffects.Proofs.Comparing.Waiting

/-!
Programs whose waits are passed go on alike.

A run that waits is taken up again until it comes to where its machine does not wait, and so is the run
that it is compared with (`Aligned.passed`, `Aligned.passed_too`). So two programs conduct themselves alike,
whatever is done next, if their machines are the same once their waits are passed
(`Comparison.matched_of_conducts`).
-/

set_option autoImplicit false

namespace AlgebraicEffects

open Action (Traced)
open Suspension (suspendName nowName)

variable {V τ σ : Type} {T : Venue V τ} {drawn : Nat → Prop} {L : Listener} {K M : Conduct V τ σ}
  {lists : Option (Nat × Nat)}

namespace Comparison

variable {hT : T.Lets drawn} {w w' u z y : T.World} {e e' : Ending} {q r : σ} {x x' : τ} {n : Nat}
  {es fs pre post : List (Event V)} {k k' : Value → Action Value} {go go' : Value → Function}
  {a b : Action Value} {s t : Store} {Φ : Nat → Likeness (T.scene hT)}

section Resuming

/-- A program that is resumed leaves alone what is there then. -/
theorem ends_resumed (hT : T.Lets drawn) {tag : Nat} {name : String} {params : List Value} {resume : Value}
    (hp : Conducts (T.keeping drawn) L K.spared w (.ok (.operation tag name params resume)) q)
    (hu : T.Later w u) (hx : T.Holds u x) (answer : Value) :
    EndsAs (T.keeping drawn) L (Action.ask resume [answer]) u
      (fun es p y => K.next q (T.see answer) x es p y.1 ∧ y.2 = T.store u)
      (Conducts (T.keeping drawn) L K.spared) :=
  hp.resume (x := (x, T.store u)) hu (hT.fits u answer) ⟨hx, .refl _⟩

/-- What a program does that is resumed keeps everything. -/
theorem keeps_resumed (hK : K.OnlyWaits T.see) {v : V} {cs : List Call} {p : σ} {x' : τ} {b : Store}
    (hnext : K.next q v x (L.events T.see cs) p x') (hy : (T.keeping drawn).Holds y (x', b)) :
    (passing hT L lists).Keeps b ((passing hT L lists).events cs) (T.store y) :=
  ⟨fun _ _ => hy.2.agendas, fun _ _ _ => hy.2.completed, hK.quiet hnext⟩

/-- After a first part with a known run, whether it has failed or not. -/
theorem Leads.ended {S : Scene V} {E : Comparison S} {cs : List Call} (h : Traced a s cs e t)
    (hkeeps : E.Keeps s (E.events cs) t) (k : Value → Action Value) :
    E.Leads s (a.bind k) (weight cs) (E.events cs) t (Action.after k e) := by
  cases e with
  | ok v => exact .after h hkeeps
  | error f =>
    refine ⟨⟨fun ds o v hds => ?_, fun ds o v hds => ?_⟩, hkeeps⟩
    · obtain ⟨rfl, rfl, rfl⟩ := hds.unique h.bind_error
      exact ⟨[], .fail f _, (List.append_nil _).symm, Nat.le_of_eq (Nat.zero_add _)⟩
    · cases hds
      exact ⟨cs, h.bind_error, (List.append_nil _).symm⟩

/-- Where its machine waits, the program waits. -/
theorem exists_waiting (hK : K.OnlyWaits T.see) {ps : List V}
    (hq : K.node q = .operation suspendName ps) (hp : Conducts (T.keeping drawn) L K.spared w e q) :
    ∃ tag own delay resume d,
      e = .ok (.operation tag suspendName [.function own (.waitStart delay)] resume) ∧
      delay.number? = some d ∧ d.IsTimely := by
  have hlooks : Looks T.see e (K.node q) := hp.looks
  rw [hq] at hlooks
  obtain ⟨tag, params, resume, rfl, hparams⟩ := hlooks.exists_operation
  obtain ⟨v, d, rfl, hshows, htimely⟩ := hK.waits hq
  obtain ⟨start, rfl, hstart⟩ := List.map_eq_singleton_iff.1 hparams
  obtain ⟨own, delay, rfl, hd⟩ := hshows start hstart
  exact ⟨tag, own, delay, resume, d, rfl, hd, htimely⟩

/-- What is done next with a program that waits. -/
theorem awaits_continued (hk : (passing hT L lists).Continued k go) (tag own : Nat) {delay : Value}
    (resume : Value) {d : Number} (hd : delay.number? = some d) (htimely : d.IsTimely) :
    k (.operation tag suspendName [.function own (.waitStart delay)] resume) =
        .done (awaiting 0 own delay 0 (go resume)) ∧
      (passing hT L lists).Awaits (.ok (awaiting 0 own delay 0 (go resume))) d (go resume) :=
  ⟨hk.waits tag own delay resume rfl, rfl, 0, own, delay, 0, rfl, hk.goesOn resume, hd, htimely⟩

/-- A program that is resumed while it waits. -/
theorem leads_resumed (hK : K.OnlyWaits T.see) {tag : Nat} {name : String} {params : List Value}
    {resume answer : Value} {p : σ}
    (hp : Conducts (T.keeping drawn) L K.spared w (.ok (.operation tag name params resume)) q)
    (hu : T.Later w u) (hx : T.Holds u x) (hnext : K.next q (T.see answer) x es p x')
    (k : Value → Action Value) : ∃ calls e' y, (passing hT L lists).Leads (T.store u)
      ((Action.ask resume [answer]).bind k) calls es (T.store y) (Action.after k e') ∧ T.Later u y ∧
      (T.store u).Respects drawn (T.store y) ∧ T.Holds y x' ∧
      Conducts (T.keeping drawn) L K.spared y e' p := by
  obtain ⟨cs, o, y, htr, hy, rfl, hholds, hp'⟩ :=
    (ends_resumed hT hp hu hx answer).as es p (x', T.store u) ⟨hnext, rfl⟩
  exact ⟨_, o, y, .ended htr (keeps_resumed hK hnext hholds) k, hy, hholds.2, hholds.1, hp'⟩

/-- A program that is resumed always ends so if what it comes to does. -/
theorem always_resumed (hK : K.OnlyWaits T.see) {tag : Nat} {name : String} {params : List Value}
    {resume answer : Value} (hp : Conducts (T.keeping drawn) L K.spared w
      (.ok (.operation tag name params resume)) q) (hu : T.Later w u) (hx : T.Holds u x)
    {R : Nat → List (Event V) → Store → Ending → Prop}
    (h : ∀ m es p x' y e', m ≤ n → K.next q (T.see answer) x es p x' → T.Holds y x' →
      Conducts (T.keeping drawn) L K.spared y e' p →
      Always (passing hT L lists) m (Action.after k e') (T.store y) fun j said => R j (es ++ said)) :
    Always (passing hT L lists) n ((Action.ask resume [answer]).bind k) (T.store u) R := by
  by_cases hends : ∃ cs o t, Traced (Action.ask resume [answer]) (T.store u) cs o t
  · obtain ⟨cs, o, t, htr⟩ := hends
    obtain ⟨es, p, ⟨x', b⟩, y, ⟨hnext, rfl⟩, rfl, -, rfl, hheld, hp'⟩ :=
      (ends_resumed hT hp hu hx answer).exists_of_traced htr
    refine .of_leads (.ended htr (keeps_resumed hK hnext hheld) k) fun m hm => ?_
    exact h m _ p x' y o (by omega) hnext hheld.1 hp'
  · refine .of_not_ending fun cs o t htr => ?_
    obtain ⟨ds, v, t', hfirst⟩ := htr.exists_of_bind
    exact hends ⟨ds, v, t', hfirst⟩

end Resuming

section Passing

/-- That it has waited is not told. -/
theorem told_waited (d : Number) (h : (passing hT L lists).told pre = (passing hT L lists).told post) :
    (passing hT L lists).told (pre ++ [.waited d]) = (passing hT L lists).told post := by
  rw [told_append, h]
  exact List.append_nil _

/-- The first run is taken up again until its machine does not wait. -/
theorem Aligned.passed (hK : K.OnlyWaits T.see) (hk : (passing hT L lists).Continued k go)
    (hpath : K.Passes (T.see .nothing) q x es r x') (hp : Conducts (T.keeping drawn) L K.spared w' e q)
    (hx : T.Holds w' x)
    (h : ∀ m pre' z e', m ≤ n → (passing hT L lists).told pre' = (passing hT L lists).told (pre ++ es) →
      T.Later w' z → (T.store w').Holds drawn (T.store z) → T.Holds z x' →
      Conducts (T.keeping drawn) L K.spared z e' r →
      (passing hT L lists).Aligned m w pre' (T.store z) (Action.after k e') u post t b Φ) :
    (passing hT L lists).Aligned n w pre (T.store w') (Action.after k e) u post t b Φ := by
  induction hpath generalizing w' e n pre with
  | rests _ =>
    exact h n pre w' e (Nat.le_refl n) (by rw [List.append_nil]) (T.refl w') (.refl _) hx hp
  | @waits q p r x y x' ps es fs hq hnext _ ih =>
    obtain ⟨tag, own, delay, resume, d, rfl, hd, htimely⟩ := exists_waiting hK hq hp
    obtain ⟨hwaits, hawaits⟩ := awaits_continued hk tag own resume hd htimely
    show (passing hT L lists).Aligned n w pre _ (k _) u post t b Φ
    rw [hwaits]
    refine .of_wait hawaits fun m s' hm hs' => ?_
    obtain ⟨z, hz, rfl, hholds⟩ := hT.moved (w := w') hs'.moves
    rw [hk.apply]
    obtain ⟨calls, e₁, y₁, hleads, hy₁, hrespects, hx₁, hp₁⟩ :=
      leads_resumed hK hp hz (hholds x hx) hnext k
    refine .of_leads hleads (.refl t b) fun l hl => ?_
    rw [List.append_nil]
    refine ih hp₁ hx₁ fun i pre' z' e' hi hpre hz' hheld => ?_
    refine h i pre' z' e' (by omega) (hpre.trans ?_) (T.trans hz (T.trans hy₁ hz'))
      ((hs'.holds.trans hrespects.holds).trans hheld)
    rw [List.append_assoc, told_append, told_waited d rfl, ← told_append]

/-- So is the second run. -/
theorem Aligned.passed_too (hM : M.OnlyWaits T.see) (hk' : (passing hT L lists).Continued k' go')
    (hpath : M.Passes (T.see .nothing) q x fs r x') (hp : Conducts (T.keeping drawn) L M.spared w' e q)
    (hx : T.Holds w' x)
    (h : ∀ post' y e', (passing hT L lists).told post' = (passing hT L lists).told (post ++ fs) →
      T.Later w' y → (T.store w').Holds drawn (T.store y) → T.Holds y x' →
      Conducts (T.keeping drawn) L M.spared y e' r →
      (passing hT L lists).Aligned n w pre s a u post' (T.store y) (Action.after k' e') Φ) :
    (passing hT L lists).Aligned n w pre s a u post (T.store w') (Action.after k' e) Φ := by
  induction hpath generalizing w' e post with
  | rests _ => exact h post w' e (by rw [List.append_nil]) (T.refl w') (.refl _) hx hp
  | @waits q p r x y x' ps es fs hq hnext _ ih =>
    obtain ⟨tag, own, delay, resume, d, rfl, hd, htimely⟩ := exists_waiting hM hq hp
    obtain ⟨hwaits, hawaits⟩ := awaits_continued hk' tag own resume hd htimely
    show (passing hT L lists).Aligned n w pre s a u post _ (k' _) Φ
    rw [hwaits]
    refine .of_wait_too hawaits fun t' ht' => ?_
    obtain ⟨z, hz, rfl, hholds⟩ := hT.moved (w := w') ht'.moves
    rw [hk'.apply]
    obtain ⟨calls, e₁, y₁, hleads, hy₁, hrespects, hx₁, hp₁⟩ :=
      leads_resumed hM hp hz (hholds x hx) hnext k'
    refine .of_leads (.refl s a) hleads fun l hl => ?_
    rw [List.append_nil]
    refine Aligned.fewer (ih hp₁ hx₁ fun post' z' e' hpost hz' hheld => ?_) hl
    refine h post' z' e' (hpost.trans ?_) (T.trans hz (T.trans hy₁ hz'))
      ((ht'.holds.trans hrespects.holds).trans hheld)
    rw [List.append_assoc, told_append, told_waited d rfl, ← told_append]

/-- Both are, and then what is done next matches. -/
theorem aligned_of_resting {u' : T.World} {y' : τ} {q' : σ} (hK : K.OnlyWaits T.see)
    (hM : M.OnlyWaits T.see) (hk : (passing hT L lists).Continued k go)
    (hk' : (passing hT L lists).Continued k' go') (hpath : K.Passes (T.see .nothing) q x es r y')
    (hpath' : M.Passes (T.see .nothing) q' x' fs r y')
    (hp : Conducts (T.keeping drawn) L K.spared w' e q) (hp' : Conducts (T.keeping drawn) L M.spared u' e' q')
    (hx : T.Holds w' x) (hx' : T.Holds u' x') (hw' : T.Later w w') (hu' : T.Later u u')
    (htold : (passing hT L lists).told (pre ++ es) = (passing hT L lists).told (post ++ fs))
    (hlevels : (T.store w').Levels T.see drawn lists (T.store u'))
    (hrest : ∀ m z e y e', m ≤ n → T.Later w z → T.Later u y → Conducts (T.keeping drawn) L K.spared z e r →
      Conducts (T.keeping drawn) L M.spared y e' r → (passing hT L lists).Level z y →
      (passing hT L lists).Matched m (Action.after k e) z (Action.after k' e') y Φ) :
    (passing hT L lists).Aligned n w pre (T.store w') (Action.after k e) u post (T.store u')
      (Action.after k' e') Φ := by
  refine .passed hK hk hpath hp hx fun m pre' z e₁ hm hpre hz hheld hx₁ hp₁ => ?_
  refine .passed_too hM hk' hpath' hp' hx' fun post' y e₁' hpost hy hheld' hx₁' hp₁' => ?_
  have hlater := T.trans hw' hz
  have hlater' := T.trans hu' hy
  exact (hrest m z e₁ y e₁' hm hlater hlater' hp₁ hp₁'
    ⟨⟨y', hx₁, hx₁'⟩, hlevels.held hheld hheld'⟩).aligned hlater hlater' (hpre.trans (htold.trans hpost.symm))

/-- A program whose machine never stops waiting does not come to an end. -/
theorem always_of_endless (hK : K.OnlyWaits T.see) (hk : (passing hT L lists).Continued k go)
    (hno : ∀ es r y, ¬ K.Passes (T.see .nothing) q x es r y)
    (hp : Conducts (T.keeping drawn) L K.spared w e q) (hx : T.Holds w x)
    {R : Nat → List (Event V) → Store → Ending → Prop} :
    Always (passing hT L lists) n (Action.after k e) (T.store w) R := by
  induction n using Nat.strong_induction_on generalizing w e q x R with
  | _ n ih =>
    obtain ⟨ps, hq⟩ : ∃ ps, K.node q = .operation suspendName ps := by
      by_contra hawake
      exact hno [] q x (.rests fun ps hps => hawake ⟨ps, hps⟩)
    obtain ⟨tag, own, delay, resume, d, rfl, hd, htimely⟩ := exists_waiting hK hq hp
    obtain ⟨hwaits, hawaits⟩ := awaits_continued hk tag own resume hd htimely
    show Always _ n (k _) _ R
    rw [hwaits]
    refine .intro (fun cs o t htr _ => ?_) (fun cs o t j htr _ ho => ?_)
      fun cs o t j d' g s' htr hj ho hs' => ?_
    all_goals cases htr
    · exact (passing hT L lists).keeps_refl _
    · exact absurd hawaits (ho d _)
    · obtain ⟨-, rfl⟩ := hawaits.2.unique ho.2
      obtain ⟨z, hz, rfl, hholds⟩ := hT.moved (w := w) hs'.moves
      rw [hk.apply]
      refine always_resumed hK hp hz (hholds x hx) fun m es p x' y e' hm hnext hx' hp' => ?_
      exact ih m (Nat.lt_of_le_of_lt (by omega) hj) (fun fs r y' h => hno _ r y' (.waits hq hnext h)) hp' hx'

end Passing

section Alike

/-- Operations that are no suspension and do not ask for the time. -/
def elsewhere (name : String) (_ : List Value) : Prop := name ≠ suspendName ∧ name ≠ nowName

theorem same_of_map_see {xs xs' : List Value} (h : xs.map T.see = xs'.map T.see) :
    List.Forall₂ ((passing hT L lists).Same w u) xs xs' := by
  have hall : List.Forall₂ Eq (xs.map T.see) (xs'.map T.see) := h ▸ List.forall₂_same.2 fun _ _ => rfl
  rwa [List.forall₂_map_left_iff, List.forall₂_map_right_iff] at hall

/-- Values that look the same, as something does to which the machine comes in the end. -/
def endings (hT : T.Lets drawn) (K : Conduct V τ σ) : Traits (T.scene hT) where
  carries _ _ x _ x' := T.see x = T.see x' ∧ ∃ q, K.node q = .leaf (T.see x)
  fewer _ h := h
  performs := elsewhere

variable {Λ' : Traits (T.scene hT)}

/-- Programs whose machines are the same once their waits are passed go on alike: where they do not wait they
show the same, and whatever is answered, in worlds that go together, they come to the same. -/
theorem matched_of_conducts (hK : K.OnlyWaits T.see) (hM : M.OnlyWaits T.see)
    (hsame : K.passing (T.see .nothing) = M.passing (T.see .nothing))
    (hk : (passing hT L lists).Proceeds (endings hT K) Λ' n w u k k' go go')
    (hp : Conducts (T.keeping drawn) L K.spared w e r)
    (hp' : Conducts (T.keeping drawn) L M.spared u e' r)
    (hr : ∀ ps, K.node r ≠ .operation suspendName ps) (hlevel : (passing hT L lists).Level w u) :
    (passing hT L lists).Matched n (Action.after k e) w (Action.after k' e') u
      ((passing hT L lists).Twins Λ') := by
  induction n using Nat.strong_induction_on generalizing w u e e' r with
  | _ n ih =>
    have hnode : K.node r = M.node r := congrFun (congrArg Conduct.node hsame) r
    have hlooks : Looks T.see e (K.node r) := hp.looks
    have hlooks' : Looks T.see e' (K.node r) := hnode ▸ hp'.looks
    generalize hn : K.node r = node at hlooks hlooks'
    cases hlooks with
    | @failure f =>
      generalize hl : Node.failure (T.see (.failure f)) = node at hlooks'
      cases hlooks' with
      | leaf | operation => cases hl
      | @failure f' =>
        exact .of_traced (.fail f _) (.fail f' _) ((passing hT L lists).keeps_refl _)
          ((passing hT L lists).keeps_refl _) (rests_error _ f) (rests_error _ f') (T.refl w) (T.refl u)
          hlevel rfl fun _ _ => .error (Node.failure.inj hl)
    | @leaf v x tag hv =>
      generalize hl : Node.leaf (T.see x) = node at hlooks'
      cases hlooks' with
      | operation | failure => cases hl
      | @leaf v' x' tag' hv' =>
        show (passing hT L lists).Matched n (k v) w (k' v') u _
        rw [← hk.continued.lifts, ← hk.continued'.lifts, hv, hv']
        exact hk.leaf n w u tag tag' x x' (Nat.le_refl n) (T.refl w) (T.refl u) hlevel
          ⟨Node.leaf.inj hl, r, hn⟩
    | @operation tag name params resume =>
      obtain ⟨tag', params', resume', heq, hparams⟩ := hlooks'.exists_operation
      cases heq
      have hname : elsewhere name params := by
        refine ⟨?_, ?_⟩
        · rintro rfl
          exact hr _ hn
        · rintro rfl
          exact hK.timeless hn
      refine hk.operation n w u tag tag' name params params' resume resume' (Nat.le_refl n) (T.refl w)
        (T.refl u) hlevel (fun _ => hname.1) hname ?_ ?_
      · exact same_of_map_see hparams.symm
      · intro j hj z y a a' hz hy hlevel' ha
        rw [hk.continued.apply, hk.continued'.apply]
        obtain ⟨⟨x, hx, hx'⟩, hlevels⟩ := hlevel'
        by_cases hpath : ∃ es p x', (K.passing (T.see .nothing)).next r (T.see a) x es p x'
        · obtain ⟨es, p, x₂, hpath⟩ := hpath
          obtain ⟨es', p', x₁', fs', hnext', hpasses', hes'⟩ := hsame ▸ hpath
          obtain ⟨es, p₁, x₁, fs, hnext, hpasses, rfl⟩ := hpath
          obtain ⟨calls, e₁, z₁, hleads, hz₁, hrespects, hx₁, hp₁⟩ := leads_resumed hK hp hz hx hnext k
          rw [show T.see a = T.see a' from ha] at hnext'
          obtain ⟨calls', e₁', y₁, hleads', hy₁, hrespects', hx₁', hp₁'⟩ :=
            leads_resumed hM hp' hy hx' hnext' k'
          refine matched_iff.2 <| Aligned.of_leads hleads hleads' fun m hm => ?_
          refine aligned_of_resting hK hM hk.continued hk.continued' hpasses hpasses' hp₁ hp₁' hx₁ hx₁'
            hz₁ hy₁ (congrArg _ hes') (hlevels.held hrespects.holds hrespects'.holds)
            fun i z₂ e₂ y₂ e₂' hi hz₂ hy₂ hp₂ hp₂' hlevel => ?_
          exact ih i (by omega) (hk.within (by omega) (T.trans hz hz₂) (T.trans hy hy₂)) hp₂ hp₂'
            hpasses.awake hlevel
        · refine always_resumed hK hp hz hx fun m es p x' y e' _ hnext hx' hp' => ?_
          refine always_of_endless hK hk.continued (fun fs p' x₂ hpasses => ?_) hp' hx'
          exact hpath ⟨_, p', x₂, es, p, x', fs, hnext, hpasses, rfl⟩

/-- So they go on alike also where they wait, if they come to the same with their waits passed. -/
theorem aligned_of_conducts {y' : τ} {q' : σ} (hK : K.OnlyWaits T.see) (hM : M.OnlyWaits T.see)
    (hsame : K.passing (T.see .nothing) = M.passing (T.see .nothing))
    (hk : (passing hT L lists).Proceeds (endings hT K) Λ' n w u k k' go go')
    (hpath : K.Passes (T.see .nothing) q x es r y') (hpath' : M.Passes (T.see .nothing) q' x' fs r y')
    (hp : Conducts (T.keeping drawn) L K.spared w e q) (hp' : Conducts (T.keeping drawn) L M.spared u e' q')
    (hx : T.Holds w x) (hx' : T.Holds u x')
    (htold : (passing hT L lists).told (pre ++ es) = (passing hT L lists).told (post ++ fs))
    (hlevels : (T.store w).Levels T.see drawn lists (T.store u)) :
    (passing hT L lists).Aligned n w pre (T.store w) (Action.after k e) u post (T.store u)
      (Action.after k' e') ((passing hT L lists).Twins Λ') :=
  aligned_of_resting hK hM hk.continued hk.continued' hpath hpath' hp hp' hx hx' (T.refl w) (T.refl u) htold
    hlevels fun _ _ _ _ _ hm hz hy hp hp' hlevel =>
      matched_of_conducts hK hM hsame (hk.within hm hz hy) hp hp' hpath.awake hlevel

end Alike

end Comparison

end AlgebraicEffects
