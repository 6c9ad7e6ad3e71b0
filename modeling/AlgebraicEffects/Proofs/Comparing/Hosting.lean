import AlgebraicEffects.Proofs.Comparing.Passing

/-!
Runs that go on under hosts.

After a known beginning two runs that are compared go on aligned also if hosts have done something meanwhile
(`Comparison.Aligned.resumed`), and also if from now on the values are compared that are noted at the ends of
flows: what was compared before leaves them alone (`Comparison.Aligned.listed`). Noting a value that goes
together with another one is one more of them (`Comparison.matched_recordIn`).
-/

set_option autoImplicit false

namespace AlgebraicEffects

open Action (Traced)

variable {V τ : Type} {T : Venue V τ} {drawn : Nat → Prop} {L : Listener} {lists : Option (Nat × Nat)}

namespace Comparison

variable {hT : T.Lets drawn} {w u : T.World} {n : Nat} {es fs : List (Event V)} {a b : Action Value}
  {s s' s'' t t' t'' : Store} {e e' : Ending} {P : String → List Value → Prop}

section Resuming

/-- What matches does so also after hosts have done something. -/
theorem Meet.elapsed {j : Nat} (h : (passing hT L none).Meet
      ((passing hT L none).Twins ((passing hT L none).alike P)) w u j es s e fs t e')
    (hs : s.Elapses s') (ht : t.Elapses t') : (passing hT L none).Meet
      ((passing hT L none).Twins ((passing hT L none).alike P)) w u j es s' e fs t' e' := by
  obtain ⟨z, y, rfl, rfl, hz, hy, ⟨⟨x, hx, hx'⟩, hlevels⟩, htold, hends⟩ := h
  obtain ⟨z', hz', rfl, hholds⟩ := hT.moved (w := z) hs.moves
  obtain ⟨y', hy', rfl, hholds'⟩ := hT.moved (w := y) ht.moves
  exact ⟨z', y', rfl, rfl, T.trans hz hz', T.trans hy hy',
    ⟨⟨x, hholds x hx, hholds' x hx'⟩, hlevels.held hs.holds ht.holds⟩, htold,
    hends.mono fun _ _ htwins => htwins.later hz' hy' fun _ _ hsame => hsame⟩

/-- After known beginnings, and after hosts have done something, the runs are aligned. -/
theorem Aligned.resumed {cs ds : List Call} {p p' : Value}
    (h : (passing hT L none).Aligned (weight cs + n) w es s a u fs t b
      ((passing hT L none).Twins ((passing hT L none).alike P)))
    (ha : Traced a s cs (.ok p) s') (hs : s'.Elapses s'') (hb : Traced b t ds (.ok p') t')
    (ht : t'.Elapses t'') :
    (passing hT L none).Aligned n w (es ++ (passing hT L none).events cs) s'' (.done p) u
      (fs ++ (passing hT L none).events ds) t'' (.done p')
      ((passing hT L none).Twins ((passing hT L none).alike P)) := by
  have hsecond := Always.mono h fun j said s e _ hR =>
    Ultimately.resumed hR hb ht fun hmeet => hmeet.elapsed (.refl s) ht
  refine Always.mono (Always.resumed hsecond ha hs (Nat.le_refl _) fun j _ hR => ?_) fun j said s e _ hR => ?_
  · exact hR.mono fun said' t e' hmeet => hmeet.elapsed hs (.refl t)
  · refine hR.mono fun said' t e' hmeet => ?_
    rw [List.append_assoc, List.append_assoc]
    exact hmeet

end Resuming

section Listing

/-- The results that were reached are there. -/
abbrev Lasting (s t : Store) : Prop :=
  ∀ (i : Nat) (vs : List Value), s.completed[i]? = some vs → t.completed[i]? = some vs

/-- What leaves all results alone does so also where some of them are compared. -/
theorem Always.listed {R : Nat → List (Event V) → Store → Ending → Prop}
    (h : Always (passing hT L none) n a s R) (lists : Option (Nat × Nat)) :
    Always (passing hT L lists) n a s fun j es t o => R j es t o ∧ Lasting s t := by
  induction h with
  | intro keeps ends waits ih =>
    refine .intro (fun cs o t htr hle => ?_) (fun cs o t j htr hj ho => ?_)
      fun cs o t j d f u htr hj ho hu => ?_
    · have hkeeps := keeps cs o t htr hle
      exact ⟨hkeeps.1, fun _ => hkeeps.2.1 rfl, hkeeps.2.2⟩
    · exact ⟨ends cs o t j htr hj ho, (keeps cs o t htr (by omega)).2.1 rfl⟩
    · refine (ih cs o t j d f u htr hj ho hu).mono fun i said v e _ hR => ⟨hR.1, fun l vs hv => ?_⟩
      exact hR.2 l vs (hu.completed ((keeps cs o t htr (by omega)).2.1 rfl l vs hv))

theorem Ultimately.listed {Q : List (Event V) → Store → Ending → Prop}
    (h : Ultimately (passing hT L none) a s Q) (lists : Option (Nat × Nat)) :
    Ultimately (passing hT L lists) a s fun es t o => Q es t o ∧ Lasting s t := by
  induction h with
  | ends htr hkeeps ho hq => exact .ends htr ⟨hkeeps.1, fun _ => hkeeps.2.1 rfl, hkeeps.2.2⟩ ho ⟨hq, hkeeps.2.1 rfl⟩
  | waits htr hkeeps ho _ ih =>
    refine .waits htr ⟨hkeeps.1, fun _ => hkeeps.2.1 rfl, hkeeps.2.2⟩ ho fun u hu =>
      (ih u hu).mono fun said v e hq => ⟨hq.1, fun l vs hv => ?_⟩
    exact hq.2 l vs (hu.completed (hkeeps.2.1 rfl l vs hv))

/-- Runs that are aligned where no values are compared are so where values are compared that look the
same now. -/
theorem Aligned.listed {Φ Ψ : Nat → Likeness (T.scene hT)}
    (h : (passing hT L none).Aligned n w es s a u fs t b Φ)
    (hcompleted : ∀ l m, lists = some (l, m) → ∃ vs vs', s.completed[l]? = some vs ∧
      t.completed[m]? = some vs' ∧ vs.map T.see = vs'.map T.see)
    (hΦ : ∀ j z v y v', Φ j z v y v' → Ψ j z v y v') :
    (passing hT L lists).Aligned n w es s a u fs t b Ψ := by
  refine Always.mono (Always.listed h lists) fun j said s' e _ ⟨hR, hlasting⟩ => ?_
  refine (Ultimately.listed hR lists).mono fun said' t' e' ⟨hmeet, hlasting'⟩ => ?_
  obtain ⟨z, y, rfl, rfl, hz, hy, ⟨hheld, hlevels'⟩, htold, hends⟩ := hmeet
  refine ⟨z, y, rfl, rfl, hz, hy, ⟨hheld, hlevels'.twisters, fun hlists => ?_⟩, htold,
    hends.mono fun v v' => hΦ j z v y v'⟩
  obtain ⟨vs, vs', hvs, hvs', hsee⟩ := hcompleted _ _ hlists
  exact ⟨vs, vs', hlasting _ vs hvs, hlasting' _ vs' hvs', hsee⟩

theorem Twins.listed {Λ : Traits (T.scene hT)} {v v' : Value} (h : (passing hT L none).Twins Λ n w v u v')
    (lists : Option (Nat × Nat)) : (passing hT L lists).Twins Λ n w v u v' := by
  induction n using Nat.strong_induction_on generalizing w u v v' with
  | _ n ih =>
    refine h.elim ?_ ?_
    · rintro _ _ x x' rfl rfl hx
      exact .leaf hx
    · rintro _ _ _ _ _ resume resume' rfl rfl hadmits hperforms hparams hresume
      refine .operation hadmits hperforms hparams fun z y x x' hz hy hlevel hx => ?_
      have hnone : (passing hT L none).Level z y := ⟨hlevel.1, hlevel.2.twisters, nofun⟩
      -- A resumption takes a call, so what follows are twins for fewer calls.
      have hguarded := Always.guarded (hresume z y x x' hz hy hnone hx)
      have hresumed : (passing hT L none).Matched n (Program.continueWith resume x) z
          (Program.continueWith resume' x') y fun j z v y v' =>
            j < n ∧ (passing hT L none).Twins Λ j z v y v' :=
        hguarded.mono fun j said s e _ ⟨hj, hR⟩ => hR.mono fun _ _ _ hmeet =>
          hmeet.mono fun _ _ _ _ _ _ _ htwins => ⟨hj, htwins⟩
      exact matched_iff.2 <| Aligned.listed (matched_iff.1 hresumed)
        (fun _ _ => hlevel.2.completed)
        fun j z v y v' ⟨hj, htwins⟩ => ih j hj htwins

end Listing

section Noting

variable {l m : Nat} {x x' : Value} {w' : T.World}

/-- A value gets its identity and is noted. -/
theorem exists_recorded (hT : T.Lets drawn) {vs : List Value} (hvs : (T.store w).completed[l]? = some vs)
    (x : Value) : ∃ cs x' w', Traced (Action.ask (.arrowOf (.recordIn l)) [x]) (T.store w) cs
        (.ok (.leaf 0 x')) (T.store w') ∧ T.Later w w' ∧ L.events T.see cs = [] ∧ T.see x' = T.see x ∧
      (∀ y, T.Holds w y → T.Holds w' y) ∧ (T.store w').agendas = (T.store w).agendas ∧
      (T.store w').twisters = (T.store w).twisters ∧ (T.store w').completed[l]? = some (vs ++ [x']) := by
  obtain ⟨n, hn, htags⟩ := (T.store w).identify_snd x
  have hidentify := traced_identify (T.store w) x
  rw [htags] at hidentify
  let noted : Store := { (T.store w).tagsFrom n with
    completed := (T.store w).completed.modify l (· ++ [((T.store w).identify x).1]) }
  have hmoves : (T.store w).Moves drawn noted := ⟨hn, fun _ => rfl, rfl⟩
  obtain ⟨w', hw', hstore, hholds⟩ := hT.moved hmoves
  have hbody : Traced (Function.apply (.recordIn l) (.of [x])) (T.store w) []
      (.ok (.leaf 0 ((T.store w).identify x).1)) (T.store w') := by
    refine hidentify.bind (.write ?_)
    rw [hstore]
    exact .done _ _
  refine ⟨_, ((T.store w).identify x).1, w', .invoke hbody, hw',
    L.events_silent (f := .recordIn l) rfl 0 _ [], (T.scene hT).see_identify _ x, hholds, ?_, ?_, ?_⟩
  all_goals rw [hstore]
  · rfl
  · rfl
  · simp only [noted, Array.getElem?_modify, hvs, if_true, Option.map_some]

/-- Values that go together are noted on both sides. -/
theorem matched_recordIn {P : String → List Value → Prop}
    (hlevel : (passing hT L (some (l, m))).Level w u)
    (hx : (passing hT L (some (l, m))).Same w u x x') :
    (passing hT L (some (l, m))).Matched n (Program.lift <$> Action.ask (.arrowOf (.recordIn l)) [x]) w
      (Program.lift <$> Action.ask (.arrowOf (.recordIn m)) [x']) u
      ((passing hT L (some (l, m))).Twins ((passing hT L (some (l, m))).alike P)) := by
  obtain ⟨⟨y, hy, hy'⟩, hlevels⟩ := hlevel
  obtain ⟨vs, vs', hvs, hvs', hsee⟩ := hlevels.completed rfl
  obtain ⟨cs, x₁, w₁, htr, hw₁, hevents, hx₁, hholds, hagendas, htwisters, hnoted⟩ :=
    exists_recorded (L := L) hT hvs x
  obtain ⟨ds, x₁', u₁, htr', hu₁, hevents', hx₁', hholds', hagendas', htwisters', hnoted'⟩ :=
    exists_recorded (L := L) hT hvs' x'
  have hkeeps {w w' : T.World} {cs : List Call} (h : (T.store w').agendas = (T.store w).agendas)
      (hcs : L.events T.see cs = []) : (passing hT L (some (l, m))).Keeps (T.store w)
        ((passing hT L (some (l, m))).events cs) (T.store w') := by
    rw [show (passing hT L (some (l, m))).events cs = [] from hcs]
    exact ⟨fun _ _ ha => h ▸ ha, nofun, nofun⟩
  have hsame : T.see x₁ = T.see x₁' := hx₁.trans (Eq.trans hx hx₁'.symm)
  refine .lifted (.of_traced htr htr' (hkeeps hagendas hevents) (hkeeps hagendas' hevents')
    (rests_leaf _ _) (rests_leaf _ _) hw₁ hu₁ ⟨⟨y, hholds y hy, hholds' y hy'⟩, ?_⟩ ?_ fun j _ => .ok (.leaf hsame))
  · refine ⟨fun hi => ?_, ?_⟩
    · rw [htwisters, htwisters']
      exact hlevels.twisters hi
    · rintro _ _ ⟨⟩
      refine ⟨_, _, hnoted, hnoted', ?_⟩
      rw [List.map_append, List.map_append, hsee, List.map_singleton, List.map_singleton, hsame]
  · rw [show (passing hT L (some (l, m))).events cs = [] from hevents,
      show (passing hT L (some (l, m))).events ds = [] from hevents']

end Noting

end Comparison

end AlgebraicEffects
