import AlgebraicEffects.Proofs.Agreement.Turning

/-!
Turns on any host.

What a run has come to is told by its stage: which values are listed, and what the cells of its flows
hold (`Staged`). A host keeps callbacks, each of which revives a flow with the rest of its play
(`Hosting`). In its turn a flow does to the stage and to the host what its play says
(`Hosting.turn`).
-/

set_option autoImplicit false

namespace AlgebraicEffects

open Action (Traced)

variable {V : Type} {S : Scene V} {C : Course S} {L : Listener} {base dest : Nat} {host sink : Value}

section Stages

/-- The agendas and loops that are there stay as they are. -/
structure Store.Leaves (s t : Store) : Prop where
  agendas {i : Nat} {a : Agenda} : s.agendas[i]? = some a → t.agendas[i]? = some a
  loops {i : Nat} {l : EventLoop} : s.loops[i]? = some l → t.loops[i]? = some l

theorem Store.Reserves.leaves {kind : Nat → Prop} {s t : Store} (h : s.Reserves kind t) : s.Leaves t :=
  ⟨h.agendas, h.loops⟩

/-- Beside agendas and loops only records and the supply of identities may differ. -/
structure Store.Registers (s t : Store) : Prop where
  later : s.nextTag ≤ t.nextTag
  same : t = { s with
    nextTag := t.nextTag, agendas := t.agendas, loops := t.loops, records := t.records }

theorem Store.Registers.around {s t : Store} (h : s.Registers t) (base : Nat) : s.Around base t :=
  ⟨h.later, fun _ => by rw [h.same], by rw [h.same]⟩

/-- The run has come to this stage: the values that were reached are listed, and the pairs of cells have
these lists. -/
structure Staged (S : Scene V) (base dest : Nat) (tags : List Nat) (w : S.World) (st : Stage V) :
    Prop where
  unwritten : (S.store w).Unwritten
  fresh : base ≤ (S.store w).nextTag
  results : ∃ vs, (S.store w).completed[dest]? = some vs ∧ vs.map S.see = st.finished
  nodup : tags.Nodup
  length : tags.length = st.cells.length
  cells {pair tag : Nat} : tags[pair]? = some tag → base ≤ tag ∧ tag < (S.store w).nextTag ∧
    ∃ cells, Holds tag cells (S.store w) ∧
      ∀ one, Sees S (cells one) ((st.cells.getD pair fun _ => none) one)

namespace Staged

variable {tags : List Nat} {w u : S.World} {st : Stage V}

theorem later (h : Staged S base dest tags w st)
    (hcompleted : ∀ vs, (S.store w).completed[dest]? = some vs → (S.store u).completed[dest]? = some vs)
    (hlists : ∀ tag, base ≤ tag → tag < (S.store w).nextTag →
      (S.store u).writtenLists.lookup tag = (S.store w).writtenLists.lookup tag)
    (hunwritten : (S.store u).Unwritten) (hlater : (S.store w).nextTag ≤ (S.store u).nextTag) :
    Staged S base dest tags u st where
  unwritten := hunwritten
  fresh := Nat.le_trans h.fresh hlater
  results := by
    obtain ⟨vs, hvs, hsee⟩ := h.results
    exact ⟨vs, hcompleted vs hvs, hsee⟩
  nodup := h.nodup
  length := h.length
  cells hpair := by
    obtain ⟨hbase, hlt, cells, hholds, hsees⟩ := h.cells hpair
    exact ⟨hbase, Nat.lt_of_lt_of_le hlt hlater, cells, hholds.of_lookup (hlists _ hbase hlt), hsees⟩

theorem reserved (h : Staged S base dest tags w st)
    (hu : (S.store w).Reserves (base ≤ ·) (S.store u)) : Staged S base dest tags u st :=
  h.later (fun _ => hu.completed) (fun _ => hu.lists) (hu.unwritten h.unwritten) hu.later

theorem registered (h : Staged S base dest tags w st) (hu : (S.store w).Registers (S.store u)) :
    Staged S base dest tags u st := by
  have hlists : (S.store u).writtenLists = (S.store w).writtenLists := by rw [hu.same]
  refine h.later (fun vs hvs => ?_) (fun tag _ _ => by rw [hlists]) (fun tag htag => ?_) hu.later
  · rw [hu.same]
    exact hvs
  · rw [hlists]
    exact h.unwritten tag (Nat.le_trans hu.later htag)

/-- A flow that has reached its end has its value listed. -/
theorem records (h : Staged S base dest tags w st) (hC : C.Admits base) (x : Value) :
    Tells C L (Action.ask (.arrowOf (.recordIn dest)) [x]) w [] fun z e =>
      (∃ y, e = .ok (.leaf 0 y)) ∧ (S.store w).Leaves (S.store z) ∧
        Staged S base dest tags z (st.finish (S.see x)) := by
  obtain ⟨vs, hvs, hsee⟩ := h.results
  obtain ⟨n, hn, hstore⟩ := (S.store w).identify_snd x
  have hidentified := traced_identify (S.store w) x
  rw [hstore] at hidentified
  refine .ask rfl ?_
  show Tells C L ((Action.identify x).bind fun y =>
    (Action.complete dest y).bind fun _ => .done (.leaf 0 y)) w [] _
  refine .admitted hC hidentified ⟨hn, fun _ => rfl, rfl⟩ fun u hu hlater => ?_
  refine .admitted (a := Action.complete dest _) hC (.write (.done () _)) ⟨Nat.le_refl _, fun _ => rfl, rfl⟩
    fun z hz hlater' => .done ⟨⟨_, rfl⟩, ?_, ?_⟩
  all_goals rw [hu] at hz
  · rw [hz]
    exact ⟨id, id⟩
  · have hresults : (S.store z).completed[dest]? = some (vs ++ [((S.store w).identify x).1]) := by
      rw [hz]
      simp [Store.tagsFrom, Array.getElem?_modify, hvs]
    have hlists : (S.store z).writtenLists = (S.store w).writtenLists := by
      rw [hz]
      rfl
    have hnext : (S.store z).nextTag = n := by
      rw [hz]
      rfl
    refine {
      unwritten := fun tag htag => ?_, fresh := ?_, results := ⟨_, hresults, ?_⟩, nodup := h.nodup
      length := h.length, cells := fun hpair => ?_ }
    · rw [hlists]
      exact h.unwritten tag (Nat.le_trans hn (hnext ▸ htag))
    · rw [hnext]
      exact Nat.le_trans h.fresh hn
    · rw [List.map_append, List.map_singleton, S.see_identify, hsee]
      rfl
    · obtain ⟨hbase, hlt, cells, hholds, hsees⟩ := h.cells hpair
      refine ⟨hbase, ?_, cells, hholds.of_lookup (by rw [hlists]), hsees⟩
      rw [hnext]
      exact Nat.lt_of_lt_of_le hlt hn

theorem said (h : Staged S base dest tags w st) (m : V) : Staged S base dest tags w (st.say m) :=
  { h with }

/-- A new pair of cells is empty. -/
theorem share {tag : Nat} (h : Staged S base dest tags w st)
    (hu : (S.store w).Reserves (base ≤ ·) (S.store u)) (hnew : (S.store w).nextTag ≤ tag)
    (hlt : tag < (S.store u).nextTag) (hlookup : (S.store u).writtenLists.lookup tag = none) :
    Staged S base dest (tags ++ [tag]) u st.share where
  unwritten := hu.unwritten h.unwritten
  fresh := Nat.le_trans h.fresh hu.later
  results := (h.reserved hu).results
  nodup := by
    refine List.nodup_append.2 ⟨h.nodup, List.nodup_singleton tag, fun other hother same hsame => ?_⟩
    obtain ⟨pair, hpair⟩ := List.mem_iff_getElem?.1 hother
    rw [List.mem_singleton.1 hsame]
    exact Nat.ne_of_lt (Nat.lt_of_lt_of_le (h.cells hpair).2.1 hnew)
  length := by
    simp [Stage.share, h.length]
  cells {pair other} hpair := by
    rw [List.getElem?_append] at hpair
    split at hpair
    · rename_i hlength
      have hcells : st.share.cells.getD pair (fun _ => none) = st.cells.getD pair fun _ => none := by
        rw [h.length] at hlength
        simp [Stage.share, List.getD_eq_getElem?_getD, List.getElem?_append_left hlength]
      rw [hcells]
      exact (h.reserved hu).cells hpair
    · rename_i hlength
      obtain ⟨rfl, hzero⟩ : other = tag ∧ pair = tags.length := by
        rw [List.getElem?_singleton] at hpair
        split at hpair
        · cases hpair
          exact ⟨rfl, by omega⟩
        · cases hpair
      refine ⟨Nat.le_trans h.fresh hnew, hlt, fun _ => .notAvailable, ?_, fun one => ?_⟩
      · unfold Holds Store.itemsNow
        rw [hlookup]
        rfl
      · rw [hzero, h.length]
        simp [Stage.share, Sees]

/-- A value is stored in a cell. -/
theorem store {pair tag : Nat} {side : Bool} {x : Value} {v : Option V} {cells : Bool → Value}
    (h : Staged S base dest tags w st) (hpair : tags[pair]? = some tag)
    (hcells : ∀ one, Sees S (cells one) ((st.cells.getD pair fun _ => none) one)) (hx : Sees S x v)
    (hu : (S.store w).Reserves (fun other => base ≤ other ∧ other ≠ tag) (S.store u))
    (hholds : Holds tag (filled cells side x) (S.store u)) :
    Staged S base dest tags u (st.store pair side v) ∧
      ∀ one, Sees S (filled cells side x one) (st.stored pair side v one) := by
  have hstored (one : Bool) : Sees S (filled cells side x one) (st.stored pair side v one) := by
    unfold filled Stage.stored refilled
    split
    · exact hx
    · exact hcells one
  obtain ⟨vs, hvs, hsee⟩ := h.results
  refine ⟨{
    unwritten := hu.unwritten h.unwritten, fresh := Nat.le_trans h.fresh hu.later
    results := ⟨vs, hu.completed hvs, hsee⟩, nodup := h.nodup, length := ?_
    cells := fun {other name} hother => ?_ }, hstored⟩
  · simp [Stage.store, h.length]
  · obtain ⟨hbase, hlt, others, hothers, hsees⟩ := h.cells hother
    refine ⟨hbase, Nat.lt_of_lt_of_le hlt hu.later, ?_⟩
    by_cases hsame : pair = other
    · subst hsame
      obtain rfl : tag = name := Option.some.inj (hpair.symm.trans hother)
      refine ⟨_, hholds, fun one => ?_⟩
      have hlength : pair < st.cells.length := h.length ▸ (List.getElem?_eq_some_iff.1 hpair).1
      have hset : (st.store pair side v).cells.getD pair (fun _ => none) = st.stored pair side v := by
        simp [Stage.store, hlength]
      rw [hset]
      exact hstored one
    · have hname : name ≠ tag := by
        rintro rfl
        obtain ⟨hlt, hsome⟩ := List.getElem?_eq_some_iff.1 hpair
        obtain ⟨hlt', hsome'⟩ := List.getElem?_eq_some_iff.1 hother
        exact hsame ((h.nodup.getElem_inj_iff).1 (hsome.trans hsome'.symm))
      have hset : (st.store pair side v).cells.getD other (fun _ => none) =
          st.cells.getD other fun _ => none := by
        simp [Stage.store, List.getD_eq_getElem?_getD, List.getElem?_set_ne hsame]
      rw [hset]
      exact ⟨others, hothers.of_lookup (hu.lists ⟨hbase, hname⟩ hlt), hsees⟩

end Staged

end Stages

/-- Calling this with these arguments revives a flow that goes on with this play. -/
def Revives (C : Course S) (L : Listener) (base dest : Nat) (host sink : Value) (tags : List Nat)
    (w : S.World) (callback : Value) (arguments : List Value) (p : Play V) : Prop :=
  ∃ resume answer, callback = reentry host sink dest resume ∧
    (arguments = [answer] ∨ arguments = [] ∧ answer = .nothing) ∧ p.Timely ∧
    ∀ u more, C.Later w u → Plays C L base p (tags ++ more) (Action.ask resume [answer]) u

section Reviving

variable {tags : List Nat} {w u : S.World} {callback : Value} {arguments : List Value} {p : Play V}

theorem Revives.later (h : Revives C L base dest host sink tags w callback arguments p)
    (hu : C.Later w u) : Revives C L base dest host sink tags u callback arguments p := by
  obtain ⟨resume, answer, hcallback, harguments, htimely, hplays⟩ := h
  exact ⟨resume, answer, hcallback, harguments, htimely, fun z more hz => hplays z more (C.trans hu hz)⟩

theorem Revives.timely (h : Revives C L base dest host sink tags w callback arguments p) : p.Timely := by
  obtain ⟨-, -, -, -, htimely, -⟩ := h
  exact htimely

theorem Revives.longer {longer : List Nat}
    (h : Revives C L base dest host sink tags w callback arguments p) (htags : tags <+: longer) :
    Revives C L base dest host sink longer w callback arguments p := by
  obtain ⟨resume, answer, hcallback, harguments, htimely, hplays⟩ := h
  obtain ⟨more, rfl⟩ := htags
  refine ⟨resume, answer, hcallback, harguments, htimely, fun z further hz => ?_⟩
  rw [List.append_assoc]
  exact hplays z _ hz

end Reviving

/-- A host keeps what is to go on, by callbacks that revive flows. It is told of callbacks, and changes
in no other way. -/
structure Hosting (C : Course S) (L : Listener) (base dest : Nat) (host sink : Value)
    (K : Keeper V) where
  Keeps : List Nat → S.World → K.State → Prop
  later {tags : List Nat} {w u : S.World} {k : K.State} : Keeps tags w k → C.Later w u →
    (S.store w).Leaves (S.store u) → Keeps tags u k
  longer {tags longer : List Nat} {w : S.World} {k : K.State} : Keeps tags w k → tags <+: longer →
    Keeps longer w k
  soon {tags : List Nat} {w : S.World} {k : K.State} {callback : Value} {arguments : List Value}
    {p : Play V} : Keeps tags w k → Revives C L base dest host sink tags w callback arguments p →
    ∃ x t, Traced (Host.callSoon host callback arguments) (S.store w) [] (.ok x) t ∧
      (S.store w).Registers t ∧ ∀ u, S.store u = t → C.Later w u → Keeps tags u (K.soon p k)
  after {tags : List Nat} {w : S.World} {k : K.State} {callback delay : Value}
    {arguments : List Value} {d : Number} {p : Play V} : Keeps tags w k → delay.number? = some d →
    (Play.wait d p).Timely → Revives C L base dest host sink tags w callback arguments p →
    ∃ x t, Traced (Host.callLater host delay callback arguments) (S.store w) [] (.ok x) t ∧
      (S.store w).Registers t ∧ ∀ u, S.store u = t → C.Later w u → Keeps tags u (K.after d p k)

namespace Hosting

variable {K : Keeper V} (H : Hosting C L base dest host sink K)

/-- The run has come to this stage, the host keeps this, and beyond what had been said before this has
been said. There may be new pairs of cells. -/
def Reached (tags : List Nat) (st : Stage V) (after : K.State × Stage V) (said : List V)
    (w : S.World) : Prop :=
  ∃ longer, tags <+: longer ∧ Staged S base dest longer w after.2 ∧ H.Keeps longer w after.1 ∧
    after.2.said = st.said ++ said

variable {H} {tags : List Nat} {w : S.World} {k : K.State} {st : Stage V} {p : Play V}
  {a : Action Value}

/-- A flow that exits leaves everything as it is. -/
theorem turn_exit {st' : Stage V} (hp : Plays C L base .exit tags a w)
    (hst : Staged S base dest tags w st') (hk : H.Keeps tags w k) (hsaid : st'.said = st.said) :
    InTurn C L host sink dest a w (H.Reached tags st (k, st')) := by
  refine .settles hp (fun z e ⟨resume, he⟩ => he.exists_ok) fun z v hz ⟨resume, tag, own, he⟩ => ?_
  cases he
  exact .suspended rfl (.done ⟨⟨_, rfl⟩, tags, List.prefix_rfl, hst.reserved hz.2,
    H.later hk hz.1 hz.2.leaves, hsaid.trans (List.append_nil _).symm⟩)

/-- A flow that fills a cell exits, if it is not the last one of its pair to do so; otherwise it goes on
with what both cells hold. -/
theorem turn_settle {pair : Nat} {side : Bool} {v : Option V} {next : V → V → Play V}
    (hp : Plays C L base (.settle pair side v next) tags a w) (hst : Staged S base dest tags w st)
    (hk : H.Keeps tags w k)
    (hnext : ∀ l r b y, Plays C L base (next l r) tags b y →
      Staged S base dest tags y (st.store pair side v) → H.Keeps tags y k →
      InTurn C L host sink dest b y
        (H.Reached tags (st.store pair side v) ((next l r).turn K k (st.store pair side v)))) :
    InTurn C L host sink dest a w (H.Reached tags st (Play.turn K (.settle pair side v next) k st)) := by
  obtain ⟨tag, htag, hsettle⟩ := hp
  obtain ⟨hbase, hlt, cells, hholds, hsees⟩ := hst.cells htag
  obtain ⟨x, b, y, hx, hy, hreserves, hfilled, hresolves, hempty, hfull⟩ :=
    hsettle cells hbase hlt hholds
  obtain ⟨hst', hstored⟩ := hst.store htag hsees hx hreserves hfilled
  have hk' := H.later hk hy hreserves.leaves
  refine .resolved ?_ hy hresolves
  have hends {one : Bool} (hone : st.stored pair side v one = none) :
      InTurn C L host sink dest b y (H.Reached tags st (k, st.store pair side v)) := by
    have hsees := hstored one
    rw [hone] at hsees
    exact turn_exit (hempty ⟨one, hsees⟩) hst' hk' rfl
  cases hl : st.stored pair side v false with
  | none =>
    simp only [Play.turn, hl]
    exact hends hl
  | some l =>
    cases hr : st.stored pair side v true with
    | none =>
      simp only [Play.turn, hl, hr]
      exact hends hr
    | some r =>
      simp only [Play.turn, hl, hr]
      have hleft := hstored false
      have hright := hstored true
      rw [hl] at hleft
      rw [hr] at hright
      have hplays := hfull fun one => by
        cases one with
        | false => exact hleft.1
        | true => exact hright.1
      rw [hleft.2, hright.2] at hplays
      exact hnext l r b y hplays hst' hk'

/-- In its turn a flow does what its play does. -/
theorem turn (hC : C.Admits base) (hsink : Sink (C.reserving base) L sink)
    (hp : Plays C L base p tags a w) (htimely : p.Timely) (hst : Staged S base dest tags w st)
    (hk : H.Keeps tags w k) :
    InTurn C L host sink dest a w (H.Reached tags st (p.turn K k st)) := by
  induction p generalizing tags a w k st with
  | leaf v =>
    refine .settles hp (fun z e ⟨q, tag, x, he, _⟩ => ⟨q, he⟩) fun z v hz ⟨q, tag, x, he, hq, hx⟩ => ?_
    cases he
    subst hx
    refine .leaf hq (((hst.reserved hz.2).records hC x).mono fun u e hu h => ?_)
    obtain ⟨hy, hleaves, hst'⟩ := h
    exact ⟨hy, tags, List.prefix_rfl, hst', H.later (H.later hk hz.1 hz.2.leaves) hu hleaves, (List.append_nil _).symm⟩
  | exit => exact turn_exit hp hst hk rfl
  | wait d p =>
    refine .settles hp (fun z e ⟨x, resume, he, _⟩ => he.exists_ok)
      fun z v hz ⟨x, resume, ⟨tag, own, he⟩, hx, hrest⟩ => ?_
    cases he
    obtain ⟨y, t, htr, hregisters, hkeeps⟩ := H.after (H.later hk hz.1 hz.2.leaves) hx htimely
      ⟨resume, .nothing, rfl, .inr ⟨rfl, rfl⟩, htimely.2, hrest⟩
    obtain ⟨u, rfl, hu⟩ := hC z t (hregisters.around base)
    exact .suspended rfl ⟨[], .ok y, u, htr, hu, rfl, ⟨y, rfl⟩, tags, List.prefix_rfl,
      (hst.reserved hz.2).registered hregisters, hkeeps u rfl hu, (List.append_nil _).symm⟩
  | fork t f iht ihf =>
    refine .settles hp (fun z e ⟨resume, he, _⟩ => he.exists_ok)
      fun z v hz ⟨resume, ⟨tag, own, he⟩, htrue, hfalse⟩ => ?_
    cases he
    obtain ⟨y, s, htr, hregisters, hkeeps⟩ := H.soon (H.later hk hz.1 hz.2.leaves)
      ⟨resume, .bool true, rfl, .inl rfl, htimely.1, htrue⟩
    obtain ⟨u, rfl, hu⟩ := hC z s (hregisters.around base)
    -- The other flow goes on at once, inside the turn of this one.
    have hplays := hfalse u [] hu
    rw [List.append_nil] at hplays
    obtain ⟨said, hnext⟩ := (ihf hplays htimely.2 ((hst.reserved hz.2).registered hregisters)
      (hkeeps u rfl hu)).at_once
    have hforked : Tells C L (Function.forkStart.apply (.of [reentry host sink dest resume, host])) z said
        fun z e => (∃ x, e = .ok x) ∧ H.Reached tags st (Play.turn K (.fork t f) k st) said z :=
      Tells.bind_silent ⟨[], .ok y, u, htr, hu, rfl, y, rfl, hnext⟩
    exact .suspended rfl hforked
  | say m p ih =>
    refine .settles hp (fun z e ⟨tag, x, resume, he, _⟩ => ⟨_, he⟩)
      fun z v hz ⟨tag, x, resume, he, hx, hrest⟩ => ?_
    cases he
    subst hx
    refine .printed hsink fun u hu => ?_
    have hplays := hrest u [] hu.1
    rw [List.append_nil] at hplays
    have hlater := (C.reserving base).trans hz hu
    have hsaid := ih hplays htimely (((hst.reserved hlater.2).said (S.see x)))
      (H.later hk hlater.1 hlater.2.leaves)
    exact hsaid.mono fun said z ⟨longer, htags, hst', hk', heq⟩ =>
      ⟨longer, htags, hst', hk', heq.trans (List.append_assoc _ _ _)⟩
  | share next ih =>
    refine .settles hp (fun z e ⟨resume, he, _⟩ => he.exists_ok)
      fun z v hz ⟨resume, ⟨tag, own, he⟩, hrest⟩ => ?_
    cases he
    have hst' := hst.reserved hz.2
    obtain ⟨new, b, y, hnew, hlt, hlookup, hy, hresolves, hplays⟩ := hrest z [] (C.refl z) hst'.unwritten
    rw [List.append_nil, hst.length] at hplays
    have hturn := (ih _ hplays (htimely _) (hst'.share hy.2 hnew hlt hlookup)
      (H.longer (H.later hk (C.trans hz.1 hy.1) (hz.2.trans hy.2).leaves)
        (List.prefix_append tags [new]))).resolved hy.1 hresolves
    obtain ⟨said, hnext⟩ := (hturn.mono fun said z ⟨longer, htags, hreached⟩ =>
      (⟨longer, (List.prefix_append tags [new]).trans htags, hreached⟩ :
        H.Reached tags st _ said z)).at_once
    exact .suspended rfl hnext
  | settle pair side v next ih =>
    exact turn_settle hp hst hk fun l r b y hplays hst' hk' => ih l r hplays (htimely l r) hst' hk'

end Hosting

end AlgebraicEffects
