import AlgebraicEffects.Proofs.Agreement.Plays
import AlgebraicEffects.Proofs.Flows.Cells
import AlgebraicEffects.Proofs.Flows.Composed
import AlgebraicEffects.Proofs.Schedule.Plans

/-!
Programs that wait, fork, exit, print and share cells.

An action plays a play if it ends as the program that the play begins with, and if whatever resumes this
program later, in any world from then on, plays the rest (`Plays`). The code of the program leaves alone
what belongs to hosts and to the cells of flows (`Store.Reserves`), but storing a value in a cell is part
of the play. Main statements: the operations of flows, printing, sequencing and running two programs side
by side play what their names say (`plays_fork`, `plays_print`, `Plays.graft`, `plays_par` and others).
-/

set_option autoImplicit false

namespace AlgebraicEffects

open Action (Traced)
open Output (printName)
open Suspension (suspendName)

variable {V : Type} {S : Scene V} {C : Course S} {L : Listener}

section Reserving

/-- Lists that do not have their identity yet have not been written into. -/
def Store.Unwritten (s : Store) : Prop :=
  ∀ tag, s.nextTag ≤ tag → s.writtenLists.lookup tag = none

/-- The agendas, loops and results that are there stay as they are, and so do the lists of this kind.
Others may be added. -/
structure Store.Reserves (kind : Nat → Prop) (s t : Store) : Prop extends s.Spares t where
  loops {i : Nat} {l : EventLoop} : s.loops[i]? = some l → t.loops[i]? = some l
  lists {tag : Nat} : kind tag → tag < s.nextTag → t.writtenLists.lookup tag = s.writtenLists.lookup tag
  later : s.nextTag ≤ t.nextTag
  unwritten : s.Unwritten → t.Unwritten

namespace Store.Reserves

variable {kind : Nat → Prop} {s t u : Store}

theorem refl (kind : Nat → Prop) (s : Store) : s.Reserves kind s :=
  ⟨.refl s, id, fun _ _ => rfl, Nat.le_refl _, id⟩

theorem trans (h : s.Reserves kind t) (g : t.Reserves kind u) : s.Reserves kind u where
  toSpares := h.toSpares.trans g.toSpares
  loops hl := g.loops (h.loops hl)
  lists hkind hlt := (g.lists hkind (Nat.lt_of_lt_of_le hlt h.later)).trans (h.lists hkind hlt)
  later := Nat.le_trans h.later g.later
  unwritten hs := g.unwritten (h.unwritten hs)

theorem mono {fewer : Nat → Prop} (h : s.Reserves kind t) (hkind : ∀ tag, fewer tag → kind tag) :
    s.Reserves fewer t :=
  { h with lists := fun htag => h.lists (hkind _ htag) }

theorem tagsFrom (kind : Nat → Prop) {n : Nat} (hn : s.nextTag ≤ n) :
    s.Reserves kind (s.tagsFrom n) :=
  ⟨⟨id, id⟩, id, fun _ _ => rfl, hn, fun hs tag htag => hs tag (Nat.le_trans hn htag)⟩

end Store.Reserves

/-- The same course as far as what belongs to hosts and flows is reserved, lists from an identity on. -/
def Course.reserving (C : Course S) (base : Nat) : Course S where
  Later w u := C.Later w u ∧ (S.store w).Reserves (base ≤ ·) (S.store u)
  refl w := ⟨C.refl w, .refl _ _⟩
  trans h g := ⟨C.trans h.1 g.1, h.2.trans g.2⟩
  known h := C.known h.1
  fit h := C.fit h.1
  identified w v := by
    obtain ⟨u, hu, hstore, hknown⟩ := C.identified w v
    obtain ⟨n, hn, htags⟩ := (S.store w).identify_snd v
    refine ⟨u, ⟨hu, ?_⟩, hstore, hknown⟩
    rw [hstore, htags]
    exact .tagsFrom _ hn
  identifiedAll w call := by
    obtain ⟨u, hu, hstore⟩ := C.identifiedAll w call
    obtain ⟨n, hn, htags⟩ := (S.store w).identifyAll_snd call
    refine ⟨u, ⟨hu, ?_⟩, hstore⟩
    rw [hstore, htags]
    exact .tagsFrom _ hn

end Reserving

/-- The action ends so, in silence, and leaves alone what belongs to hosts and flows. -/
abbrev Quietly (C : Course S) (L : Listener) (base : Nat) (a : Action Value) (w : S.World)
    (Q : S.World → Ending → Prop) : Prop :=
  Tells (C.reserving base) L a w [] Q

section Resolving

variable {a b c : Action Value} {s t u : Store}

/-- However the second action ends in the second store, so does the first one in the first store, and
the same is heard. -/
def Resolves (S : Scene V) (L : Listener) (a : Action Value) (s : Store) (b : Action Value) (t : Store) :
    Prop :=
  ∀ ds o u, Traced b t ds o u → ∃ cs, Traced a s cs o u ∧ L.heard S cs = L.heard S ds

namespace Resolves

theorem refl (a : Action Value) (s : Store) : Resolves S L a s a s := fun ds _ _ h => ⟨ds, h, rfl⟩

theorem trans (h : Resolves S L a s b t) (g : Resolves S L b t c u) : Resolves S L a s c u := by
  intro ds o z hc
  obtain ⟨cs, hb, hcs⟩ := g ds o z hc
  obtain ⟨bs, ha, hbs⟩ := h cs o z hb
  exact ⟨bs, ha, hbs.trans hcs⟩

theorem bind (h : Resolves S L a s b t) (k : Value → Action Value) :
    Resolves S L (a.bind k) s (b.bind k) t := by
  intro ds o u hb
  obtain ⟨bs, q, z, hfirst⟩ := hb.exists_of_bind
  obtain ⟨cs, ha, hcs⟩ := h bs q z hfirst
  cases q with
  | ok v =>
    obtain ⟨es, rfl, hrest⟩ := hb.of_bind hfirst
    refine ⟨cs ++ es, ha.bind hrest, ?_⟩
    rw [L.heard_append, L.heard_append, hcs]
  | error f =>
    obtain ⟨rfl, rfl, rfl⟩ := hb.unique hfirst.bind_error
    exact ⟨cs, ha.bind_error, hcs⟩

/-- What ends in silence resolves to what is done next. -/
theorem of_traced {cs : List Call} {v : Value} (h : Traced a s cs (.ok v) t)
    (hsilent : L.heard S cs = []) (k : Value → Action Value) :
    Resolves S L (a.bind k) s (k v) t := by
  intro ds o u hk
  refine ⟨cs ++ ds, h.bind hk, ?_⟩
  rw [L.heard_append, hsilent, List.nil_append]

/-- A call of a function of the library resolves to its body. -/
theorem ask {f : Function} (hf : f.isInternal = true) (arguments : List Value) (s : Store) :
    Resolves S L (Action.ask (.arrowOf f) arguments) s (f.apply (.of arguments)) s :=
  fun ds o u h =>
    have hcall : Traced ((Value.arrowOf f).apply (.of arguments)) s ds o u := h
    ⟨_, hcall.invoke, L.heard_of_deaf (L.deaf _ hf) _ ds⟩

end Resolves

end Resolving

/-- What is stored in a cell: a value, or the mark of an empty cell. -/
def Sees (S : Scene V) (x : Value) : Option V → Prop
  | some v => x ≠ .notAvailable ∧ S.see x = v
  | none => x = .notAvailable

/-- The run has ended as the operation that suspends a flow with this function. -/
def SuspendedBy (f : Function) (resume : Value) (e : Ending) : Prop :=
  ∃ tag own, e = .ok (.operation tag suspendName [.function own f] resume)

/-- The action plays this play, where the pairs of cells that there are have these lists. -/
def Plays (C : Course S) (L : Listener) (base : Nat) :
    Play V → List Nat → Action Value → S.World → Prop
  | .leaf v, _, a, w => Quietly C L base a w fun _ e =>
      ∃ q tag x, e = .ok q ∧ Program.lift q = .leaf tag x ∧ S.see x = v
  | .exit, _, a, w => Quietly C L base a w fun _ e => ∃ resume, SuspendedBy .exitStart resume e
  | .wait d p, tags, a, w => Quietly C L base a w fun z e => ∃ x resume,
      SuspendedBy (.waitStart x) resume e ∧ x.number? = some d ∧
      ∀ u more, C.Later z u → Plays C L base p (tags ++ more) (Action.ask resume [.nothing]) u
  | .fork t f, tags, a, w => Quietly C L base a w fun z e => ∃ resume,
      SuspendedBy .forkStart resume e ∧
      (∀ u more, C.Later z u → Plays C L base t (tags ++ more) (Action.ask resume [.bool true]) u) ∧
      ∀ u more, C.Later z u → Plays C L base f (tags ++ more) (Action.ask resume [.bool false]) u
  | .say m p, tags, a, w => Quietly C L base a w fun z e => ∃ tag x resume,
      e = .ok (.operation tag printName [x] resume) ∧ S.see x = m ∧
      ∀ u more, C.Later z u → Plays C L base p (tags ++ more) (Action.ask resume [.nothing]) u
  | .share next, tags, a, w => Quietly C L base a w fun z e => ∃ resume,
      SuspendedBy .allocateCells resume e ∧
      ∀ u more, C.Later z u → (S.store u).Unwritten → ∃ tag b y,
        (S.store u).nextTag ≤ tag ∧ tag < (S.store y).nextTag ∧
        (S.store y).writtenLists.lookup tag = none ∧ (C.reserving base).Later u y ∧
        Resolves S L (Action.ask resume [.list 0 [.notAvailable, .notAvailable]]) (S.store u) b
          (S.store y) ∧
        Plays C L base (next (tags ++ more).length) (tags ++ more ++ [tag]) b y
  | .settle pair side v next, tags, a, w => ∃ tag, tags[pair]? = some tag ∧
      ∀ cells, base ≤ tag → tag < (S.store w).nextTag → Holds tag cells (S.store w) →
        ∃ x b y, Sees S x v ∧ C.Later w y ∧
          (S.store w).Reserves (fun other => base ≤ other ∧ other ≠ tag) (S.store y) ∧
          Holds tag (filled cells side x) (S.store y) ∧ Resolves S L a (S.store w) b (S.store y) ∧
          ((∃ one, filled cells side x one = .notAvailable) →
            Quietly C L base b y fun _ e => ∃ resume, SuspendedBy .exitStart resume e) ∧
          ((∀ one, filled cells side x one ≠ .notAvailable) →
            Plays C L base (next (S.see (filled cells side x false)) (S.see (filled cells side x true)))
              tags b y)

namespace Plays

variable {base : Nat} {p : Play V} {tags : List Nat} {a b : Action Value} {w y : S.World}

/-- What resolves to an action that plays plays the same. -/
theorem resolved (h : Plays C L base p tags b y) (hy : (C.reserving base).Later w y)
    (hresolves : Resolves S L a (S.store w) b (S.store y)) : Plays C L base p tags a w := by
  have hsettles {Q : S.World → Ending → Prop} (hb : Quietly C L base b y Q) : Quietly C L base a w Q := by
    obtain ⟨cs, o, z, htr, hz, hsilent, ho⟩ := hb
    obtain ⟨ds, htr, hds⟩ := hresolves cs o _ htr
    exact ⟨ds, o, z, htr, (C.reserving base).trans hy hz, hds.trans hsilent, ho⟩
  cases p with
  | leaf | exit | wait | fork | say | share => exact hsettles h
  | settle pair side v next =>
    obtain ⟨tag, htag, hsettle⟩ := h
    refine ⟨tag, htag, fun cells hbase hlt hholds => ?_⟩
    obtain ⟨x, c, z, hx, hz, hreserves, hfilled, hrest, hends⟩ :=
      hsettle cells hbase (Nat.lt_of_lt_of_le hlt hy.2.later) (hholds.of_lookup (hy.2.lists hbase hlt))
    exact ⟨x, c, z, hx, C.trans hy.1 hz, (hy.2.mono fun _ h => h.1).trans hreserves, hfilled,
      hresolves.trans hrest, hends⟩

/-- A call of a function of the library plays what its body plays. -/
theorem ask {f : Function} {arguments : List Value} (hf : f.isInternal = true)
    (h : Plays C L base p tags (f.apply (.of arguments)) w) :
    Plays C L base p tags (Action.ask (.arrowOf f) arguments) w :=
  h.resolved ((C.reserving base).refl w) (.ask hf arguments _)

/-- A program for its value makes no difference. -/
theorem lifted (h : Plays C L base p tags a w) : Plays C L base p tags (Program.lift <$> a) w := by
  have hsettles {a : Action Value} {w : S.World} {Q : S.World → Ending → Prop}
      (ha : Quietly C L base a w Q) (hQ : ∀ z e, Q z e → ∃ v, e = .ok v ∧ Q z (.ok (Program.lift v))) :
      Quietly C L base (Program.lift <$> a) w Q :=
    Tells.map (ha.mono fun z e _ => hQ z e)
  have hsuspended {f : Function} {resume : Value} {e : Ending} (he : SuspendedBy f resume e) :
      ∃ v, e = .ok v ∧ SuspendedBy f resume (.ok (Program.lift v)) := by
    obtain ⟨tag, own, rfl⟩ := he
    exact ⟨_, rfl, tag, own, rfl⟩
  induction p generalizing tags a w with
  | leaf v =>
    refine hsettles h fun z e he => ?_
    obtain ⟨q, tag, x, rfl, hq, hx⟩ := he
    refine ⟨q, rfl, _, tag, x, rfl, ?_, hx⟩
    rw [hq]
    rfl
  | exit =>
    refine hsettles h fun z e ⟨resume, he⟩ => ?_
    obtain ⟨v, rfl, hv⟩ := hsuspended he
    exact ⟨v, rfl, resume, hv⟩
  | wait d p =>
    refine hsettles h fun z e ⟨x, resume, he, hrest⟩ => ?_
    obtain ⟨v, rfl, hv⟩ := hsuspended he
    exact ⟨v, rfl, x, resume, hv, hrest⟩
  | fork t f =>
    refine hsettles h fun z e ⟨resume, he, hrest⟩ => ?_
    obtain ⟨v, rfl, hv⟩ := hsuspended he
    exact ⟨v, rfl, resume, hv, hrest⟩
  | say m p =>
    refine hsettles h fun z e he => ?_
    obtain ⟨tag, x, resume, rfl, hrest⟩ := he
    exact ⟨_, rfl, tag, x, resume, rfl, hrest⟩
  | share next =>
    refine hsettles h fun z e ⟨resume, he, hrest⟩ => ?_
    obtain ⟨v, rfl, hv⟩ := hsuspended he
    exact ⟨v, rfl, resume, hv, hrest⟩
  | settle pair side v next ih =>
    obtain ⟨tag, htag, hsettle⟩ := h
    refine ⟨tag, htag, fun cells hbase hlt hholds => ?_⟩
    obtain ⟨x, b, y, hx, hy, hreserves, hfilled, hrest, hempty, hfull⟩ :=
      hsettle cells hbase hlt hholds
    refine ⟨x, Program.lift <$> b, y, hx, hy, hreserves, hfilled, hrest.bind _, fun hone => ?_,
      fun hboth => ih _ _ (hfull hboth)⟩
    refine hsettles (hempty hone) fun z e ⟨resume, he⟩ => ?_
    obtain ⟨v, rfl, hv⟩ := hsuspended he
    exact ⟨v, rfl, resume, hv⟩

end Plays

namespace Play

/-- What is played for each of the values. -/
def bind : Play V → (V → Play V) → Play V
  | leaf v, d => d v
  | exit, _ => exit
  | wait delay p, d => wait delay (p.bind d)
  | fork t f, d => fork (t.bind d) (f.bind d)
  | say m p, d => say m (p.bind d)
  | share next, d => share fun n => (next n).bind d
  | settle pair side v next, d => settle pair side v fun l r => (next l r).bind d

/-- The value may be reached at the end of a flow. -/
def Reaches : Play V → V → Prop
  | leaf v, x => v = x
  | exit, _ => False
  | wait _ p, x => p.Reaches x
  | fork t f, x => t.Reaches x ∨ f.Reaches x
  | say _ p, x => p.Reaches x
  | share next, x => ∃ n, (next n).Reaches x
  | settle _ _ _ next, x => ∃ l r, (next l r).Reaches x

end Play

section Sequencing

variable {base : Nat} {p : Play V} {tags : List Nat} {a : Action Value} {w : S.World} {next : Value}
  {d : V → Play V}

/-- What settles as a program goes on with it. -/
theorem Tells.exists_resolved {Q : S.World → Ending → Prop} (h : Quietly C L base a w Q)
    (hQ : ∀ z e, Q z e → ∃ v, e = .ok v) (k : Value → Action Value) :
    ∃ v z, (C.reserving base).Later w z ∧ Q z (.ok v) ∧
      Resolves S L (a.bind k) (S.store w) (k v) (S.store z) := by
  obtain ⟨cs, e, z, htr, hz, hsilent, he⟩ := h
  obtain ⟨v, rfl⟩ := hQ z e he
  exact ⟨v, z, hz, he, .of_traced htr hsilent k⟩

theorem SuspendedBy.exists_ok {f : Function} {resume : Value} {e : Ending} (h : SuspendedBy f resume e) :
    ∃ v, e = .ok v := by
  obtain ⟨tag, own, rfl⟩ := h
  exact ⟨_, rfl⟩

/-- What comes to a program without being heard goes on with what is grafted onto it. -/
theorem Tells.sequenced {Q R : S.World → Ending → Prop} (h : Quietly C L base a w Q)
    (hQ : ∀ z e, C.Later w z → Q z e → ∃ v, e = .ok v ∧
      Quietly C L base (Program.graft v next) z R) :
    Quietly C L base (a.bind fun q => Program.graft q next) w R :=
  Tells.bind_silent (h.mono fun z e hz => hQ z e hz.1)

/-- A graft on a suspended flow goes onto what resumes it. -/
theorem SuspendedBy.grafted (hcallable : next.isCallable = true) {f : Function} {resume : Value}
    {z : S.World} {e : Ending} {R : S.World → Ending → Prop} (h : SuspendedBy f resume e)
    (hR : ∀ e, SuspendedBy f (.arrowOf (.grafted resume next)) e → R z e) :
    ∃ v, e = .ok v ∧ Quietly C L base (Program.graft v next) z R := by
  obtain ⟨tag, own, rfl⟩ := h
  refine ⟨_, rfl, ?_⟩
  rw [graft_operation hcallable]
  exact .done (hR _ ⟨_, own, rfl⟩)

/-- Sequencing programs sequences their plays. -/
theorem Plays.graft (h : Plays C L base p tags a w) (hcallable : next.isCallable = true)
    (hnext : ∀ u more x, C.Later w u → p.Reaches (S.see x) →
      Plays C L base (d (S.see x)) (tags ++ more) (Action.ask next [x]) u) :
    Plays C L base (p.bind d) tags (a.bind fun q => Program.graft q next) w := by
  -- What resumes the sequence plays the sequence of what is resumed.
  have hresumes {p : Play V} {tags : List Nat} {resume answer : Value} {w : S.World}
      (ih : ∀ {tags a w}, Plays C L base p tags a w →
        (∀ u more x, C.Later w u → p.Reaches (S.see x) →
          Plays C L base (d (S.see x)) (tags ++ more) (Action.ask next [x]) u) →
        Plays C L base (p.bind d) tags (a.bind fun q => Program.graft q next) w)
      (hresume : ∀ u more, C.Later w u → Plays C L base p (tags ++ more) (Action.ask resume [answer]) u)
      (hnext : ∀ u more x, C.Later w u → p.Reaches (S.see x) →
        Plays C L base (d (S.see x)) (tags ++ more) (Action.ask next [x]) u)
      (u : S.World) (more : List Nat) (hu : C.Later w u) :
      Plays C L base (p.bind d) (tags ++ more)
        (Action.ask (.arrowOf (.grafted resume next)) [answer]) u := by
    refine .ask rfl (ih (hresume u more hu) fun z further x hz hx => ?_)
    rw [List.append_assoc]
    exact hnext z _ x (C.trans hu hz) hx
  induction p generalizing tags a w with
  | leaf v =>
    have hok (z : S.World) (e : Ending)
        (he : ∃ q tag x, e = .ok q ∧ Program.lift q = .leaf tag x ∧ S.see x = v) : ∃ q, e = .ok q := by
      obtain ⟨q, -, -, rfl, -⟩ := he
      exact ⟨q, rfl⟩
    obtain ⟨q, z, hz, ⟨q', tag, x, hq', hq, rfl⟩, hresolves⟩ :=
      h.exists_resolved hok fun q => Program.graft q next
    cases hq'
    have hrest := (hnext z [] x hz.1 rfl).lifted
    rw [List.append_nil, ← Replay.graft_of_leaf hq hcallable] at hrest
    exact hrest.resolved hz hresolves
  | exit =>
    refine Tells.sequenced h ?_
    rintro z e - ⟨resume, he⟩
    exact he.grafted hcallable fun e he => ⟨_, he⟩
  | wait delay p ih =>
    refine Tells.sequenced h ?_
    rintro z e hz ⟨x, resume, he, hx, hresume⟩
    refine he.grafted hcallable fun e he => ⟨x, _, he, hx, ?_⟩
    exact hresumes ih hresume fun u more x hu => hnext u more x (C.trans hz hu)
  | fork t f iht ihf =>
    refine Tells.sequenced h ?_
    rintro z e hz ⟨resume, he, htrue, hfalse⟩
    refine he.grafted hcallable fun e he => ⟨_, he, ?_, ?_⟩
    · exact hresumes iht htrue fun u more x hu hx => hnext u more x (C.trans hz hu) (.inl hx)
    · exact hresumes ihf hfalse fun u more x hu hx => hnext u more x (C.trans hz hu) (.inr hx)
  | say m p ih =>
    refine Tells.sequenced h ?_
    rintro z e hz ⟨tag, x, resume, he, hx, hresume⟩
    refine ⟨_, he, ?_⟩
    rw [graft_operation hcallable]
    refine .done ⟨_, _, _, rfl, hx, ?_⟩
    exact hresumes ih hresume fun u more x hu => hnext u more x (C.trans hz hu)
  | share nexts ih =>
    refine Tells.sequenced h ?_
    rintro z e hz ⟨resume, he, hresume⟩
    refine he.grafted hcallable fun e he => ⟨_, he, ?_⟩
    intro u more hu hunwritten
    obtain ⟨tag, b, y, hfresh, hlt, hlookup, hy, hresolves, hplays⟩ := hresume u more hu hunwritten
    refine ⟨tag, _, y, hfresh, hlt, hlookup, hy, (Resolves.ask rfl _ _).trans (hresolves.bind _),
      ih _ hplays fun z' further x hz' hx => ?_⟩
    rw [List.append_assoc, List.append_assoc]
    exact hnext z' _ x (C.trans hz (C.trans hu (C.trans hy.1 hz'))) ⟨_, hx⟩
  | settle pair side v nexts ih =>
    obtain ⟨tag, htag, hsettle⟩ := h
    refine ⟨tag, htag, fun cells hbase hlt hholds => ?_⟩
    obtain ⟨x, b, y, hx, hy, hreserves, hfilled, hresolves, hempty, hfull⟩ :=
      hsettle cells hbase hlt hholds
    refine ⟨x, _, y, hx, hy, hreserves, hfilled, hresolves.bind _, fun hone => ?_, fun hboth => ?_⟩
    · refine Tells.sequenced (hempty hone) ?_
      rintro z e - ⟨resume, he⟩
      exact he.grafted hcallable fun e he => ⟨_, he⟩
    · exact ih _ _ (hfull hboth) fun u more x hu hx => hnext u more x (C.trans hy hu) ⟨_, _, hx⟩

end Sequencing

end AlgebraicEffects
