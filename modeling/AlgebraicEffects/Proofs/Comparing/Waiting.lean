import AlgebraicEffects.Proofs.Comparing.Standard
import AlgebraicEffects.Proofs.Stacks.Noting

/-!
Programs that wait, compared with such that do not.

The machine that a program conducts itself as may wait: then it is resumed with nothing, after some time.
With its waits passed it goes on at once where it would wait (`Conduct.passing`). Two runs go together where
waits are passed if the private states are the same, and so are the generators that are drawn from and,
once there are any, the lists of the values that have been reached (`Comparison.passing`).
-/

set_option autoImplicit false

namespace AlgebraicEffects

open Action (Traced)
open Suspension (suspendName nowName)

variable {V τ σ : Type} {K : Conduct V τ σ} {nothing : V} {q p r : σ} {x y z : τ} {es fs : List (Event V)}

section Machines

/-- From its state the machine goes on wherever it would wait, as when it is answered nothing, and comes to
this state after these events. -/
inductive Conduct.Passes (K : Conduct V τ σ) (nothing : V) : σ → τ → List (Event V) → σ → τ → Prop where
  | rests {q : σ} {x : τ} : (∀ ps, K.node q ≠ .operation suspendName ps) → Passes K nothing q x [] q x
  | waits {q p r : σ} {x y z : τ} {ps : List V} {es fs : List (Event V)} :
      K.node q = .operation suspendName ps → K.next q nothing x es p y → Passes K nothing p y fs r z →
      Passes K nothing q x (es ++ fs) r z

/-- The machine that goes on at once where it would wait. -/
def Conduct.passing (K : Conduct V τ σ) (nothing : V) : Conduct V τ σ where
  node := K.node
  next q a x es r z := ∃ fs p y gs, K.next q a x fs p y ∧ K.Passes nothing p y gs r z ∧ es = fs ++ gs

theorem Conduct.Passes.awake (h : K.Passes nothing q x es r y) (ps : List V) :
    K.node r ≠ .operation suspendName ps := by
  induction h with
  | rests h => exact h ps
  | waits _ _ _ ih => exact ih

/-- From where it does not wait, the machine goes nowhere. -/
theorem Conduct.Passes.of_awake (h : K.Passes nothing q x es r y)
    (hq : ∀ ps, K.node q ≠ .operation suspendName ps) : es = [] ∧ r = q ∧ y = x := by
  cases h with
  | rests => exact ⟨rfl, rfl, rfl⟩
  | waits hwaits => exact absurd hwaits (hq _)

/-- There is nothing left to pass. -/
theorem Conduct.passing_passing (K : Conduct V τ σ) (nothing : V) :
    (K.passing nothing).passing nothing = K.passing nothing := by
  have hnext (q : σ) (a : V) (x : τ) (es : List (Event V)) (r : σ) (z : τ) :
      ((K.passing nothing).passing nothing).next q a x es r z ↔ (K.passing nothing).next q a x es r z := by
    constructor
    · rintro ⟨_, p, y, gs, ⟨fs, p', y', gs', hnext, hpasses, rfl⟩, hagain, rfl⟩
      obtain ⟨rfl, rfl, rfl⟩ := hagain.of_awake hpasses.awake
      exact ⟨fs, p', y', gs', hnext, hpasses, List.append_nil _⟩
    · rintro ⟨fs, p, y, gs, hnext, hpasses, rfl⟩
      exact ⟨_, r, z, [], ⟨fs, p, y, gs, hnext, hpasses, rfl⟩, .rests hpasses.awake,
        (List.append_nil _).symm⟩
  have hall : ((K.passing nothing).passing nothing).next = (K.passing nothing).next := by
    funext q a x es r z
    exact propext (hnext q a x es r z)
  exact congrArg (Conduct.mk K.node) hall

/-- Whatever looks so is a wait for so long. -/
def ShowsWait (see : Value → V) (v : V) (d : Number) : Prop :=
  ∀ x, see x = v → ∃ own delay, x = .function own (.waitStart delay) ∧ delay.number? = some d

/-- All suspensions of the machine are waits for delays that can be added to the clock. It does not ask for
the time, and otherwise its functions do not wait. -/
structure Conduct.OnlyWaits (K : Conduct V τ σ) (see : Value → V) : Prop where
  waits {q : σ} {ps : List V} : K.node q = .operation suspendName ps →
    ∃ v d, ps = [v] ∧ ShowsWait see v d ∧ d.IsTimely
  timeless {q : σ} {ps : List V} : K.node q ≠ .operation nowName ps
  quiet {q p : σ} {a : V} {x y : τ} {es : List (Event V)} :
    K.next q a x es p y → ∀ e ∈ es, e.isTold = true

theorem Conduct.OnlyWaits.told {see : Value → V} (hK : K.OnlyWaits see) (h : K.Passes nothing q x es r y) :
    ∀ e ∈ es, e.isTold = true := by
  induction h with
  | rests => exact nofun
  | waits _ hnext _ ih =>
    intro e he
    rcases List.mem_append.1 he with he | he
    · exact hK.quiet hnext e he
    · exact ih e he

/-- All this is also so when the waits are passed. -/
theorem Conduct.OnlyWaits.passing {see : Value → V} (hK : K.OnlyWaits see) (nothing : V) :
    (K.passing nothing).OnlyWaits see where
  waits := hK.waits
  timeless := hK.timeless
  quiet := by
    rintro q r a x z _ ⟨fs, p, y, gs, hnext, hpasses, rfl⟩ e he
    rcases List.mem_append.1 he with he | he
    · exact hK.quiet hnext e he
    · exact hK.told hpasses e he

end Machines

section Stores

variable {drawn : Nat → Prop} {s t u : Store}

/-- Agendas, results of runs and these generators of numbers stay as they are. -/
structure Store.Respects (drawn : Nat → Prop) (s t : Store) : Prop extends s.Spares t where
  twisters {i : Nat} : drawn i → t.twisters[i]? = s.twisters[i]?

theorem Store.Respects.refl (s : Store) : s.Respects drawn s := ⟨.refl s, fun _ => rfl⟩

/-- What the library keeps for itself changes: identities are given out, and agendas, results of runs,
records and these generators of numbers are not what they were. -/
structure Store.Moves (drawn : Nat → Prop) (s t : Store) : Prop where
  later : s.nextTag ≤ t.nextTag
  twisters {i : Nat} : ¬ drawn i → t.twisters[i]? = s.twisters[i]?
  same : t = { s with
    nextTag := t.nextTag, agendas := t.agendas, completed := t.completed, records := t.records
    twisters := t.twisters }

theorem Store.Elapses.moves (h : s.Elapses t) : s.Moves drawn t :=
  ⟨h.later, fun _ => by rw [h.same], by rw [h.same]⟩

theorem Store.moves_tagsFrom {n : Nat} (h : s.nextTag ≤ n) : s.Moves drawn (s.tagsFrom n) :=
  ⟨h, fun _ => rfl, rfl⟩

/-- The results that were reached are there, and the generators of numbers have not moved. -/
structure Store.Holds (drawn : Nat → Prop) (s t : Store) : Prop where
  completed {i : Nat} {vs : List Value} : s.completed[i]? = some vs → t.completed[i]? = some vs
  twisters {i : Nat} : drawn i → t.twisters[i]? = s.twisters[i]?

theorem Store.Holds.refl (s : Store) : s.Holds drawn s := ⟨id, fun _ => rfl⟩

theorem Store.Holds.trans (h : s.Holds drawn t) (g : t.Holds drawn u) : s.Holds drawn u :=
  ⟨fun hv => g.completed (h.completed hv), fun hi => (g.twisters hi).trans (h.twisters hi)⟩

theorem Store.Respects.holds (h : s.Respects drawn t) : s.Holds drawn t := ⟨h.completed, h.twisters⟩

theorem Store.Elapses.holds (h : s.Elapses t) : s.Holds drawn t :=
  ⟨h.completed, fun _ => by rw [h.same]⟩

/-- The generators that are drawn from are the same, and where there are two lists of values, these look
the same. -/
structure Store.Levels (see : Value → V) (drawn : Nat → Prop) (lists : Option (Nat × Nat)) (s t : Store) :
    Prop where
  twisters {i : Nat} : drawn i → s.twisters[i]? = t.twisters[i]?
  completed {l m : Nat} : lists = some (l, m) → ∃ vs vs', s.completed[l]? = some vs ∧
    t.completed[m]? = some vs' ∧ vs.map see = vs'.map see

theorem Store.Levels.held {see : Value → V} {lists : Option (Nat × Nat)} {s' t' : Store}
    (h : s.Levels see drawn lists t) (hs : s.Holds drawn s') (ht : t.Holds drawn t') :
    s'.Levels see drawn lists t' where
  twisters hi := by rw [hs.twisters hi, ht.twisters hi, h.twisters hi]
  completed hlists := by
    obtain ⟨vs, vs', hvs, hvs', hsee⟩ := h.completed hlists
    exact ⟨vs, vs', hs.completed hvs, ht.completed hvs', hsee⟩

end Stores

/-- The venue where programs leave alone what there is of agendas, of results of runs, and of these
generators. -/
def Venue.keeping (T : Venue V τ) (drawn : Nat → Prop) : Venue V (τ × Store) where
  World := T.World
  store := T.store
  Later := T.Later
  refl := T.refl
  trans := T.trans
  see := T.see
  Fit := T.Fit
  Holds w x := T.Holds w x.1 ∧ x.2.Respects drawn (T.store w)

/-- The library can do its part on the venue. It may change what it keeps for itself, which is not seen and
makes no difference to private states; all values may be answers; and lists and tuples look the same if
their items do. -/
structure Venue.Lets (T : Venue V τ) (drawn : Nat → Prop) : Prop where
  see_tagged (v : Value) (n : Nat) : T.see (v.tagged n).1 = T.see v
  fits (w : T.World) (v : Value) : T.Fit w v
  list {xs xs' : List Value} : xs.map T.see = xs'.map T.see → T.see (.list 0 xs) = T.see (.list 0 xs')
  tuple {xs xs' : List Value} : xs.map T.see = xs'.map T.see → T.see (.tuple 0 xs) = T.see (.tuple 0 xs')
  moved {w : T.World} {t : Store} : (T.store w).Moves drawn t →
    ∃ u, T.Later w u ∧ T.store u = t ∧ ∀ x, T.Holds w x → T.Holds u x

section Comparisons

variable {T : Venue V τ} {drawn : Nat → Prop}

/-- The venue as a scene, where all values may be answers. -/
def Venue.scene (hT : T.Lets drawn) : Scene V where
  World := T.World
  store := T.store
  see := T.see
  Known _ _ := True
  Fit _ _ := True
  see_tagged := hT.see_tagged

def Venue.course (hT : T.Lets drawn) : Course (T.scene hT) where
  Later := T.Later
  refl := T.refl
  trans := T.trans
  known _ _ := trivial
  fit _ _ := trivial
  identified w v := by
    obtain ⟨n, hn, htags⟩ := (T.store w).identify_snd v
    obtain ⟨u, hu, hstore, -⟩ := hT.moved (Store.moves_tagsFrom hn)
    exact ⟨u, hu, hstore.trans htags.symm, fun _ => trivial⟩
  identifiedAll w call := by
    obtain ⟨n, hn, htags⟩ := (T.store w).identifyAll_snd call
    obtain ⟨u, hu, hstore, -⟩ := hT.moved (Store.moves_tagsFrom hn)
    exact ⟨u, hu, hstore.trans htags.symm⟩

/-- Runs of which waits are passed. Before there are lists of values that are compared, all results that
were reached stay as they are. -/
def Comparison.passing (hT : T.Lets drawn) (L : Listener) (lists : Option (Nat × Nat)) :
    Comparison (T.scene hT) where
  course := T.course hT
  listener := L
  Level w u := (∃ x, T.Holds w x ∧ T.Holds u x) ∧ (T.store w).Levels T.see drawn lists (T.store u)
  Same _ _ x x' := T.see x = T.see x'
  Fails f f' := T.see (.failure f) = T.see (.failure f')
  passes := true
  same_later _ _ h := h
  see h := h
  fails _ := rfl
  Keeps s es t := (∀ (i : Nat) (a : Agenda), s.agendas[i]? = some a → t.agendas[i]? = some a) ∧
    (lists = none → ∀ (i : Nat) (vs : List Value), s.completed[i]? = some vs → t.completed[i]? = some vs) ∧
    ∀ e ∈ es, e.isTold = true
  keeps_told _ h := ⟨fun _ _ => id, fun _ _ _ => id, h⟩
  keeps_append h g := ⟨fun i a ha => g.1 i a (h.1 i a ha),
    fun hlists i vs hv => g.2.1 hlists i vs (h.2.1 hlists i vs hv),
    fun e he => (List.mem_append.1 he).elim (h.2.2 e) (g.2.2 e)⟩

end Comparisons

end AlgebraicEffects
