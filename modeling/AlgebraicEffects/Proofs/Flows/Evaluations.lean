import AlgebraicEffects.Proofs.Flows.Composed
import AlgebraicEffects.Proofs.Flows.Hosts

/-!
Evaluations of two programs side by side that are in flight together.

The same tree may be evaluated several times: one evaluation after the other, one inside what
follows another one, or overlapping. Between the turns and beside them other code runs, and the host
runs each callback of each evaluation once, in any order (`Together`). Main statement: at any moment
each evaluation has resumed what follows it at most once, and exactly once as soon as none of its
callbacks is left, with the values of both programs in order.
-/

set_option autoImplicit false

namespace AlgebraicEffects

/-- Two programs side by side, and what follows them. -/
def evaluation (left right rest : Value) : Action Value :=
  (Suspension.par left right).bind fun p => Program.graft p rest

/-- An evaluation in flight: what follows it, its callbacks that wait, its lists, and the values
with which it has resumed what follows. -/
structure Flight where
  rest : Value
  callbacks : List Callback
  own : Nat → Prop
  resumed : List Value

section Turning

variable {host : Value} (H : Registrar host) (W : Watch) (enclosing : Context → Prop)

/-- An action in its turn, in which it registers callbacks. Either it ends, or it resumes what
follows the evaluation; what is done further in this turn is up to that. -/
inductive Turns (rest : Value) (a : Action Value) (s : Store) :
    List Callback → List Value → Store → Prop where
  | ends {new : List Callback} {x : Value} {t : Store} :
      Comes W a s (.done x) t → (H.waiting t).Perm (H.waiting s ++ new) → Turns rest a s new [] t
  | resumes {new : List Callback} {C : Context} {tag : Nat} {v : Value} {t : Store} :
      Comes W a s ((Program.graft (.leaf tag v) rest).bind C) t → enclosing C →
      (H.waiting t).Perm (H.waiting s ++ new) → Turns rest a s new [v] t

variable {H W enclosing} {rest : Value} {L : Value → Prop} {a : Action Value} {s t u : Store}
  {own : Nat → Prop} {others new callbacks : List Callback} {resumed : List Value}

/-- What is grafted onto a leaf is called with its value. -/
theorem Comes.exists_call (hcallable : rest.isCallable = true) {tag : Nat} {v : Value} {C : Context}
    (h : Comes W a s ((Program.graft (.leaf tag v) rest).bind C) t) :
    ∃ k, Comes W a s (.call rest (.of [v]) k) t := by
  have hgraft : Program.graft (.leaf tag v) rest = Program.lift <$> Action.ask rest [v] := by
    simp only [Program.graft, hcallable, if_true]
  rw [hgraft] at h
  exact ⟨_, h⟩

/-- An action that ends silently does so in one store. -/
theorem Comes.end_unique {x y : Value} (h : Comes W a s (.done x) t) (g : Comes W a s (.done y) u) :
    t = u := by
  obtain ⟨q, h, -⟩ := h
  obtain ⟨r, g, -⟩ := g
  obtain ⟨cs, h, -⟩ := h.traced (.done x t)
  obtain ⟨ds, g, -⟩ := g.traced (.done y u)
  exact (h.unique g).2.2

/-- An action that ends silently does not come to a call of something that is watched. -/
theorem Comes.not_call {x : Value} {arguments : Arguments Value} {k : Ending → Action Value}
    (h : Comes W a s (.done x) t) (hrest : W.sees rest = true) :
    ¬ Comes W a s (.call rest arguments k) u := by
  rintro ⟨r, g, -⟩
  obtain ⟨q, h, hq⟩ := h
  obtain ⟨cs, h, hcs⟩ := h.traced (.done x t)
  rw [show requests [] = [] from rfl, List.append_nil] at hcs
  exact hq.not_mem hrest (hcs ▸ g.mem_requests rfl h)

/-- An action comes to one first call of something that is watched, in one store. -/
theorem Comes.call_unique {arguments arguments' : Arguments Value} {k l : Ending → Action Value}
    (h : Comes W a s (.call rest arguments k) t) (g : Comes W a s (.call rest arguments' l) u)
    (hrest : W.sees rest = true) : arguments = arguments' ∧ t = u := by
  obtain ⟨q, h, hq⟩ := h
  obtain ⟨r, g, hr⟩ := g
  obtain ⟨heq, rfl⟩ := h.first_unique hq rfl hrest g hr rfl hrest
  cases heq
  exact ⟨rfl, rfl⟩

/-- The contexts in which what follows an evaluation is called. -/
abbrev following (rest : Value) (enclosing : Context → Prop) : Context → Prop :=
  inside (· = fun p => Program.graft p rest) enclosing

/-- What delivers takes its turn. -/
theorem Delivers.exists_turn (h : Delivers H W (following rest enclosing) L own others a s) :
    ∃ new resumed t, Turns H W enclosing rest a s new resumed t := by
  cases h with
  | pause ha hworks => exact ⟨_, _, _, .ends ha hworks.registered⟩
  | finish ha hworks hC =>
    obtain ⟨_, C, rfl, hC, rfl⟩ := hC
    exact ⟨_, _, _, .resumes ha hC hworks.registered⟩

theorem split_ne_nil {α : Type} {c : α} {before after : List α} : before ++ c :: after ≠ [] :=
  List.append_ne_nil_of_right_ne_nil before (List.cons_ne_nil c after)

/-- What stands in a list stands in each of its permutations. -/
theorem exists_split_of_perm {α : Type} {c : α} {items before after : List α}
    (h : items.Perm (before ++ c :: after)) :
    ∃ before' after',
      items = before' ++ c :: after' ∧ (before' ++ after').Perm (before ++ after) := by
  obtain ⟨before', after', rfl⟩ := List.append_of_mem (h.mem_iff.2 List.mem_append_cons_self)
  exact ⟨before', after', rfl, (List.perm_middle.symm.trans (h.trans List.perm_middle)).cons_inv⟩

theorem Waits.perm {callbacks' : List Callback} (h : Waits H W enclosing L own callbacks s)
    (hperm : callbacks.Perm callbacks') : Waits H W enclosing L own callbacks' s := by
  refine ⟨fun hnil => h.1 (hnil ▸ hperm).eq_nil, fun before c after hsplit t ht => ?_⟩
  obtain ⟨before', after', rfl, hothers⟩ := exists_split_of_perm (hsplit ▸ hperm)
  exact (h.2 before' c after' rfl t ht).perm hothers

/-- A turn of an action that ends silently ends. -/
theorem Turns.of_end {x : Value} {new' : List Callback}
    (h : Turns H W enclosing rest a s new resumed t) (hrest : W.sees rest = true)
    (hcallable : rest.isCallable = true)
    (hend : Comes W a s (.done x) u) (hworks : Works H own s new' u) :
    resumed = [] ∧ u = t ∧ new'.Perm new := by
  cases h with
  | ends hend' hnew =>
    obtain rfl := hend.end_unique hend'
    exact ⟨rfl, rfl, (List.perm_append_left_iff _).1 (hworks.registered.symm.trans hnew)⟩
  | resumes hresumes =>
    obtain ⟨k, hcall⟩ := hresumes.exists_call hcallable
    exact absurd hcall (hend.not_call hrest)

/-- A turn of an action that resumes what follows does so. -/
theorem Turns.of_resume {C : Context} {tag : Nat} {v : Value}
    (h : Turns H W enclosing rest a s new resumed t) (hrest : W.sees rest = true)
    (hcallable : rest.isCallable = true)
    (hresumes : Comes W a s ((Program.graft (.leaf tag v) rest).bind C) u)
    (hworks : Works H own s [] u) : resumed = [v] ∧ u = t ∧ new = [] := by
  obtain ⟨k, hcall⟩ := hresumes.exists_call hcallable
  cases h with
  | ends hend => exact absurd hcall (hend.not_call hrest)
  | resumes hresumes' _ hnew =>
    obtain ⟨l, hcall'⟩ := hresumes'.exists_call hcallable
    obtain ⟨hsame, rfl⟩ := hcall.call_unique hcall' hrest
    cases hsame
    exact ⟨rfl, rfl,
      ((List.perm_append_left_iff _).1 (hworks.registered.symm.trans hnew)).nil_eq.symm⟩

/-- A turn of what delivers either leaves callbacks of its own, or resumes what follows with a value
of the kind and leaves none. -/
theorem Turns.of_delivers (h : Turns H W enclosing rest a s new resumed t)
    (hrest : W.sees rest = true) (hcallable : rest.isCallable = true)
    (hdelivers : Delivers H W (following rest enclosing) L own others a s) :
    Works H own s new t ∧
      (resumed = [] ∧ Waits H W (following rest enclosing) L (gained own s t) (others ++ new) t ∨
        ∃ v, resumed = [v] ∧ L v ∧ others ++ new = []) := by
  cases hdelivers with
  | pause ha hworks hperm hne hnext =>
    obtain ⟨rfl, rfl, hsame⟩ := h.of_end hrest hcallable ha hworks
    exact ⟨⟨hworks.later, hworks.kept, hworks.stays, hworks.registered.trans (hsame.append_left _)⟩,
      .inl ⟨rfl, Waits.perm ⟨hne, hnext⟩ (hperm.trans (hsame.append_left others))⟩⟩
  | finish ha hworks hC hv =>
    obtain ⟨_, C, rfl, hC, rfl⟩ := hC
    obtain ⟨rfl, rfl, rfl⟩ := h.of_resume hrest hcallable ha hworks
    exact ⟨hworks, .inr ⟨_, rfl, hv, rfl⟩⟩

end Turning

section Flying

variable {host : Value} (H : Registrar host) (W : Watch) (enclosing : Context → Prop)
  (left right : Value)

/-- What may have become of evaluations of two programs side by side. A new one may begin at any
time, in any of the contexts and with anything that follows it. The host may call any callback of
any of them, and each callback once. Other code may do whatever it likes, but for writing into the
lists of evaluations that have not yet resumed what follows them. -/
inductive Together : Store → List Flight → Prop where
  | start {s : Store} : H.Ready s → Together s []
  | outside {s t : Store} {flights : List Flight} : Together s flights → s.nextTag ≤ t.nextTag →
      H.Ready t → (∀ f ∈ flights, f.resumed = [] → Meanwhile H f.own s t) → Together t flights
  | begin {s t : Store} {flights : List Flight} {rest : Value} {C : Context} {new : List Callback}
      {resumed : List Value} : Together s flights →
      W.sees rest = true → rest.isCallable = true → enclosing C →
      Turns H W enclosing rest ((evaluation left right rest).bind C) s new resumed t →
      Together t (⟨rest, new, gained (fun _ => False) s t, resumed⟩ :: flights)
  | call {s t : Store} {front back : List Flight} {f : Flight} {before after new : List Callback}
      {c : Callback} {resumed : List Value} : Together s (front ++ f :: back) →
      f.callbacks = before ++ c :: after → Turns H W enclosing f.rest c.call s new resumed t →
      Together t (front ++
        ⟨f.rest, before ++ after ++ new, gained f.own s t, f.resumed ++ resumed⟩ :: back)

/-- An evaluation that is one turn further than another moment of it. -/
inductive Further : Store × Flight → Store × Flight → Prop where
  | turn {s t u : Store} {f : Flight} {before after new : List Callback} {c : Callback}
      {resumed : List Value} : f.callbacks = before ++ c :: after → Meanwhile H f.own s t →
      Turns H W enclosing f.rest c.call t new resumed u →
      Further (u, ⟨f.rest, before ++ after ++ new, gained f.own t u, f.resumed ++ resumed⟩) (s, f)

/-- The evaluation has callbacks that wait, or else it has resumed what follows it once. -/
structure Flight.Sound (L : Value → Prop) (s : Store) (f : Flight) : Prop where
  watched : W.sees f.rest = true
  callable : f.rest.isCallable = true
  made : H.Made s f.own
  state : f.resumed = [] ∧ Waits H W (following f.rest enclosing) L f.own f.callbacks s ∨
    ∃ v, f.resumed = [v] ∧ L v ∧ f.callbacks = []

variable {H W enclosing left right} {effects : Effects} {L : Value → Prop}
  {P : Bool → Value → Prop} {s t : Store} {f g : Flight}
  {flights : List Flight} {new : List Callback} {own : Nat → Prop}

theorem Flight.Sound.later (h : f.Sound H W enclosing L s) (hle : s.nextTag ≤ t.nextTag)
    (ht : f.resumed = [] → Meanwhile H f.own s t) : f.Sound H W enclosing L t where
  watched := h.watched
  callable := h.callable
  made := h.made.later hle
  state := h.state.imp_left fun hwaits => ⟨hwaits.1, hwaits.2.later (ht hwaits.1)⟩

/-- The lists of two evaluations are apart. -/
def Flight.ApartFrom (f g : Flight) : Prop := ∀ tag, f.own tag → ¬ g.own tag

/-- A turn of an evaluation leaves the other ones alone, and what it makes is apart from what they
have made. -/
theorem Flight.Sound.turn (h : g.Sound H W enclosing L s) (hworks : Works H own s new t)
    (happart : ∀ tag, own tag → ¬ g.own tag) :
    g.Sound H W enclosing L t ∧ ∀ tag, gained own s t tag → ¬ g.own tag := by
  refine ⟨h.later hworks.later fun _ => hworks.meanwhile h.made fun tag hg hown =>
    happart tag hown hg, ?_⟩
  rintro tag (hown | hnew) hg
  · exact happart tag hown hg
  · exact Nat.not_lt.2 hnew.1 (h.made tag hg).1

/-- What a turn leaves of an evaluation. -/
theorem Flight.Sound.of_turn {rest : Value} {a : Action Value} {others : List Callback}
    {resumed : List Value} (hready : H.Ready s) (hmade : H.Made s own) (hrest : W.sees rest = true)
    (hcallable : rest.isCallable = true)
    (hdelivers : Delivers H W (following rest enclosing) L own others a s)
    (hturn : Turns H W enclosing rest a s new resumed t) :
    Works H own s new t ∧
      Flight.Sound H W enclosing L t ⟨rest, others ++ new, gained own s t, resumed⟩ := by
  obtain ⟨hworks, hstate⟩ := hturn.of_delivers hrest hcallable hdelivers
  exact ⟨hworks, hrest, hcallable, hmade.gained hready.shared hworks.later, hstate⟩

/-- All evaluations in flight are sound, and their lists are apart. -/
structure Sound (H : Registrar host) (W : Watch) (enclosing : Context → Prop) (L : Value → Prop)
    (s : Store) (flights : List Flight) : Prop where
  ready : H.Ready s
  apart : flights.Pairwise Flight.ApartFrom
  each : ∀ f ∈ flights, f.Sound H W enclosing L s

theorem Flight.Sound.called (h : f.Sound H W enclosing L s) (hready : H.Ready s)
    {before after : List Callback} {c : Callback} (hsplit : f.callbacks = before ++ c :: after) :
    f.resumed = [] ∧
      Delivers H W (following f.rest enclosing) L f.own (before ++ after) c.call s := by
  rcases h.state with ⟨hnone, hwaits⟩ | ⟨v, -, -, hnil⟩
  · exact ⟨hnone, hwaits.2 before c after hsplit s ⟨Nat.le_refl _, fun _ _ => rfl, hready⟩⟩
  · exact absurd (hsplit.symm.trans hnil) split_ne_nil

/-- What delivers takes finitely many turns. -/
theorem Delivers.acc {rest : Value} {a : Action Value} {others : List Callback}
    (h : Delivers H W (following rest enclosing) L own others a s) (hrest : W.sees rest = true)
    (hcallable : rest.isCallable = true) :
    ∀ others' new resumed t, others.Perm others' → Turns H W enclosing rest a s new resumed t →
      Acc (Further H W enclosing) (t, ⟨rest, others' ++ new, gained own s t, resumed⟩) := by
  induction h with
  | @pause own others new callbacks a x s t ha hworks hperm _ _ ih =>
    intro others' new' resumed t' hothers hturn
    obtain ⟨rfl, rfl, hsame⟩ := hturn.of_end hrest hcallable ha hworks
    refine ⟨_, fun _ hfurther => ?_⟩
    obtain ⟨hsplit, hmeanwhile, hnext⟩ := hfurther
    -- The callbacks of the flight are those of the pause in another order.
    obtain ⟨before, after, rfl, hleft⟩ := exists_split_of_perm
      ((hperm.trans (hothers.append hsame)).trans (.of_eq hsplit))
    exact ih before _ after rfl _ hmeanwhile _ _ _ _ hleft hnext
  | finish ha hworks hC _ =>
    intro others' new' resumed t' hothers hturn
    obtain ⟨_, C, rfl, hC, rfl⟩ := hC
    obtain ⟨rfl, rfl, rfl⟩ := hturn.of_resume hrest hcallable ha hworks
    refine ⟨_, fun _ hfurther => ?_⟩
    obtain ⟨hsplit, -, -⟩ := hfurther
    obtain rfl := hothers.nil_eq
    exact absurd hsplit.symm split_ne_nil

theorem Together.sound (h : Together H W enclosing left right s flights)
    (hfinishes : ∀ rest, rest.isCallable = true → ∀ C, enclosing C →
      Surely H W (following rest enclosing) L ((evaluation left right rest).bind C)) :
    Sound H W enclosing L s flights := by
  induction h with
  | start hs => exact ⟨hs, .nil, fun _ h => absurd h List.not_mem_nil⟩
  | outside _ hle ht hkept ih =>
    exact ⟨ht, ih.apart, fun f hf => (ih.each f hf).later hle (hkept f hf)⟩
  | begin _ hrest hcallable hC hturn ih =>
    obtain ⟨hworks, hnew⟩ := Flight.Sound.of_turn ih.ready (fun _ => False.elim) hrest hcallable
      (hfinishes _ hcallable _ hC _ ih.ready) hturn
    refine ⟨hworks.stays, List.pairwise_cons.2 ⟨fun g hg => ?_, ih.apart⟩,
      List.forall_mem_cons.2 ⟨hnew, fun g hg => ?_⟩⟩
    · exact ((ih.each g hg).turn hworks fun _ => False.elim).2
    · exact ((ih.each g hg).turn hworks fun _ => False.elim).1
  | @call s t front back f before after new c resumed _ hsplit hturn ih =>
    obtain ⟨hfront, hback, hbetween⟩ := List.pairwise_append.1 ih.apart
    obtain ⟨hf, hback⟩ := List.pairwise_cons.1 hback
    obtain ⟨heachFront, heachBack⟩ := List.forall_mem_append.1 ih.each
    obtain ⟨hsound, heachBack⟩ := List.forall_mem_cons.1 heachBack
    obtain ⟨hnone, hdelivers⟩ := hsound.called ih.ready hsplit
    obtain ⟨hworks, hnew⟩ := Flight.Sound.of_turn ih.ready hsound.made hsound.watched
      hsound.callable hdelivers hturn
    -- The other evaluations stand on both sides of the one whose callback is called.
    have hleft (g : Flight) (hg : g ∈ front) := (heachFront g hg).turn hworks
      fun tag hown hg' => hbetween g hg f List.mem_cons_self tag hg' hown
    have hright (g : Flight) (hg : g ∈ back) := (heachBack g hg).turn hworks (hf g hg)
    rw [hnone, List.nil_append]
    refine ⟨hworks.stays, List.pairwise_append.2 ⟨hfront, List.pairwise_cons.2
      ⟨fun g hg => (hright g hg).2, hback⟩, fun g hg => List.forall_mem_cons.2 ⟨?_, ?_⟩⟩,
      List.forall_mem_append.2 ⟨fun g hg => (hleft g hg).1, List.forall_mem_cons.2
        ⟨hnew, fun g hg => (hright g hg).1⟩⟩⟩
    · exact fun tag hown hgained => (hleft g hg).2 tag hgained hown
    · exact fun g' hg' => hbetween g hg g' (List.mem_cons_of_mem _ hg')

theorem Flight.Sound.acc (h : f.Sound H W enclosing L s) : Acc (Further H W enclosing) (s, f) := by
  refine ⟨_, fun _ hfurther => ?_⟩
  obtain ⟨hsplit, hmeanwhile, hturn⟩ := hfurther
  rcases h.state with ⟨hnone, hwaits⟩ | ⟨v, -, -, hnil⟩
  · exact (hwaits.2 _ _ _ hsplit _ hmeanwhile).acc h.watched h.callable _ _ _ _ (.refl _)
      (hnone ▸ hturn)
  · exact absurd (hsplit.symm.trans hnil) split_ne_nil

/-- Evaluations of two programs side by side, whose values do not stand for none, are in flight
together. Each of them has lists of its own. At any moment each has resumed what follows it at most
once, and once if and only if none of its callbacks is left, with the values of both programs in
order. Each callback that waits runs, a new evaluation may begin, and none of them takes turns
forever. -/
theorem Together.resume_once (h : Together H W enclosing left right s flights)
    (hP : ∀ side, ¬ P side .notAvailable)
    (hleft : Composed H W effects (P false) (.done (Program.lift left)))
    (hright : Composed H W effects (P true) (.done (Program.lift right)))
    (henclosing : Encloses H W effects enclosing) :
    flights.Pairwise Flight.ApartFrom ∧
    (∀ f ∈ flights, f.resumed.length ≤ 1 ∧ (f.callbacks = [] ↔ f.resumed.length = 1) ∧
      (∀ v ∈ f.resumed, Pairs P v) ∧
      (∀ before c after, f.callbacks = before ++ c :: after →
        ∃ new resumed t, Turns H W enclosing f.rest c.call s new resumed t) ∧
      Acc (Further H W enclosing) (s, f)) ∧
    ∀ rest C, rest.isCallable = true → enclosing C →
      ∃ new resumed t,
        Turns H W enclosing rest ((evaluation left right rest).bind C) s new resumed t := by
  have hpar := (Composed.par hP hleft hright).finishesOnce
  have hsurely (rest : Value) (hcallable : rest.isCallable = true) (C : Context) (hC : enclosing C) :
      Surely H W (following rest enclosing) (Pairs P) ((evaluation left right rest).bind C) := by
    unfold evaluation
    rw [Action.bind_assoc]
    exact hpar _ (encloses_graft henclosing hcallable) _ ⟨_, C, rfl, hC, rfl⟩
  have hsound := h.sound hsurely
  refine ⟨hsound.apart, fun f hf => ?_, fun rest C hcallable hC =>
    (hsurely rest hcallable C hC s hsound.ready).exists_turn⟩
  have hf := hsound.each f hf
  refine ⟨?_, ?_, ?_, fun before c after hsplit => ?_, hf.acc⟩
  · rcases hf.state with ⟨hnone, -⟩ | ⟨v, hone, -⟩
    · simp [hnone]
    · simp [hone]
  · rcases hf.state with ⟨hnone, hwaits⟩ | ⟨v, hone, -, hnil⟩
    · simp [hnone, hwaits.1]
    · simp [hone, hnil]
  · rcases hf.state with ⟨hnone, -⟩ | ⟨v, hone, hv, -⟩
    · simp [hnone]
    · simpa [hone] using hv
  · exact (hf.called hsound.ready hsplit).2.exists_turn

end Flying

/-- Functions of scripts are watched. -/
def Watch.scripts : Watch where
  sees := Value.isScripted
  blind {f} hf := by
    cases f with
    | leaf | grafted | under | waitStart | exitStart | forkStart | allocateCells | parStart
    | parForked | parSettle | suspendOn | nowOf | resumeChecked => rfl
    | _ => cases hf

theorem ready_atLoop : (Registrar.loop 0 fun _ => False).Ready .atLoop where
  isOpen := ⟨.starting, rfl, rfl⟩
  pos := by decide
  unwritten _ _ := rfl
  shared _ h := h.elim

/-- Evaluates a program on an event loop. -/
def evaluating (program : Value) : Action Value :=
  (Handler.evaluate (suspensionTable (.loopHost 0)) none program).bind .done

/-- What is not there stands for none. -/
def Value.Available (v : Value) : Prop := v ≠ .notAvailable

theorem composed_int (n : Int) :
    Composed (.loop 0 fun _ => False) .scripts (fun _ _ _ => False) Value.Available
      (.done (Program.lift (.int n))) := .leaf 0 nofun

theorem composed_nested :
    Composed (.loop 0 fun _ => False) .scripts (fun _ _ _ => False) Value.Available
      (.done (Program.lift (Suspension.parTree (.int 2) Suspension.now))) := by
  refine .weaken (Composed.parTree (P := fun _ => Value.Available) (fun _ h => h rfl) (composed_int 2)
    (.now ?_)) ?_
  · rintro _ ⟨x, rfl⟩
    nofun
  · rintro _ ⟨cells, -, rfl⟩
    nofun

/-- The same tree is evaluated twice, and both evaluations are in flight. -/
theorem Together.resume_once_overlapping :
    ∃ t f g, Together (.loop 0 fun _ => False) .scripts (suspended (.loopHost 0) .scripts) (.int 1)
      (Suspension.parTree (.int 2) Suspension.now) t [f, g] ∧
      f.ApartFrom g ∧ f.resumed.length ≤ 1 ∧ g.resumed.length ≤ 1 := by
  let rest : Value := .function 0 (.closure "rest" ⟨["pair"], none⟩ (.variable "pair") [])
  have hcontext : suspended (.loopHost 0) .scripts evaluating :=
    ⟨.done, fun _ _ _ => ⟨_, .here _ _⟩, rfl⟩
  have honce {t : Store} {flights : List Flight} (h : Together (.loop 0 fun _ => False) .scripts
      (suspended (.loopHost 0) .scripts) (.int 1) (Suspension.parTree (.int 2) Suspension.now) t
      flights) :=
    h.resume_once (P := fun _ => Value.Available) (fun _ h => h rfl) (composed_int 1) composed_nested
      encloses_suspended
  have hstart : Together (.loop 0 fun _ => False) .scripts (suspended (.loopHost 0) .scripts) (.int 1)
      (Suspension.parTree (.int 2) Suspension.now) .atLoop [] := .start ready_atLoop
  obtain ⟨_, _, s, hfirst⟩ := (honce hstart).2.2 rest evaluating rfl hcontext
  have hone := hstart.begin rfl rfl hcontext hfirst
  obtain ⟨_, _, t, hsecond⟩ := (honce hone).2.2 rest evaluating rfl hcontext
  have htwo := hone.begin rfl rfl hcontext hsecond
  obtain ⟨happart, heach, -⟩ := honce htwo
  exact ⟨t, _, _, htwo, (List.pairwise_cons.1 happart).1 _ List.mem_cons_self,
    (heach _ List.mem_cons_self).1, (heach _ (List.mem_cons_of_mem _ List.mem_cons_self)).1⟩

end AlgebraicEffects
