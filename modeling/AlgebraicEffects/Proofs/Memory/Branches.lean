import AlgebraicEffects.Proofs.Memory.Evaluation

/-!
Branches of an evaluation.

A node of the program that an evaluation builds is reached by a branch: the answers that the body has
received until then. Nothing is asked here of the continuation but that it returns programs which leave
the evaluation alone. So what a branch shows is not known before; what is known, of each run that ends,
is which calls of the continuation it makes. A resumption that takes a branch further is noted with
the histories that the body passes then.
-/

set_option autoImplicit false

namespace AlgebraicEffects

open Action (Traced)

variable {V τ : Type} {S : Scene V}

section Notes

variable {C : Course S} {A : Look C τ} {K : Resumption S τ} {turns : List V → Turn V τ}
  {strict : Prop} {s t : Store} {answers : List Value} {cs : List Call}

/-- Histories that had been passed before have nothing new to note. -/
theorem Noted.skip {ps qs : List (List Value)}
    (h : Noted K turns strict s t (ps ++ qs) answers cs)
    (hold : strict → ∀ p ∈ ps, (turns (p.map S.see)).calls ≠ [] → Reached (s.memory K.memo) p) :
    Noted K turns strict s t qs answers cs where
  grows := h.grows
  fresh := by
    intro hstrict m hm
    rcases h.fresh hstrict m hm with hm | ⟨hmem, hnot, hcalls⟩
    · exact .inl hm
    · rcases List.mem_append.1 hmem with hp | hq
      · exact absurd (hold hstrict _ hp hcalls) hnot
      · exact .inr ⟨hq, hnot, hcalls⟩
  reached hstrict q hq hcalls := h.reached hstrict q (List.mem_append_right _ hq) hcalls
  received := h.received
  charged := by
    intro hstrict
    have hnil : ps.flatMap (owed S turns (s.memory K.memo)) = [] := by
      refine List.flatMap_eq_nil_iff.2 fun p hp => ?_
      by_cases hr : Reached (s.memory K.memo) p
      · exact owed_of_reached hr
      · rw [owed_of_not_reached hr]
        exact Classical.byContradiction fun hcalls => hr (hold hstrict p hp hcalls)
    have hcharged := h.charged hstrict
    rwa [List.flatMap_append, hnil, List.nil_append] at hcharged

/-- A run inside a call of anything else is noted as it is. -/
theorem Noted.within {histories : List (List Value)} {callee : Value}
    (h : Noted K turns strict s t histories answers cs) (hf : callee.isForeign K.memo = true)
    (arguments : Arguments Value) :
    Noted K turns strict s t histories answers [.mk callee arguments cs] := by
  obtain ⟨hthrough, hreceived⟩ := of_isForeign hf arguments cs
  exact {
    grows := h.grows
    fresh := h.fresh
    reached := h.reached
    received := hreceived.trans h.received
    charged := fun hstrict => by rw [hthrough]; exact h.charged hstrict }

/-- A run inside a call that hands an answer to the body is noted with the answer. -/
theorem Noted.answered {histories : List (List Value)} {callee x : Value}
    (h : Noted K turns strict s t histories answers cs)
    (hthrough : callee.resumesThrough K.memo = false)
    (hanswers : callee.answersThrough K.memo = true) :
    Noted K turns strict s t histories (x :: answers) [.mk callee (.of [x]) cs] where
  grows := h.grows
  fresh := h.fresh
  reached := h.reached
  received := by
    rw [received_of_answers hanswers, h.received]
    rfl
  charged hstrict := by
    rw [through_of_not_resumes hthrough]
    exact h.charged hstrict

variable (A K turns strict)

/-- An intact memory covers all turns that a body takes until it has received these answers. -/
structure Covered (w : S.World) (ys : List Value) : Prop where
  intact : Intact A K turns strict w
  reached : strict → ∀ p ∈ [] :: passed [] ys, (turns (p.map S.see)).calls ≠ [] →
    Reached ((S.store w).memory K.memo) p

variable {A K turns strict}

theorem Covered.keeps {w u : S.World} {ys : List Value} (h : Covered A K turns strict w ys)
    (hu : Keeps A K turns strict w u) : Covered A K turns strict u ys := by
  obtain ⟨hintact, hgrows⟩ := hu.2 h.intact
  exact ⟨hintact, fun hstrict p hp hcalls => (h.reached hstrict p hp hcalls).mono hgrows⟩

end Notes

section Branch

variable {C : Course S} (K : Resumption S Unit) (turns : List V → Turn V Unit) (strict : Prop)
  (implementation : Value) (params : List V) (base : S.World)

/-- A body that has received these answers and waits for the next, with a memory that covers it. -/
structure Open (C : Course S) (w : S.World) (ys : List Value) : Prop where
  later : C.Later base w
  covered : Covered (Look.harmless C K.memo) K turns strict w ys
  known : ∀ y ∈ ys, S.Known w y
  awaits : (coroutineOf turns).Awaits (ys.map S.see)
  yields : (turns (ys.map S.see)).pause = .yields ()

/-- Where a node of the program sits: below a body that has ended, or at an operation of a
sub-program that an open body has yielded. -/
inductive Sits (C : Course S) (positional : List Value) (w : S.World) :
    Ending → List Value → Prop where
  | ended {e : Ending} {ys : List Value} :
      (Look.harmless C K.memo).Is w e () → Sits C positional w e ys
  | waiting {tag a b : Nat} {name : String} {operands ys : List Value} {resume : Value} :
      (Look.harmless C K.memo).Is w (.ok (.operation tag name operands resume)) () →
      Open K turns strict base C w ys →
      Sits C positional w (.ok (.operation 0 name operands (.arrowOf (.grafted resume
        (Replay.rebuild (K.factory implementation positional) [] a b [] ys))))) ys

/-- A run leads from a branch to a node that sits further on it, and notes the histories that are
passed on the way, after those that it has to pass first. -/
def Leads (C : Course S) (positional : List Value) (w : S.World) (first : List (List Value))
    (ys : List Value) (cs : List Call) (e : Ending) (t : Store) : Prop :=
  ∃ u zs xs, S.store u = t ∧ Keeps (Look.harmless C K.memo) K turns strict w u ∧
    Noted K turns strict (S.store w) (S.store u) (first ++ passed ys zs) xs cs ∧
    xs.map S.see = zs.map S.see ∧
    Sits K turns strict implementation base C positional u e (ys ++ zs)

variable {K turns strict implementation params base}

theorem Open.keeps {w u : S.World} {ys : List Value} (h : Open K turns strict base C w ys)
    (hu : Keeps (Look.harmless C K.memo) K turns strict w u) : Open K turns strict base C u ys where
  later := C.trans h.later hu.1
  covered := h.covered.keeps hu
  known y hy := C.known hu.1 (h.known y hy)
  awaits := h.awaits
  yields := h.yields

theorem Sits.keeps {positional : List Value} {w u : S.World} {e : Ending} {ys : List Value}
    (h : Sits K turns strict implementation base C positional w e ys)
    (hu : Keeps (Look.harmless C K.memo) K turns strict w u) :
    Sits K turns strict implementation base C positional u e ys := by
  cases h with
  | ended his => exact .ended ((Look.harmless C K.memo).later hu.1 his)
  | waiting his ho => exact .waiting ((Look.harmless C K.memo).later hu.1 his) (ho.keeps hu)

theorem harmless_leaf {memo : Nat} {w : S.World} {v x : Value} {tag : Nat}
    (hv : Program.lift v = .leaf tag x) (h : S.Fit w x) : (Look.harmless C memo).Is w (.ok v) () := by
  refine ⟨fun u e _ => S.Fit u x ∧ e = .ok v, ?_, h, rfl⟩
  rintro u e _ ⟨hx, rfl⟩
  refine ⟨fun tag' y z hy hz => ?_, fun _ _ _ _ he => ?_⟩
  · cases hy
    rw [hv] at hz
    cases hz
    exact hx
  · cases he
    simp [Program.lift, Value.isProgram] at hv

/-- What counts as a harmless program is one. -/
theorem harmless_lifted {memo : Nat} {w : S.World} {v : Value}
    (h : (Look.harmless C memo).Is w (.ok v) ()) :
    (Look.harmless C memo).Is w (.ok (Program.lift v)) () := by
  by_cases hv : v.isProgram
  · rwa [Program.lift, if_pos hv]
  · have hlift : Program.lift v = .leaf 0 v := if_neg hv
    obtain ⟨R, hR, hr⟩ := h
    rw [hlift]
    exact harmless_leaf rfl ((hR w _ () hr).1 0 v v rfl hlift)

theorem Sits.lifted {positional : List Value} {w : S.World} {e : Ending} {ys : List Value}
    (h : Sits K turns strict implementation base C positional w e ys) :
    Sits K turns strict implementation base C positional w (e.map Program.lift) ys := by
  cases h with
  | ended his =>
    cases e with
    | ok v => exact .ended (harmless_lifted his)
    | error f => exact .ended his
  | waiting his ho => exact .waiting his ho

/-- A run that starts with steps that keep to themselves leads where the rest of it leads. -/
theorem Leads.before {positional : List Value} {w w' : S.World} {first : List (List Value)}
    {ys : List Value} {cs ds : List Call} {e : Ending} {t : Store}
    (h : Leads K turns strict implementation base C positional w' first ys ds e t)
    (hw : Keeps (Look.harmless C K.memo) K turns strict w w') (hcs : Quiet K.memo cs)
    (hmemory : (S.store w').memory K.memo = (S.store w).memory K.memo) :
    Leads K turns strict implementation base C positional w first ys (cs ++ ds) e t := by
  obtain ⟨u, zs, xs, hstore, hu, hnoted, hsee, hsits⟩ := h
  exact ⟨u, zs, xs, hstore, hw.trans hu, hnoted.before hcs hmemory, hsee, hsits⟩

theorem Leads.within {positional : List Value} {w : S.World} {first : List (List Value)}
    {ys : List Value} {cs : List Call} {e : Ending} {t : Store} {callee : Value}
    (h : Leads K turns strict implementation base C positional w first ys cs e t)
    (hf : callee.isForeign K.memo = true) (arguments : Arguments Value) :
    Leads K turns strict implementation base C positional w first ys [.mk callee arguments cs] e t := by
  obtain ⟨u, zs, xs, hstore, hu, hnoted, hsee, hsits⟩ := h
  exact ⟨u, zs, xs, hstore, hu, hnoted.within hf arguments, hsee, hsits⟩

/-- A run that has nothing to do with the memory leads no further on the branch. -/
theorem leads_apart {root : S.World} (hresumes : Resumes (Look.harmless C K.memo) K root)
    {positional : List Value} {w u : S.World} {ys : List Value} {cs : List Call} {e : Ending}
    (hu : C.Later w u) (hapart : Apart K.memo w cs u) (his : (Look.harmless C K.memo).Is u e ()) :
    Leads K turns strict implementation base C positional w [] ys cs e (S.store u) := by
  have hsame : Untouched C K w u := ⟨hu, hapart.2⟩
  exact ⟨u, [], [], rfl, hsame.keeps hresumes, noted_nil hapart.1 (Store.memory_eq hapart.2), rfl,
    .ended his⟩

end Branch

section Run

variable {C : Course S} {K : Resumption S Unit} {turns : List V → Turn V Unit} {strict : Prop}
  {implementation : Value} {params : List V} {root base : S.World} {positional : List Value}
  (hset : Setting (Look.harmless C K.memo) K root strict)
  (P : ∀ recording, Performs (Look.harmless C K.memo) K strict root implementation params turns
    (.rememberedResume K.memo recording K.continuation))
  (hcallee : implementation.isForeign K.memo = true) (hpositional : positional.map S.see = params)
  (hbase : C.Later root base) (hrecordings : K.firstRecording ≤ (S.store base).recordings.size)
  (hgenerators : K.firstGenerator ≤ (S.store base).generators.size)

include hset P hcallee hpositional hbase hrecordings hgenerators

/-- Building a program again passes all histories of a branch, and leads where grafting leads. -/
theorem leads_of_buildOn {w : S.World} {ys : List Value} {a b : Nat} {cs : List Call} {e : Ending}
    {t : Store} (hlater : C.Later base w) (hintact : Intact (Look.harmless C K.memo) K turns strict w)
    (hknown : ∀ y ∈ ys, S.Known w y) (hawaits : (coroutineOf turns).Awaits (ys.map S.see))
    (hrun : Traced (Replay.buildOn (K.factory implementation positional) (.tuple a []) [] []
      (.tuple b ys)) (S.store w) cs e t)
    (hgraft : ∀ u v ds, weight ds ≤ weight cs → (Look.harmless C K.memo).Is u (.ok v) () →
      Open K turns strict base C u ys →
      Traced (Program.graft v (Replay.rebuild (K.factory implementation positional) [] a b [] ys))
        (S.store u) ds e t →
      Leads K turns strict implementation base C positional u [] ys ds e t) :
    Leads K turns strict implementation base C positional w ([] :: passed [] ys) ys cs e t := by
  have hsizes := hset.grows base w hlater
  obtain ⟨cs₁, outer, s, hmade, hsent, hnever⟩ := exists_replayed hset P hcallee
    (C.trans hbase hlater) (Nat.le_trans hrecordings hsizes.1) (Nat.le_trans hgenerators hsizes.2)
    hintact hpositional hknown hawaits
  obtain ⟨es, rfl, hrest⟩ := Replay.traced_of_buildOn hrun hmade
  by_cases hstops : coroutineOf turns (ys.map S.see) = .diverges
  · obtain ⟨ds, q, v, hfirst⟩ := hrest.exists_of_bind
    exact absurd hfirst (hnever hstops ds q v)
  obtain ⟨fed, u, ds, hfed, hu, hintact', hnoted, hstop⟩ := hsent hstops
  have hkeeps : Keeps (Look.harmless C K.memo) K turns strict w u :=
    ⟨hu, fun _ => ⟨hintact', hnoted.grows⟩⟩
  generalize hq : coroutineOf turns (ys.map S.see) = q at hstop
  cases hstop with
  | @yielded v p his =>
    obtain ⟨fs, rfl, hgrafting⟩ := hrest.of_bind hfed
    have hopen : Open K turns strict base C u ys := {
      later := C.trans hlater hu
      covered := ⟨hintact', hnoted.reached⟩
      known := fun y hy => C.known hu (hknown y hy)
      awaits := hawaits
      yields := hq }
    have hle : weight fs ≤ weight (cs₁ ++ (ds ++ fs)) := by
      rw [weight_append, weight_append]
      omega
    obtain ⟨z, zs, xs, hstore, hz, hnoted', hsee, hsits⟩ := hgraft u v fs hle his hopen hgrafting
    refine ⟨z, zs, xs, hstore, hkeeps.trans hz, ?_, hsee, hsits⟩
    rw [← List.append_assoc]
    refine hnoted.trans hnoted' fun p hp q hq hpq => ?_
    have hlt := (length_of_mem_passed hq).1
    rw [← hpq] at hlt
    rcases List.mem_cons.1 hp with rfl | hp
    · exact Nat.not_lt_zero _ hlt
    · have hle := (length_of_mem_passed hp).2
      rw [List.length_nil] at hle
      omega
  | @returned v p his =>
    have hend : Traced ((Replay.sent outer ys).bind (Replay.concluded
        (K.factory implementation positional) (.tuple a []) [] (.tuple b ys))) s (ds ++ [])
        (.ok (Program.lift v)) (S.store u) := by
      refine hfed.bind ?_
      show Traced (Replay.finish _ _ _ _) _ _ _ _
      rw [Replay.finish_of_all]
      exact .done _ _
    obtain ⟨rfl, rfl, rfl⟩ := hrest.unique hend
    refine ⟨u, [], [], rfl, hkeeps, ?_, rfl, .ended (harmless_lifted his)⟩
    rw [passed, List.append_nil, List.append_nil]
    exact hnoted
  | @failed f p his =>
    obtain ⟨rfl, rfl, rfl⟩ := hrest.unique hfed.bind_error
    refine ⟨u, [], [], rfl, hkeeps, ?_, rfl, .ended his⟩
    rw [passed, List.append_nil]
    exact hnoted

/-- Grafting the construction onto a yielded sub-program leads further on the branch. The induction is
on the number of calls of the run: at a leaf the construction is called, and what is left of the run
when the body has been fed is shorter. -/
theorem leads_of_graft (n : Nat) : ∀ cs, weight cs < n → ∀ w v ys a b e t,
    (Look.harmless C K.memo).Is w (.ok v) () → Open K turns strict base C w ys →
    Traced (Program.graft v (Replay.rebuild (K.factory implementation positional) [] a b [] ys))
      (S.store w) cs e t →
    Leads K turns strict implementation base C positional w [] ys cs e t := by
  induction n with
  | zero => intro cs hn; exact absurd hn (Nat.not_lt_zero _)
  | succ n ih =>
    intro cs hn w v ys a b e t his hopen hrun
    rcases Replay.lift_cases v with ⟨tag, name, operands, resume, rfl⟩ | ⟨tag, x, hv⟩
    · obtain ⟨rfl, rfl, rfl⟩ := hrun.unique (.done _ _)
      refine ⟨w, [], [], rfl, Keeps.refl w, noted_nil ⟨rfl, rfl⟩ rfl, rfl, ?_⟩
      rw [List.append_nil]
      exact .waiting his hopen
    rw [Replay.graft_of_leaf hv rfl] at hrun
    obtain ⟨q, rfl, hasked⟩ := hrun.of_map
    obtain ⟨inner, rfl, hreplay⟩ := hasked.of_invoke
    have hfit : S.Fit w x := by
      obtain ⟨R, hR, hr⟩ := his
      exact (hR w _ () hr).1 tag v x rfl hv
    obtain ⟨w₁, hw₁, hstore₁, hknown₁⟩ := C.identified w x
    obtain ⟨m, -, hm⟩ := Store.identify_snd (S.store w) x
    have hidentify := traced_identify (S.store w) x
    have hsee := S.see_identify (S.store w) x
    rw [← hstore₁] at hidentify
    generalize ((S.store w).identify x).1 = y at hknown₁ hidentify hsee
    have hsame : Untouched C K w w₁ := ⟨hw₁, by rw [hstore₁, hm]; rfl⟩
    have hopen₁ := hopen.keeps (hsame.keeps hset.resumes)
    have hzs : (ys ++ [y]).map S.see = ys.map S.see ++ [S.see y] := by
      rw [List.map_append, List.map_singleton]
    have hawaits : (coroutineOf turns).Awaits ((ys ++ [y]).map S.see) := by
      rw [hzs]
      exact hopen.awaits.snoc hopen.yields _
    have hknown : ∀ z ∈ ys ++ [y], S.Known w₁ z := by
      intro z hz
      rcases List.mem_append.1 hz with hz | hz
      · exact hopen₁.known z hz
      · rw [List.mem_singleton.1 hz]
        exact hknown₁ hfit
    replace hreplay : Traced ((Action.identify x).bind fun y =>
        Replay.buildOn (K.factory implementation positional) (.tuple a []) [] []
          (.tuple 0 (ys ++ [y]))) (S.store w) inner q t := hreplay
    obtain ⟨es, hes, hbuild⟩ := hreplay.of_bind hidentify
    rw [List.nil_append] at hes
    subst hes
    rw [weight_singleton] at hn
    obtain ⟨u, zs, xs, hstore, hu, hnoted, hxs, hsits⟩ :=
      leads_of_buildOn hset P hcallee hpositional hbase hrecordings hgenerators hopen₁.later
        hopen₁.covered.intact hknown hawaits hbuild fun u v ds hds his hopen hgrafting =>
          ih ds (by omega) u v (ys ++ [y]) a 0 q t his hopen hgrafting
    have hfirst : ([] :: passed [] (ys ++ [y])) ++ passed (ys ++ [y]) zs =
        ([] :: passed [] ys) ++ passed ys (y :: zs) := by
      rw [passed_append]
      simp [passed]
    rw [hfirst] at hnoted
    refine ⟨u, y :: zs, x :: xs, hstore, (hsame.keeps hset.resumes).trans hu, ?_, ?_, ?_⟩
    · refine (hnoted.skip hopen₁.covered.reached).since (Store.memory_eq hsame.2) |>.answered rfl ?_
      simp [Replay.rebuild, Resumption.factory, Value.arrowOf, Value.answersThrough]
    · rw [List.map_cons, List.map_cons, hxs, hsee]
    · have happend : ys ++ y :: zs = (ys ++ [y]) ++ zs := by simp
      rw [happend]
      exact hsits.lifted

/-- A resumption leads further on the branch. -/
theorem Sits.resume {w u : S.World} {ys : List Value} {tag : Nat} {name : String}
    {operands : List Value} {resume x : Value} {cs : List Call} {o : Ending} {t : Store}
    (hs : Sits K turns strict implementation base C positional w
      (.ok (.operation tag name operands resume)) ys)
    (hu : Keeps (Look.harmless C K.memo) K turns strict w u) (hx : S.Fit u x)
    (hrun : Traced (Action.ask resume [x]) (S.store u) cs o t) :
    Leads K turns strict implementation base C positional u [] ys cs o t := by
  cases hs with
  | ended his =>
    obtain ⟨R, hR, hr⟩ := his
    obtain ⟨z, y, rfl, hz, hapart, hr'⟩ :=
      (hR w _ () hr).2 tag name operands resume rfl u x hu.1 hx trivial cs o t hrun
    exact leads_apart hset.resumes hz hapart ⟨R, hR, hr'⟩
  | @waiting tag a b name operands ys resume his hopen =>
    obtain ⟨inner, rfl, hgrafted⟩ := hrun.of_invoke
    replace hgrafted : Traced ((Action.ask resume [x]).bind fun v => Program.graft v
        (Replay.rebuild (K.factory implementation positional) [] a b [] ys)) (S.store u) inner o t :=
      hgrafted
    obtain ⟨ds, q, t₁, hfirst⟩ := hgrafted.exists_of_bind
    obtain ⟨R, hR, hr⟩ := his
    obtain ⟨z, y, rfl, hz, hapart, hr'⟩ :=
      (hR w _ () hr).2 tag name operands resume rfl u x hu.1 hx trivial ds q t₁ hfirst
    cases q with
    | error f =>
      obtain ⟨rfl, rfl, rfl⟩ := hgrafted.unique hfirst.bind_error
      exact (leads_apart hset.resumes hz hapart ⟨R, hR, hr'⟩).within rfl _
    | ok v =>
      obtain ⟨es, rfl, hgrafting⟩ := hgrafted.of_bind hfirst
      have hsame : Untouched C K u z := ⟨hz, hapart.2⟩
      have hkeeps : Keeps (Look.harmless C K.memo) K turns strict u z := hsame.keeps hset.resumes
      have hleads := leads_of_graft hset P hcallee hpositional hbase hrecordings hgenerators
        (weight es + 1) es (Nat.lt_succ_self _) z v ys a b o t ⟨R, hR, hr'⟩
        ((hopen.keeps hu).keeps hkeeps) hgrafting
      exact (hleads.before hkeeps hapart.1 (Store.memory_eq hapart.2)).within rfl _

end Run

section Program

variable {C : Course S} (K : Resumption S Unit) (turns : List V → Turn V Unit) (strict : Prop)

/-- The protocol of a program whose branches are noted. -/
def branching : Protocol S (List Value) where
  meets _ _ _ := True
  awaits _ _ := True
  next w ys _ cs u ys' := ∃ zs xs, ys' = ys ++ zs ∧ xs.map S.see = zs.map S.see ∧
    Noted K turns strict (S.store w) (S.store u) (passed ys zs) xs cs

variable {K turns strict} {table : Handler.Table} {atLeaf : Option Value}
  {program implementation resume : Value} {tag : Nat} {name : String} {operands : List Value}
  {root : S.World}

/-- An evaluation that ends gives a program whose branches are noted from an empty memory on. -/
theorem exists_evaluated (hset : Setting (Look.harmless C K.memo) K root strict)
    (hbegins : K.Begins (S.store root) table atLeaf resume)
    (hoperation : Program.lift program = .operation tag name operands resume)
    (hlookup : table.lookup name = some implementation)
    (hgenerator : implementation.isGeneratorFunction = true)
    (P : ∀ recording, Performs (Look.harmless C K.memo) K strict root implementation
      (operands.map S.see) turns (.rememberedResume K.memo recording K.continuation))
    {cs : List Call} {e : Ending} {t : Store}
    (hrun : Traced (Handler.evaluate table atLeaf program) (S.store root) cs e t) :
    ∃ base u zs xs, S.store u = t ∧ C.Later root base ∧
      Keeps (Look.harmless C K.memo) K turns strict base u ∧ (S.store base).memory K.memo = [] ∧
      Noted K turns strict (S.store base) (S.store u) ([] :: passed [] zs) xs cs ∧
      xs.map S.see = zs.map S.see ∧
      Abides (Course.keeping (Look.harmless C K.memo) K turns strict hset.resumes)
        (Keeps (Look.harmless C K.memo) K turns strict) (branching K turns strict) u e zs := by
  obtain ⟨base, positional, hevaluate, hsee, hbase, hintact, hmemory, hrecordings, hgenerators⟩ :=
    @exists_base _ _ _ _ _ _ _ _ _ _ _ _ _ _ turns _ _ hset hbegins hoperation hlookup hgenerator
  have hcallee := isForeign_of_isGeneratorFunction hgenerator K.memo
  obtain ⟨u, zs, xs, hstore, hu, hnoted, hxs, hsits⟩ :=
    leads_of_buildOn hset P hcallee hsee hbase hrecordings hgenerators (C.refl base) hintact
      (fun y hy => absurd hy List.not_mem_nil) Coroutine.awaits_nil ((hevaluate cs e t).1 hrun)
      fun u v ds _ his hopen hgrafting =>
        leads_of_graft hset P hcallee hsee hbase hrecordings hgenerators (weight ds + 1) ds
          (Nat.lt_succ_self _) u v [] 0 0 e t his hopen hgrafting
  refine ⟨base, u, zs, xs, hstore, hbase, hu, hmemory, hnoted, hxs,
    Sits K turns strict implementation base C positional, ?_, hsits⟩
  rintro w e ys hs
  refine ⟨trivial, ?_⟩
  rintro tag name params resume rfl y a hy ha - ds o t hds
  obtain ⟨z, zs, xs, hstore, hz, hnoted, hxs, hsits⟩ :=
    hs.resume hset P hcallee hsee hbase hrecordings hgenerators hy ha hds
  exact ⟨z, ys ++ zs, hstore, hz, ⟨zs, xs, rfl, hxs, hnoted⟩, hsits⟩

end Program

end AlgebraicEffects
