import AlgebraicEffects.Proofs.Handling
import AlgebraicEffects.Proofs.Replay.Coroutine

/-!
Programs built by replay.

A built program is a yielded sub-program with the same construction grafted onto every leaf, for the
history of that leaf. The invariant of a node (`Stands`) ties the history that the construction has
kept to where the body would have paused: the program under the graft unfolds to what is left of the
yielded sub-program, and the coroutine awaits the next answer after this history. Resuming such a
node resumes the sub-program; at a leaf of it the body is started again and fed the history and the
leaf, and the node that is reached stands in the same way.

What is found at the calls of the body is tallied on the way: each history that is passed costs a
whole replay. Where nothing is looked for, the tally says nothing.
-/

set_option autoImplicit false

namespace AlgebraicEffects

open Action (Traced Runs)

variable {V : Type} {S : Scene V}

/-- In every later world, a generator made from arguments that look like these stops where the
coroutine does when it is fed answers: what it yields, returns or fails with next is a function of
its arguments and of the answers it has received. -/
def Deterministic (C : Course S) (B : Coroutine V (Tree V)) (factory : Value) (arguments : List V)
    (keywords : List (String × Value)) (root : S.World) : Prop :=
  ∀ w positional ys, C.Later root w → positional.map S.see = arguments →
    (∀ y ∈ ys, S.Known w y) → B.Awaits (ys.map S.see) → B (ys.map S.see) ≠ .diverges →
    ∃ address name s fed u,
      Runs Value.apply (Action.invoke factory ⟨positional, keywords⟩) (S.store w)
        (.ok (.generator address name)) s ∧
      Runs Value.apply (Replay.sent address ys) s fed (S.store u) ∧ C.Later w u ∧
      Stops (Unfolds C Freely) u ys.length fed (B (ys.map S.see))

section Endings

variable {σ : Type} {C : Course S} {I : S.World → S.World → Prop} {P : Protocol S σ}

theorem Scene.Shows.lifted {w : S.World} {v : Value} {n : Node V} (h : S.Shows w (.ok v) n) :
    S.Shows w (.ok (Program.lift v)) n := by
  cases h with
  | leaf hv hx => exact .leaf ((lift_lift v).trans hv) hx
  | operation => exact .operation

/-- A value behaves as the program that it counts as, where nothing more is asked of the program than
of the value. -/
theorem Behaves.lifted (hmeets : ∀ w v x, P.meets w (.ok v) x → P.meets w (.ok (Program.lift v)) x)
    {w : S.World} {e : Ending} {x : σ} (h : Behaves C I P w e x) :
    Behaves C I P w (e.map Program.lift) x := by
  obtain ⟨R, hR, hr⟩ := h
  refine ⟨fun w o x => ∃ e, R w e x ∧ (o = e ∨ o = e.map Program.lift), ?_, e, hr, .inr rfl⟩
  rintro w o x ⟨e, hr, ho⟩
  obtain ⟨hm, hstep⟩ := hR w e x hr
  have hsame : P.meets w o x ∧ ∀ tag name params resume,
      o = .ok (.operation tag name params resume) → e = o := by
    rcases ho with rfl | rfl
    · exact ⟨hm, fun _ _ _ _ _ => rfl⟩
    · cases e with
      | error f => exact ⟨hm, fun _ _ _ _ _ => rfl⟩
      | ok v =>
        refine ⟨hmeets w v x hm, fun tag name params resume hv => ?_⟩
        rcases Replay.lift_cases v with ⟨_, _, _, _, rfl⟩ | ⟨_, _, hleaf⟩
        · rfl
        · rw [Except.map, hleaf] at hv
          cases hv
  refine ⟨hsame.1, fun tag name params resume hop u a hu ha hx => ?_⟩
  obtain ⟨cs, o', z, y, htr, hz, hnext, hr'⟩ :=
    hstep tag name params resume ((hsame.2 tag name params resume hop).trans hop) u a hu ha hx
  exact ⟨cs, o', z, y, htr, hz, hnext, o', hr', .inl rfl⟩

/-- A value unfolds as the program that it counts as. -/
theorem Unfolds.lifted {Idle : S.World → List Call → S.World → Prop} {w : S.World} {e : Ending}
    {t : Tree V} (h : Unfolds C Idle w e t) : Unfolds C Idle w (e.map Program.lift) t :=
  Behaves.lifted (fun _ _ _ hm n hn => (hm n hn).lifted) h

end Endings

section Tallies

variable {β : Type} (f : Call → List β)

/-- Nothing is found at the calls of a resumption. -/
def Uncalled (S : Scene V) (_ : S.World) (cs : List Call) (_ : S.World) : Prop := collect f cs = []

/-- Nothing is found at a call that only goes on with the construction of a program. -/
structure Overlooks : Prop where
  grafted (resume next : Value) (call : Arguments Value) (inner : List Call) :
    f (.mk (.arrowOf (.grafted resume next)) call inner) = []
  replaying (factory arguments : Value) (keywords : List (String × Value)) (history : Value)
    (call : Arguments Value) (inner : List Call) :
    f (.mk (.arrowOf (.replaying factory arguments keywords history)) call inner) = []

/-- Arguments of this kind are of this kind when each of them has its identity. -/
def Settles (Given : List Value → Prop) : Prop :=
  ∀ (s : Store) a vs, Given vs → ∃ t us, (s.identify (.tuple a vs)).1 = .tuple t us ∧ Given us

variable (C : Course S) (B : Coroutine V (Tree V)) (tally : List V → List β) (factory : Value)
  (Given : List Value → Prop) (keywords : List (String × Value)) (root : S.World)

/-- In every later world, a generator made from arguments of this kind stops where the coroutine does
when it is fed answers, and what is found at the calls of such a replay is a function of the
answers. -/
def Tallied : Prop :=
  ∀ w positional ys, C.Later root w → Given positional → (∀ y ∈ ys, S.Known w y) →
    B.Awaits (ys.map S.see) → B (ys.map S.see) ≠ .diverges →
    ∃ address name s cs fed ds u,
      Traced (Action.invoke factory ⟨positional, keywords⟩) (S.store w) cs
        (.ok (.generator address name)) s ∧
      Traced (Replay.sent address ys) s ds fed (S.store u) ∧ C.Later w u ∧
      collect f (cs ++ ds) = tally (ys.map S.see) ∧
      Stops (Unfolds C (Uncalled f S)) u ys.length fed (B (ys.map S.see))

/-- The protocol of a program that has been built after a history, whose state is the path of answers
to the program. It shows what the direct semantics has there, and a resumption tally a replay for
each history that the body passes. -/
def tallying (S : Scene V) (h : List V) : Protocol S (List V) where
  meets w e path := ∀ n, B.direct h path n → S.Shows w e n
  awaits path a := ∃ n, B.direct h (path ++ [a]) n
  next _ path a cs _ path' := path' = path ++ [a] ∧ ∀ g zs m n,
    Coroutine.At B (B h) h path g m → Coroutine.At B (B h) h path' (g ++ zs) n →
    collect f cs = (passed g zs).flatMap tally

variable {C B tally} {f}

/-- What behaves as the direct semantics unfolds to it. -/
theorem Behaves.unfolds {w : S.World} {e : Ending} {h : List V}
    (hb : Behaves C C.Later (tallying f B tally S h) w e []) : Unfolds C Freely w e (B.direct h) := by
  refine hb.simulates (fun _ path t => ∀ rest n, t rest n → B.direct h (path ++ rest) n)
    (fun _ _ hu => hu) ?_ ?_ ?_ ?_ fun _ _ hn => hn
  · exact fun _ _ _ _ _ hsub => hsub
  · intro w e path t hsub hm n hn
    exact hm n (by simpa using hsub [] n hn)
  · rintro w path t a hsub ⟨n, hn⟩
    exact ⟨n, hsub [a] n hn⟩
  · rintro w path t a cs u _ hsub - hu ⟨rfl, -⟩
    refine ⟨hu, t.below a, fun rest n hn => ?_, trivial, rfl⟩
    rw [List.append_assoc]
    exact hsub (a :: rest) n hn

end Tallies

section Construction

variable {β : Type} (C : Course S) (f : Call → List β) (B : Coroutine V (Tree V))
  (tally : List V → List β) (factory : Value) (Given : List Value → Prop)
  (keywords : List (String × Value)) (root : S.World)

/-- A body that has received these answers, made from such arguments, and waits for the next. -/
structure Live (w : S.World) (positional ys : List Value) : Prop where
  later : C.Later root w
  given : Given positional
  known : ∀ y ∈ ys, S.Known w y
  awaits : B.Awaits (ys.map S.see)
  yields : ∃ t, B (ys.map S.see) = .yields t

/-- Where the node of a built program stands: at a body that has ended, or at an operation or a
failure of a sub-program that a live body has yielded. -/
inductive Stands (w : S.World) : Ending → Pause (Tree V) → List Value → Prop where
  | ended {e : Ending} {t : Tree V} {ys : List Value} :
      Unfolds C (Uncalled f S) w e t → Stands w e (.ends t) ys
  | failed {x : Failure} {p : Tree V} {ys : List Value} :
      Unfolds C (Uncalled f S) w (.error x) p → Stands w (.error x) (.yields p) ys
  | waiting {tag a b : Nat} {name : String} {params : List Value} {resume : Value} {p : Tree V}
      {positional ys : List Value} :
      Unfolds C (Uncalled f S) w (.ok (.operation tag name params resume)) p →
      Live C B Given root w positional ys →
      Stands w (.ok (.operation 0 name params
        (.arrowOf (.grafted resume (Replay.rebuild factory keywords a b positional ys))))) (.yields p) ys

/-- A run has come to a node that stands where all paths from a pause go on. At its calls is found
what stands in front, and then a replay for each history that the body has passed. -/
def Arrives (w : S.World) (front : List β) (q : Pause (Tree V)) (h : List V) (cs : List Call)
    (e : Ending) (t : Store) : Prop :=
  ∃ u r zs more, S.store u = t ∧ C.Later w u ∧ Stands C f B factory Given keywords root u e r zs ∧
    zs.map S.see = h ++ more ∧ collect f cs = front ++ (passed h more).flatMap tally ∧
    ∀ path h' n, Coroutine.At B q h path h' n → Coroutine.At B r (zs.map S.see) path h' n

/-- The action leads from a pause to a node that stands where all paths from the pause go on. -/
def Reaches (action : Action Value) (w : S.World) (q : Pause (Tree V)) (h : List V) : Prop :=
  ∃ cs e t, Traced action (S.store w) cs e t ∧
    Arrives C f B tally factory Given keywords root w [] q h cs e t

variable {C f B tally factory Given keywords root}

theorem Live.move {w u : S.World} {positional ys : List Value}
    (h : Live C B Given root w positional ys) (hu : C.Later w u) :
    Live C B Given root u positional ys where
  later := C.trans h.later hu
  given := h.given
  known y hy := C.known hu (h.known y hy)
  awaits := h.awaits
  yields := h.yields

theorem Stands.lifted {w : S.World} {e : Ending} {q : Pause (Tree V)} {ys : List Value}
    (h : Stands C f B factory Given keywords root w e q ys) :
    Stands C f B factory Given keywords root w (e.map Program.lift) q ys := by
  cases h with
  | ended hu => exact .ended hu.lifted
  | failed hu => exact .failed hu
  | waiting hu hl => exact .waiting hu hl

/-- A node stands where it is reached, and nothing is spent. -/
theorem Stands.arrives {w : S.World} {e : Ending} {q : Pause (Tree V)} {ys : List Value}
    (h : Stands C f B factory Given keywords root w e q ys) {cs : List Call}
    (hcs : collect f cs = []) :
    Arrives C f B tally factory Given keywords root w [] q (ys.map S.see) cs e (S.store w) :=
  ⟨w, q, ys, [], rfl, C.refl w, h, (List.append_nil _).symm, hcs, fun _ _ _ d => d⟩

/-- What comes before is found in front. -/
theorem Arrives.after {w w' : S.World} {front first : List β} {q : Pause (Tree V)} {h : List V}
    {cs ds : List Call} {e : Ending} {t : Store}
    (ha : Arrives C f B tally factory Given keywords root w' front q h ds e t) (hw : C.Later w w')
    (hcs : collect f cs = first) :
    Arrives C f B tally factory Given keywords root w (first ++ front) q h (cs ++ ds) e t := by
  obtain ⟨u, r, zs, more, hstore, hu, hstands, hzs, hspent, hpaths⟩ := ha
  refine ⟨u, r, zs, more, hstore, C.trans hw hu, hstands, hzs, ?_, hpaths⟩
  rw [collect_append, hcs, hspent, List.append_assoc]

/-- A generator that has stopped is concluded by grafting or by its end. -/
theorem reaches_of_stops {w : S.World} {positional ys : List Value} {a b : Nat}
    {fed : Except Failure Replay.Fed} {q : Pause (Tree V)} {s : Store} {action : Action Replay.Fed}
    {cs : List Call} (hstop : Stops (Unfolds C (Uncalled f S)) w ys.length fed q)
    (hrun : Traced action s cs fed (S.store w))
    (hgraft : ∀ v p, q = .yields p → Unfolds C (Uncalled f S) w (.ok v) p →
      Reaches C f B tally factory Given keywords root
        (Program.graft v (Replay.rebuild factory keywords a b positional ys)) w q (ys.map S.see)) :
    ∃ ds e t,
      Traced (action.bind (Replay.concluded factory (.tuple a positional) keywords (.tuple b ys)))
        s (cs ++ ds) e t ∧
      Arrives C f B tally factory Given keywords root w [] q (ys.map S.see) ds e t := by
  cases hstop with
  | yielded hu =>
    obtain ⟨ds, e, t, htr, harrives⟩ := hgraft _ _ rfl hu
    exact ⟨ds, e, t, hrun.bind htr, harrives⟩
  | @returned v t hu =>
    refine ⟨[], .ok (Program.lift v), S.store w, hrun.bind ?_, Stands.arrives (.ended hu.lifted) rfl⟩
    show Traced (Replay.finish _ _ _ _) _ _ _ _
    rw [Replay.finish_of_all]
    exact .done _ _
  | @failed x t hu =>
    refine ⟨[], .error x, S.store w, ?_, Stands.arrives (.ended hu) rfl⟩
    rw [List.append_nil]
    exact hrun.bind_error

/-- A script is given the same arguments in each replay, as they look. -/
theorem exists_settled (C : Course S) (hgiven : Settles Given) (factory : Value) (w : S.World)
    (a : Nat) {positional : List Value} (h : Given positional) :
    ∃ t us u, Traced (Replay.settled factory (.tuple a positional)) (S.store w) []
        (.ok (.tuple t us)) (S.store u) ∧ C.Later w u ∧ Given us := by
  by_cases hf : factory.isScripted
  · obtain ⟨t, us, htuple, hus⟩ := hgiven (S.store w) a positional h
    obtain ⟨u, hu, hstore, -⟩ := C.identified w (.tuple a positional)
    refine ⟨t, us, u, ?_, hu, hus⟩
    rw [Replay.settled, if_pos hf, hstore, ← htuple]
    exact traced_identify _ _
  · refine ⟨a, positional, w, ?_, C.refl w, h⟩
    rw [Replay.settled, if_neg hf]
    exact .done _ _

/-- At an operation of the sub-program nothing is run, and the node is the operation itself. -/
theorem reaches_operation {p : Tree V} {name : String} {params : List V}
    (hp : p [] (.operation name params)) {w : S.World} {v : Value} {positional ys : List Value}
    (a b : Nat) (hu : Unfolds C (Uncalled f S) w (.ok v) p)
    (hlive : Live C B Given root w positional ys) :
    Reaches C f B tally factory Given keywords root
      (Program.graft v (Replay.rebuild factory keywords a b positional ys)) w (.yields p)
      (ys.map S.see) := by
  generalize hnode : Node.operation name params = m at hp
  generalize hend : (Except.ok v : Ending) = o at hu
  cases hu.shows hp with
  | leaf => cases hnode
  | failure => cases hend
  | operation =>
    cases hend
    exact ⟨[], _, S.store w, .done _ _, Stands.arrives (.waiting hu hlive) rfl⟩

variable (hgiven : Settles Given)
  (hbody : Tallied f C B tally factory Given keywords root)

include hgiven hbody

/-- Building again for one answer more reaches a node that stands where the direct semantics goes on,
if grafting does so for what the body yields next. -/
theorem reaches_replaying {w : S.World} {positional ys : List Value} {x : Value} (a b : Nat)
    (hlive : Live C B Given root w positional ys) (hx : S.Fit w x)
    (hstops : B (ys.map S.see ++ [S.see x]) ≠ .diverges)
    (hgraft : ∀ u v p us zs c d, zs.map S.see = ys.map S.see ++ [S.see x] →
      B (ys.map S.see ++ [S.see x]) = .yields p → Unfolds C (Uncalled f S) u (.ok v) p →
      Live C B Given root u us zs →
      Reaches C f B tally factory Given keywords root
        (Program.graft v (Replay.rebuild factory keywords c d us zs)) u (.yields p)
        (zs.map S.see)) :
    ∃ cs e t,
      Traced ((Replay.rebuild factory keywords a b positional ys).apply (.of [x])) (S.store w) cs e
        t ∧
      Arrives C f B tally factory Given keywords root w (tally (ys.map S.see ++ [S.see x]))
        (B (ys.map S.see ++ [S.see x])) (ys.map S.see ++ [S.see x]) cs e t := by
  obtain ⟨w₁, hw₁, hstore₁, hknown₁⟩ := C.identified w x
  generalize hy : ((S.store w).identify x).1 = y at hknown₁
  have hidentify : Traced (Action.identify x) (S.store w) [] (.ok y) (S.store w₁) := by
    rw [hstore₁, ← hy]
    exact traced_identify _ _
  have hsee : S.see y = S.see x := by rw [← hy]; exact S.see_identify _ _
  obtain ⟨c, us, w₂, hsettled, hw₂, hus⟩ := exists_settled C hgiven factory w₁ a hlive.given
  have hlive₂ := (hlive.move hw₁).move hw₂
  have hzs : (ys ++ [y]).map S.see = ys.map S.see ++ [S.see x] := by
    rw [List.map_append, List.map_singleton, hsee]
  have hknown : ∀ z ∈ ys ++ [y], S.Known w₂ z := by
    intro z hz
    rcases List.mem_append.1 hz with hz | hz
    · exact hlive₂.known z hz
    · rw [List.mem_singleton.1 hz]
      exact C.known hw₂ (hknown₁ hx)
  obtain ⟨t, ht⟩ := hlive.yields
  have hawaits : B.Awaits ((ys ++ [y]).map S.see) := by
    rw [hzs]
    exact hlive.awaits.snoc ht _
  obtain ⟨g, name, s, cs, fed, ds, w₃, hmade, hsent, hw₃, hspent, hstop⟩ :=
    hbody w₂ us (ys ++ [y]) hlive₂.later hus hknown hawaits (hzs ▸ hstops)
  have hgrafted : ∀ v p, B ((ys ++ [y]).map S.see) = .yields p →
      Unfolds C (Uncalled f S) w₃ (.ok v) p →
      Reaches C f B tally factory Given keywords root
        (Program.graft v (Replay.rebuild factory keywords c 0 us (ys ++ [y]))) w₃
        (B ((ys ++ [y]).map S.see)) ((ys ++ [y]).map S.see) := by
    intro v p hp hu
    rw [hp]
    refine hgraft w₃ v p us (ys ++ [y]) c 0 hzs (hzs ▸ hp) hu ?_
    exact {
      later := C.trans hlive₂.later hw₃
      given := hus
      known := fun z hz => C.known hw₃ (hknown z hz)
      awaits := hawaits
      yields := ⟨p, hp⟩ }
  obtain ⟨es, e, t, hrun, harrives⟩ := reaches_of_stops (a := c) (b := 0) hstop hsent hgrafted
  have hlater := C.trans hw₁ (C.trans hw₂ hw₃)
  have hwhole := harrives.after hlater hspent
  rw [List.append_nil, hzs, List.append_assoc] at hwhole
  exact ⟨[] ++ ([] ++ (cs ++ (ds ++ es))), e, t,
    hidentify.bind (hsettled.bind (Replay.traced_buildOn hmade hrun)), hwhole⟩

variable (hf : Overlooks f)

include hf

/-- Grafting the construction onto a yielded sub-program reaches a node that stands where the direct
semantics goes on. The induction follows the direct semantics through the leaves that the body meets
without an operation between them. -/
theorem reaches_graft {q : Pause (Tree V)} {h path h' : List V} {n : Node V}
    (d : Coroutine.At B q h path h' n) :
    ∀ p, q = .yields p → ∀ w v positional ys a b, ys.map S.see = h →
      Unfolds C (Uncalled f S) w (.ok v) p → Live C B Given root w positional ys →
      Reaches C f B tally factory Given keywords root
        (Program.graft v (Replay.rebuild factory keywords a b positional ys)) w (.yields p) h := by
  induction d with
  | ended _ => intro p hq; cases hq
  | @operation p _ name params hp =>
    intro p hq w v positional ys a b hh hu hlive
    cases hq
    exact hh ▸ reaches_operation hp a b hu hlive
  | @answered p _ _ _ name params _ _ hp _ _ =>
    intro p hq w v positional ys a b hh hu hlive
    cases hq
    exact hh ▸ reaches_operation hp a b hu hlive
  | failure hp =>
    intro p hq w v positional ys a b _ hu _
    cases hq
    cases hu.shows hp
  | @leaf p h path h' x n hp hd ih =>
    intro p hq w v positional ys a b hh hu hlive
    cases hq
    have hleaf := hu.shows hp
    generalize hend : (Except.ok v : Ending) = o at hleaf
    generalize hnode : Node.leaf x = m at hleaf
    cases hleaf with
    | operation => cases hnode
    | failure => cases hend
    | @leaf v x tag hv hfit =>
      cases hend
      cases hnode
      subst hh
      obtain ⟨cs, e, t, htr, u, r, zs, more, hstore, hlater, hstands, hzs, hspent, hpaths⟩ :=
        reaches_replaying hgiven hbody a b hlive hfit hd.not_diverges
          fun u v p us zs c d hzs hp hun hl => hzs ▸ ih p hp u v us zs c d hzs hun hl
      refine ⟨[.mk (Replay.rebuild factory keywords a b positional ys) (.of [x]) cs],
        e.map Program.lift, t, ?_, u, r, zs, S.see x :: more, hstore, hlater, hstands.lifted, ?_, ?_,
        fun path h n d => ?_⟩
      · rw [Replay.graft_of_leaf hv rfl]
        exact htr.invoke.map _
      · rw [hzs, List.append_assoc]
        rfl
      · rw [collect_singleton, hspent]
        exact congrArg (· ++ _) (hf.replaying _ _ _ _ _ _)
      · refine hpaths path h n ?_
        cases d with
        | operation hp' => cases (hu.shows hp).unique (hu.shows hp')
        | failure hp' => cases (hu.shows hp).unique (hu.shows hp')
        | answered hp' _ => cases (hu.shows hp).unique (hu.shows hp')
        | leaf hp' d' =>
          cases (hu.shows hp).unique (hu.shows hp')
          exact d'

omit hgiven hbody hf

/-- What stands somewhere shows the node that the direct semantics has there. -/
theorem Stands.shows {w : S.World} {e : Ending} {q : Pause (Tree V)} {ys : List Value} {h : List V}
    {n : Node V} (hs : Stands C f B factory Given keywords root w e q ys)
    (d : Coroutine.At B q (ys.map S.see) [] h n) : S.Shows w e n ∧ h = ys.map S.see := by
  cases hs with
  | ended hu =>
    cases d with
    | ended ht => exact ⟨hu.shows ht, rfl⟩
  | failed hu =>
    cases d with
    | operation hp => exact ⟨hu.shows hp, rfl⟩
    | failure hp => exact ⟨hu.shows hp, rfl⟩
    | leaf hp _ => cases hu.shows hp
  | waiting hu _ =>
    cases d with
    | operation hp =>
      cases (hu.shows hp).unique .operation
      exact ⟨.operation, rfl⟩
    | failure hp => cases (hu.shows hp).unique .operation
    | leaf hp _ => cases (hu.shows hp).unique .operation

/-- Below an answer to a yielded operation the direct semantics stays in the sub-program. -/
theorem below_of_waiting {w : S.World} {tag : Nat} {name : String} {params : List Value}
    {resume : Value} {p : Tree V} {ys path h : List V} {a : V} {n : Node V}
    (hu : Unfolds C (Uncalled f S) w (.ok (.operation tag name params resume)) p)
    (d : Coroutine.At B (.yields p) ys (a :: path) h n) :
    Coroutine.At B (.yields (p.below a)) ys path h n := by
  cases d with
  | answered _ d => exact d
  | leaf hp _ => cases (hu.shows hp).unique .operation

include hgiven hbody hf

/-- A node at an operation of a sub-program is resumed through the sub-program. -/
theorem Stands.resume {w u : S.World} {tag : Nat} {name : String} {params : List Value}
    {resume x : Value} {q : Pause (Tree V)} {ys : List Value} {h : List V} {n : Node V}
    (hs : Stands C f B factory Given keywords root w
      (.ok (.operation tag name params resume)) q ys)
    (hu : C.Later w u) (hx : S.Fit u x)
    (d : Coroutine.At B q (ys.map S.see) [S.see x] h n) :
    ∃ cs o z r zs more, Traced (Action.ask resume [x]) (S.store u) cs o (S.store z) ∧ C.Later u z ∧
      Stands C f B factory Given keywords root z o r zs ∧ zs.map S.see = ys.map S.see ++ more ∧
      collect f cs = (passed (ys.map S.see) more).flatMap tally ∧
      ∀ path h n, Coroutine.At B q (ys.map S.see) (S.see x :: path) h n →
        Coroutine.At B r (zs.map S.see) path h n := by
  cases hs with
  | @ended _ t _ hun =>
    cases d with
    | ended ht =>
      obtain ⟨cs, o, z, htr, hz, hnothing, hbelow⟩ := hun.resume hu hx ht
      refine ⟨cs, o, z, .ends (t.below (S.see x)), ys, [], htr, hz, .ended hbelow,
        (List.append_nil _).symm, hnothing, ?_⟩
      intro path h n d
      cases d with
      | ended ht => exact .ended ht
  | @waiting tag a b name params resume p positional ys hun hlive =>
    have dbelow := below_of_waiting hun d
    have hfirst : ∃ m, p [S.see x] m := by
      cases dbelow with
      | operation hp => exact ⟨_, hp⟩
      | failure hp => exact ⟨_, hp⟩
      | leaf hp _ => exact ⟨_, hp⟩
    obtain ⟨m, hm⟩ := hfirst
    obtain ⟨cs, o, z, htr, hz, hnothing, hbelow⟩ := hun.resume hu hx hm
    have hlater := C.trans hu hz
    have hfound : ∀ callee arguments inner ds, callee = Value.arrowOf (.grafted resume
        (Replay.rebuild factory keywords a b positional ys)) → collect f inner = ds →
        collect f [.mk callee arguments inner] = ds := by
      rintro _ arguments inner _ rfl rfl
      rw [collect_singleton, hf.grafted, List.nil_append]
    cases o with
    | error x' =>
      refine ⟨[.mk _ _ cs], .error x', z, .yields (p.below (S.see x)), ys, [],
        Traced.invoke htr.bind_error, hz, .failed hbelow, (List.append_nil _).symm,
        hfound _ _ _ _ rfl hnothing, ?_⟩
      exact fun path h n d => below_of_waiting hun d
    | ok v =>
      obtain ⟨ds, e, t, hgr, y, r, zs, more, rfl, hy, hstands, hzs, hspent, hpaths⟩ :=
        reaches_graft hgiven hbody hf dbelow _ rfl z v positional ys a b rfl hbelow
          (hlive.move hlater)
      refine ⟨[.mk _ _ (cs ++ ds)], e, y, r, zs, more, Traced.invoke (htr.bind hgr), C.trans hz hy,
        hstands, hzs, hfound _ _ _ _ rfl ?_, ?_⟩
      · rw [collect_append, hnothing, hspent, List.nil_append, List.nil_append]
      · exact fun path h n d => hpaths path h n (below_of_waiting hun d)

/-- A node that stands where all paths of the direct semantics go on behaves as this does. -/
theorem Stands.behaves {w : S.World} {e : Ending} {q : Pause (Tree V)} {ys : List Value}
    {h : List V} (hs : Stands C f B factory Given keywords root w e q ys)
    (hpaths : ∀ path g n, Coroutine.At B (B h) h path g n →
      Coroutine.At B q (ys.map S.see) path g n) :
    Behaves C C.Later (tallying f B tally S h) w e [] := by
  refine ⟨fun w e path => ∃ q ys, Stands C f B factory Given keywords root w e q ys ∧
    ∀ rest g n, Coroutine.At B (B h) h (path ++ rest) g n →
      Coroutine.At B q (ys.map S.see) rest g n, ?_, q, ys, hs, hpaths⟩
  rintro w e path ⟨q, ys, hs, hpaths⟩
  refine ⟨?_, ?_⟩
  · rintro n ⟨g, d⟩
    exact (hs.shows (hpaths [] g n (by rwa [List.append_nil]))).1
  · rintro tag name params resume rfl u x hu hx ⟨n, g, d⟩
    obtain ⟨cs, o, z, r, zs, more, htr, hz, hstands, hzs, hspent, hrest⟩ :=
      hs.resume hgiven hbody hf hu hx (hpaths [S.see x] g n d)
    refine ⟨cs, o, z, path ++ [S.see x], htr, hz, ⟨rfl, ?_⟩, r, zs, hstands, ?_⟩
    · intro g ws m n d d'
      obtain ⟨-, rfl⟩ := hs.shows (hpaths [] g m (by rwa [List.append_nil]))
      have hnext := (hstands.shows (hrest [] _ n (hpaths [S.see x] _ n d'))).2
      rw [hzs, List.append_cancel_left_eq] at hnext
      rw [hnext]
      exact hspent
    · intro rest g n d
      refine hrest rest g n (hpaths (S.see x :: rest) g n ?_)
      rwa [List.append_assoc] at d

/-- Building a program after a history that the body awaits ends, in a program that behaves as the
direct semantics of the body after that history and tally a replay for each history that is
passed. -/
theorem exists_tallied (a b : Nat) {positional ys : List Value} (hpositional : Given positional)
    (hknown : ∀ y ∈ ys, S.Known root y) (hawaits : B.Awaits (ys.map S.see)) {n : Node V}
    (hn : B.direct (ys.map S.see) [] n) :
    ∃ cs e u,
      Traced (Replay.buildOn factory (.tuple a positional) positional keywords (.tuple b ys))
        (S.store root) cs e (S.store u) ∧ C.Later root u ∧
      (∀ zs m, Coroutine.At B (B (ys.map S.see)) (ys.map S.see) [] (ys.map S.see ++ zs) m →
        collect f cs = (ys.map S.see :: passed (ys.map S.see) zs).flatMap tally) ∧
      Behaves C C.Later (tallying f B tally S (ys.map S.see)) u e [] := by
  obtain ⟨h', d⟩ := hn
  obtain ⟨g, name, s, cs, fed, ds, w, hmade, hsent, hw, hspent, hstop⟩ :=
    hbody root positional ys (C.refl root) hpositional hknown hawaits d.not_diverges
  have hgraft : ∀ v p, B (ys.map S.see) = .yields p → Unfolds C (Uncalled f S) w (.ok v) p →
      Reaches C f B tally factory Given keywords root
        (Program.graft v (Replay.rebuild factory keywords a b positional ys)) w (B (ys.map S.see))
        (ys.map S.see) := by
    intro v p hp hu
    rw [hp]
    exact reaches_graft hgiven hbody hf d p hp w v positional ys a b rfl hu {
      later := hw
      given := hpositional
      known := fun y hy => C.known hw (hknown y hy)
      awaits := hawaits
      yields := ⟨p, hp⟩ }
  obtain ⟨es, e, t, hrun, harrives⟩ := reaches_of_stops (a := a) (b := b) hstop hsent hgraft
  have hwhole := harrives.after hw hspent
  rw [List.append_nil, List.append_assoc] at hwhole
  obtain ⟨u, r, zs, more, rfl, hu, hstands, hzs, hfound, hpaths⟩ := hwhole
  refine ⟨cs ++ (ds ++ es), e, u, Replay.traced_buildOn hmade hrun, hu, fun ws m d => ?_,
    hstands.behaves hgiven hbody hf hpaths⟩
  have hend := (hstands.shows (hpaths [] _ m d)).2
  rw [hzs, List.append_cancel_left_eq] at hend
  rw [hfound, hend]
  rfl

end Construction

/-- Building a program after a history that the body awaits ends, in a program that unfolds to the
direct semantics of the body after that history. -/
theorem exists_built {C : Course S} {B : Coroutine V (Tree V)} {factory : Value}
    {arguments : List V} {keywords : List (String × Value)} {root : S.World}
    (hbody : Deterministic C B factory arguments keywords root)
    (a b : Nat) {positional ys : List Value} (hpositional : positional.map S.see = arguments)
    (hknown : ∀ y ∈ ys, S.Known root y) (hawaits : B.Awaits (ys.map S.see)) {n : Node V}
    (hn : B.direct (ys.map S.see) [] n) :
    ∃ cs e u,
      Traced (Replay.buildOn factory (.tuple a positional) positional keywords (.tuple b ys))
        (S.store root) cs e (S.store u) ∧ C.Later root u ∧
      Unfolds C Freely u e (B.direct (ys.map S.see)) := by
  -- nothing can be found at the calls, so that the tally says nothing
  have hnothing : ∀ found : List Empty, found = [] := by
    intro found
    cases found with
    | nil => rfl
    | cons x _ => cases x
  have hgiven : Settles fun vs => vs.map S.see = arguments := by
    intro s c vs hvs
    obtain ⟨t, us, htuple, hsee⟩ := Scene.see_identify_tuple (S := S) s c vs
    exact ⟨t, us, htuple, hsee.trans hvs⟩
  have htallied : Tallied (fun _ => ([] : List Empty)) C B (fun _ => []) factory
      (fun vs => vs.map S.see = arguments) keywords root := by
    intro w vs zs hw hvs hzs hawaits hstops
    obtain ⟨address, name, s, fed, u, hmade, hsent, hu, hstop⟩ :=
      hbody w vs zs hw hvs hzs hawaits hstops
    obtain ⟨cs, hmade⟩ := hmade.exists_traced
    obtain ⟨ds, hsent⟩ := hsent.exists_traced
    refine ⟨address, name, s, cs, fed, ds, u, hmade, hsent, hu, hnothing _, ?_⟩
    exact hstop.mono fun _ _ h => h.mono (fun _ _ hu => hu) (fun _ _ _ hu _ => ⟨hu, hnothing _⟩)
      fun _ _ hn => hn
  obtain ⟨cs, e, u, hbuilt, hu, -, hbehaves⟩ := exists_tallied hgiven htallied
    ⟨fun _ _ _ _ => rfl, fun _ _ _ _ _ _ => rfl⟩ a b hpositional hknown hawaits hn
  exact ⟨cs, e, u, hbuilt, hu, hbehaves.unfolds⟩

end AlgebraicEffects
