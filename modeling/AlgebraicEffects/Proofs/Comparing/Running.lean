import AlgebraicEffects.Proofs.Events
import AlgebraicEffects.Proofs.Schedule.Turns

/-!
Runs that are compared.

A comparison says which worlds and which values of two runs go together, and whether waits are passed.
Where they are, a program that waits is taken up again by its host, with nothing as the answer, until
it ends. `Always` says of an action how it ends if it does so, `Ultimately` that it ends and how, where
either way it is taken up whenever it waits, and the host may do what hosts do meanwhile
(`Store.Elapses`). What is done next with the program of a run that waits is done when the run is
taken up again (`Through`), so both go through sequences of actions (`Always.bind`,
`Ultimately.bind`).
-/

set_option autoImplicit false

namespace AlgebraicEffects

open Action (Traced)
open Suspension (suspendName)

variable {V : Type} {S : Scene V}

/-- Whether the function goes on with a program that was sequenced or handled. -/
def Function.goesOn : Function → Bool
  | .grafted _ _ | .under _ _ _ => true
  | _ => false

theorem Function.isSilent_of_goesOn {f : Function} (h : f.goesOn = true) : f.isSilent = true := by
  cases f with
  | grafted | under => rfl
  | _ => cases h

/-- What hosts do while a program waits: their agendas change, what they do is reported, runs begin whose
results they take down, and identities are given out. -/
structure Store.Elapses (s t : Store) : Prop where
  later : s.nextTag ≤ t.nextTag
  completed {i : Nat} {vs : List Value} : s.completed[i]? = some vs → t.completed[i]? = some vs
  same : t = { s with
    nextTag := t.nextTag, agendas := t.agendas, completed := t.completed, records := t.records }

theorem Store.Elapses.refl (s : Store) : s.Elapses s := ⟨Nat.le_refl _, id, rfl⟩

theorem Store.Elapses.trans {s t u : Store} (h : s.Elapses t) (g : t.Elapses u) : s.Elapses u :=
  ⟨Nat.le_trans h.later g.later, fun hv => g.completed (h.completed hv), by rw [g.same, h.same]⟩

/-- Whether it is observed apart from waits. -/
def Event.isTold : Event V → Bool
  | .waited _ => false
  | _ => true

/-- Two runs that are compared: how worlds follow each other and who listens, which worlds of the two runs
go together, and which of their values and failures do. Waits may be passed: then whatever waits is taken
up again, and that it has waited is not told. Of stores it is said what is kept between two waits, while
this is observed. -/
structure Comparison {V : Type} (S : Scene V) where
  course : Course S
  listener : Listener
  Level : S.World → S.World → Prop
  Same : S.World → S.World → Value → Value → Prop
  Fails : Failure → Failure → Prop
  passes : Bool
  same_later {w u z y : S.World} {x x' : Value} : course.Later w z → course.Later u y → Same w u x x' →
    Same z y x x'
  see {w u : S.World} {x x' : Value} : Same w u x x' → S.see x = S.see x'
  fails (f : Failure) : Fails f f
  Keeps : Store → List (Event V) → Store → Prop
  keeps_told {es : List (Event V)} (s : Store) : (∀ e ∈ es, e.isTold = true) → Keeps s es s
  keeps_append {s t u : Store} {es fs : List (Event V)} :
    Keeps s es t → Keeps t fs u → Keeps s (es ++ fs) u

/-- The delays that can be added to a clock of doubles and do not lead back. -/
def Number.IsTimely (d : Number) : Prop := TimeDomain.doubles.Delay d ∧ d.less (.int 0) = false

/-- The program that waits and then goes on. -/
def awaiting (tag own : Nat) (delay : Value) (resumeTag : Nat) (f : Function) : Value :=
  .operation tag suspendName [.function own (.waitStart delay)] (.function resumeTag f)

/-- The run has ended as a program that waits for so long, and then goes on so. -/
def Awaits (e : Ending) (d : Number) (f : Function) : Prop :=
  ∃ tag own delay resumeTag, e = .ok (awaiting tag own delay resumeTag f) ∧ f.goesOn = true ∧
    delay.number? = some d ∧ d.IsTimely

theorem Awaits.unique {e : Ending} {c d : Number} {f g : Function} (h : Awaits e c f)
    (hg : Awaits e d g) : c = d ∧ f = g := by
  obtain ⟨tag, own, delay, t, rfl, -, hc, -⟩ := h
  obtain ⟨tag', own', delay', t', he, -, hd, -⟩ := hg
  cases he
  exact ⟨Option.some.inj (hc.symm.trans hd), rfl⟩

/-- What is done next with a program that waits is done when it is taken up again. -/
def Through (k : Value → Action Value) : Prop :=
  ∀ tag own delay t f, f.goesOn = true → ∃ g : Function, g.goesOn = true ∧
    k (awaiting tag own delay t f) = .done (awaiting 0 own delay 0 g) ∧
    g.apply (.of [.nothing]) = (Action.ask (.function t f) [.nothing]).bind k

namespace Comparison

variable (E : Comparison S)

/-- The run has ended as a program that waits and is taken up again. -/
def Awaits (e : Ending) (d : Number) (f : Function) : Prop :=
  E.passes = true ∧ AlgebraicEffects.Awaits e d f

/-- The run has not ended as a program that is taken up again. -/
def Rests (e : Ending) : Prop := ∀ d f, ¬ E.Awaits e d f

/-- Where waits are passed, what is done next is done when a program is taken up again. -/
def Through (k : Value → Action Value) : Prop := E.passes = true → AlgebraicEffects.Through k

theorem rests_error (f : Failure) : E.Rests (.error f) := by
  rintro d g ⟨-, tag, own, delay, resumeTag, he, -⟩
  cases he

/-- What is observed of a run, in order. -/
def events (cs : List Call) : List (Event V) := E.listener.events S.see cs

theorem events_append (cs ds : List Call) : E.events (cs ++ ds) = E.events cs ++ E.events ds :=
  E.listener.events_append cs ds

theorem events_silent {f : Function} (hf : f.isSilent = true) (tag : Nat) (arguments : Arguments Value)
    (inner : List Call) : E.events [.mk (.function tag f) arguments inner] = E.events inner :=
  E.listener.events_silent hf tag arguments inner

/-- From the one store the action goes on, after these events and at least so many calls, as the other
action does from the other store, where everything is kept. -/
structure Leads (s : Store) (a : Action Value) (calls : Nat) (es : List (Event V)) (t : Store)
    (b : Action Value) : Prop extends E.listener.Leads S.see s a calls es t b where
  keeps : E.Keeps s es t

end Comparison

variable {E : Comparison S}

theorem Comparison.keeps_refl (s : Store) : E.Keeps s [] s := E.keeps_told s nofun

namespace Comparison.Leads

variable {s t u : Store} {a b c : Action Value} {m n : Nat} {es fs : List (Event V)}

theorem refl (s : Store) (a : Action Value) : E.Leads s a 0 [] s a := ⟨.refl s a, Comparison.keeps_refl s⟩

theorem trans (h : E.Leads s a m es t b) (g : E.Leads t b n fs u c) :
    E.Leads s a (m + n) (es ++ fs) u c := ⟨h.toLeads.trans g.toLeads, E.keeps_append h.keeps g.keeps⟩

/-- After a first part with a known run. -/
theorem after {α : Type} {a : Action α} {k : α → Action Value} {x : α} {cs : List Call}
    (h : Traced a s cs (.ok x) t) (hkeeps : E.Keeps s (E.events cs) t) :
    E.Leads s (a.bind k) (weight cs) (E.events cs) t (k x) := ⟨.after h, hkeeps⟩

/-- A call of which nothing is observed but what is called inside it. -/
theorem call {f : Value} {arguments : Arguments Value}
    (h : ∀ inner, E.events [.mk f arguments inner] = E.events inner) :
    E.Leads s (Action.invoke f arguments) 1 [] s (f.apply arguments) := ⟨.call h, Comparison.keeps_refl s⟩

theorem ask {f : Function} {tag : Nat} {arguments : List Value} (hf : f.isSilent = true) :
    E.Leads s (Action.ask (.function tag f) arguments) 1 [] s (f.apply (.of arguments)) :=
  ⟨.ask hf, Comparison.keeps_refl s⟩

theorem handler (tag : Nat) (table : Handler.Table) (atLeaf : Option Value) (p : Value) :
    E.Leads s (Action.ask (.handler tag table atLeaf) [p]) 1 [] s (Handler.evaluate table atLeaf p) :=
  ⟨.handler tag table atLeaf p, Comparison.keeps_refl s⟩

/-- What goes on as another action does so also when something is done next. -/
theorem bind (h : E.Leads s a n es t b) (k : Value → Action Value) :
    E.Leads s (a.bind k) n es t (b.bind k) := ⟨h.toLeads.bind k, h.keeps⟩

/-- What is done next may be replaced by what it goes on as. -/
theorem next {k l : Value → Action Value} (h : ∀ x t, E.Leads t (k x) 0 [] t (l x)) (a : Action Value) :
    E.Leads s (a.bind k) 0 [] s (a.bind l) := ⟨.next (fun x t => (h x t).toLeads) a, Comparison.keeps_refl s⟩

theorem weaken (h : E.Leads s a n es t b) : E.Leads s a 0 es t b := ⟨h.toLeads.weaken, h.keeps⟩

end Comparison.Leads

/-- Whenever the action, taken up whenever it waits, comes to an end in at most `n` calls, it ends so.
The number of calls that are left is told too. -/
inductive Always (E : Comparison S) : Nat → Action Value → Store →
    (Nat → List (Event V) → Store → Ending → Prop) → Prop where
  | intro {n : Nat} {a : Action Value} {s : Store} {R : Nat → List (Event V) → Store → Ending → Prop}
    (keeps : ∀ cs o t, Traced a s cs o t → weight cs ≤ n → E.Keeps s (E.events cs) t)
    (ends : ∀ cs o t j, Traced a s cs o t → weight cs + j ≤ n → E.Rests o → R j (E.events cs) t o)
    (waits : ∀ cs o t j d f u, Traced a s cs o t → weight cs + j < n → E.Awaits o d f →
      t.Elapses u → Always E j (f.apply (.of [.nothing])) u fun i said =>
        R i (E.events cs ++ .waited d :: said)) : Always E n a s R

/-- The action, taken up whenever it waits, comes to an end, and ends so. -/
inductive Ultimately (E : Comparison S) : Action Value → Store →
    (List (Event V) → Store → Ending → Prop) → Prop where
  | ends {a : Action Value} {s t : Store} {cs : List Call} {o : Ending}
      {Q : List (Event V) → Store → Ending → Prop} :
      Traced a s cs o t → E.Keeps s (E.events cs) t → E.Rests o → Q (E.events cs) t o → Ultimately E a s Q
  | waits {a : Action Value} {s t : Store} {cs : List Call} {o : Ending} {d : Number} {f : Function}
      {Q : List (Event V) → Store → Ending → Prop} :
      Traced a s cs o t → E.Keeps s (E.events cs) t → E.Awaits o d f →
      (∀ u, t.Elapses u → Ultimately E (f.apply (.of [.nothing])) u fun said =>
        Q (E.events cs ++ .waited d :: said)) → Ultimately E a s Q

namespace Always

variable {n m : Nat} {a b : Action Value} {s t : Store}
  {R R' : Nat → List (Event V) → Store → Ending → Prop}

theorem mono (h : Always E n a s R) (hR : ∀ j said t o, j ≤ n → R j said t o → R' j said t o) :
    Always E n a s R' := by
  induction h generalizing R' with
  | intro keeps ends waits ih =>
    refine .intro keeps (fun cs o t j htr hj ho => ?_) fun cs o t j d f u htr hj ho hu => ?_
    · exact hR j _ t o (by omega) (ends cs o t j htr hj ho)
    · exact ih cs o t j d f u htr hj ho hu fun i said v e hi => hR i _ v e (by omega)

/-- What holds within some calls holds within fewer. -/
theorem fewer (h : Always E n a s R) (hm : m ≤ n) : Always E m a s R := by
  cases h with
  | intro keeps ends waits =>
    exact .intro (fun cs o t htr hle => keeps cs o t htr (by omega))
      (fun cs o t j htr hj => ends cs o t j htr (by omega))
      fun cs o t j d f u htr hj => waits cs o t j d f u htr (by omega)

/-- What always holds for each of some cases holds for all of them. -/
theorem all {ι : Type} [Nonempty ι] {R : ι → Nat → List (Event V) → Store → Ending → Prop}
    (h : ∀ x, Always E n a s (R x)) : Always E n a s fun j said t o => ∀ x, R x j said t o := by
  obtain ⟨x⟩ := ‹Nonempty ι›
  -- The induction is on one of the cases; the others follow it step by step.
  generalize hR : R x = R₀
  have hx := h x
  rw [hR] at hx
  clear hR
  induction hx generalizing R with
  | intro keeps _ _ ih =>
    refine .intro keeps (fun cs o t j htr hj ho y => ?_) fun cs o t j d f u htr hj ho hu => ?_
    · cases h y with
      | intro _ ends _ => exact ends cs o t j htr hj ho
    · refine ih cs o t j d f u htr hj ho hu fun y => ?_
      cases h y with
      | intro _ _ waits => exact waits cs o t j d f u htr hj ho hu

/-- What goes on as another action ends as that one does. -/
theorem of_leads {calls : Nat} {es : List (Event V)} (h : E.Leads s a calls es t b)
    (hb : ∀ m, m + calls ≤ n → Always E m b t fun j said => R j (es ++ said)) :
    Always E n a s R := by
  -- Without the calls that it takes at least, the action does not come to an end.
  have hrest (cs : List Call) (j : Nat) (ds : List Call) (hle : weight cs + j ≤ n)
      (hds : weight ds + calls ≤ weight cs) :
      weight ds + j ≤ n - calls ∧ n - calls + calls ≤ n := by omega
  refine .intro (fun cs o u htr hle => ?_) (fun cs o u j htr hj ho => ?_)
    fun cs o u j d f v htr hj ho hv => ?_
  all_goals
    obtain ⟨ds, hds, hevents, hweight⟩ := h.forth cs o u htr
    replace hevents : E.events cs = es ++ E.events ds := hevents
  · obtain ⟨hle', hn⟩ := hrest cs 0 ds hle hweight
    cases hb _ hn with
    | intro keeps _ _ =>
      rw [hevents]
      exact E.keeps_append h.keeps (keeps ds o u hds hle')
  · obtain ⟨hle', hn⟩ := hrest cs j ds hj hweight
    rw [hevents]
    cases hb _ hn with
    | intro _ ends _ => exact ends ds o u j hds hle' ho
  · obtain ⟨hle', hn⟩ := hrest cs (j + 1) ds hj hweight
    cases hb _ hn with
    | intro _ _ waits =>
      refine (waits ds o u j d f v hds hle' ho hv).mono fun i said w e _ hR => ?_
      rw [hevents, List.append_assoc]
      exact hR

/-- Of an action that does not come to an end everything holds. -/
theorem of_not_ending (h : ∀ cs o t, ¬ Traced a s cs o t) : Always E n a s R :=
  .intro (fun cs o t htr => absurd htr (h cs o t)) (fun cs o t _ htr => absurd htr (h cs o t))
    fun cs o t _ _ _ _ htr => absurd htr (h cs o t)

/-- A call that is made leaves fewer calls for what is done next. -/
theorem guarded {f : Value} {arguments : Arguments Value} {k : Value → Action Value}
    (h : Always E n ((Action.invoke f arguments).bind k) s R) :
    Always E n ((Action.invoke f arguments).bind k) s fun j said t o => j < n ∧ R j said t o := by
  have hcall {cs : List Call} {o : Ending} {t : Store}
      (h : Traced ((Action.invoke f arguments).bind k) s cs o t) : 0 < weight cs := by
    obtain ⟨ds, q, u, hinvoke⟩ := h.exists_of_bind
    obtain ⟨inner, rfl, -⟩ := hinvoke.of_invoke
    have hfirst : ∃ es, cs = [.mk f arguments inner] ++ es := by
      cases q with
      | error f =>
        obtain ⟨rfl, -, -⟩ := h.unique hinvoke.bind_error
        exact ⟨[], (List.append_nil _).symm⟩
      | ok v =>
        obtain ⟨es, hcs, -⟩ := h.of_bind hinvoke
        exact ⟨es, hcs⟩
    obtain ⟨es, rfl⟩ := hfirst
    rw [weight_append, weight_singleton]
    omega
  cases h with
  | intro keeps ends waits =>
    refine .intro keeps (fun cs o t j htr hj ho => ?_) fun cs o t j d f u htr hj ho hu => ?_
    · have hpositive := hcall htr
      exact ⟨by omega, ends cs o t j htr hj ho⟩
    · refine (waits cs o t j d f u htr hj ho hu).mono fun i said v e hi hR => ?_
      exact ⟨by omega, hR⟩

/-- An action with a known run that rests. -/
theorem of_traced {cs : List Call} {o : Ending} (h : Traced a s cs o t) (hkeeps : E.Keeps s (E.events cs) t)
    (ho : E.Rests o) (hR : ∀ j, j ≤ n → R j (E.events cs) t o) : Always E n a s R := by
  refine .intro (fun ds e u htr _ => ?_) (fun ds e u j htr hj _ => ?_)
    fun ds e u j d f v htr _ he => ?_
  all_goals obtain ⟨rfl, rfl, rfl⟩ := htr.unique h
  · exact hkeeps
  · exact hR j (by omega)
  · exact absurd he (ho d f)

end Always

namespace Ultimately

variable {a b : Action Value} {s t : Store} {Q Q' : List (Event V) → Store → Ending → Prop}

theorem mono (h : Ultimately E a s Q) (hQ : ∀ said t o, Q said t o → Q' said t o) :
    Ultimately E a s Q' := by
  induction h generalizing Q' with
  | ends htr hkeeps ho hq => exact .ends htr hkeeps ho (hQ _ _ _ hq)
  | waits htr hkeeps ho _ ih =>
    exact .waits htr hkeeps ho fun u hu => ih u hu fun said v e hq => hQ _ v e hq

/-- What is known whenever it has ended so is known. -/
theorem known {P : Prop} (h : Ultimately E a s Q) (hP : ∀ said t o, Q said t o → P) : P := by
  induction h with
  | ends _ _ _ hq => exact hP _ _ _ hq
  | waits _ _ _ _ ih => exact ih _ (.refl _) fun said v e hq => hP _ v e hq

/-- What goes on as another action ends as that one does. -/
theorem of_leads {calls : Nat} {es : List (Event V)} (h : E.Leads s a calls es t b)
    (hb : Ultimately E b t fun said => Q (es ++ said)) : Ultimately E a s Q := by
  cases hb with
  | ends htr hkeeps ho hq =>
    obtain ⟨cs, hcs, hevents⟩ := h.back _ _ _ htr
    replace hevents : E.events cs = es ++ E.events _ := hevents
    exact .ends hcs (hevents ▸ E.keeps_append h.keeps hkeeps) ho (hevents ▸ hq)
  | waits htr hkeeps ho hrest =>
    obtain ⟨cs, hcs, hevents⟩ := h.back _ _ _ htr
    replace hevents : E.events cs = es ++ E.events _ := hevents
    refine .waits hcs (hevents ▸ E.keeps_append h.keeps hkeeps) ho fun u hu =>
      (hrest u hu).mono fun said v e hq => ?_
    rw [hevents, List.append_assoc]
    exact hq

/-- What always ends so, for each end that there can be of another action, does so for its end. -/
theorem always {n : Nat} {c : Action Value} {u : Store}
    {R : Nat → List (Event V) → Store → Ending → List (Event V) → Store → Ending → Prop}
    (h : Ultimately E b t Q)
    (hc : ∀ said v e, Q said v e → Always E n c u fun j more z o => R j more z o said v e) :
    Always E n c u fun j more z o => Ultimately E b t (R j more z o) := by
  induction h generalizing R with
  | ends htr hkeeps ho hq => exact (hc _ _ _ hq).mono fun _ _ _ _ _ hR => .ends htr hkeeps ho hR
  | @waits b s t cs o d f Q htr hkeeps ho _ ih =>
    have hrest (x : { x : Store // t.Elapses x }) : Always E n c u fun j more z o =>
        Ultimately E (f.apply (.of [.nothing])) x.1 fun said =>
          R j more z o (E.events cs ++ .waited d :: said) :=
      ih x.1 x.2 fun said v e hq => hc _ v e hq
    have : Nonempty { x : Store // t.Elapses x } := ⟨t, .refl t⟩
    exact (Always.all hrest).mono fun _ _ _ _ _ hR => .waits htr hkeeps ho fun x hx => hR ⟨x, hx⟩

end Ultimately

section Beginnings

variable {a : Action Value} {s t u : Store} {cs : List Call} {p : Value}

/-- What an action always comes to after a known beginning, also if the host does something before the
program goes on. -/
theorem Always.resumed {n m : Nat} {R : Nat → List (Event V) → Store → Ending → Prop}
    (h : Always E n a s R) (ha : Traced a s cs (.ok p) t) (hu : t.Elapses u) (hm : weight cs + m ≤ n)
    (hR : ∀ j, j ≤ m → R j (E.events cs) t (.ok p) → R j (E.events cs) u (.ok p)) :
    Always E m (.done p) u fun j said => R j (E.events cs ++ said) := by
  cases h with
  | intro _ ends waits =>
    refine .intro (fun ds o v htr _ => ?_) (fun ds o v j htr hj ho => ?_)
      fun ds o v j d f x htr hj ho hx => ?_
    all_goals cases htr
    · exact E.keeps_refl u
    · rw [show E.events [] = [] from rfl, List.append_nil]
      have hj : j ≤ m := Nat.le_trans (Nat.le_add_left ..) hj
      exact hR j hj (ends cs _ t j ha (by omega) ho)
    · have hj : j < m := Nat.lt_of_le_of_lt (Nat.le_add_left ..) hj
      exact waits cs _ t j d f x ha (by omega) ho (hu.trans hx)

/-- The same for what an action ultimately comes to. -/
theorem Ultimately.resumed {Q : List (Event V) → Store → Ending → Prop} (h : Ultimately E a s Q)
    (ha : Traced a s cs (.ok p) t) (hu : t.Elapses u)
    (hQ : Q (E.events cs) t (.ok p) → Q (E.events cs) u (.ok p)) :
    Ultimately E (.done p) u fun said => Q (E.events cs ++ said) := by
  cases h with
  | ends htr _ ho hq =>
    obtain ⟨rfl, rfl, rfl⟩ := htr.unique ha
    refine .ends (.done p u) (E.keeps_refl u) ho ?_
    rw [show E.events [] = [] from rfl, List.append_nil]
    exact hQ hq
  | waits htr _ ho hrest =>
    obtain ⟨rfl, rfl, rfl⟩ := htr.unique ha
    exact .waits (.done p u) (E.keeps_refl u) ho fun x hx => hrest x (hu.trans hx)

end Beginnings

section Sequences

variable {k : Value → Action Value} {s : Store}

/-- A run that waits still waits when something is to be done next. -/
theorem Comparison.Awaits.through {p : Value} {d : Number} {f : Function} (h : E.Awaits (.ok p) d f)
    (hk : E.Through k) : ∃ (q : Value) (g : Function), k p = .done q ∧ E.Awaits (.ok q) d g ∧
      ∀ s, E.Leads s (g.apply (.of [.nothing])) 1 [] s ((f.apply (.of [.nothing])).bind k) := by
  obtain ⟨hpasses, tag, own, delay, t, he, hf, hd, htimely⟩ := h
  cases he
  obtain ⟨g, hg, hwaits, happly⟩ := hk hpasses tag own delay t f hf
  refine ⟨_, g, hwaits, ⟨hpasses, 0, own, delay, 0, rfl, hg, hd, htimely⟩, fun s => ?_⟩
  rw [happly]
  exact (Comparison.Leads.ask (f.isSilent_of_goesOn hf)).bind k

/-- What is done next with the program that an action has ended as always ends so. -/
def Always.Next (E : Comparison S) (k : Value → Action Value)
    (R : Nat → List (Event V) → Store → Ending → Prop) (j : Nat) (said : List (Event V)) (t : Store) :
    Ending → Prop
  | .error f => R j said t (.error f)
  | .ok p => Always E j (k p) t fun i more => R i (said ++ more)

/-- What is done next with the program that an action has ended as ultimately ends so. -/
def Ultimately.Next (E : Comparison S) (k : Value → Action Value)
    (Q : List (Event V) → Store → Ending → Prop) (said : List (Event V)) (t : Store) : Ending → Prop
  | .error f => Q said t (.error f)
  | .ok p => Ultimately E (k p) t fun more => Q (said ++ more)

/-- A run of a sequence has failed in its first part, or has run both. -/
theorem Action.Traced.split {a : Action Value} {cs : List Call} {o : Ending} {t : Store}
    (h : Traced (a.bind k) s cs o t) : (∃ f, o = .error f ∧ Traced a s cs (.error f) t) ∨
      ∃ p ds es u, Traced a s ds (.ok p) u ∧ cs = ds ++ es ∧ Traced (k p) u es o t := by
  obtain ⟨ds, q, u, ha⟩ := h.exists_of_bind
  cases q with
  | error f =>
    obtain ⟨rfl, rfl, rfl⟩ := h.unique ha.bind_error
    exact .inl ⟨f, rfl, ha⟩
  | ok p =>
    obtain ⟨es, hcs, hes⟩ := h.of_bind ha
    exact .inr ⟨p, ds, es, u, ha, hcs, hes⟩

theorem Always.bind {n : Nat} {a : Action Value} {R : Nat → List (Event V) → Store → Ending → Prop}
    (h : Always E n a s (Next E k R)) (hk : E.Through k) : Always E n (a.bind k) s R := by
  generalize hR : Next E k R = R₀ at h
  replace hR : ∀ j said t o, R₀ j said t o → Next E k R j said t o := fun _ _ _ _ h => hR ▸ h
  induction h generalizing R with
  | @intro n a s R₀ keeps ends waits ih =>
    -- Where the first part waits, the sequence waits; otherwise it goes on.
    refine .intro (fun cs o t htr hle => ?_) (fun cs o t j htr hj ho => ?_)
      fun cs o t j d g v htr hj ho hv => ?_
    all_goals rcases htr.split with ⟨f, rfl, ha⟩ | ⟨p, ds, es, u, ha, rfl, hes⟩
    · exact keeps cs _ t ha hle
    · rw [weight_append] at hle
      by_cases hp : ∃ d f, E.Awaits (.ok p) d f
      · obtain ⟨d, f, hp⟩ := hp
        obtain ⟨q, g, hq, -, -⟩ := hp.through hk
        rw [hq] at hes
        cases hes
        rw [List.append_nil]
        exact keeps ds _ t ha (by omega)
      · have hnext := hR _ _ _ _ (ends ds _ u (weight es) ha hle fun d f h => hp ⟨d, f, h⟩)
        cases hnext with
        | intro keeps' _ _ =>
          rw [E.events_append]
          exact E.keeps_append (keeps ds _ u ha (by omega)) (keeps' es o t hes (Nat.le_refl _))
    · exact hR _ _ _ _ (ends cs _ t j ha hj (E.rests_error f))
    · rw [weight_append] at hj
      by_cases hp : ∃ d f, E.Awaits (.ok p) d f
      · obtain ⟨d, f, hp⟩ := hp
        obtain ⟨q, g, hq, hwaits, -⟩ := hp.through hk
        rw [hq] at hes
        cases hes
        exact absurd hwaits (ho d _)
      · have hnext := hR _ _ _ _ (ends ds _ u (weight es + j) ha (by omega) fun d f h => hp ⟨d, f, h⟩)
        rw [E.events_append]
        cases hnext with
        | intro _ ends' _ => exact ends' es o t j hes (Nat.le_refl _) ho
    · exact absurd ho (E.rests_error f d g)
    · rw [weight_append] at hj
      rw [E.events_append]
      by_cases hp : ∃ d f, E.Awaits (.ok p) d f
      · obtain ⟨d', f, hp⟩ := hp
        obtain ⟨q, g', hq, hwaits, hleads⟩ := hp.through hk
        rw [hq] at hes
        cases hes
        obtain ⟨rfl, rfl⟩ := ho.2.unique hwaits.2
        have hnone : weight ([] : List Call) = 0 := rfl
        have hsaid (said : List (Event V)) : E.events ds ++ E.events [] ++ .waited d :: ([] ++ said) =
            E.events ds ++ .waited d :: said := by
          show E.events ds ++ [] ++ _ = _
          rw [List.append_nil, List.nil_append]
        refine .of_leads (hleads v) fun m hm => ?_
        simp only [hsaid]
        refine ih ds _ t m d _ v ha (by omega) hp hv fun i said w e h => ?_
        have hnext := hR _ _ _ _ h
        cases e with
        | error f => exact hnext
        | ok x =>
          refine Always.mono hnext fun l more w e _ hr => ?_
          rw [List.append_assoc] at hr
          exact hr
      · have hnext := hR _ _ _ _
          (ends ds _ u (weight es + (j + 1)) ha (by omega) fun d f h => hp ⟨d, f, h⟩)
        cases hnext with
        | intro _ _ waits' =>
          refine (waits' es o t j d g v hes (by omega) ho hv).mono fun i said w e _ hr => ?_
          rw [List.append_assoc]
          exact hr

theorem Ultimately.bind {a : Action Value} {Q : List (Event V) → Store → Ending → Prop}
    (h : Ultimately E a s (Next E k Q)) (hk : E.Through k) : Ultimately E (a.bind k) s Q := by
  generalize hQ : Next E k Q = Q₀ at h
  replace hQ : ∀ said t o, Q₀ said t o → Next E k Q said t o := fun _ _ _ h => hQ ▸ h
  induction h generalizing Q with
  | @ends a s t cs o Q₀ htr hkeeps ho hq =>
    have hnext := hQ _ _ _ hq
    cases o with
    | error f => exact .ends htr.bind_error hkeeps (E.rests_error f) hnext
    | ok p => exact .of_leads (.after htr hkeeps) hnext
  | @waits a s t cs o d f Q₀ htr hkeeps ho _ ih =>
    obtain ⟨p, rfl⟩ : ∃ p, o = .ok p := by
      obtain ⟨-, tag, own, delay, t, rfl, -⟩ := ho
      exact ⟨_, rfl⟩
    obtain ⟨q, g, hq, hwaits, hleads⟩ := ho.through hk
    refine .of_leads (.after htr hkeeps) ?_
    rw [hq]
    refine .waits (.done q t) (Comparison.keeps_refl t) hwaits fun u hu => .of_leads (hleads u) ?_
    refine ih u hu fun said v e h => ?_
    have hnext := hQ _ _ _ h
    cases e with
    | error f => exact hnext
    | ok x =>
      refine Ultimately.mono hnext fun more w e hr => ?_
      rw [List.append_assoc] at hr
      exact hr

/-- What is done next makes no difference to programs. -/
theorem Always.next_unchanged {n : Nat} {a : Action Value}
    {R : Nat → List (Event V) → Store → Ending → Prop} (h : Always E n a s R)
    (hR : ∀ j said t v, R j said t (.ok v) → v.isProgram = true)
    (hk : ∀ v : Value, v.isProgram = true → k v = .done v) : Always E n (a.bind k) s R := by
  cases h with
  | intro keeps ends waits =>
    have hsame (cs : List Call) (o : Ending) (t : Store) (htr : Traced (a.bind k) s cs o t)
        (hle : weight cs ≤ n) : Traced a s cs o t := by
      rcases htr.split with ⟨f, rfl, ha⟩ | ⟨p, ds, es, u, ha, rfl, hes⟩
      · exact ha
      · rw [weight_append] at hle
        have hp : p.isProgram = true := by
          by_cases hp : ∃ d f, E.Awaits (.ok p) d f
          · obtain ⟨d, f, -, tag, own, delay, t, he, -⟩ := hp
            cases he
            rfl
          · exact hR 0 _ _ _ (ends ds _ u 0 ha (by omega) fun d f h => hp ⟨d, f, h⟩)
        rw [hk p hp] at hes
        cases hes
        rw [List.append_nil]
        exact ha
    exact .intro (fun cs o t htr hle => keeps cs o t (hsame cs o t htr hle) hle)
      (fun cs o t j htr hj => ends cs o t j (hsame cs o t htr (by omega)) hj)
      fun cs o t j d f u htr hj => waits cs o t j d f u (hsame cs o t htr (by omega)) hj

theorem Ultimately.next_unchanged {a : Action Value} {Q : List (Event V) → Store → Ending → Prop}
    (h : Ultimately E a s Q) (hQ : ∀ said t v, Q said t (.ok v) → v.isProgram = true)
    (hk : ∀ v : Value, v.isProgram = true → k v = .done v) : Ultimately E (a.bind k) s Q := by
  have hsame {cs : List Call} {p : Value} {t : Store} (h : Traced a s cs (.ok p) t)
      (hp : p.isProgram = true) : Traced (a.bind k) s cs (.ok p) t := by
    have hbind := h.bind (k := k) (by rw [hk p hp]; exact .done p t)
    rwa [List.append_nil] at hbind
  cases h with
  | @ends _ _ t cs o _ htr hkeeps ho hq =>
    cases o with
    | error f => exact .ends htr.bind_error hkeeps ho hq
    | ok p => exact .ends (hsame htr (hQ _ _ _ hq)) hkeeps ho hq
  | @waits _ _ t cs o d f _ htr hkeeps ho hrest =>
    obtain ⟨hpasses, tag, own, delay, t, rfl, hf⟩ := ho
    exact .waits (hsame htr rfl) hkeeps ⟨hpasses, tag, own, delay, t, rfl, hf⟩ hrest

end Sequences

end AlgebraicEffects
