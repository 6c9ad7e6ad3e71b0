import AlgebraicEffects.Effects.Suspension
import AlgebraicEffects.Proofs.Comparing.Choosing
import AlgebraicEffects.Proofs.Comparing.Foreign
import AlgebraicEffects.Proofs.Comparing.Stateful

/-!
What handlers of the library leave.

What is left of a program under a handler performs nothing that the handler has an implementation for, and
nothing that the program itself does not perform: wherever answers lead, the implementations only sequence
and handle what they have resumed (`Interprets.residue`). So without a leaf transform the handler leaves
what is left alone.
-/

set_option autoImplicit false

namespace AlgebraicEffects

open Action (Traced)
open Choice (decideName failName)
open Comparison (exact Twins)
open Log (logName)
open Output (printName)
open State (getName putName)
open Suspension (suspendName nowName)

variable {V α β : Type} {S : Scene V} {C : Course S} {L : Listener} {w u z : S.World} {p q v : Value}
  {cs : List Call}

/-- What is left performs none of these effects, and only what the program itself performs. -/
def Course.Leaves (C : Course S) (own : List String) (apply : Value → Action Value) : Prop :=
  ∀ w z p q cs, p.isProgram = true → Traced (apply p) (S.store w) cs (.ok q) (S.store z) →
    ∀ name params, C.Performs z q name params → name ∉ own ∧ C.Performs w p name params

/-- What respects twins, and gives up these effects, leaves programs without them. -/
theorem leaves_of_respects (hC : C.IsOpen) {own : List String} {apply : Value → Action Value}
    (h : ∀ P : String → List Value → Prop,
      (exact C .scripts).Respects P apply fun name params => P name params ∧ name ∉ own) :
    C.Leaves own apply := by
  intro w z p q cs hp hrun name params hq
  have hmatched (n : Nat) := h (C.Performs w p) n w w p p rfl (.refl hC hp fun _ _ h => h)
  obtain ⟨_, _, -, -, -, htwins⟩ := Comparison.exists_exact_run hC hmatched hrun
  exact (Twins.of_performs hC htwins hq).symm

section Suspending

/-- The implementations of the handler that suspends. -/
def Suspension.table (host : Value) : Handler.Table :=
  [(suspendName, .arrowOf (.suspendOn host)), (nowName, .arrowOf (.nowOf host))]

theorem includes_time (host : Value) : C.Includes (Host.time host) w := by
  cases host with
  | agenda a =>
    refine .bind (Course.includes_read ?_) fun _ _ _ => Course.includes_done _
    cases (S.store w).agendas[a]? with
    | some _ => exact Course.includes_done _
    | none => exact Course.includes_fail _
  | loopHost l =>
    refine .bind (Course.includes_read ?_) fun _ _ _ => Course.includes_done _
    cases (S.store w).loops[l]? with
    | some _ => exact Course.includes_done _
    | none => exact Course.includes_fail _
  | _ => exact Course.includes_fail _

/-- An implementation of the library that gives a program gives the program of the operation. -/
theorem exists_of_perform {f : Function} {params : List Value} {c : Value} {s t : Store}
    (hf : Comparison.IsPlain f)
    (h : Traced (Handler.perform (.arrowOf f) params c) s cs (.ok q) t) : ∃ v inner u,
      Traced (f.apply (.of (params ++ [c]))) s inner (.ok v) u ∧ weight inner < weight cs ∧
        (v.isProgram = true → q = v ∧ t = u) := by
  rw [Handler.perform, hf.plain, if_neg Bool.false_ne_true, Replay.build_eq hf.library] at h
  obtain ⟨ds, r, u, hcall⟩ := h.exists_of_bind
  cases r with
  | error e => cases (h.unique hcall.bind_error).2.1
  | ok v =>
    obtain ⟨es, rfl, hrest⟩ := h.of_bind hcall
    obtain ⟨inner, rfl, hinner⟩ := hcall.of_invoke
    refine ⟨v, inner, u, hinner, ?_, fun hv => ?_⟩
    · rw [weight_append, weight_singleton]
      omega
    · cases v with
      | leaf | operation =>
        cases hrest
        exact ⟨rfl, rfl⟩
      | _ => cases hv

/-- The first part of a sequence that has come to a value. -/
theorem exists_of_bind_ok {a : Action α} {k : α → Action β} {x : β} {s t : Store}
    (h : Traced (a.bind k) s cs (.ok x) t) : ∃ y ds es r, Traced a s ds (.ok y) r ∧
      Traced (k y) r es (.ok x) t ∧ cs = ds ++ es := by
  obtain ⟨ds, r, u, ha⟩ := h.exists_of_bind
  cases r with
  | error e => cases (h.unique ha.bind_error).2.1
  | ok y =>
    obtain ⟨es, hcs, hes⟩ := h.of_bind ha
    exact ⟨y, ds, es, u, ha, hes, hcs⟩

theorem lookup_table {host f : Value} {name : String}
    (h : (Suspension.table host).lookup name = some f) :
    f = .arrowOf (.suspendOn host) ∨ f = .arrowOf (.nowOf host) := by
  unfold Suspension.table at h
  rw [List.lookup_cons, List.lookup_cons] at h
  split at h
  · exact .inl (Option.some.inj h).symm
  · split at h
    · exact .inr (Option.some.inj h).symm
    · cases h

/-- Where a suspension is started the flow ends. -/
theorem of_suspendOn {host x : Value} {params : List Value} {c : Value} {s t : Store}
    (h : Traced ((Function.suspendOn host).apply (.of (params ++ [c]))) s cs (.ok x) t) :
    x = .leaf 0 .nothing := by
  match params with
  | [start] =>
    have hstarted : Traced ((Action.ask start [.arrowOf (.resumeChecked c), host]).bind fun _ =>
      .done (.leaf 0 .nothing)) s cs (.ok x) t := h
    obtain ⟨_, _, _, _, -, hdone, -⟩ := exists_of_bind_ok hstarted
    cases hdone
    rfl
  | [] | _ :: _ :: _ =>
    rw [show (Function.suspendOn host).apply _ = _ from takeTwo_of_length (by simp)] at h
    cases h

/-- The time is what the continuation is resumed with. -/
theorem of_nowOf {host x : Value} {params : List Value} {c : Value} {s t : Store}
    (h : Traced ((Function.nowOf host).apply (.of (params ++ [c]))) s cs (.ok x) t) :
    Traced ((Host.time host).bind fun time => Action.ask c [time]) s cs (.ok x) t := by
  match params with
  | [] => exact h
  | _ :: _ =>
    rw [show (Function.nowOf host).apply _ = _ from takeOne_of_length (by simp)] at h
    cases h

/-- Behind an operation a handler goes on with what its continuation gives. -/
theorem exists_under (hC : C.IsOpen) {table : Handler.Table} {resume answer : Value} {tag : Nat}
    (h : Traced (Action.ask (.function tag (.under table none resume)) [answer]) (S.store w) cs (.ok q)
      (S.store z)) : ∃ v u ds es, C.Later w u ∧
      Traced (Program.continueWith resume answer) (S.store w) ds (.ok (Program.lift v)) (S.store u) ∧
      Traced (Handler.evaluate table none v) (S.store u) es (.ok q) (S.store z) ∧ weight es < weight cs := by
  obtain ⟨inner, rfl, hbody⟩ := h.of_invoke
  obtain ⟨v, ds, es, t, hresumed, hevaluated, rfl⟩ := exists_of_bind_ok
    (show Traced ((Action.ask resume [answer]).bind (Handler.evaluate table none)) _ inner _ _ from hbody)
  obtain ⟨u, rfl, hu⟩ := hC.ask resume [answer] ds _ t hresumed
  refine ⟨v, u, ds, es, hu, hresumed.map Program.lift, hevaluated, ?_⟩
  rw [weight_singleton, weight_append]
  omega

/-- Under the handler that suspends a program ends at a leaf, or at an operation that it has come to and
that is forwarded. -/
theorem suspended_run (hC : C.IsOpen) (host : Value)
    (h : Traced (Handler.evaluate (Suspension.table host) none v) (S.store w) cs (.ok q) (S.store z)) :
    (∃ tag x, q = .leaf tag x) ∨ ∃ tag name params resume,
      q = .operation 0 name params (.arrowOf (.under (Suspension.table host) none resume)) ∧
      (Suspension.table host).lookup name = none ∧ C.Later w z ∧
      ∀ name' params', C.Performs z (.operation tag name params resume) name' params' →
        C.Performs w v name' params' := by
  generalize hn : weight cs = n
  induction n using Nat.strong_induction_on generalizing w v cs with
  | _ n ih =>
    rw [← Handler.evaluate_lift] at h
    have hprogram := Program.isProgram_lift v
    cases hlift : Program.lift v with
    | leaf tag x =>
      rw [hlift, Handler.evaluate_leaf (p := .leaf tag x) rfl] at h
      obtain ⟨-, hq, -⟩ := h.unique (.done _ _)
      cases hq
      exact .inl ⟨tag, x, rfl⟩
    | operation tag name params resume =>
      have hv : v = .operation tag name params resume := by
        cases hv : v.isProgram with
        | true => rw [← hlift, lift_of_isProgram hv]
        | false =>
          rw [lift_of_not_program hv] at hlift
          cases hlift
      rw [hlift] at h
      cases hlookup : (Suspension.table host).lookup name with
      | none =>
        rw [Handler.evaluate_forwarded hlookup] at h
        obtain ⟨-, hq, hstore⟩ := h.unique (.done _ _)
        cases hq
        cases hC.injective hstore
        exact .inr ⟨tag, name, params, resume, rfl, hlookup, C.refl z, fun _ _ hp => hv ▸ hp⟩
      | some f =>
        rw [Handler.evaluate_performed hlookup] at h
        rcases lookup_table hlookup with rfl | rfl
        · obtain ⟨x, inner, t, hinner, -, hx⟩ := exists_of_perform ⟨rfl, rfl, rfl⟩ h
          cases of_suspendOn hinner
          exact .inl ⟨0, .nothing, (hx rfl).1⟩
        · obtain ⟨x, inner, t, hinner, hweight, hx⟩ := exists_of_perform ⟨rfl, rfl, rfl⟩ h
          obtain ⟨time, ds, es, s, htime, hasked, rfl⟩ := exists_of_bind_ok (of_nowOf hinner)
          obtain ⟨u, rfl, hu⟩ := includes_time host ds _ s htime
          obtain ⟨y, rfl, -⟩ := hC.ask _ _ es _ t hasked
          obtain ⟨v', u', ds', es', hu', hresumed, hevaluated, hless⟩ := exists_under hC hasked
          have hq := hx (Action.GivesPrograms.evaluate _ _ _ _ _ _ _ hevaluated)
          obtain ⟨rfl, hstore⟩ := hq
          cases hC.injective hstore
          rw [weight_append] at hweight
          rcases ih _ (by omega) hevaluated rfl with hleaf | ⟨t', n', ps', r', rfl, hnone, hlater, hperforms⟩
          · exact .inl hleaf
          · refine .inr ⟨t', n', ps', r', rfl, hnone, C.trans hu (C.trans hu' hlater), fun _ _ hp => ?_⟩
            rw [hv]
            exact .later hu hresumed hu' (hperforms _ _ hp).lift
    | _ =>
      rw [hlift] at hprogram
      cases hprogram

/-- So whatever is performed after it is performed by the program, and is no suspension. -/
theorem suspended_performs (hC : C.IsOpen) (host : Value) {name : String} {params : List Value}
    (hp : C.Performs z q name params)
    (h : Traced (Handler.evaluate (Suspension.table host) none v) (S.store w) cs (.ok q) (S.store z)) :
    (Suspension.table host).lookup name = none ∧ C.Performs w v name params := by
  induction hp generalizing w v cs with
  | now =>
    rcases suspended_run hC host h with ⟨_, _, hleaf⟩ | ⟨_, _, _, _, hq, hnone, -, hperforms⟩
    · cases hleaf
    · cases hq
      exact ⟨hnone, hperforms _ _ .now⟩
  | @later z x y tag name name' params params' resume answer p ds hx hrun hy _ ih =>
    rcases suspended_run hC host h with ⟨_, _, hleaf⟩ | ⟨_, _, _, _, hq, -, -, hperforms⟩
    · cases hleaf
    · cases hq
      obtain ⟨q, hlifted, hasked⟩ := hrun.of_map
      cases q with
      | error e => cases hlifted
      | ok q =>
        cases hlifted
        obtain ⟨v', u', _, _, hu', hresumed, hevaluated, -⟩ := exists_under hC hasked
        have hprogram := Action.GivesPrograms.evaluate _ _ _ _ _ _ _ hevaluated
        rw [← lift_of_isProgram hprogram] at hevaluated
        obtain ⟨hnone, hp⟩ := ih hevaluated
        exact ⟨hnone, hperforms _ _ (.later hx hresumed hu' hp.lift)⟩

theorem leaves_suspended (hC : C.IsOpen) (host : Value) :
    C.Leaves [suspendName, nowName] fun p => Action.ask (Suspension.handler host) [p] := by
  intro w z p q cs _ hrun name params hq
  obtain ⟨inner, -, hevaluated⟩ := hrun.of_invoke
  obtain ⟨hnone, hp⟩ := suspended_performs hC host hq hevaluated
  refine ⟨fun hname => ?_, hp⟩
  rcases List.mem_cons.1 hname with rfl | hname
  · cases hnone
  · rw [List.mem_singleton.1 hname] at hnone
    cases hnone

end Suspending

/-- The action may give this value. -/
def Action.MayGive (a : Action α) (x : α) : Prop := ∃ s cs t, Traced a s cs (.ok x) t

/-- The interpreters of the library that take care of all of some effects, and whether they leave leaves as
they are. -/
inductive Interprets : (Value → Action Value) → List String → Bool → Prop where
  | print {sink h : Value} : (Output.printHandler sink).MayGive h →
      Interprets (fun p => Action.ask h [p]) [printName] true
  | collectPrint : Interprets (fun p => Action.ask Output.collectPrintHandler [p]) [printName] false
  | writer : Interprets (fun p => Action.ask Log.writerHandler [p]) [logName] false
  | logger {level h : Value} : (Log.loggerHandler level).MayGive h →
      Interprets (fun p => Action.ask h [p]) [logName] true
  | reader {environment h : Value} : (Environment.handler environment).MayGive h →
      Interprets (fun p => Action.ask h [p]) [Environment.readName, Environment.askName] true
  | random {seed h : Value} : (Chance.handler seed).MayGive h →
      Interprets (fun p => Action.ask h [p]) [Chance.randomName] true
  | allChoices : Interprets (fun p => Action.ask Choice.allChoices [p]) [decideName, failName] false
  | pickMax : Interprets (fun p => Action.ask Choice.pickMax [p]) [decideName] true
  | pickMin : Interprets (fun p => Action.ask Choice.pickMin [p]) [decideName] true
  | backtrack : Interprets (fun p => Action.ask Choice.backtrack [p]) [decideName] true
  | firstSolution : Interprets Choice.firstSolution [decideName, failName] true
  | suspend (host : Value) :
      Interprets (fun p => Action.ask (Suspension.handler host) [p]) [suspendName, nowName] true
  | state (initial : Value) :
      Interprets (fun p => State.run p initial (.bool true)) [getName, putName] false

section Made

variable {h : Value}

theorem of_printHandler {sink : Value} (hh : (Output.printHandler sink).MayGive h) :
    h = Handler.ofFunctions [(printName, .emitTo sink)] none := by
  obtain ⟨s, cs, t, hrun⟩ := hh
  unfold Output.printHandler at hrun
  split at hrun
  · cases hrun
    rfl
  · cases hrun

theorem of_loggerHandler {level : Value} (hh : (Log.loggerHandler level).MayGive h) :
    ∃ name, h = Handler.ofFunctions [(logName, .logAt name)] none := by
  obtain ⟨s, cs, t, hrun⟩ := hh
  unfold Log.loggerHandler at hrun
  split at hrun
  · split at hrun
    · cases hrun
      exact ⟨_, rfl⟩
    · cases hrun
  · cases hrun

theorem of_readerHandler {environment : Value} (hh : (Environment.handler environment).MayGive h) :
    ∃ tag entries, h = Handler.ofFunctions [(Environment.readName, .readAll tag entries),
      (Environment.askName, .askFor entries)] none := by
  obtain ⟨s, cs, t, hrun⟩ := hh
  obtain ⟨frozen, _, _, _, -, hgiven, -⟩ := exists_of_bind_ok hrun
  split at hgiven
  · cases hgiven
    exact ⟨_, _, rfl⟩
  · cases hgiven

theorem of_chanceHandler {seed : Value} (hh : (Chance.handler seed).MayGive h) :
    ∃ address, h = Handler.ofFunctions [(Chance.randomName, .draw address)] none := by
  obtain ⟨s, cs, t, hrun⟩ := hh
  obtain ⟨_, _, _, _, -, hseeded, -⟩ := exists_of_bind_ok hrun
  obtain ⟨address, _, _, _, -, hgiven, -⟩ := exists_of_bind_ok hseeded
  cases hgiven
  exact ⟨address, rfl⟩

end Made

namespace Interprets

variable {apply : Value → Action Value} {own : List String} {free : Bool}

/-- What is left of what each interpreter is applied to. -/
theorem leaves (hC : C.IsOpen) (h : Interprets apply own free) : C.Leaves own apply := by
  have hE := Comparison.exact_fair (L := .scripts) hC
  have hone {P : String → List Value → Prop} (other name : String) (params : List Value)
      (hp : P name params) (hne : name ≠ other) : P name params ∧ name ∉ [other] :=
    ⟨hp, fun hname => hne (List.mem_singleton.1 hname)⟩
  have htwo {P : String → List Value → Prop} (first second name : String) (params : List Value)
      (hp : P name params) (hfirst : name ≠ first) (hsecond : name ≠ second) :
      P name params ∧ name ∉ [first, second] :=
    ⟨hp, fun hname => (List.mem_cons.1 hname).elim hfirst fun h => hsecond (List.mem_singleton.1 h)⟩
  cases h with
  | suspend host => exact leaves_suspended hC host
  | print hh =>
    rw [of_printHandler hh]
    exact leaves_of_respects hC fun P =>
      (Comparison.respects_print hE (Comparison.exact_receives hC _) (hone _)).handled 0
  | collectPrint =>
    exact leaves_of_respects hC fun P =>
      (Comparison.respects_gather hE (by decide) false (hone _)).handled 0
  | writer =>
    exact leaves_of_respects hC fun P =>
      (Comparison.respects_gather hE (by decide) true (hone _)).handled 0
  | logger hh =>
    obtain ⟨name, rfl⟩ := of_loggerHandler hh
    exact leaves_of_respects hC fun P => (Comparison.respects_logger hE (hone _)).handled 0
  | reader hh =>
    obtain ⟨tag, entries, rfl⟩ := of_readerHandler hh
    exact leaves_of_respects hC fun P =>
      (Comparison.respects_reader (Comparison.exact_provides tag entries) (htwo _ _)).handled 0
  | random hh =>
    obtain ⟨address, rfl⟩ := of_chanceHandler hh
    exact leaves_of_respects hC fun P =>
      (Comparison.respects_random hE (Comparison.exact_draws hC address) (hone _)).handled 0
  | allChoices =>
    exact leaves_of_respects hC fun P => (Comparison.respects_allChoices hE (htwo _ _)).handled 16
  | pickMax =>
    exact leaves_of_respects hC fun P =>
      (Comparison.respects_extremum hE Comparison.exact_ranks true (hone _)).handled 14
  | pickMin =>
    exact leaves_of_respects hC fun P =>
      (Comparison.respects_extremum hE Comparison.exact_ranks false (hone _)).handled 15
  | backtrack =>
    exact leaves_of_respects hC fun P => (Comparison.respects_backtrack hE (hone _)).handled 13
  | firstSolution => exact leaves_of_respects hC fun P => Comparison.respects_firstSolution hE (htwo _ _)
  | state initial =>
    exact leaves_of_respects hC fun P =>
      Comparison.respects_stateRun hE rfl (.inl rfl) (fun _ _ => rfl) (htwo _ _)

/-- A handler without a leaf transform leaves alone what performs none of its effects. -/
theorem agree_of_absent (hC : C.IsOpen) {tag : Nat} {table : Handler.Table} (hq : q.isProgram = true)
    (h : ∀ name params, C.Performs z q name params → name ∉ table.map (·.1)) :
    C.Agree L z (Action.ask (.handler tag table none) [q]) (.done q) := by
  refine agree_evaluated hC hq (fun name params hp => List.lookup_eq_none_iff.2 fun entry hentry => ?_) tag
  have hne : name ≠ entry.1 := fun hname => h name params hp (hname ▸ List.mem_map_of_mem hentry)
  simpa using hne

/-- The first solution of a program that neither decides nor fails is what the program comes to. -/
theorem agree_firstSolution (hC : C.IsOpen) (hq : q.isProgram = true)
    (h : ∀ name params, C.Performs z q name params → name ∉ [decideName, failName]) :
    C.Agree L z (Choice.firstSolution q) (.done q) := by
  have habsent (entry : String × Value) (hentry : entry.1 ∈ [decideName, failName]) :
      (exact C L).LeavesAlone (fun name => name ∉ [decideName, failName])
        (Handler.evaluate [entry] none) := by
    refine Comparison.leavesAlone_evaluate rfl fun name hname => ?_
    have hne : name ≠ entry.1 := fun heq => hname (heq ▸ hentry)
    rw [List.lookup_cons, beq_false_of_ne hne]
    rfl
  have hdecide := habsent (decideName, .arrowOf .tryBoth) (List.mem_cons_self ..)
  have hfail := habsent (failName, .arrowOf .failToNothing) (List.mem_cons_of_mem _ (List.mem_singleton_self _))
  have hdone : (exact C L).LeavesAlone (fun name => name ∉ [decideName, failName]) .done :=
    Comparison.leavesAlone_done
  have hsame (n : Nat) : (exact C L).Twins ((exact C L).alike (C.Performs z q)) n z q z q :=
    .refl hC hq fun _ _ h => h
  have hthrough (k : Value → Action Value) : (exact C L).Through k := Comparison.exact_through k
  -- Both parts are compared with doing nothing.
  have hforth (n : Nat) : (exact C L).Matched n (Choice.firstSolution q) z ((Action.done q).bind .done) z
      ((exact C L).Twins ((exact C L).alike (C.Performs z q))) :=
    .bind (hthrough _) (hthrough _) (((hsame n).left_alone rfl hdecide hdone h rfl).mono
      fun _ _ _ _ _ _ _ _ hlevel htwins => htwins.left_alone rfl hfail hdone h hlevel)
  have hback (n : Nat) : (exact C L).Matched n ((Action.done q).bind .done) z (Choice.firstSolution q) z
      ((exact C L).Twins ((exact C L).alike (C.Performs z q))) :=
    .bind (hthrough _) (hthrough _) (((hsame n).left_alone rfl hdone hdecide h rfl).mono
      fun _ _ _ _ _ _ _ _ hlevel htwins => htwins.left_alone rfl hdone hfail h hlevel)
  exact fun n => ⟨.admitting (fun _ _ _ => trivial) (hforth n), .admitting (fun _ _ _ => trivial) (hback n)⟩

/-- An interpreter that leaves leaves as they are is a handler for just its effects, or searches for the first
solution. -/
theorem cases_free (h : Interprets apply own true) :
    (∃ (tag : Nat) (table : Handler.Table), apply = (fun p => Action.ask (.handler tag table none) [p]) ∧
      own = table.map (·.1)) ∨ apply = Choice.firstSolution ∧ own = [decideName, failName] := by
  cases h with
  | firstSolution => exact .inr ⟨rfl, rfl⟩
  | print hh =>
    rw [of_printHandler hh]
    exact .inl ⟨_, _, rfl, rfl⟩
  | logger hh =>
    obtain ⟨name, rfl⟩ := of_loggerHandler hh
    exact .inl ⟨_, _, rfl, rfl⟩
  | reader hh =>
    obtain ⟨tag, entries, rfl⟩ := of_readerHandler hh
    exact .inl ⟨_, _, rfl, rfl⟩
  | random hh =>
    obtain ⟨address, rfl⟩ := of_chanceHandler hh
    exact .inl ⟨_, _, rfl, rfl⟩
  | pickMax | pickMin | backtrack => exact .inl ⟨_, _, rfl, rfl⟩
  | suspend host => exact .inl ⟨_, _, rfl, rfl⟩

/-- So what it makes of programs are programs. -/
theorem givesPrograms (h : Interprets apply own true) (p : Value) : (apply p).GivesPrograms := by
  rcases h.cases_free with ⟨tag, table, rfl, -⟩ | ⟨rfl, -⟩
  · intro s cs v t hrun
    obtain ⟨inner, -, hevaluated⟩ := hrun.of_invoke
    exact Action.GivesPrograms.evaluate table none p s inner v t hevaluated
  · exact .bind fun _ => .evaluate _ _ _

/-- And it leaves alone those that perform none of its effects. -/
theorem agree (hC : C.IsOpen) (h : Interprets apply own true) (hq : q.isProgram = true)
    (hnames : ∀ name params, C.Performs z q name params → name ∉ own) :
    C.Agree L z (apply q) (.done q) := by
  rcases h.cases_free with ⟨tag, table, rfl, rfl⟩ | ⟨rfl, rfl⟩
  · exact agree_of_absent hC hq hnames
  · exact agree_firstSolution hC hq hnames

/-- Interpreters of the library remove their own effects and add none. Whatever answers lead to in what is
left of a program is none of these effects and is performed by the program itself, with the same parameters.
So an interpreter without a leaf transform changes nothing when it is applied to what it has left. -/
theorem residue (hC : C.IsOpen) (h : Interprets apply own free) (hp : p.isProgram = true)
    (hrun : Traced (apply p) (S.store w) cs (.ok q) (S.store z)) :
    (∀ name params, C.Performs z q name params → name ∉ own ∧ C.Performs w p name params) ∧
      (free = true → C.Agree L z (apply q) (.done q)) := by
  have hleaves := h.leaves hC w z p q cs hp hrun
  refine ⟨hleaves, ?_⟩
  rintro rfl
  exact h.agree hC (h.givesPrograms p _ _ _ _ hrun) fun name params hq => (hleaves name params hq).1

theorem residue_backtrack : ∃ cs q,
    Traced (Action.ask Choice.backtrack [Output.print (.text "hello")]) Store.empty cs (.ok q) Store.empty ∧
    (∀ name params, Course.shapes.Performs Store.empty q name params → name ∉ [decideName] ∧
      Course.shapes.Performs Store.empty (Output.print (.text "hello")) name params) ∧
    (true = true → Course.shapes.Agree .scripts Store.empty (Action.ask Choice.backtrack [q]) (.done q)) := by
  have hrun : Traced (Action.ask Choice.backtrack [Output.print (.text "hello")]) Store.empty _
      (.ok (.operation 0 printName [.text "hello"]
        (.arrowOf (.under [(decideName, .arrowOf .tryBoth)] none (.arrowOf .leaf))))) Store.empty :=
    Traced.invoke (.done _ _)
  exact ⟨_, _, hrun, Interprets.backtrack.residue Course.isOpen_shapes rfl hrun⟩

end Interprets

end AlgebraicEffects
