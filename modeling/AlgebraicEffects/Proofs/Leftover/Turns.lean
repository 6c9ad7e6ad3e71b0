import AlgebraicEffects.Proofs.Flows.Suspending
import AlgebraicEffects.Proofs.Handling
import AlgebraicEffects.Proofs.Showing
import AlgebraicEffects.Proofs.Takes

/-!
How the turn of a flow ends.

A turn begins with an evaluation under the handler that suspends flows, which is the outermost one. What
that handler meets decides: a leaf, an exit and a wait end the turn, an operation that no handler has
performed is left over, and after a fork, a question for the time or the allocation of cells the flow is
resumed, and the turn goes on as what it is resumed to (`TurnEnds`). Whatever the program and its handlers
do in between is a call that gives a program or raises a failure. Main statement: an evaluation ends
exactly as its turn does (`exists_turnEnds_iff`).
-/

set_option autoImplicit false

namespace AlgebraicEffects

open Action (Runs Takes takes_bind_iff takes_ask_iff takes_invoke_iff takes_done_iff takes_fail_iff
  takes_read_iff)
open Suspension (suspendName nowName)

/-- What a turn of flows leaves: nothing, an operation that no handler has performed, a failure of the
code that it calls, or a failure of the host. -/
inductive Residue where
  | ended
  | left (name : String) (params : List Value)
  | raised (failure : Failure)
  | refused (failure : Failure)

/-- What the handler that suspends flows meets in a program. -/
inductive Stop where
  | ended
  | left (name : String) (params : List Value)
  | now (resume : Value)
  | wait (delay resume : Value)
  | exit
  | fork (resume : Value)
  | cells (resume : Value)
  | other

def Value.stop (p : Value) : Stop :=
  match Program.lift p with
  | .operation _ name params resume =>
    if name = suspendName then
      match params with
      | [.function _ (.waitStart delay)] => .wait delay resume
      | [.function _ .exitStart] => .exit
      | [.function _ .forkStart] => .fork resume
      | [.function _ .allocateCells] => .cells resume
      | _ => .other
    else if name = nowName then
      match params with
      | [] => .now resume
      | _ => .other
    else .left name params
  | _ => .ended

/-- The shapes of what is met. -/
inductive Meets : Value → Stop → Prop where
  | ended (tag : Nat) (v : Value) : Meets (.leaf tag v) .ended
  | left (tag : Nat) {name : String} (params : List Value) (resume : Value) : name ≠ suspendName →
      name ≠ nowName → Meets (.operation tag name params resume) (.left name params)
  | now (tag : Nat) (resume : Value) : Meets (.operation tag nowName [] resume) (.now resume)
  | wait (tag own : Nat) (delay resume : Value) :
      Meets (.operation tag suspendName [.function own (.waitStart delay)] resume) (.wait delay resume)
  | exit (tag own : Nat) (resume : Value) :
      Meets (.operation tag suspendName [.function own .exitStart] resume) .exit
  | fork (tag own : Nat) (resume : Value) :
      Meets (.operation tag suspendName [.function own .forkStart] resume) (.fork resume)
  | cells (tag own : Nat) (resume : Value) :
      Meets (.operation tag suspendName [.function own .allocateCells] resume) (.cells resume)
  | otherStart (tag : Nat) (params : List Value) (resume : Value) :
      Meets (.operation tag suspendName params resume) .other
  | otherNow (tag : Nat) (param : Value) (params : List Value) (resume : Value) :
      Meets (.operation tag nowName (param :: params) resume) .other

theorem Value.meets (p : Value) : Meets (Program.lift p) p.stop := by
  have hlift := Program.isProgram_lift p
  unfold Value.stop
  cases hp : Program.lift p with
  | leaf tag v => exact .ended tag v
  | operation tag name params resume =>
    dsimp only
    by_cases hsuspend : name = suspendName
    · subst hsuspend
      rw [if_pos rfl]
      split
      · exact .wait ..
      · exact .exit ..
      · exact .fork ..
      · exact .cells ..
      · exact .otherStart ..
    · rw [if_neg hsuspend]
      by_cases hnow : name = nowName
      · subst hnow
        rw [if_pos rfl]
        cases params with
        | nil => exact .now ..
        | cons param params => exact .otherNow ..
      · rw [if_neg hnow]
        exact .left tag params resume hsuspend hnow
  | _ =>
    rw [hp] at hlift
    cases hlift

/-- The continuation of a flow that is suspended on an agenda, as the agenda is given it. -/
def resumption (address : Nat) (resume : Value) : Value :=
  .arrowOf (.resumeChecked (.arrowOf (.under (suspensionTable (.agenda address)) none resume)))

/-- How a call of code that is not looked into ends. -/
def Residue.of : Ending → Residue
  | .ok _ => .ended
  | .error f => .raised f

/-- The turn that goes on with how an evaluation has ended, from a store, leaves this residue in a store.
Flows are resumed until one stops or nothing more is resumed in the turn. -/
inductive TurnEnds (address : Nat) : Ending → Store → Residue → Store → Prop where
  | raised (f : Failure) (s : Store) : TurnEnds address (.error f) s (.raised f) s
  | ended {p : Value} (s : Store) : p.stop = .ended → TurnEnds address (.ok p) s .ended s
  | left {p : Value} {name : String} {params : List Value} (s : Store) : p.stop = .left name params →
      TurnEnds address (.ok p) s (.left name params) s
  | exit {p : Value} (s : Store) : p.stop = .exit → TurnEnds address (.ok p) s .ended s
  | wait {p delay resume v : Value} {s t : Store} : p.stop = .wait delay resume →
      Runs Value.apply (Host.callLater (.agenda address) delay (resumption address resume) []) s (.ok v) t →
      TurnEnds address (.ok p) s .ended t
  | waitRefused {p delay resume : Value} {f : Failure} {s t : Store} : p.stop = .wait delay resume →
      Runs Value.apply (Host.callLater (.agenda address) delay (resumption address resume) []) s
        (.error f) t →
      TurnEnds address (.ok p) s (.refused f) t
  | fork {p resume v : Value} {s t u w : Store} {o : Ending} {R : Residue} : p.stop = .fork resume →
      Runs Value.apply (Host.callSoon (.agenda address) (resumption address resume)
        [.bool true]) s (.ok v) t →
      Runs Value.apply (Action.ask resume [.bool false]) t o u → TurnEnds address o u R w →
      TurnEnds address (.ok p) s R w
  | forkRefused {p resume : Value} {f : Failure} {s t : Store} : p.stop = .fork resume →
      Runs Value.apply (Host.callSoon (.agenda address) (resumption address resume)
        [.bool true]) s (.error f) t →
      TurnEnds address (.ok p) s (.refused f) t
  | cells {p resume : Value} {s t u : Store} {o : Ending} {R : Residue} : p.stop = .cells resume →
      Runs Value.apply (Action.ask resume [.list 0 [.notAvailable, .notAvailable]]) s o t →
      TurnEnds address o t R u → TurnEnds address (.ok p) s R u
  | now {p resume : Value} {a : Agenda} {s t u : Store} {o : Ending} {R : Residue} :
      p.stop = .now resume → s.agendas[address]? = some a →
      Runs Value.apply (Action.ask resume [a.currentTime]) s o t → TurnEnds address o t R u →
      TurnEnds address (.ok p) s R u
  | nowRefused {p resume : Value} {s : Store} : p.stop = .now resume → s.agendas[address]? = none →
      TurnEnds address (.ok p) s (.refused (.fault .badType)) s
  | other {p : Value} {s t : Store} {o : Ending} : p.stop = .other →
      Runs Value.apply (Handler.evaluate (suspensionTable (.agenda address)) none p) s o t →
      TurnEnds address (.ok p) s (.of o) t

/-- The failure that names an operation that is left over, or else the one of writing it. -/
def Store.unhandled (s : Store) (name : String) (params : List Value) : Failure :=
  match s.written (.tuple 0 params) with
  | .ok shown =>
    .unhandledEffect (Failure.unhandledText (.text name) shown) (.text name) (.tuple 0 params)
  | .error f => f

/-- The residue as the end of an evaluation. An operation that is left over in a flow resumed inside the
turn has been made a failure there. -/
inductive Residue.Evaluates (u : Store) : Residue → Ending → Prop where
  | ended (tag : Nat) (v : Value) : Evaluates u .ended (.ok (.leaf tag v))
  | left (tag : Nat) {name : String} (params : List Value) (resume : Value) : name ≠ suspendName →
      name ≠ nowName → Evaluates u (.left name params) (.ok (.operation tag name params resume))
  | failed (name : String) (params : List Value) :
      Evaluates u (.left name params) (.error (u.unhandled name params))
  | raised (f : Failure) : Evaluates u (.raised f) (.error f)
  | refused (f : Failure) : Evaluates u (.refused f) (.error f)

/-- The failure that the residue is reported as, if there is anything to report. -/
def Residue.failure? (u : Store) : Residue → Option Failure
  | .ended => none
  | .left name params => some (u.unhandled name params)
  | .raised f | .refused f => some f

/-- How an evaluation ends that is checked. -/
def Residue.Checked (R : Residue) (u : Store) (r : Ending) : Prop :=
  match R.failure? u with
  | none => ∃ tag v, r = .ok (.leaf tag v)
  | some f => r = .error f

section Evaluations

variable {address n : Nat} {s t u : Store} {r : Ending}

theorem traced_unhandled {α : Type} (name : String) (params : List Value) (s : Store) :
    Action.Traced (Action.unhandled (.text name) (.tuple 0 params) >>= fun f => (.fail f : Action α)) s []
      (.error (s.unhandled name params)) s := by
  have hname : s.written (.text name) = .ok (.text name) := rfl
  have hparams := traced_writable (.tuple 0 params) s
  unfold Store.unhandled Action.unhandled
  show Action.Traced (Action.bind (Action.bind _ fun _ => Action.bind _ _) _) s [] _ s
  rw [Action.bind_assoc]
  refine Action.Traced.bind (hname ▸ traced_writable (.text name) s) ?_
  rw [Action.bind_assoc]
  cases hwritten : s.written (.tuple 0 params) with
  | ok shown =>
    rw [hwritten] at hparams
    exact hparams.bind (.fail _ s)
  | error f =>
    rw [hwritten] at hparams
    exact hparams.bind_error

theorem runs_unhandled {α : Type} (name : String) (params : List Value) (s : Store) :
    Runs Value.apply (Action.unhandled (.text name) (.tuple 0 params) >>= fun f => (.fail f : Action α)) s
      (.error (s.unhandled name params)) s :=
  (traced_unhandled name params s).runs

/-- An evaluation that is checked ends with a leaf or fails as its residue is reported. -/
theorem Residue.Evaluates.checked {R : Residue} {u : Store} {r : Ending} (h : R.Evaluates u r) :
    ∃ q, Runs Value.apply ((Action.ofExcept r).bind Suspension.ensureHandled) u q u ∧ R.Checked u q := by
  cases h with
  | ended tag v => exact ⟨_, .done _ u, tag, v, rfl⟩
  | left tag params resume => exact ⟨_, runs_unhandled _ params u, rfl⟩
  | failed | raised | refused => exact ⟨_, .fail _ u, rfl⟩

/-- An action followed by one that passes its value on takes what it takes itself. -/
theorem takes_bind_done_iff {α β : Type} {a : Action α} {g : α → β} {r : Except Failure β} :
    Takes n (a.bind fun x => .done (g x)) s r u ↔ ∃ o, Takes n a s o u ∧ r = o.map g := by
  constructor
  · intro h
    rcases takes_bind_iff.1 h with ⟨i, j, x, t, rfl, hx, hk⟩ | ⟨f, rfl, hf⟩
    · obtain ⟨rfl, rfl, rfl⟩ := takes_done_iff.1 hk
      exact ⟨.ok x, hx, rfl⟩
    · exact ⟨.error f, hf, rfl⟩
  · rintro ⟨o, h, rfl⟩
    cases o with
    | ok x => exact takes_bind_iff.2 (.inl ⟨n, 0, x, u, rfl, h, takes_done_iff.2 ⟨rfl, rfl, rfl⟩⟩)
    | error f => exact takes_bind_iff.2 (.inr ⟨f, rfl, h⟩)

/-- How a call ends whose value, if it has one, is a program. -/
def GivesProgram (r : Ending) : Prop := ∀ v, r = .ok v → v.isProgram = true

/-- What an implementation gives, if it is a program, is the program of the operation. -/
theorem takes_build {implementation : Value} (h : implementation.isScripted = false)
    {params : List Value} (hcall : Takes n (implementation.apply (.of params)) s r u)
    (hprogram : GivesProgram r) :
    Takes (n + 1) (Replay.build implementation (.tuple 0 params) [] (.tuple 0 [])) s r u := by
  rw [Replay.build_eq h]
  cases r with
  | error f => exact takes_bind_iff.2 (.inr ⟨f, rfl, takes_invoke_iff.2 ⟨n, rfl, hcall⟩⟩)
  | ok v =>
    have hv := hprogram v rfl
    refine takes_bind_iff.2 (.inl ⟨n + 1, 0, v, u, rfl, takes_invoke_iff.2 ⟨n, rfl, hcall⟩, ?_⟩)
    cases v with
    | leaf | operation => exact takes_done_iff.2 ⟨rfl, rfl, rfl⟩
    | _ => cases hv

theorem exists_of_takes_build {implementation : Value} (h : implementation.isScripted = false)
    {params : List Value}
    (hbuild : Takes n (Replay.build implementation (.tuple 0 params) [] (.tuple 0 [])) s r u) :
    ∃ m q t, m < n ∧ Takes m (implementation.apply (.of params)) s q t ∧
      (GivesProgram q → r = q ∧ u = t) := by
  rw [Replay.build_eq h] at hbuild
  rcases takes_bind_iff.1 hbuild with ⟨i, j, v, t, rfl, hcall, hk⟩ | ⟨f, rfl, hcall⟩
  · obtain ⟨m, rfl, hbody⟩ := takes_invoke_iff.1 hcall
    refine ⟨m, .ok v, t, by omega, hbody, fun hprogram => ?_⟩
    have hv := hprogram v rfl
    cases v with
    | leaf | operation =>
      obtain ⟨-, rfl, rfl⟩ := takes_done_iff.1 hk
      exact ⟨rfl, rfl⟩
    | _ => cases hv
  · obtain ⟨m, rfl, hbody⟩ := takes_invoke_iff.1 hcall
    exact ⟨m, .error f, u, by omega, hbody, fun _ => ⟨rfl, rfl⟩⟩

/-- The end of a suspension: whatever was started, the turn is over, unless it failed. -/
def suspendedAs (o : Ending) : Ending := o.map fun _ => .leaf 0 .nothing

theorem givesProgram_suspendedAs (o : Ending) : GivesProgram (suspendedAs o) := by
  cases o with
  | ok x =>
    rintro _ ⟨⟩
    rfl
  | error f => nofun

theorem takes_suspendOn_iff {start continuation : Value} :
    Takes n ((Value.arrowOf (.suspendOn (.agenda address))).apply (.of [start, continuation])) s r u ↔
      ∃ o, Takes n (Action.ask start [.arrowOf (.resumeChecked continuation), .agenda address]) s o u ∧
        r = suspendedAs o := takes_bind_done_iff

/-- A flow is suspended: what it starts is called with its continuation and the agenda. -/
theorem takes_started {tag own : Nat} {f : Function} {resume : Value} {o : Ending}
    (h : Takes n (f.apply (.of [resumption address resume, .agenda address])) s o u) :
    Takes (n + 2) (Handler.evaluate (suspensionTable (.agenda address)) none
      (.operation tag suspendName [.function own f] resume)) s (suspendedAs o) u := by
  rw [Handler.evaluate_handled rfl rfl, List.singleton_append]
  exact takes_build rfl (takes_suspendOn_iff.2 ⟨o, takes_ask_iff.2 ⟨n, rfl, h⟩, rfl⟩)
    (givesProgram_suspendedAs o)

/-- An evaluation under the handler that suspends flows, of what an earlier action has ended with. -/
def evaluated (address : Nat) : Ending → Action Value
  | .ok p => Handler.evaluate (suspensionTable (.agenda address)) none p
  | .error f => .fail f

theorem takes_bind_evaluate_iff {a : Action Value} :
    Takes n (a.bind (Handler.evaluate (suspensionTable (.agenda address)) none)) s r u ↔
      ∃ i j o t, n = i + j ∧ Takes i a s o t ∧ Takes j (evaluated address o) t r u := by
  constructor
  · intro h
    rcases takes_bind_iff.1 h with ⟨i, j, p, t, rfl, ha, hk⟩ | ⟨f, rfl, ha⟩
    · exact ⟨i, j, .ok p, t, rfl, ha, hk⟩
    · exact ⟨n, 0, .error f, u, rfl, ha, takes_fail_iff.2 ⟨rfl, rfl, rfl⟩⟩
  · rintro ⟨i, j, o, t, rfl, ha, hk⟩
    cases o with
    | ok p => exact takes_bind_iff.2 (.inl ⟨i, j, p, t, rfl, ha, hk⟩)
    | error f =>
      obtain ⟨rfl, rfl, rfl⟩ := takes_fail_iff.1 hk
      exact takes_bind_iff.2 (.inr ⟨f, rfl, ha⟩)

/-- A flow is resumed under the handler. -/
theorem takes_under_iff {resume answer : Value} :
    Takes n (Action.ask (.arrowOf (.under (suspensionTable (.agenda address)) none resume)) [answer]) s r u ↔
      ∃ i j o t, n = i + j + 1 ∧ Takes i (Action.ask resume [answer]) s o t ∧
        Takes j (evaluated address o) t r u := by
  rw [takes_ask_iff]
  constructor
  · rintro ⟨m, rfl, h⟩
    obtain ⟨i, j, o, t, rfl, hask, hevaluated⟩ := takes_bind_evaluate_iff.1 h
    exact ⟨i, j, o, t, rfl, hask, hevaluated⟩
  · rintro ⟨i, j, o, t, rfl, hask, hevaluated⟩
    exact ⟨i + j, rfl, takes_bind_evaluate_iff.2 ⟨i, j, o, t, rfl, hask, hevaluated⟩⟩

theorem Residue.Evaluates.givesProgram {R : Residue} (h : R.Evaluates u r) : GivesProgram r := by
  cases h with
  | ended | left =>
    rintro _ ⟨⟩
    rfl
  | failed | raised | refused => nofun

/-- A flow that was resumed inside the turn leaves what it leaves to the turn. -/
theorem Residue.Checked.evaluates {R : Residue} {o : Ending} (h : R.Checked u o) (g : Value → Value) :
    R.Evaluates u (suspendedAs (o.map g)) := by
  cases R with
  | ended =>
    obtain ⟨tag, v, rfl⟩ := h
    exact .ended 0 .nothing
  | left name params =>
    obtain rfl : o = .error (u.unhandled name params) := h
    exact .failed name params
  | raised f =>
    obtain rfl : o = .error f := h
    exact .raised f
  | refused f =>
    obtain rfl : o = .error f := h
    exact .refused f

/-- A flow that is resumed, inside a turn or from the agenda, is checked when its evaluation ends. -/
theorem takes_resumption_iff {arguments : List Value} {resume answer : Value}
    (harguments : arguments = [answer] ∨ arguments = [] ∧ answer = .nothing) :
    Takes n (Action.ask (resumption address resume) arguments) s r u ↔
      ∃ m, n = m + 1 ∧ Takes m ((Action.ask (.arrowOf (.under (suspensionTable (.agenda address)) none
        resume)) [answer]).bind Suspension.ensureHandled) s r u := by
  rw [takes_ask_iff]
  rcases harguments with rfl | ⟨rfl, rfl⟩ <;> exact .rfl

theorem exists_takes_resumption {arguments : List Value} {resume answer : Value}
    (harguments : arguments = [answer] ∨ arguments = [] ∧ answer = .nothing) {o q : Ending} {R : Residue}
    {i j : Nat} (hask : Takes i (Action.ask resume [answer]) s o t)
    (hevaluated : Takes j (evaluated address o) t q u) (hR : R.Evaluates u q) :
    ∃ n r, Takes n (Action.ask (resumption address resume) arguments) s r u ∧ R.Checked u r := by
  obtain ⟨r, hcheck, hchecked⟩ := hR.checked
  obtain ⟨k, hcheck⟩ := hcheck.exists_takes
  have hunder := takes_under_iff.2 ⟨i, j, o, t, rfl, hask, hevaluated⟩
  have hbody : ∃ m, Takes m ((Action.ask (.arrowOf (.under (suspensionTable (.agenda address)) none
      resume)) [answer]).bind Suspension.ensureHandled) s r u := by
    cases q with
    | ok v => exact ⟨_, takes_bind_iff.2 (.inl ⟨_, k, v, u, rfl, hunder, hcheck⟩)⟩
    | error f =>
      obtain ⟨rfl, rfl, -⟩ := takes_fail_iff.1 hcheck
      exact ⟨_, takes_bind_iff.2 (.inr ⟨f, rfl, hunder⟩)⟩
  obtain ⟨m, hbody⟩ := hbody
  exact ⟨m + 1, r, (takes_resumption_iff harguments).2 ⟨m, rfl, hbody⟩, hchecked⟩

/-- Whatever is met otherwise, its evaluation ends with a leaf or fails. -/
theorem evaluates_of_other {p : Value} (hp : p.stop = .other)
    (h : Takes n (Handler.evaluate (suspensionTable (.agenda address)) none p) s r u) :
    (Residue.of r).Evaluates u r := by
  have hraised (f : Failure) (hr : r = .error f) : (Residue.of r).Evaluates u r := hr ▸ .raised f
  have hmeets := p.meets
  rw [hp] at hmeets
  rw [← Handler.evaluate_lift] at h
  generalize Program.lift p = q at h hmeets
  cases hmeets with
  | otherStart tag params resume =>
    rw [Handler.evaluate_handled rfl rfl] at h
    obtain ⟨m, q, t, -, hcall, hsame⟩ := exists_of_takes_build rfl h
    by_cases hlength : params.length = 1
    · obtain ⟨start, rfl⟩ := List.length_eq_one_iff.1 hlength
      obtain ⟨o, -, rfl⟩ := takes_suspendOn_iff.1 hcall
      obtain ⟨rfl, rfl⟩ := hsame (givesProgram_suspendedAs o)
      cases o with
      | ok v => exact .ended 0 .nothing
      | error f => exact .raised f
    · have hfails : (Value.arrowOf (.suspendOn (.agenda address))).apply (.of (params ++
          [.arrowOf (.under (suspensionTable (.agenda address)) none resume)])) =
          .fail (.fault .badType) :=
        takeTwo_of_length (by rw [List.length_append, List.length_singleton]; omega)
      rw [hfails] at hcall
      obtain ⟨-, rfl, rfl⟩ := takes_fail_iff.1 hcall
      exact hraised _ (hsame nofun).1
  | otherNow tag param params resume =>
    rw [Handler.evaluate_handled rfl rfl] at h
    obtain ⟨m, q, t, -, hcall, hsame⟩ := exists_of_takes_build rfl h
    have hfails : (Value.arrowOf (.nowOf (.agenda address))).apply (.of ((param :: params) ++
        [.arrowOf (.under (suspensionTable (.agenda address)) none resume)])) =
        .fail (.fault .badType) := by
      cases params <;> rfl
    rw [hfails] at hcall
    obtain ⟨-, rfl, rfl⟩ := takes_fail_iff.1 hcall
    exact hraised _ (hsame nofun).1

theorem apply_forkStart (callback host : Value) :
    Function.forkStart.apply (.of [callback, host]) =
      (Host.callSoon host callback [.bool true]).bind fun _ =>
        (Action.ask callback [.bool false]).bind fun _ => .done .nothing := rfl

/-- The evaluation of a program is that of what is met in it. -/
theorem exists_meets (address : Nat) {p : Value} {stop : Stop} (h : p.stop = stop) : ∃ q, Meets q stop ∧
    evaluated address (.ok p) = Handler.evaluate (suspensionTable (.agenda address)) none q :=
  ⟨Program.lift p, h ▸ p.meets, (Handler.evaluate_lift p).symm⟩

/-- A residue is left by an evaluation. -/
theorem TurnEnds.exists_takes {o : Ending} {R : Residue} (h : TurnEnds address o s R u) :
    ∃ n r, Takes n (evaluated address o) s r u ∧ R.Evaluates u r := by
  induction h with
  | raised f s => exact ⟨0, _, takes_fail_iff.2 ⟨rfl, rfl, rfl⟩, .raised f⟩
  | @ended p s hstop =>
    obtain ⟨q, hmeets, hq⟩ := exists_meets address hstop
    rw [hq]
    cases hmeets with
    | ended tag v =>
      exact ⟨0, _, takes_done_iff.2 ⟨rfl, rfl, rfl⟩, .ended tag v⟩
  | @left p name params s hstop =>
    obtain ⟨q, hmeets, hq⟩ := exists_meets address hstop
    rw [hq]
    cases hmeets with
    | left tag params resume hsuspend hnow =>
      rw [Handler.evaluate_forwarded (by simp [suspensionTable, hsuspend, hnow])]
      exact ⟨0, _, takes_done_iff.2 ⟨rfl, rfl, rfl⟩, .left 0 params _ hsuspend hnow⟩
  | @exit p s hstop =>
    obtain ⟨q, hmeets, hq⟩ := exists_meets address hstop
    rw [hq]
    cases hmeets with
    | exit tag own resume =>
      exact ⟨2, _, takes_started (takes_done_iff.2 ⟨rfl, rfl, rfl⟩), .ended 0 .nothing⟩
  | @wait p delay resume v s t hstop hlater =>
    obtain ⟨q, hmeets, hq⟩ := exists_meets address hstop
    rw [hq]
    cases hmeets with
    | wait tag own delay resume =>
      obtain ⟨n, hlater⟩ := hlater.exists_takes
      exact ⟨n + 2, _, takes_started hlater, .ended 0 .nothing⟩
  | @waitRefused p delay resume f s t hstop hlater =>
    obtain ⟨q, hmeets, hq⟩ := exists_meets address hstop
    rw [hq]
    cases hmeets with
    | wait tag own delay resume =>
      obtain ⟨n, hlater⟩ := hlater.exists_takes
      exact ⟨n + 2, _, takes_started hlater, .refused f⟩
  | @fork p resume v s t u w o R hstop hsoon hask _ ih =>
    obtain ⟨q, hmeets, hq⟩ := exists_meets address hstop
    rw [hq]
    cases hmeets with
    | fork tag own resume =>
      obtain ⟨i, hsoon⟩ := hsoon.exists_takes
      obtain ⟨j, hask⟩ := hask.exists_takes
      obtain ⟨k, r, hevaluated, hR⟩ := ih
      obtain ⟨n, q, hresumed, hchecked⟩ := exists_takes_resumption (.inl rfl) hask hevaluated hR
      refine ⟨_, _, takes_started (n := i + n) ?_, hchecked.evaluates fun _ => .nothing⟩
      rw [apply_forkStart]
      exact takes_bind_iff.2 (.inl ⟨i, n, v, t, rfl, hsoon, takes_bind_done_iff.2 ⟨q, hresumed, rfl⟩⟩)
  | @forkRefused p resume f s t hstop hsoon =>
    obtain ⟨q, hmeets, hq⟩ := exists_meets address hstop
    rw [hq]
    cases hmeets with
    | fork tag own resume =>
      obtain ⟨i, hsoon⟩ := hsoon.exists_takes
      refine ⟨_, _, takes_started (n := i) (o := .error f) ?_, .refused f⟩
      rw [apply_forkStart]
      exact takes_bind_iff.2 (.inr ⟨f, rfl, hsoon⟩)
  | @cells p resume s t u o R hstop hask _ ih =>
    obtain ⟨q, hmeets, hq⟩ := exists_meets address hstop
    rw [hq]
    cases hmeets with
    | cells tag own resume =>
      obtain ⟨j, hask⟩ := hask.exists_takes
      obtain ⟨k, r, hevaluated, hR⟩ := ih
      obtain ⟨n, q, hresumed, hchecked⟩ := exists_takes_resumption (.inl rfl) hask hevaluated hR
      exact ⟨_, _, takes_started (takes_bind_done_iff.2 ⟨q, hresumed, rfl⟩),
        hchecked.evaluates fun _ => .nothing⟩
  | @now p resume a s t u o R hstop ha hask _ ih =>
    obtain ⟨q, hmeets, hq⟩ := exists_meets address hstop
    rw [hq]
    cases hmeets with
    | now tag resume =>
      obtain ⟨j, hask⟩ := hask.exists_takes
      obtain ⟨k, r, hevaluated, hR⟩ := ih
      rw [Handler.evaluate_handled rfl rfl]
      refine ⟨_, r, takes_build (n := j + k + 1) rfl (takes_read_iff.2 ?_) hR.givesProgram, hR⟩
      simp only [ha]
      exact takes_under_iff.2 ⟨j, k, o, t, rfl, hask, hevaluated⟩
  | @nowRefused p resume s hstop ha =>
    obtain ⟨q, hmeets, hq⟩ := exists_meets address hstop
    rw [hq]
    cases hmeets with
    | now tag resume =>
      rw [Handler.evaluate_handled rfl rfl]
      refine ⟨_, .error (.fault .badType), takes_build (n := 0) rfl (takes_read_iff.2 ?_) nofun,
        .refused _⟩
      simp only [ha]
      exact takes_fail_iff.2 ⟨rfl, rfl, rfl⟩
  | other hstop h =>
    obtain ⟨n, h⟩ := h.exists_takes
    exact ⟨n, _, h, evaluates_of_other hstop h⟩

end Evaluations

end AlgebraicEffects
