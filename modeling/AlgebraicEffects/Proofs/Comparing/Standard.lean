import AlgebraicEffects.Effects.Choice
import AlgebraicEffects.Effects.Log
import AlgebraicEffects.Proofs.Comparing.Acting

/-!
The standard handlers, compared.

Each implementation of the handlers for output, logging, environments, chance and choice gives twins when
it is called with parameters that go together and continuations that go on with twins, whether it resumes
once, twice or not at all, before it acts or after. So under each of these handlers twins become twins
again, and what they perform are operations that they performed before and that the handler has no
implementation for (`Comparison.Respects`).
-/

set_option autoImplicit false

namespace AlgebraicEffects

open Action (Traced)
open Choice (decideName failName)
open Comparison (Continuations Implements Likeness)
open Log (logName)
open Output (printName)
open Suspension (suspendName)

variable {V : Type} {S : Scene V} {E : Comparison S} {Λ : Traits S} {n : Nat} {w u : S.World}

/-- Sends a message to the log. -/
def Log.note (level : String) (message : Value) : Action Unit := do
  Action.log level "program" (← Action.shown message).plain

/-- What an implementation that logs does before it resumes. -/
def Log.noted (level : String) (params : List Value) : Action Value :=
  onOne params fun message => (Log.note level message).bind fun _ => .done message

/-- Logging makes no calls and does not fail, unless there are too few messages or too many. -/
theorem Log.of_noted {level : String} {params : List Value} {s t : Store} {cs : List Call} {r : Ending}
    (h : Traced (Log.noted level params) s cs r t) : cs = [] ∧
      ((∃ m, params = [m] ∧ r = .ok m) ∨ params.length ≠ 1 ∧ ∃ f, r = .error f) := by
  match params, h with
  | [], h =>
    cases h
    exact ⟨rfl, .inr ⟨by simp, _, rfl⟩⟩
  | [m], h =>
    have hread : Traced (.read fun s => .write _ (.done m) : Action Value) s cs r t := h
    cases hread with
    | read hwrite =>
      cases hwrite with
      | write hdone =>
        cases hdone
        exact ⟨rfl, .inl ⟨m, rfl, rfl⟩⟩
  | _ :: _ :: _, h =>
    cases h
    exact ⟨rfl, .inr ⟨by simp, _, rfl⟩⟩

/-- A message is sent to the log first. -/
theorem Log.actsAndResumes {L : Listener} {see : Value → V} (level : String) :
    ActsAndResumes L see (.logAt level) (Log.noted level) (fun _ => [])
      fun message => [.logged level (see message)] where
  library := rfl
  plain := rfl
  apply params c := takeTwo_concat "message" "resume" params c
    (fun message => (Log.note level message).bind fun _ => .done message) fun _ => []
  answers _ := .inl rfl
  resumed h c rest := by
    obtain ⟨rfl, ⟨m, rfl, hm⟩ | ⟨-, f, hf⟩⟩ := Log.of_noted h
    · cases hm
      exact L.events_mk _ _ _
    · cases hf
  failed {params _ _ _ _} h c := by
    obtain ⟨rfl, ⟨m, -, hm⟩ | ⟨hlength, -⟩⟩ := Log.of_noted h
    · cases hm
    · rw [L.events_mk]
      match params, hlength with
      | [], _ => rfl
      | [_, _], _ => rfl
      | _ :: _ :: _ :: _, _ => rfl

namespace Comparison

/-- The values at leaves go together. -/
def alike (E : Comparison S) (P : String → List Value → Prop) : Traits S where
  carries _ w x u x' := E.Same w u x x'
  fewer _ h := h
  performs := P

/-- What performs such operations performs operations of more kinds. -/
theorem Matched.admitting {a b : Action Value} {P P' : String → List Value → Prop}
    (hP : ∀ name params, P name params → P' name params) (h : E.Matched n a w b u (E.Twins (E.alike P))) :
    E.Matched n a w b u (E.Twins (E.alike P')) :=
  Matched.relax (Λ := E.alike P) (fun _ _ _ _ _ _ _ hx => hx) hP h

/-- Whatever is applied to twins, they become twins. -/
def Respects (E : Comparison S) (P : String → List Value → Prop) (apply : Value → Action Value)
    (P' : String → List Value → Prop) : Prop :=
  ∀ n w u v v', E.Level w u → E.Twins (E.alike P) n w v u v' →
    E.Matched n (apply v) w (apply v') u (E.Twins (E.alike P'))

/-- What library functions do by themselves goes likewise: the constants they answer with go together, and
so do lists and tuples of what goes together; and logging goes likewise. -/
structure Fair (E : Comparison S) : Prop where
  nothing (w u : S.World) : E.Same w u .nothing .nothing
  bool (w u : S.World) (b : Bool) : E.Same w u (.bool b) (.bool b)
  number (w u : S.World) (x : Float) : E.Same w u (.float 0 x) (.float 0 x)
  list {w u : S.World} {xs xs' : List Value} :
    List.Forall₂ (E.Same w u) xs xs' → E.Same w u (.list 0 xs) (.list 0 xs')
  tuple {w u : S.World} {xs xs' : List Value} :
    List.Forall₂ (E.Same w u) xs xs' → E.Same w u (.tuple 0 xs) (.tuple 0 xs')
  log {w u : S.World} {m m' : Value} (level : String) : E.Level w u → E.Same w u m m' →
    E.Likewise (Log.note level m) w (Log.note level m') u fun _ _ _ _ => True

/-- Drawing from the generator at an address goes likewise. -/
def Draws (E : Comparison S) (address : Nat) : Prop :=
  ∀ w u, E.Level w u → E.Likewise (Chance.draw address) w (Chance.draw address) u fun _ _ => Eq

section Arities

variable {z y : S.World} {params params' : List Value} {f f' : Function}

/-- Of parameters that go together there is one on both sides, or else there are too few or too many. -/
theorem one_or_length (h : List.Forall₂ (E.Same z y) params params') (g g' : Value) :
    (∃ m m', params = [m] ∧ params' = [m'] ∧ E.Same z y m m') ∨
      (params ++ [g]).length ≠ 2 ∧ (params' ++ [g']).length ≠ 2 := by
  match params, params', h with
  | [], [], _ => exact .inr ⟨by simp, by simp⟩
  | [m], [m'], .cons hm .nil => exact .inl ⟨m, m', rfl, rfl, hm⟩
  | _ :: _ :: _, _ :: _ :: _, _ => exact .inr ⟨by simp, by simp⟩

theorem none_or_length (h : List.Forall₂ (E.Same z y) params params') (g g' : Value) :
    (params = [] ∧ params' = []) ∨ (params ++ [g]).length ≠ 1 ∧ (params' ++ [g']).length ≠ 1 := by
  match params, params', h with
  | [], [], _ => exact .inl ⟨rfl, rfl⟩
  | _ :: _, _ :: _, _ => exact .inr ⟨by simp, by simp⟩

/-- Both fail in the same way. -/
theorem Matched.refused {Φ : Nat → Likeness S} (f : Failure) (hlevel : E.Level w u) :
    E.Matched n (.fail f) w (.fail f) u Φ :=
  .of_traced (.fail f _) (.fail f _) (E.keeps_refl _) (E.keeps_refl _) (E.rests_error f) (E.rests_error f) (E.course.refl w)
    (E.course.refl u) hlevel rfl fun _ _ => .error (E.fails f)

/-- A function of the library that is no generator, and of which nothing is observed. -/
structure IsPlain (f : Function) : Prop where
  library : (Value.arrowOf f).isScripted = false
  plain : (Value.arrowOf f).isGeneratorFunction = false
  silent : f.isSilent = true

/-- Functions that refuse their arguments. -/
theorem Matched.refusing {Φ : Nat → Likeness S} {vs vs' : List Value} {e : Failure} (hf : IsPlain f)
    (hf' : IsPlain f') (hlevel : E.Level w u) (h : f.apply (.of vs) = .fail e)
    (h' : f'.apply (.of vs') = .fail e) :
    E.Matched n (Action.invoke (.arrowOf f) (.of vs)) w (Action.invoke (.arrowOf f') (.of vs')) u Φ := by
  refine .ask hf.silent hf'.silent fun m _ => ?_
  rw [h, h']
  exact .refused e hlevel

/-- Implementations of operations with one parameter. -/
theorem implements_two (hf : IsPlain f) (hf' : IsPlain f')
    (hrefuses : ∀ vs : List Value, vs.length ≠ 2 → f.apply (.of vs) = .fail (.fault .badType))
    (hrefuses' : ∀ vs : List Value, vs.length ≠ 2 → f'.apply (.of vs) = .fail (.fault .badType))
    (hgives : ∀ j z y m m' g g', j ≤ n → E.course.Later w z → E.course.Later u y → E.Level z y →
      E.Same z y m m' → E.Continuations Λ j z g y g' → E.Matched j (f.apply (.of [m, .arrowOf g])) z
        (f'.apply (.of [m', .arrowOf g'])) y (E.Twins Λ)) :
    E.Implements Λ n w (.arrowOf f) u (.arrowOf f') := by
  intro j z y params params' g g' hj hz hy hlevel hparams hg
  refine .performed hf.library hf.plain hf'.library hf'.plain ?_
  rcases one_or_length hparams (.arrowOf g) (.arrowOf g') with ⟨m, m', rfl, rfl, hm⟩ | ⟨hlength, hlength'⟩
  · exact .ask hf.silent hf'.silent fun i hi =>
      hgives i z y m m' g g' (by omega) hz hy hlevel hm (hg.fewer (by omega))
  · exact .refusing hf hf' hlevel (hrefuses _ hlength) (hrefuses' _ hlength')

/-- Implementations of operations without parameters. -/
theorem implements_one (hf : IsPlain f) (hf' : IsPlain f')
    (hrefuses : ∀ vs : List Value, vs.length ≠ 1 → f.apply (.of vs) = .fail (.fault .badType))
    (hrefuses' : ∀ vs : List Value, vs.length ≠ 1 → f'.apply (.of vs) = .fail (.fault .badType))
    (hgives : ∀ j z y g g', j ≤ n → E.course.Later w z → E.course.Later u y → E.Level z y →
      E.Continuations Λ j z g y g' → E.Matched j (f.apply (.of [.arrowOf g])) z
        (f'.apply (.of [.arrowOf g'])) y (E.Twins Λ)) :
    E.Implements Λ n w (.arrowOf f) u (.arrowOf f') := by
  intro j z y params params' g g' hj hz hy hlevel hparams hg
  refine .performed hf.library hf.plain hf'.library hf'.plain ?_
  rcases none_or_length hparams (.arrowOf g) (.arrowOf g') with ⟨rfl, rfl⟩ | ⟨hlength, hlength'⟩
  · exact .ask hf.silent hf'.silent fun i hi =>
      hgives i z y g g' (by omega) hz hy hlevel (hg.fewer (by omega))
  · exact .refusing hf hf' hlevel (hrefuses _ hlength) (hrefuses' _ hlength')

end Arities

section Handlers

variable {P : String → List Value → Prop} {table : Handler.Table}

/-- The operations among these that a table has no implementation for. -/
def left (P : String → List Value → Prop) (table : Handler.Table) (name : String) (params : List Value) :
    Prop :=
  P name params ∧ table.lookup name = none

/-- What a table has no implementation for is none of its entries. -/
theorem ne_of_lookup_eq_none {table : Handler.Table} {name : String} {entry : String × Value}
    (h : table.lookup name = none) (hentry : entry ∈ table) : name ≠ entry.1 := by
  rw [List.lookup_eq_none_iff] at h
  have hne := h entry hentry
  simpa using hne

/-- A handler is called to evaluate what it is given. -/
theorem Matched.handled {tag tag' : Nat} {table table' : Handler.Table} {atLeaf atLeaf' : Option Value}
    {v v' : Value} {Φ : Nat → Likeness S} (h : E.Matched n (Handler.evaluate table atLeaf v) w
      (Handler.evaluate table' atLeaf' v') u Φ) :
    E.Matched n (Action.ask (.handler tag table atLeaf) [v]) w
      (Action.ask (.handler tag' table' atLeaf') [v']) u Φ :=
  .leading (.handler tag table atLeaf v) (.handler tag' table' atLeaf' v') fun m hm => h.fewer (by omega)

variable {P' : String → List Value → Prop}

/-- Handlers without a leaf transform leave leaves as they are. -/
theorem Twins.untransformed {v v' : Value}
    (hsuspend : E.passes = true → table.lookup suspendName = none)
    (hleft : ∀ name params, left P table name params → P' name params)
    (htable : ∀ entry ∈ table, ∀ n w u, E.Implements (E.alike P') n w entry.2 u entry.2)
    (h : E.Twins (E.alike P) n w v u v') (hlevel : E.Level w u) :
    E.Matched n (Handler.evaluate table none v) w (Handler.evaluate table none v') u
      (E.Twins (E.alike P')) := by
  refine h.evaluate hsuspend (fun _ _ hp hnone => hleft _ _ ⟨hp, hnone⟩) ?_ ?_ hlevel
  · exact List.forall₂_same.2 fun entry hentry => .intro entry.1 (htable entry hentry n w u)
  · intro j z y tag tag' x x' _ _ _ hlevel hx
    rw [Handler.evaluate_leaf (p := .leaf tag x) rfl, Handler.evaluate_leaf (p := .leaf tag' x') rfl]
    exact (Twins.leaf (Λ := E.alike P') hx).done hlevel

/-- So they respect twins. -/
theorem respects_untransformed (hsuspend : E.passes = true → table.lookup suspendName = none)
    (hleft : ∀ name params, left P table name params → P' name params)
    (htable : ∀ entry ∈ table, ∀ n w u, E.Implements (E.alike P') n w entry.2 u entry.2) :
    E.Respects P (Handler.evaluate table none) P' :=
  fun _ _ _ _ _ hlevel h => h.untransformed hsuspend hleft htable hlevel

/-- What respects twins when it evaluates them does so when it is called. -/
theorem Respects.handled {atLeaf : Option Value} (h : E.Respects P (Handler.evaluate table atLeaf) P')
    (tag : Nat) : E.Respects P (fun v => Action.ask (.handler tag table atLeaf) [v]) P' :=
  fun n w u v v' hlevel htwins => .handled (h n w u v v' hlevel htwins)

end Handlers

section Acting

variable {α : Type} {P : String → List Value → Prop} {f : Function} {act : List Value → Action α}
  {answer : α → List Value} {said : α → List (Event V)}

/-- An implementation of an operation with one parameter acts likewise if it does so for parameters that
go together. -/
theorem Likewise.onOne {Q : S.World → S.World → α → α → Prop} {act act' : Value → Action α}
    {params params' : List Value} (hlevel : E.Level w u)
    (hparams : List.Forall₂ (E.Same w u) params params')
    (h : ∀ m m', E.Same w u m m' → E.Likewise (act m) w (act' m') u Q) :
    E.Likewise (onOne params act) w (onOne params' act') u Q := by
  match params, params', hparams with
  | [], [], _ => exact .fail _ hlevel
  | [m], [m'], .cons hm .nil => exact h m m' hm
  | _ :: _ :: _, _ :: _ :: _, _ => exact .fail _ hlevel

theorem Likewise.onNone {Q : S.World → S.World → α → α → Prop} {act act' : Action α}
    {params params' : List Value} (hlevel : E.Level w u)
    (hparams : List.Forall₂ (E.Same w u) params params') (h : E.Likewise act w act' u Q) :
    E.Likewise (onNone params act) w (onNone params' act') u Q := by
  match params, params', hparams with
  | [], [], _ => exact h
  | _ :: _, _ :: _, _ => exact .fail _ hlevel

/-- Giving messages to the sink goes likewise. -/
def Receives (E : Comparison S) (sink : Value) : Prop :=
  ∀ w u m m', E.Level w u → E.Same w u m m' →
    E.Likewise (Action.ask sink [m]) w (Action.ask sink [m']) u fun _ _ _ _ => True

/-- Looking values up goes likewise, and the environment as a whole goes together with itself. -/
structure Provides (E : Comparison S) (tag : Nat) (entries : List (Value × Value)) : Prop where
  whole (w u : S.World) : E.Same w u (.frozen tag entries) (.frozen tag entries)
  finds (w u : S.World) (key key' : Value) : E.Level w u → E.Same w u key key' →
    E.Likewise (Environment.lookUp entries key) w (Environment.lookUp entries key') u E.Same

theorem implements_emitTo {sink : Value} (hE : E.Fair) (hsink : E.Receives sink) :
    E.Implements Λ n w (.arrowOf (.emitTo sink)) u (.arrowOf (.emitTo sink)) :=
  implements_resuming (Output.actsAndResumes sink) (Output.actsAndResumes sink) (fun _ => nofun)
    fun z y _ _ _ _ hlevel hparams => .onOne hlevel hparams fun m m' hm =>
      (hsink z y m m' hlevel hm).mono fun z y _ _ _ _ _ _ => ⟨rfl, hE.nothing z y⟩

theorem implements_readAll {tag : Nat} {entries : List (Value × Value)} (h : E.Provides tag entries) :
    E.Implements Λ n w (.arrowOf (.readAll tag entries)) u (.arrowOf (.readAll tag entries)) :=
  implements_resuming (Environment.readAll_actsAndResumes tag entries)
    (Environment.readAll_actsAndResumes tag entries) (fun _ => nofun) fun z y _ _ _ _ hlevel hparams =>
      .onNone hlevel hparams (.done hlevel ⟨rfl, h.whole z y⟩)

theorem implements_askFor {tag : Nat} {entries : List (Value × Value)} (h : E.Provides tag entries) :
    E.Implements Λ n w (.arrowOf (.askFor entries)) u (.arrowOf (.askFor entries)) :=
  implements_resuming (Environment.askFor_actsAndResumes entries)
    (Environment.askFor_actsAndResumes entries) (fun _ => nofun) fun z y _ _ _ _ hlevel hparams =>
      .onOne hlevel hparams fun key key' hkey =>
        (h.finds z y key key' hlevel hkey).mono fun _ _ _ _ _ _ _ hv => ⟨rfl, hv⟩

theorem implements_draw {address : Nat} (hE : E.Fair) (hdraws : E.Draws address) :
    E.Implements Λ n w (.arrowOf (.draw address)) u (.arrowOf (.draw address)) := by
  refine implements_resuming (Chance.actsAndResumes address) (Chance.actsAndResumes address)
    (fun x => List.forall_mem_singleton.2 rfl)
    fun z y _ _ _ _ hlevel hparams => .onNone hlevel hparams ?_
  refine (hdraws z y hlevel).mono fun z y x x' _ _ _ hx => ?_
  cases hx
  exact ⟨rfl, hE.number z y x⟩

theorem implements_logAt {level : String} (hE : E.Fair) :
    E.Implements Λ n w (.arrowOf (.logAt level)) u (.arrowOf (.logAt level)) := by
  refine implements_resuming (Log.actsAndResumes level) (Log.actsAndResumes level)
    (fun message => List.forall_mem_singleton.2 rfl)
    fun z y _ _ hz hy hlevel hparams => .onOne hlevel hparams fun m m' hm => ?_
  refine (hE.log level hlevel hm).bind fun z' y' _ _ hz' hy' hlevel' _ => .done hlevel' ?_
  refine ⟨?_, hE.nothing z' y'⟩
  rw [E.see hm]

variable {P' : String → List Value → Prop}

theorem respects_print {sink : Value} (hE : E.Fair) (hsink : E.Receives sink)
    (hleft : ∀ name params, P name params → name ≠ printName → P' name params) :
    E.Respects P (Handler.evaluate [(printName, .arrowOf (.emitTo sink))] none) P' :=
  respects_untransformed (fun _ => rfl)
    (fun _ _ h => hleft _ _ h.1 (ne_of_lookup_eq_none h.2 (List.mem_singleton_self _)))
    fun _ hentry _ _ _ => by
      rw [List.mem_singleton.1 hentry]
      exact implements_emitTo hE hsink

theorem respects_logger {level : String} (hE : E.Fair)
    (hleft : ∀ name params, P name params → name ≠ logName → P' name params) :
    E.Respects P (Handler.evaluate [(logName, .arrowOf (.logAt level))] none) P' :=
  respects_untransformed (fun _ => rfl)
    (fun _ _ h => hleft _ _ h.1 (ne_of_lookup_eq_none h.2 (List.mem_singleton_self _)))
    fun _ hentry _ _ _ => by
      rw [List.mem_singleton.1 hentry]
      exact implements_logAt hE

theorem respects_random {address : Nat} (hE : E.Fair) (hdraws : E.Draws address)
    (hleft : ∀ name params, P name params → name ≠ Chance.randomName → P' name params) :
    E.Respects P (Handler.evaluate [(Chance.randomName, .arrowOf (.draw address))] none) P' :=
  respects_untransformed (fun _ => rfl)
    (fun _ _ h => hleft _ _ h.1 (ne_of_lookup_eq_none h.2 (List.mem_singleton_self _)))
    fun _ hentry _ _ _ => by
      rw [List.mem_singleton.1 hentry]
      exact implements_draw hE hdraws

theorem respects_reader {tag : Nat} {entries : List (Value × Value)} (h : E.Provides tag entries)
    (hleft : ∀ name params, P name params → name ≠ Environment.readName → name ≠ Environment.askName →
      P' name params) :
    E.Respects P (Handler.evaluate [(Environment.readName, .arrowOf (.readAll tag entries)),
      (Environment.askName, .arrowOf (.askFor entries))] none) P' := by
  refine respects_untransformed (fun _ => rfl) (fun _ _ h => ?_) fun entry hentry _ _ _ => ?_
  · exact hleft _ _ h.1 (ne_of_lookup_eq_none h.2 (List.mem_cons_self ..))
      (ne_of_lookup_eq_none h.2 (List.mem_cons_of_mem _ (List.mem_singleton_self _)))
  · rcases List.mem_cons.1 hentry with rfl | hentry
    · exact implements_readAll h
    · rw [List.mem_singleton.1 hentry]
      exact implements_askFor h

end Acting

section Output

variable {P P' : String → List Value → Prop} {m m' : Value}

/-- An operation whose answer is its value. -/
theorem Twins.bare {name : String} {params params' : List Value} (hadmits : E.Admits name)
    (hperforms : P name params) (hparams : List.Forall₂ (E.Same w u) params params') :
    E.Twins (E.alike P) n w (.bare name params) u (.bare name params') := by
  refine .operation hadmits hperforms hparams fun z y x x' _ _ hlevel hx =>
    .lifted (.ask rfl rfl fun j _ => ?_)
  exact (Twins.leaf (Λ := E.alike P) hx).done hlevel

/-- Emitting a message again keeps the values at leaves. -/
theorem Twins.reemitted {v v' : Value} (hm : E.Same w u m m') (hprint : ∀ params, P printName params)
    (h : E.Twins (E.alike P) n w v u v') (hlevel : E.Level w u) :
    E.Matched n (Program.graft v (.arrowOf (.reemitted m))) w
      (Program.graft v' (.arrowOf (.reemitted m'))) u (E.Twins (E.alike P)) := by
  refine h.graft rfl rfl (fun _ _ hp => hp) (fun j z y x x' _ hz hy hlevel hx => ?_) hlevel
  refine .lifted (.ask rfl rfl fun i _ => ?_)
  have hadmits : E.Admits printName := fun _ => by decide
  have hbare : E.Twins (E.alike P) i z (Output.print m) y (Output.print m') :=
    .bare hadmits (hprint _) (.cons (E.same_later hz hy hm) .nil)
  refine hbare.map rfl rfl (fun _ _ hp => hp) (fun _ z' y' _ _ hz' hy' _ => ?_) hlevel
  exact ⟨x, x', rfl, rfl, E.same_later hz' hy' hx⟩

theorem implements_reemit (hE : E.Fair) (hprint : ∀ params, P printName params) :
    E.Implements (E.alike P) n w (.arrowOf .reemit) u (.arrowOf .reemit) := by
  refine implements_two ⟨rfl, rfl, rfl⟩ ⟨rfl, rfl, rfl⟩ (fun _ => takeTwo_of_length)
    (fun _ => takeTwo_of_length) fun j z y m m' g g' _ _ _ hlevel hm hg => ?_
  have hresumed := hg.resumed hlevel (hE.nothing z y) g.standingTag g'.standingTag
  have hthrough (m : Value) : E.Through fun q => Program.graft q (.arrowOf (.reemitted m)) :=
    (continued_graft rfl).through
  refine .bind (hthrough m) (hthrough m') (hresumed.mono fun i z' v y' v' _ hz' hy' hlevel' htwins => ?_)
  exact htwins.reemitted (E.same_later hz' hy' hm) hprint hlevel'

theorem respects_reversePrint (hE : E.Fair) (hprint : ∀ params, P' printName params)
    (hleft : ∀ name params, P name params → P' name params) :
    E.Respects P (Handler.evaluate [(printName, .arrowOf .reemit)] none) P' :=
  respects_untransformed (fun _ => rfl) (fun _ _ h => hleft _ _ h.1) fun _ hentry _ _ _ => by
    rw [List.mem_singleton.1 hentry]
    exact implements_reemit hE hprint

/-- Leaves that carry a pair of a value and a tuple of messages. -/
def gathering (E : Comparison S) (P : String → List Value → Prop) : Traits S where
  carries _ w x u x' := ∃ v v' ms ms', x = .tuple 0 [v, .tuple 0 ms] ∧ x' = .tuple 0 [v', .tuple 0 ms'] ∧
    E.Same w u v v' ∧ List.Forall₂ (E.Same w u) ms ms'
  fewer _ h := h
  performs := P

/-- Such pairs go together. -/
theorem Matched.gathered {a b : Action Value} (hE : E.Fair)
    (h : E.Matched n a w b u (E.Twins (E.gathering P))) : E.Matched n a w b u (E.Twins (E.alike P)) := by
  refine Matched.relax (Λ := E.gathering P) (fun _ z x y x' _ _ hx => ?_) (fun _ _ hp => hp) h
  obtain ⟨v, v', ms, ms', rfl, rfl, hv, hms⟩ := hx
  exact hE.tuple (.cons hv (.cons (hE.tuple hms) .nil))

theorem implements_gather (hE : E.Fair) (logs : Bool) :
    E.Implements (E.gathering P) n w (.arrowOf (.gather logs)) u (.arrowOf (.gather logs)) := by
  refine implements_two ⟨rfl, rfl, rfl⟩ ⟨rfl, rfl, rfl⟩ (fun _ => takeTwo_of_length)
    (fun _ => takeTwo_of_length) fun j z y m m' g g' _ _ _ hlevel hm hg => ?_
  have hresumed := hg.resumed hlevel (hE.nothing z y) g.standingTag g'.standingTag
  have hthrough (m : Value) :
      E.Through fun q => Program.graft q (.arrowOf (.mapped (.arrowOf (.gathered m)))) :=
    (continued_graft rfl).through
  refine .bind (hthrough m) (hthrough m') (hresumed.mono fun i z' v y' v' _ hz' hy' hlevel' htwins => ?_)
  refine htwins.map rfl rfl (fun _ _ hp => hp) (fun _ z'' y'' x x' hz'' hy'' hx => ?_) hlevel'
  obtain ⟨v, v', ms, ms', rfl, rfl, hv, hms⟩ := hx
  have hm' := E.same_later (E.course.trans hz' hz'') (E.course.trans hy' hy'') hm
  exact ⟨_, _, rfl, rfl, v, v', m :: ms, m' :: ms', rfl, rfl, hv, .cons hm' hms⟩

/-- Handlers that gather the messages of an effect. -/
theorem respects_gather (hE : E.Fair) {name : String} (hname : name ≠ suspendName) (logs : Bool)
    (hleft : ∀ other params, P other params → other ≠ name → P' other params) :
    E.Respects P (Handler.evaluate [(name, .arrowOf (.gather logs))] (some (.arrowOf (.paired logs))))
      P' := by
  intro n w u v v' hlevel h
  have hevaluated : E.Matched n
      (Handler.evaluate [(name, .arrowOf (.gather logs))] (some (.arrowOf (.paired logs))) v) w
      (Handler.evaluate [(name, .arrowOf (.gather logs))] (some (.arrowOf (.paired logs))) v') u
      (E.Twins (E.gathering P')) := by
    refine h.evaluate ?_ ?_ ?_ ?_ hlevel
    · intro _
      rw [List.lookup_cons, beq_false_of_ne hname.symm]
      rfl
    · exact fun other _ hp hnone =>
        hleft other _ hp (ne_of_lookup_eq_none hnone (List.mem_singleton_self _))
    · exact .cons (.intro name (implements_gather hE logs)) .nil
    · intro j z y tag tag' x x' _ _ _ hlevel hx
      rw [Handler.evaluate_transformed (p := .leaf tag x) rfl,
        Handler.evaluate_transformed (p := .leaf tag' x') rfl]
      refine .pure rfl rfl rfl rfl ((Twins.leaf (Λ := E.gathering P') ?_).done hlevel)
      exact ⟨x, x', [], [], rfl, rfl, hx, .nil⟩
  exact .gathered hE hevaluated

end Output

end Comparison

end AlgebraicEffects
