import AlgebraicEffects.Proofs.Memory.Branches

/-!
An implementation that delegates.

What the parts of an action do is put together to what the whole does, so that the turns of a body can
be read off its statements. The body here yields an operation of an outer handler, resumes with the
answer, yields the sub-program that this gives and returns its answer.
-/

set_option autoImplicit false

namespace AlgebraicEffects

open Action (Traced)

variable {V τ : Type} {S : Scene V}

section Rules

variable {C : Course S} {A : Look C τ} {K : Resumption S τ} {strict : Prop} {resume : Function}
  {own : Option Nat} {α β : Type}

theorem Does.mono {as : List V} {u : S.World} {a : Action α} {s : Store}
    {mid post : Except Failure α → Store → S.World → Prop}
    (h : Does A K strict resume own as u a s mid) (himp : ∀ r t z, mid r t z → post r t z) :
    Does A K strict resume own as u a s post := by
  induction h with
  | done h => exact .done (himp _ _ _ h)
  | fail h => exact .fail (himp _ _ _ h)
  | read _ ih => exact .read (ih himp)
  | write _ ih => exact .write (ih himp)
  | call hf h _ _ ihk => exact .call hf h fun o t z hz => ihk o t z hz himp
  | resume harg haside hasked _ ih => exact .resume harg haside hasked fun o y hy => ih o y hy himp

/-- One part after the other. A part that fails ends the whole. -/
theorem Does.bind {as bs : List V} {u : S.World} {a : Action α} {k : α → Action β} {s : Store}
    {mid : Except Failure α → Store → S.World → Prop}
    {post : Except Failure β → Store → S.World → Prop}
    (h : Does A K strict resume own as u a s mid)
    (hok : ∀ x t z, mid (.ok x) t z → Does A K strict resume own bs z (k x) t post)
    (herror : ∀ f t z, mid (.error f) t z → Does A K strict resume own bs z (.fail f) t post) :
    Does A K strict resume own (as ++ bs) u (a.bind k) s post := by
  induction h with
  | done h => exact hok _ _ _ h
  | fail h => exact herror _ _ _ h
  | read _ ih => exact .read (ih hok herror)
  | write _ ih => exact .write (ih hok herror)
  | call hf h _ _ ihk =>
    rw [List.append_assoc]
    exact .call hf h fun o t z hz => ihk o t z hz hok herror
  | resume harg haside hasked _ ih =>
    exact .resume harg haside hasked fun o y hy => ih o y hy hok herror

theorem Does.attempt {as : List V} {u : S.World} {a : Action α} {s : Store}
    {mid : Except Failure α → Store → S.World → Prop} (h : Does A K strict resume own as u a s mid) :
    Does A K strict resume own as u a.attempt s fun r t z => ∃ q, r = .ok q ∧ mid q t z := by
  induction h with
  | done h => exact .done ⟨_, rfl, h⟩
  | fail h => exact .done ⟨_, rfl, h⟩
  | read _ ih => exact .read ih
  | write _ ih => exact .write ih
  | call hf h _ _ ihk => exact .call hf h fun o t z hz => ihk o t z hz
  | resume harg haside hasked _ ih => exact .resume harg haside hasked fun o y hy => ih o y hy

/-- A call of anything else than the resume function does what its body does. -/
theorem Does.invoke {as : List V} {u : S.World} {f : Value} {arguments : Arguments Value} {s : Store}
    {post : Ending → Store → S.World → Prop} (hf : f.isForeign K.memo = true)
    (h : Does A K strict resume own as u (f.apply arguments) s post) :
    Does A K strict resume own as u (Action.invoke f arguments) s post := by
  rw [← List.append_nil as]
  refine .call hf h fun o t z hz => ?_
  cases o with
  | ok v => exact .done hz
  | error f => exact .fail hz

/-- A generator that takes a step. -/
theorem Does.guarded {as : List V} {u : S.World} {g : Nat} {step : Action Value} {s : Store}
    {post : Ending → Store → S.World → Prop}
    (h : Does A K strict resume own as u step (s.setGenerator g .running) fun r t z =>
      match r with
      | .ok v => post (.ok v) t z
      | .error f => post (.error f) (t.setGenerator g .finished) z) :
    Does A K strict resume own as u (Generator.guarded g step) s post := by
  refine .write ?_
  rw [← List.append_nil as]
  refine h.attempt.bind ?_ ?_
  · rintro q t z ⟨_, ⟨rfl⟩, hq⟩
    cases q with
    | ok v => exact .done hq
    | error f => exact .write (.fail hq)
  · rintro f t z ⟨_, hf, -⟩
    cases hf

/-- A run without any calls. -/
theorem Does.of_silent {a : Action α} {s t : Store} {r : Except Failure α} {u : S.World}
    {post : Except Failure α → Store → S.World → Prop} (h : Traced a s [] r t) (hpost : post r t u) :
    Does A K strict resume own [] u a s post := by
  generalize hcs : ([] : List Call) = cs at h
  induction h with
  | done => exact .done hpost
  | fail => exact .fail hpost
  | read _ ih => exact .read (ih hpost hcs)
  | write _ ih => exact .write (ih hpost hcs)
  | call => cases hcs

/-- What comes after a run without any calls. -/
theorem Does.after {as : List V} {a : Action α} {k : α → Action β} {x : α} {s t : Store}
    {u : S.World} {post : Except Failure β → Store → S.World → Prop} (h : Traced a s [] (.ok x) t)
    (hk : Does A K strict resume own as u (k x) t post) :
    Does A K strict resume own as u (a.bind k) s post := by
  have hfirst : Does A K strict resume own [] u a s fun r t' z => r = .ok x ∧ t' = t ∧ z = u :=
    .of_silent h ⟨rfl, rfl, rfl⟩
  refine hfirst.bind ?_ ?_
  · rintro _ _ _ ⟨⟨rfl⟩, rfl, rfl⟩
    exact hk
  · rintro f t z ⟨hf, -⟩
    cases hf

theorem Does.advanceBody_of_fresh {as : List V} {u : S.World} {g : Nat} {scope : Scope}
    {body : List Stmt} {answer : Value} {s : Store} {post : Ending → Store → S.World → Prop}
    (hstate : s.generatorAt g = .fresh scope body)
    (h : Does A K strict resume own as u (Generator.guarded g
      (Action.ask (.arrowOf (.proceeding g scope [.block body])) [])) s post) :
    Does A K strict resume own as u (Generator.advanceBody g answer) s post := by
  refine .after (Generator.traced_state s g) ?_
  rw [hstate]
  exact h

theorem Does.advanceBody_of_suspended {as : List V} {u : S.World} {g : Nat} {x : Option String}
    {scope : Scope} {frames : List Frame} {answer : Value} {s : Store}
    {post : Ending → Store → S.World → Prop} (hstate : s.generatorAt g = .suspended x scope frames)
    (h : Does A K strict resume own as u (Generator.guarded g (Action.ask (.arrowOf
      (.proceeding g (Scope.receive x answer scope) frames)) [])) s post) :
    Does A K strict resume own as u (Generator.advanceBody g answer) s post := by
  refine .after (Generator.traced_state s g) ?_
  rw [hstate]
  exact h

/-- A call of the resume function. -/
theorem Does.ask {u z : S.World} {tag : Nat} {arguments : Arguments Value} {x : Value}
    (harg : arguments.answer? = some x) (haside : Aside C K own u z) (hasked : K.Asked z x) :
    Does A K strict resume own [S.see x] u (Action.invoke (.function tag resume) arguments)
      (S.store z) fun r t y => Answers A K strict z (S.see x) r y ∧ t = S.store y := by
  refine .resume harg haside hasked fun o y hy => ?_
  cases o with
  | ok v => exact .done ⟨hy, rfl⟩
  | error f => exact .fail ⟨hy, rfl⟩

end Rules

section Delegate

/-- Yields the operation of the outer handler, resumes with the answer and yields what that gives, and
returns the answer of that. -/
def delegateBody : List Stmt :=
  [.yield (some "b") (.variable "flip"),
   .yield (some "y") (.form (.primitive .call) [.variable "resume", .variable "b"] []),
   .finish (.variable "y")]

/-- What the body sees when it has been started with a resume function. -/
def delegateScope (flip : Value) (tag : Nat) (resume : Function) : Scope :=
  [("resume", .function tag resume), ("flip", flip)]

def delegate (flip : Value) : Value :=
  .arrowOf (.generatorBody "delegate" ⟨["resume"], none⟩ delegateBody [("flip", flip)])

/-- The turns of the body, where `flip` is what is seen of the operation and `leaf` what is seen of
an answer that is returned. -/
def delegating (flip : τ) (outcome leaf : V → τ) : List V → Turn V τ
  | [] => ⟨[], .yields flip⟩
  | [b] => ⟨[b], .yields (outcome b)⟩
  | [_, y] => ⟨[], .ends (leaf y)⟩
  | _ => ⟨[], .diverges⟩

variable {C : Course S} {A : Look C τ} {K : Resumption S τ} {strict : Prop} {root : S.World}
  {flip : Value}

/-- The generator of the body stands where it has received these answers. -/
inductive Delegates (K : Resumption S τ) (flip : Value) (resume : Function) (g : Nat) :
    List V → Value → S.World → Prop where
  | started {tag : Nat} {a : Value} {w : S.World} :
      (S.store w).generators[g]? = some (.fresh (delegateScope flip tag resume) delegateBody) →
      K.firstGenerator ≤ g → Delegates K flip resume g [] a w
  | flipped {tag : Nat} {b : Value} {w : S.World} :
      (S.store w).generators[g]? = some (.suspended (some "b") (delegateScope flip tag resume)
        [.block delegateBody.tail]) →
      K.firstGenerator ≤ g → S.Known w b → Delegates K flip resume g [S.see b] b w
  | resumed {tag : Nat} {b : V} {y x : Value} {w : S.World} :
      (S.store w).generators[g]? = some (.suspended (some "y")
        (Scope.set "b" x (delegateScope flip tag resume)) [.block delegateBody.tail.tail]) →
      K.firstGenerator ≤ g → S.Known w y → Delegates K flip resume g [b, S.see y] y w

theorem Delegates.keeps {resume : Function} {g : Nat} {h : List V} {a : Value} {w u : S.World}
    (hd : Delegates K flip resume g h a w) (hu : C.Later w u)
    (hg : (S.store u).generators[g]? = (S.store w).generators[g]?) :
    Delegates K flip resume g h a u := by
  cases hd with
  | started hstate hle => exact .started (hg.trans hstate) hle
  | flipped hstate hle hb => exact .flipped (hg.trans hstate) hle (C.known hu hb)
  | resumed hstate hle hy => exact .resumed (hg.trans hstate) hle (C.known hu hy)

/-- A generator that was made since the evaluation began goes to another state of its own accord. -/
theorem Setting.exists_set (hset : Setting A K root strict) {w : S.World} (hroot : C.Later root w)
    {g : Nat} (hg : K.firstGenerator ≤ g) (hlt : g < (S.store w).generators.size)
    (state : GeneratorState) :
    ∃ u, Aside C K (some g) w u ∧ S.store u = (S.store w).setGenerator g state ∧
      (S.store u).generators[g]? = some state := by
  obtain ⟨u, hu, hstore⟩ := hset.books w _ hroot (bookkeeping_setGenerator (S.store w) state hg)
  refine ⟨u, ⟨hu, ?_⟩, hstore, by rw [hstore]; exact Store.getElem?_setGenerator _ _ hlt⟩
  rw [hstore]
  exact {
    memory := rfl
    recordings := fun _ _ _ => rfl
    generators := fun i _ _ hne => Store.getElem?_setGenerator_of_ne _ _ fun h => hne (h ▸ rfl)
    recordings_le := Nat.le_refl _
    generators_le := by simp }

theorem does_flip {resume : Function} (hset : Setting A K root strict) {ask : τ}
    (hask : ∀ w, C.Later root w → A.Is w (.ok flip) ask) {w : S.World} (hroot : C.Later root w)
    {g : Nat} (a : Value) {tag : Nat} (hg : K.firstGenerator ≤ g)
    (hstate : (S.store w).generators[g]? =
      some (.fresh (delegateScope flip tag resume) delegateBody)) :
    Does A K strict resume (some g) [] w (Generator.advanceBody g a) (S.store w)
      fun r t z => ∃ u, Aside C K (some g) z u ∧ S.store u = t ∧
        Halts A (Delegates (S := S) K flip resume g) g [] u r (.yields ask) := by
  have hlt := (Array.getElem?_eq_some_iff.1 hstate).1
  obtain ⟨u, hu, hstore, hrunning⟩ := hset.exists_set hroot hg hlt .running
  have hlt' := (Array.getElem?_eq_some_iff.1 hrunning).1
  obtain ⟨z, hz, hstore', hnext⟩ := hset.exists_set (C.trans hroot hu.1) hg hlt'
    (.suspended (some "b") (delegateScope flip tag resume) [.block delegateBody.tail])
  have hrootz := C.trans hroot (C.trans hu.1 hz.1)
  refine .advanceBody_of_fresh (Store.generatorAt_eq hstate) (.guarded (.invoke rfl ?_))
  refine .of_silent (.write (.done _ _)) ⟨z, hu.trans hz, ?_, ?_⟩
  · rw [hstore', hstore]
    rfl
  · exact .yields (hask z hrootz) fun y b _ hy hb => .flipped (hy.trans hnext) hg hb

theorem does_resume {resume : Function} (hset : Setting A K root strict)
    (hasked : ∀ w x, C.Later root w → S.Known w x → K.Asked w x)
    (hreturns : ∀ w x o u, C.Later root w → S.Known w x → Answers A K strict w (S.see x) o u →
      ∃ v, o = .ok v)
    {w : S.World} (hroot : C.Later root w) {g : Nat} {b : Value} {tag : Nat}
    (hg : K.firstGenerator ≤ g) (hb : S.Known w b)
    (hstate : (S.store w).generators[g]? = some (.suspended (some "b")
      (delegateScope flip tag resume) [.block delegateBody.tail])) :
    Does A K strict resume (some g) [S.see b] w (Generator.advanceBody g b) (S.store w)
      fun r t z => ∃ u, Aside C K (some g) z u ∧ S.store u = t ∧
        Halts A (Delegates (S := S) K flip resume g) g [S.see b] u r
          (.yields (K.outcome (S.see b))) := by
  obtain ⟨u, hu, hstore, hrunning⟩ :=
    hset.exists_set hroot hg (Array.getElem?_eq_some_iff.1 hstate).1 .running
  have hlt := (Array.getElem?_eq_some_iff.1 hrunning).1
  have hrootu := C.trans hroot hu.1
  have hbu := C.known hu.1 hb
  refine .advanceBody_of_suspended (Store.generatorAt_eq hstate) (.guarded (.invoke rfl ?_))
  rw [← hstore]
  have hresumed : Does A K strict resume (some g) [S.see b] w
      ((Action.invoke (.function tag resume) (.of [b])).bind Action.identify) (S.store u)
      fun r t y => Answers A K strict u (S.see b) r y ∧ t = S.store y := by
    refine (Does.ask rfl hu (hasked u b hrootu hbu)).bind ?_ ?_
    · rintro v t y ⟨hy, rfl⟩
      have hsettled := hy.settled v rfl (S.store y)
      have hidentify := traced_identify (S.store y) v
      rw [hsettled] at hidentify
      exact .of_silent hidentify ⟨hy, rfl⟩
    · rintro f t y ⟨hy, rfl⟩
      exact .fail ⟨hy, rfl⟩
  refine hresumed.attempt.bind ?_ ?_
  · rintro q t y ⟨_, ⟨rfl⟩, hy, rfl⟩
    obtain ⟨v, rfl⟩ := hreturns u b q y hrootu hbu hy
    obtain ⟨z, hz, hstore', hnext⟩ := hset.exists_set (C.trans hrootu hy.later) hg
      (Nat.lt_of_lt_of_le hlt hy.generators_le) (.suspended (some "y")
        (Scope.set "b" b (delegateScope flip tag resume)) [.block delegateBody.tail.tail])
    refine .write (.done ⟨z, hz, hstore', ?_⟩)
    exact .yields (A.later hz.1 hy.is) fun y' c _ hy' hc => .resumed (hy'.trans hnext) hg hc
  · rintro f t y ⟨_, hf, -⟩
    cases hf

theorem does_finish {resume : Function} (hset : Setting A K root strict) {leaf : V → τ}
    (hleaf : ∀ w x, C.Later root w → S.Known w x → A.Is w (.ok x) (leaf (S.see x)))
    {w : S.World} (hroot : C.Later root w) {g : Nat} {b : V} {x y : Value} {tag : Nat}
    (hg : K.firstGenerator ≤ g) (hy : S.Known w y)
    (hstate : (S.store w).generators[g]? = some (.suspended (some "y")
      (Scope.set "b" x (delegateScope flip tag resume)) [.block delegateBody.tail.tail])) :
    Does A K strict resume (some g) [] w (Generator.advanceBody g y) (S.store w)
      fun r t z => ∃ u, Aside C K (some g) z u ∧ S.store u = t ∧
        Halts A (Delegates (S := S) K flip resume g) g [b, S.see y] u r (.ends (leaf (S.see y))) := by
  obtain ⟨u, hu, hstore, hrunning⟩ :=
    hset.exists_set hroot hg (Array.getElem?_eq_some_iff.1 hstate).1 .running
  obtain ⟨z, hz, hstore', -⟩ := hset.exists_set (C.trans hroot hu.1) hg
    (Array.getElem?_eq_some_iff.1 hrunning).1 .finished
  have hlater := C.trans hu.1 hz.1
  refine .advanceBody_of_suspended (Store.generatorAt_eq hstate) (.guarded (.invoke rfl ?_))
  refine .of_silent (.fail _ _) ⟨z, hu.trans hz, ?_, ?_⟩
  · rw [hstore', hstore]
  · exact .returns (hleaf z y (C.trans hroot hlater) (C.known hlater hy))

/-- A function that keeps what it is when it is given its identity. -/
theorem identifyAll_function {resume : Function} (hresume : ∀ n, (resume.tagged n).1 = resume)
    (s : Store) (tag : Nat) :
    ∃ n, (s.identifyAll (.of [.function tag resume])).1 = .of [.function n resume] := by
  cases tag with
  | zero =>
    refine ⟨s.nextTag, ?_⟩
    show Arguments.of [Value.function s.nextTag (resume.tagged (s.nextTag + 1)).1] = _
    rw [hresume]
  | succ tag => exact ⟨tag + 1, rfl⟩

theorem does_start {resume : Function} (hset : Setting A K root strict)
    (hgenerators : ∀ w, C.Later root w → K.firstGenerator ≤ (S.store w).generators.size)
    (hresume : ∀ n, (resume.tagged n).1 = resume) {w : S.World} (hroot : C.Later root w) (tag : Nat) :
    Does A K strict resume none [] w ((delegate flip).apply (.of [.function tag resume])) (S.store w)
      fun r t z => ∃ g name u, r = .ok (.generator g name) ∧
        (S.store w).generators.size ≤ g ∧ Aside C K none z u ∧ S.store u = t ∧
        Delegates (S := S) K flip resume g [] .nothing u := by
  obtain ⟨u, hu, hstore⟩ := C.identifiedAll w (.of [.function tag resume])
  obtain ⟨n, -, hn⟩ := Store.identifyAll_snd (S.store w) (.of [.function tag resume])
  obtain ⟨m, hm⟩ := identifyAll_function hresume (S.store w) tag
  have hsize := hgenerators u (C.trans hroot hu)
  obtain ⟨z, hz, hstore'⟩ := hset.books u _ (C.trans hroot hu)
    (bookkeeping_addGenerator (S.store u) (.fresh (delegateScope flip m resume) delegateBody) hsize)
  have hidentify := traced_identifyAll (S.store w) (.of [.function tag resume])
  rw [hm, ← hstore] at hidentify
  have hscope : Traced (Params.scope ⟨["resume"], none⟩ [("flip", flip)]
      (.of [.function tag resume])) (S.store w) [] (.ok (delegateScope flip m resume)) (S.store u) :=
    hidentify.bind (.done _ _)
  have hrun : Traced ((delegate flip).apply (.of [.function tag resume])) (S.store w) []
      (.ok (.generator (S.store u).generators.size "delegate")) (S.store z) := by
    rw [hstore']
    exact hscope.bind (.read (.write (.done _ _)))
  have hfresh : (S.store z).generators[(S.store u).generators.size]? =
      some (.fresh (delegateScope flip m resume) delegateBody) := by
    rw [hstore']
    simp [Store.addGenerator]
  rw [hn] at hstore
  have hspares : Spares K none (S.store w) (S.store z) := by
    rw [hstore', hstore]
    exact {
      memory := rfl
      recordings := fun _ _ _ => rfl
      generators := fun i _ hlt _ => by
        simp [Store.addGenerator, Store.tagsFrom, Array.getElem?_push, Nat.ne_of_lt hlt]
      recordings_le := Nat.le_refl _
      generators_le := by simp [Store.tagsFrom] }
  refine .of_silent hrun ⟨_, "delegate", z, rfl, ?_, ⟨C.trans hu hz, hspares⟩, rfl, ?_⟩
  · rw [hstore]
    exact Nat.le_refl _
  · exact .started hfresh hsize

/-- The body takes its turns, whatever its continuation gives, if that returns. -/
def performs_delegate {resume : Function} (hset : Setting A K root strict)
    (hgenerators : ∀ w, C.Later root w → K.firstGenerator ≤ (S.store w).generators.size)
    (hresume : ∀ n, (resume.tagged n).1 = resume) {ask : τ} {leaf : V → τ}
    (hask : ∀ w, C.Later root w → A.Is w (.ok flip) ask)
    (hleaf : ∀ w x, C.Later root w → S.Known w x → A.Is w (.ok x) (leaf (S.see x)))
    (hasked : ∀ w x, C.Later root w → S.Known w x → K.Asked w x)
    (hreturns : ∀ w x o u, C.Later root w → S.Known w x → Answers A K strict w (S.see x) o u →
      ∃ v, o = .ok v) :
    Performs A K strict root (delegate flip) [] (delegating ask K.outcome leaf) resume where
  Ready := Delegates K flip resume
  keeps h hu hg := h.keeps hu hg
  begins w positional tag hroot hpositional := by
    obtain rfl := List.map_eq_nil_iff.1 hpositional
    exact does_start hset hgenerators hresume hroot tag
  continues w g h a hroot hready _ := by
    cases hready with
    | started hstate hg => exact does_flip hset hask hroot a hg hstate
    | flipped hstate hg hb => exact does_resume hset hasked hreturns hroot hg hb hstate
    | resumed hstate hg hy => exact does_finish hset hleaf hroot hg hy hstate
  diverges w g h a hroot hready hpause := by
    cases hready <;> cases hpause

end Delegate

section Integers

/-- The course of integers in which no object is lost and identities are given out in order. -/
def Course.growing : Course Scene.integers where
  Later (s t : Store) := s.recordings.size ≤ t.recordings.size ∧
    s.generators.size ≤ t.generators.size ∧ s.nextTag ≤ t.nextTag
  refl _ := ⟨Nat.le_refl _, Nat.le_refl _, Nat.le_refl _⟩
  trans h g := ⟨Nat.le_trans h.1 g.1, Nat.le_trans h.2.1 g.2.1, Nat.le_trans h.2.2 g.2.2⟩
  known _ h := h
  fit _ h := h
  identified w v := by
    obtain ⟨n, hle, hn⟩ := Store.identify_snd (show Store from w) v
    refine ⟨((show Store from w).identify v).2, ?_, rfl, ?_⟩
    · rw [hn]
      exact ⟨Nat.le_refl _, Nat.le_refl _, hle⟩
    · rintro ⟨n, rfl⟩
      exact ⟨n, rfl⟩
  identifiedAll w call := by
    obtain ⟨n, hle, hn⟩ := Store.identifyAll_snd (show Store from w) call
    refine ⟨((show Store from w).identifyAll call).2, ?_, rfl⟩
    rw [hn]
    exact ⟨Nat.le_refl _, Nat.le_refl _, hle⟩

/-- The operation of the outer handler. -/
def flip : Value := .operation 1 "flip" [] (.arrowOf .leaf)

/-- The operation that is given to the delegate. -/
def act : Value := .operation 0 "act" [] (.arrowOf .leaf)

/-- The first evaluation of all: it resumes what only carries its answer. -/
def firstResumption (outcome : Option Int → τ) : Resumption Scene.integers τ where
  memo := 0
  firstRecording := 0
  firstGenerator := 0
  continuation := .arrowOf (.under [("act", delegate flip)] none (.arrowOf .leaf))
  Asked _ v := ∃ n, v = .int n
  outcome := outcome

theorem lift_act : Program.lift act = .operation 0 "act" [] (.arrowOf .leaf) := rfl

theorem lookup_act : ([("act", delegate flip)] : Handler.Table).lookup "act" = some (delegate flip) := rfl

variable {A : Look Course.growing τ} {outcome : Option Int → τ}

theorem firstResumption_begins :
    (firstResumption outcome).Begins Store.empty [("act", delegate flip)] none (.arrowOf .leaf) where
  memo := rfl
  recordings := rfl
  generators := rfl
  continuation := rfl

/-- The continuation carries its answer. -/
theorem traced_carry (w : Store) (x : Value) :
    Traced ((firstResumption outcome).continuation.apply (.of [x])) w
      [.mk (.arrowOf .leaf) (.of [x]) []] (.ok (.leaf 0 x)) w :=
  .call (.done _ _) (.done _ _)

theorem show_int (s : Store) (n : Int) : s.show (.int n) = .int n := rfl

theorem setting_firstResumption (strict : Prop)
    (hcarry : ∀ w tag n, A.Is w (.ok (.leaf tag (.int n))) (outcome (some n))) :
    Setting A (firstResumption outcome) Store.empty strict where
  grows w u h := ⟨h.1, h.2.1⟩
  tags w h := Nat.lt_of_lt_of_le (by decide) h.2.2
  continuation := rfl
  resumes := {
    asked := fun _ h => h
    resumes := by
      rintro w _ hw ⟨n, rfl⟩
      refine ⟨_, _, w, traced_carry w (.int n), Course.growing.refl w, ⟨rfl, rfl⟩,
        Spares.refl none _, hcarry w 0 n, ?_⟩
      rintro _ z ⟨rfl⟩ - -
      exact hcarry z _ n }
  books w t _ h := by
    refine ⟨t, ⟨h.recordings_le, h.generators_le, ?_⟩, rfl⟩
    rw [h.rest]
    exact Nat.le_refl _
  identity := by
    rintro w _ _ - ⟨m, rfl⟩ ⟨n, rfl⟩ h
    rw [show_int, show_int] at h
    exact congrArg some (eq_of_beq h)
  exact _ := {
    returns := by
      rintro w _ - ⟨n, rfl⟩ cs o t h
      obtain ⟨-, rfl, -⟩ := h.unique (traced_carry w (.int n))
      exact ⟨_, rfl⟩
    identity := by
      rintro w _ _ - ⟨m, rfl⟩ ⟨n, rfl⟩
      rw [show_int, show_int, Value.int.injEq]
      exact beq_iff_eq
    agreement := by
      rintro w _ _ - ⟨m, rfl⟩ ⟨n, rfl⟩ h
      rw [show_int, show_int]
      refine Bool.or_eq_true_iff.2 (.inl ?_)
      exact beq_iff_eq.2 (Option.some.inj h) }

theorem unfolds_carry (w : Store) (tag : Nat) (n : Int) :
    (Look.unfolding Course.growing 0).Is w (.ok (.leaf tag (.int n))) (Tree.leaf (some n)) :=
  unfolds_leaf (S := Scene.integers) rfl ⟨n, rfl⟩

theorem setting_delegate :
    Setting (Look.unfolding Course.growing 0) (firstResumption Tree.leaf) Store.empty False :=
  setting_firstResumption False unfolds_carry

/-- The turns of the delegate, as trees. -/
def delegateTurns : List (Option Int) → Turn (Option Int) (Tree (Option Int)) :=
  delegating (Tree.bare "flip" []) Tree.leaf Tree.leaf

def performs_delegateTurns (recording : Nat) :
    Performs (Look.unfolding Course.growing 0) (firstResumption Tree.leaf) False Store.empty
      (delegate flip) [] delegateTurns
      (.rememberedResume 0 recording (firstResumption (Tree.leaf (V := Option Int))).continuation) := by
  refine performs_delegate setting_delegate (fun _ _ => Nat.zero_le _) (fun _ => rfl) ?_ ?_ ?_ ?_
  · exact fun w _ => unfolds_bare (S := Scene.integers) w 1 "flip" [] fun _ _ _ => ⟨⟨rfl, rfl⟩, rfl⟩
  · rintro w _ - ⟨n, rfl⟩
    exact unfolds_leaf (S := Scene.integers) (v := .int n) rfl ⟨n, rfl⟩
  · exact fun _ _ _ h => h
  · rintro w _ o u - ⟨n, rfl⟩ h
    have hshows := h.is.shows ⟨rfl, rfl⟩
    cases o with
    | ok v => exact ⟨v, rfl⟩
    | error f => cases hshows

theorem direct_delegate : (coroutineOf delegateTurns).direct [] [] (.operation "flip" []) :=
  ⟨[], .operation (.inl ⟨rfl, rfl⟩)⟩

end Integers

end AlgebraicEffects
