import AlgebraicEffects.Proofs.Replay.Coroutine

/-!
Implementations that resume.

An implementation written as a generator calls its continuation from its own body. What it does is
said here without saying what its resume function is: between two pauses it resumes with certain
arguments, one after the other, and whatever it is given back, as long as that is what the
continuation gives, it goes on to the next of them and pauses where it should. `Does` is this for one
action: a total run in which the calls of the resume function are answered from outside.

What the continuation gives is a matter of the `Look` that is taken at programs. If they are looked at
as trees, it is a pure function of its argument. If no more is asked of them than that they leave the
evaluation alone, it is any function that returns.
-/

set_option autoImplicit false

namespace AlgebraicEffects

open Action (Traced)

variable {V τ : Type} {S : Scene V}

/-- What a body does after a history: what it resumes with, one after the other, and where it
pauses then. -/
structure Turn (V τ : Type) where
  calls : List V
  pause : Pause τ

/-- Where a body that takes these turns pauses. -/
def coroutineOf (turns : List V → Turn V τ) : Coroutine V τ := fun h => (turns h).pause

/-- The argument of a call that may leave it out. -/
def Arguments.answer? (call : Arguments Value) : Option Value :=
  match (Signature.optional [] [("answer", Value.nothing)]).bind? call with
  | some b =>
    match b.values with
    | [a] => some a
    | _ => none
  | none => none

/-- What programs are taken for, in a world and in all later ones. -/
structure Look (C : Course S) (τ : Type) where
  Is : S.World → Ending → τ → Prop
  later {w u : S.World} {e : Ending} {t : τ} : C.Later w u → Is w e t → Is u e t

/-- A resumption of a program that has nothing to do with a memory. -/
def Apart (memo : Nat) (w : S.World) (cs : List Call) (u : S.World) : Prop :=
  Quiet memo cs ∧ (S.store u).memos[memo]? = (S.store w).memos[memo]?

/-- Programs are taken for the trees that they unfold to. -/
def Look.unfolding (C : Course S) (memo : Nat) : Look C (Tree V) where
  Is := Unfolds C (Apart memo)
  later hu h := h.later hu

/-- The protocol of programs whose leaves may be answers, and that have nothing to do with a memory. -/
def harmless (S : Scene V) (memo : Nat) : Protocol S Unit where
  meets w e _ := ∀ tag v x, e = .ok v → Program.lift v = .leaf tag x → S.Fit w x
  awaits _ _ := True
  next w _ _ cs u _ := Apart memo w cs u

/-- Programs are taken for harmless ones, whatever they are. -/
def Look.harmless (C : Course S) (memo : Nat) : Look C Unit where
  Is w e t := Abides C C.Later (AlgebraicEffects.harmless S memo) w e t
  later hu h := h.later hu fun _ _ _ _ hu' h tag v x he hv => C.fit hu' (h tag v x he hv)

/-- One evaluation of an implementation: its memory, the objects that were there before it, what it
resumes, what it may resume with, and what that gives. -/
structure Resumption (S : Scene V) (τ : Type) where
  memo : Nat
  firstRecording : Nat
  firstGenerator : Nat
  continuation : Value
  Asked : S.World → Value → Prop
  outcome : V → τ

/-- What a memory holds. -/
def Store.memory (s : Store) (memo : Nat) : List Remembered := s.memos.getD memo []

/-- The steps that leave alone the memory of an evaluation and the objects made since it began, but
for a generator that takes the steps itself. -/
structure Spares (K : Resumption S τ) (own : Option Nat) (s t : Store) : Prop where
  memory : t.memos[K.memo]? = s.memos[K.memo]?
  recordings : ∀ i, K.firstRecording ≤ i → i < s.recordings.size →
    t.recordings[i]? = s.recordings[i]?
  generators : ∀ i, K.firstGenerator ≤ i → i < s.generators.size → own ≠ some i →
    t.generators[i]? = s.generators[i]?
  recordings_le : s.recordings.size ≤ t.recordings.size
  generators_le : s.generators.size ≤ t.generators.size

/-- The steps by which an evaluation keeps its own books: only its memory and the objects made since
it began change. -/
structure Bookkeeping (K : Resumption S τ) (s t : Store) : Prop where
  rest : t = { s with generators := t.generators, recordings := t.recordings, memos := t.memos }
  memos : ∀ i, i ≠ K.memo → t.memos[i]? = s.memos[i]?
  recordings : ∀ i, i < K.firstRecording → t.recordings[i]? = s.recordings[i]?
  generators : ∀ i, i < K.firstGenerator → t.generators[i]? = s.generators[i]?
  recordings_le : s.recordings.size ≤ t.recordings.size
  generators_le : s.generators.size ≤ t.generators.size

/-- The world after steps of the implementation itself. -/
def Aside (C : Course S) (K : Resumption S τ) (own : Option Nat) (w u : S.World) : Prop :=
  C.Later w u ∧ Spares K own (S.store w) (S.store u)

/-- The steps of others, which leave the memory of an evaluation as it is. -/
def Untouched (C : Course S) (K : Resumption S τ) (w u : S.World) : Prop :=
  C.Later w u ∧ (S.store u).memos[K.memo]? = (S.store w).memos[K.memo]?

variable {C : Course S} (A : Look C τ) (K : Resumption S τ) (strict : Prop)

/-- What a resumption with an argument that looks like `a` may answer, and how it may leave the
world: generators that were there go on from where they are. It may be known to return, and what it
gives back has its identity. -/
structure Answers (w : S.World) (a : V) (o : Ending) (u : S.World) : Prop where
  later : C.Later w u
  generators : ∀ i, K.firstGenerator ≤ i → i < (S.store w).generators.size →
    (S.store u).generators[i]? = (S.store w).generators[i]?
  generators_le : (S.store w).generators.size ≤ (S.store u).generators.size
  is : A.Is u o (K.outcome a)
  returns : strict → ∃ v, o = .ok v
  settled (v : Value) : o = .ok v → v.Settled

/-- The action ends and makes these resumptions on the way, whatever they answer. `u` is the world at
the last resumption, or at the beginning; the postcondition also gets the last of these worlds. -/
inductive Does (resume : Function) (own : Option Nat) :
    {α : Type} → List V → S.World → Action α → Store →
      (Except Failure α → Store → S.World → Prop) → Prop where
  | done {α : Type} {x : α} {s : Store} {u : S.World}
      {post : Except Failure α → Store → S.World → Prop} :
      post (.ok x) s u → Does resume own [] u (.done x) s post
  | fail {α : Type} {f : Failure} {s : Store} {u : S.World}
      {post : Except Failure α → Store → S.World → Prop} :
      post (.error f) s u → Does resume own [] u (.fail f) s post
  | read {α : Type} {k : Store → Action α} {as : List V} {s : Store} {u : S.World}
      {post : Except Failure α → Store → S.World → Prop} :
      Does resume own as u (k s) s post → Does resume own as u (.read k) s post
  | write {α : Type} {change : Store → Store} {k : Action α} {as : List V} {s : Store}
      {u : S.World} {post : Except Failure α → Store → S.World → Prop} :
      Does resume own as u k (change s) post → Does resume own as u (.write change k) s post
  /-- A call of anything else may resume inside. -/
  | call {α : Type} {f : Value} {arguments : Arguments Value} {k : Ending → Action α}
      {as bs : List V} {s : Store} {u : S.World} {mid : Ending → Store → S.World → Prop}
      {post : Except Failure α → Store → S.World → Prop} :
      f.isForeign K.memo = true → Does resume own as u (f.apply arguments) s mid →
      (∀ o t z, mid o t z → Does resume own bs z (k o) t post) →
      Does resume own (as ++ bs) u (.call f arguments k) s post
  | resume {α : Type} {tag : Nat} {arguments : Arguments Value} {x : Value}
      {k : Ending → Action α} {as : List V} {u z : S.World}
      {post : Except Failure α → Store → S.World → Prop} :
      arguments.answer? = some x → Aside C K own u z → K.Asked z x →
      (∀ o y, Answers A K strict z (S.see x) o y → Does resume own as y (k o) (S.store y) post) →
      Does resume own (S.see x :: as) u (.call (.function tag resume) arguments k) (S.store z) post

/-- How the generator of a body stops at a pause: what it yields or returns is what the pause says,
and if it yields it is ready for every answer. -/
inductive Halts (Ready : List V → Value → S.World → Prop) (g : Nat) (h : List V) (w : S.World) :
    Ending → Pause τ → Prop where
  | yields {v : Value} {p : τ} : A.Is w (.ok v) p →
      (∀ u b, C.Later w u → (S.store u).generators[g]? = (S.store w).generators[g]? →
        S.Known u b → Ready (h ++ [S.see b]) b u) →
      Halts Ready g h w (.ok v) (.yields p)
  | returns {v : Value} {t : τ} : A.Is w (.ok v) t →
      Halts Ready g h w (.error (.exhausted v)) (.ends t)
  | fails {f : Failure} {t : τ} : (∀ v, f ≠ .exhausted v) →
      A.Is w (.error f) t → Halts Ready g h w (.error f) (.ends t)

/-- The implementation is deterministic in its parameters, in the answers that it has received and in
what it is given back when it resumes, and resumes from its own body: its generator takes these
turns, from every later world on, with `resume` as its resume function. -/
structure Performs (root : S.World) (implementation : Value) (params : List V)
    (turns : List V → Turn V τ) (resume : Function) where
  /-- Advanced with this answer, the generator at this address takes the turn of this history. -/
  Ready : Nat → List V → Value → S.World → Prop
  keeps {g : Nat} {h : List V} {a : Value} {w u : S.World} : Ready g h a w → C.Later w u →
    (S.store u).generators[g]? = (S.store w).generators[g]? → Ready g h a u
  begins (w : S.World) (positional : List Value) (tag : Nat) :
    C.Later root w → positional.map S.see = params →
    Does A K strict resume none [] w (implementation.apply (.of (positional ++ [.function tag resume])))
      (S.store w) fun r t z => ∃ g name u, r = .ok (.generator g name) ∧
        (S.store w).generators.size ≤ g ∧ Aside C K none z u ∧ S.store u = t ∧
        Ready g [] .nothing u
  continues (w : S.World) (g : Nat) (h : List V) (a : Value) :
    C.Later root w → Ready g h a w → (turns h).pause ≠ .diverges →
    Does A K strict resume (some g) (turns h).calls w (Generator.advanceBody g a) (S.store w)
      fun r t z => ∃ u, Aside C K (some g) z u ∧ S.store u = t ∧
        Halts A (Ready g) g h u r (turns h).pause
  diverges (w : S.World) (g : Nat) (h : List V) (a : Value) :
    C.Later root w → Ready g h a w → (turns h).pause = .diverges →
    ∀ cs r t, ¬ Traced (Generator.advanceBody g a) (S.store w) cs r t

/-- The continuation gives what it should, at every time, and leaves the memory of the evaluation and
the objects made since it began as they are. A subtree is what it was once it has its identity. -/
structure Resumes (root : S.World) : Prop where
  asked {w u : S.World} {x : Value} : C.Later w u → K.Asked w x → K.Asked u x
  resumes (w : S.World) (x : Value) : C.Later root w → K.Asked w x →
    ∃ cs o u, Traced (K.continuation.apply (.of [x])) (S.store w) cs o (S.store u) ∧
      C.Later w u ∧ Quiet K.memo cs ∧ Spares K none (S.store w) (S.store u) ∧
      A.Is u o (K.outcome (S.see x)) ∧
      ∀ v z, o = .ok v → C.Later u z → S.store z = ((S.store u).identify v).2 →
        A.Is z (.ok ((S.store u).identify v).1) (K.outcome (S.see x))

/-- What makes the lookups of a memory exact: every resumption returns, what shows as one object is
one value, and arguments that look the same are found to agree. -/
structure Exact (C : Course S) (K : Resumption S τ) (root : S.World) : Prop where
  returns (w : S.World) (x : Value) : C.Later root w → K.Asked w x →
    ∀ cs o t, Traced (K.continuation.apply (.of [x])) (S.store w) cs o t → ∃ v, o = .ok v
  identity (w : S.World) (a b : Value) : C.Later root w → S.Known w a → S.Known w b →
    (((S.store w).show a).isSame ((S.store w).show b) = true ↔ a = b)
  agreement (w : S.World) (a b : Value) : C.Later root w → K.Asked w a → K.Asked w b →
    S.see a = S.see b → ((S.store w).show a).agrees ((S.store w).show b) = true

/-- What an evaluation relies on: no object is ever lost and every one has an identity to get, its
continuation gives what it should, worlds do not mind its books, and what shows as one object looks
the same. Its lookups may be exact. -/
structure Setting (root : S.World) (strict : Prop) : Prop where
  grows (w u : S.World) : C.Later w u → (S.store w).recordings.size ≤ (S.store u).recordings.size ∧
    (S.store w).generators.size ≤ (S.store u).generators.size
  tags (w : S.World) : C.Later root w → 0 < (S.store w).nextTag
  continuation : K.continuation.isForeign K.memo = true
  resumes : Resumes A K root
  books (w : S.World) (t : Store) : C.Later root w → Bookkeeping K (S.store w) t →
    ∃ u, C.Later w u ∧ S.store u = t
  identity (w : S.World) (a b : Value) : C.Later root w → S.Known w a → S.Known w b →
    ((S.store w).show a).isSame ((S.store w).show b) = true → S.see a = S.see b
  exact : strict → Exact C K root

end AlgebraicEffects
