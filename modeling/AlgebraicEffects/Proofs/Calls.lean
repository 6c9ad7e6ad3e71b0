import AlgebraicEffects.Action.Runs
import AlgebraicEffects.Dispatch

/-!
The calls of a run.

A run of an action makes calls, and each call runs the body of what it calls, which makes calls in
turn. `Traced a s calls r t` says that the action `a` begun in the store `s` ends as `r`, leaves the
store `t` and made these calls on the way, each with the calls inside it. What is called means what
the library says (`Value.apply`). Main statements: every run has its calls (`Runs.exists_traced`),
a run has only one trace (`Traced.unique`), and the traces of a sequence are put together from those
of its parts (`Traced.bind`).
-/

set_option autoImplicit false

namespace AlgebraicEffects

/-- One call of a run: what was called, with which arguments, and the calls made inside it. -/
inductive Call where
  | mk (callee : Value) (arguments : Arguments Value) (inner : List Call)

namespace Call

/-- What was called with which arguments. -/
def request : Call → Value × Arguments Value
  | .mk callee arguments _ => (callee, arguments)

end Call

mutual

/-- What is found at the calls of a run and at those inside them, in order. -/
def Call.collect {β : Type} (f : Call → List β) : Call → List β
  | .mk callee arguments inner => f (.mk callee arguments inner) ++ collect f inner

def collect {β : Type} (f : Call → List β) : List Call → List β
  | [] => []
  | c :: cs => c.collect f ++ collect f cs

end

theorem collect_append {β : Type} (f : Call → List β) (cs ds : List Call) :
    collect f (cs ++ ds) = collect f cs ++ collect f ds := by
  induction cs with
  | nil => rfl
  | cons c cs ih => simp only [List.cons_append, collect, ih, List.append_assoc]

theorem collect_singleton {β : Type} (f : Call → List β) (callee : Value)
    (arguments : Arguments Value) (inner : List Call) :
    collect f [.mk callee arguments inner] = f (.mk callee arguments inner) ++ collect f inner := by
  simp only [collect, Call.collect, List.append_nil]

mutual

theorem Call.collect_nothing {β : Type} : (c : Call) → c.collect (fun _ => ([] : List β)) = []
  | .mk _ _ inner => by rw [Call.collect, collect_nothing inner, List.append_nil]

theorem collect_nothing {β : Type} : (cs : List Call) → collect (fun _ => ([] : List β)) cs = []
  | [] => rfl
  | c :: cs => by rw [collect, c.collect_nothing, collect_nothing cs, List.append_nil]

end

/-- How many calls a run has made, with those inside them. -/
def weight (cs : List Call) : Nat := (collect (fun _ => [()]) cs).length

theorem weight_append (cs ds : List Call) : weight (cs ++ ds) = weight cs + weight ds := by
  rw [weight, collect_append, List.length_append]
  rfl

theorem weight_singleton (callee : Value) (arguments : Arguments Value) (inner : List Call) :
    weight [.mk callee arguments inner] = 1 + weight inner := by
  rw [weight, collect_singleton, List.length_append]
  rfl

/-- Whether a value resumes through this memory. -/
def Value.resumesThrough (memo : Nat) : Value → Bool
  | .function _ (.rememberedResume m _ _) => m == memo
  | _ => false

/-- Whether a value hands an answer to the body whose memory this is. -/
def Value.answersThrough (memo : Nat) : Value → Bool
  | .function _ (.replaying (.function _ (.remembering m _ _ _)) _ _ _) => m == memo
  | _ => false

/-- Whether a value has nothing to do with this memory. -/
def Value.isForeign (memo : Nat) (f : Value) : Bool := !f.resumesThrough memo && !f.answersThrough memo

/-- What the functions that resume through a memory called themselves, in order. -/
def through (memo : Nat) : List Call → List (Value × Arguments Value) :=
  collect fun
    | .mk callee _ inner => if callee.resumesThrough memo then inner.map Call.request else []

/-- The answers that were handed to the body whose memory this is, in order. -/
def received (memo : Nat) : List Call → List Value :=
  collect fun
    | .mk callee arguments _ => if callee.answersThrough memo then arguments.positional else []

theorem through_append (memo : Nat) (cs ds : List Call) :
    through memo (cs ++ ds) = through memo cs ++ through memo ds :=
  collect_append _ cs ds

theorem received_append (memo : Nat) (cs ds : List Call) :
    received memo (cs ++ ds) = received memo cs ++ received memo ds :=
  collect_append _ cs ds

theorem through_cons (memo : Nat) (c : Call) (cs : List Call) :
    through memo (c :: cs) = through memo [c] ++ through memo cs :=
  through_append memo [c] cs

theorem received_cons (memo : Nat) (c : Call) (cs : List Call) :
    received memo (c :: cs) = received memo [c] ++ received memo cs :=
  received_append memo [c] cs

/-- A function that resumes adds what it calls itself. -/
theorem through_of_resumes {memo : Nat} {callee : Value} (h : callee.resumesThrough memo = true)
    (arguments : Arguments Value) (inner : List Call) :
    through memo [.mk callee arguments inner] = inner.map Call.request ++ through memo inner := by
  rw [through, collect_singleton]
  simp only [h, if_true]

theorem through_of_not_resumes {memo : Nat} {callee : Value} (h : callee.resumesThrough memo = false)
    (arguments : Arguments Value) (inner : List Call) :
    through memo [.mk callee arguments inner] = through memo inner := by
  rw [through, collect_singleton]
  simp [h]

theorem received_of_not_answers {memo : Nat} {callee : Value}
    (h : callee.answersThrough memo = false) (arguments : Arguments Value) (inner : List Call) :
    received memo [.mk callee arguments inner] = received memo inner := by
  rw [received, collect_singleton]
  simp [h]

theorem received_of_answers {memo : Nat} {callee : Value} (h : callee.answersThrough memo = true)
    (arguments : Arguments Value) (inner : List Call) :
    received memo [.mk callee arguments inner] = arguments.positional ++ received memo inner := by
  rw [received, collect_singleton]
  simp only [h, if_true]

/-- A call of anything else adds what happens inside it. -/
theorem of_isForeign {memo : Nat} {callee : Value} (h : callee.isForeign memo = true)
    (arguments : Arguments Value) (inner : List Call) :
    through memo [.mk callee arguments inner] = through memo inner ∧
      received memo [.mk callee arguments inner] = received memo inner := by
  simp only [Value.isForeign, Bool.and_eq_true, Bool.not_eq_true'] at h
  exact ⟨through_of_not_resumes h.1 arguments inner, received_of_not_answers h.2 arguments inner⟩

/-- These calls neither resume through the memory nor hand answers to its body. -/
def Quiet (memo : Nat) (cs : List Call) : Prop := through memo cs = [] ∧ received memo cs = []

theorem Quiet.append {memo : Nat} {cs ds : List Call} (h : Quiet memo cs) (g : Quiet memo ds) :
    Quiet memo (cs ++ ds) := by
  constructor
  · rw [through_append, h.1, g.1, List.append_nil]
  · rw [received_append, h.2, g.2, List.append_nil]

theorem Quiet.within {memo : Nat} {cs : List Call} {callee : Value} (h : Quiet memo cs)
    (hf : callee.isForeign memo = true) (arguments : Arguments Value) :
    Quiet memo [.mk callee arguments cs] := by
  obtain ⟨hthrough, hreceived⟩ := of_isForeign hf arguments cs
  exact ⟨hthrough.trans h.1, hreceived.trans h.2⟩

namespace Action

variable {α β : Type}

inductive Traced : {α : Type} → Action α → Store → List Call → Except Failure α → Store → Prop where
  | done {α : Type} (x : α) (s : Store) : Traced (.done x) s [] (.ok x) s
  | fail {α : Type} (f : Failure) (s : Store) : Traced (.fail f : Action α) s [] (.error f) s
  | read {α : Type} {k : Store → Action α} {s t : Store} {cs : List Call} {r : Except Failure α} :
      Traced (k s) s cs r t → Traced (.read k) s cs r t
  | write {α : Type} {change : Store → Store} {k : Action α} {s t : Store} {cs : List Call}
      {r : Except Failure α} :
      Traced k (change s) cs r t → Traced (.write change k) s cs r t
  | call {α : Type} {f : Value} {arguments : Arguments Value} {k : Ending → Action α}
      {s t u : Store} {inner cs : List Call} {o : Ending} {r : Except Failure α} :
      Traced (f.apply arguments) s inner o t → Traced (k o) t cs r u →
      Traced (.call f arguments k) s (.mk f arguments inner :: cs) r u

theorem Traced.runs {a : Action α} {s t : Store} {cs : List Call} {r : Except Failure α}
    (h : Traced a s cs r t) : Runs Value.apply a s r t := by
  induction h with
  | done x s => exact .done x s
  | fail f s => exact .fail f s
  | read _ ih => exact .read ih
  | write _ ih => exact .write ih
  | call _ _ ihf ihk => exact .call ihf ihk

/-- Every run makes some calls. -/
theorem Runs.exists_traced {a : Action α} {s t : Store} {r : Except Failure α}
    (h : Runs Value.apply a s r t) : ∃ cs, Traced a s cs r t := by
  induction h with
  | done x s => exact ⟨[], .done x s⟩
  | fail f s => exact ⟨[], .fail f s⟩
  | read _ ih =>
    obtain ⟨cs, h⟩ := ih
    exact ⟨cs, .read h⟩
  | write _ ih =>
    obtain ⟨cs, h⟩ := ih
    exact ⟨cs, .write h⟩
  | call _ _ ihf ihk =>
    obtain ⟨inner, hf⟩ := ihf
    obtain ⟨cs, hk⟩ := ihk
    exact ⟨_, .call hf hk⟩

/-- A run makes one sequence of calls and ends in one way. -/
theorem Traced.unique {a : Action α} {s t u : Store} {cs ds : List Call} {r q : Except Failure α}
    (h : Traced a s cs r t) (g : Traced a s ds q u) : cs = ds ∧ r = q ∧ t = u := by
  induction h generalizing ds u with
  | done x s => cases g; exact ⟨rfl, rfl, rfl⟩
  | fail f s => cases g; exact ⟨rfl, rfl, rfl⟩
  | read _ ih => cases g with | read g => exact ih g
  | write _ ih => cases g with | write g => exact ih g
  | call _ _ ihf ihk =>
    cases g with
    | call gf gk =>
      obtain ⟨rfl, rfl, rfl⟩ := ihf gf
      obtain ⟨rfl, hr, ht⟩ := ihk gk
      exact ⟨rfl, hr, ht⟩

theorem Traced.bind {a : Action α} {k : α → Action β} {s t u : Store} {cs ds : List Call} {x : α}
    {r : Except Failure β} (h : Traced a s cs (.ok x) t) (g : Traced (k x) t ds r u) :
    Traced (a.bind k) s (cs ++ ds) r u := by
  generalize hq : Except.ok x = q at h
  induction h with
  | done y s => cases hq; exact g
  | fail f s => cases hq
  | read _ ih => exact .read (ih g hq)
  | write _ ih => exact .write (ih g hq)
  | call hf _ _ ih => exact .call hf (ih g hq)

theorem Traced.bind_error {a : Action α} {k : α → Action β} {s t : Store} {cs : List Call}
    {f : Failure} (h : Traced a s cs (.error f) t) : Traced (a.bind k) s cs (.error f) t := by
  generalize hq : Except.error f = q at h
  induction h with
  | done y s => cases hq
  | fail e s => cases hq; exact .fail f s
  | read _ ih => exact .read (ih hq)
  | write _ ih => exact .write (ih hq)
  | call hf _ _ ih => exact .call hf (ih hq)

/-- Attempting an action makes the calls that the action makes. -/
theorem Traced.attempt {a : Action α} {s t : Store} {cs : List Call} {r : Except Failure α}
    (h : Traced a s cs r t) : Traced a.attempt s cs (.ok r) t := by
  induction h with
  | done x s => exact .done (Except.ok x) s
  | fail f s => exact .done (Except.error f) s
  | read _ ih => exact .read ih
  | write _ ih => exact .write ih
  | call hf _ _ ih => exact .call hf ih

/-- A call that passes on how it ends. -/
theorem Traced.invoke {f : Value} {arguments : Arguments Value} {s t : Store} {inner : List Call}
    {o : Ending} (h : Traced (f.apply arguments) s inner o t) :
    Traced (invoke f arguments) s [.mk f arguments inner] o t := by
  cases o with
  | ok v => exact .call h (.done v t)
  | error e => exact .call h (.fail e t)

theorem Traced.map {a : Action α} {s t : Store} {cs : List Call}
    {r : Except Failure α} (h : Traced a s cs r t) (f : α → β) :
    Traced (f <$> a) s cs (r.map f) t := by
  cases r with
  | ok x =>
    have hb := h.bind (k := fun x => .done (f x)) (.done (f x) t)
    rw [List.append_nil] at hb
    exact hb
  | error e => exact h.bind_error

section Parts

variable {f : Value} {arguments : Arguments Value} {s t u : Store} {cs ds : List Call}

/-- What runs to its end has run its first part. -/
theorem Traced.exists_of_bind {a : Action α} {k : α → Action β} {r : Except Failure β}
    (h : Traced (a.bind k) s cs r u) : ∃ ds q t, Traced a s ds q t := by
  induction a generalizing s cs with
  | done x => exact ⟨[], .ok x, s, .done x s⟩
  | fail f => exact ⟨[], .error f, s, .fail f s⟩
  | read k ih =>
    cases h with
    | read h =>
      obtain ⟨ds, q, t, g⟩ := ih s h
      exact ⟨ds, q, t, .read g⟩
  | write change k ih =>
    cases h with
    | write h =>
      obtain ⟨ds, q, t, g⟩ := ih h
      exact ⟨ds, q, t, .write g⟩
  | call f arguments k ih =>
    cases h with
    | call hf h =>
      obtain ⟨ds, q, t, g⟩ := ih _ h
      exact ⟨_, q, t, .call hf g⟩

/-- After its first part a run goes on with the rest. -/
theorem Traced.of_bind {a : Action α} {k : α → Action β} {x : α} {r : Except Failure β}
    (h : Traced (a.bind k) s cs r u) (g : Traced a s ds (.ok x) t) :
    ∃ es, cs = ds ++ es ∧ Traced (k x) t es r u := by
  generalize hq : Except.ok x = q at g
  induction g generalizing cs with
  | done y s => cases hq; exact ⟨cs, rfl, h⟩
  | fail f s => cases hq
  | read _ ih => cases h with | read h => exact ih h hq
  | write _ ih => cases h with | write h => exact ih h hq
  | call gf _ _ ih =>
    cases h with
    | call hf h =>
      obtain ⟨rfl, rfl, rfl⟩ := hf.unique gf
      obtain ⟨es, rfl, hes⟩ := ih h hq
      exact ⟨es, rfl, hes⟩

theorem Traced.of_attempt {a : Action α} {r : Except Failure (Except Failure α)}
    (h : Traced a.attempt s cs r t) : ∃ q, r = .ok q ∧ Traced a s cs q t := by
  induction a generalizing s cs with
  | done x => cases h; exact ⟨_, rfl, .done _ _⟩
  | fail f => cases h; exact ⟨_, rfl, .fail _ _⟩
  | read k ih =>
    cases h with
    | read h =>
      obtain ⟨q, hr, g⟩ := ih s h
      exact ⟨q, hr, .read g⟩
  | write change k ih =>
    cases h with
    | write h =>
      obtain ⟨q, hr, g⟩ := ih h
      exact ⟨q, hr, .write g⟩
  | call f arguments k ih =>
    cases h with
    | call hf h =>
      obtain ⟨q, hr, g⟩ := ih _ h
      exact ⟨q, hr, .call hf g⟩

theorem Traced.of_invoke {o : Ending} (h : Traced (Action.invoke f arguments) s cs o t) :
    ∃ inner, cs = [.mk f arguments inner] ∧ Traced (f.apply arguments) s inner o t := by
  cases h with
  | @call _ _ _ _ _ _ _ inner _ e _ hf hk =>
    cases e with
    | ok v => cases hk; exact ⟨inner, rfl, hf⟩
    | error e => cases hk; exact ⟨inner, rfl, hf⟩

theorem Traced.of_map {a : Action α} {g : α → β} {r : Except Failure β}
    (h : Traced (g <$> a) s cs r t) : ∃ q, r = q.map g ∧ Traced a s cs q t := by
  obtain ⟨ds, q, v, hq⟩ := Traced.exists_of_bind h
  obtain ⟨rfl, rfl, rfl⟩ := h.unique (hq.map g)
  exact ⟨q, rfl, hq⟩

end Parts

end Action

end AlgebraicEffects
