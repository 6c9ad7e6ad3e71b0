import AlgebraicEffects.Proofs.Calls

/-!
How an action proceeds.

`Proceeds a s q b t` says that the action `a` begun in the store `s` comes to the action `b` in the
store `t`, and which calls it has made until then. What a call that is still going on returns to is
part of `b`, so what is left to do is always one action and not a stack of them. Main statements: an
action proceeds in a sequence as it does alone (`Proceeds.bind`), and a run is how an action
proceeds followed by the run of what it comes to (`Proceeds.traced`).
-/

set_option autoImplicit false

namespace AlgebraicEffects

open Action (Traced)

/-- What is called, with which arguments. -/
abbrev Request := Value × Arguments Value

/-- All calls of a run, with those inside them, in the order in which they begin. -/
def requests (cs : List Call) : List Request := collect (fun c => [c.request]) cs

theorem requests_append (cs ds : List Call) : requests (cs ++ ds) = requests cs ++ requests ds :=
  collect_append _ cs ds

theorem requests_cons (f : Value) (arguments : Arguments Value) (inner cs : List Call) :
    requests (.mk f arguments inner :: cs) = (f, arguments) :: (requests inner ++ requests cs) := by
  rw [← List.singleton_append, requests_append, requests, collect_singleton]
  rfl

inductive Proceeds {α : Type} :
    Action α → Store → List Request → Action α → Store → Prop where
  | here (a : Action α) (s : Store) : Proceeds a s [] a s
  | read {k : Store → Action α} {s t : Store} {q : List Request} {b : Action α} :
      Proceeds (k s) s q b t → Proceeds (.read k) s q b t
  | write {change : Store → Store} {k : Action α} {s t : Store} {q : List Request} {b : Action α} :
      Proceeds k (change s) q b t → Proceeds (.write change k) s q b t
  /-- Goes into a call, which has to give a value. -/
  | enter {f : Value} {arguments : Arguments Value} {k : Ending → Action α} {s t : Store}
      {q : List Request} {b : Action α} :
      Proceeds ((f.apply arguments).bind fun v => k (.ok v)) s q b t →
      Proceeds (.call f arguments k) s ((f, arguments) :: q) b t
  /-- Goes on after a call. -/
  | after {f : Value} {arguments : Arguments Value} {k : Ending → Action α} {s t u : Store}
      {inner : List Call} {o : Ending} {q : List Request} {b : Action α} :
      Traced (f.apply arguments) s inner o t → Proceeds (k o) t q b u →
      Proceeds (.call f arguments k) s ((f, arguments) :: (requests inner ++ q)) b u

namespace Proceeds

variable {α β : Type} {s t u : Store} {q r : List Request}

theorem trans {a b c : Action α} (h : Proceeds a s q b t) (g : Proceeds b t r c u) :
    Proceeds a s (q ++ r) c u := by
  induction h with
  | here => exact g
  | read _ ih => exact .read (ih g)
  | write _ ih => exact .write (ih g)
  | enter _ ih => exact .enter (ih g)
  | after hf _ ih =>
    rw [List.cons_append, List.append_assoc]
    exact .after hf (ih g)

/-- An action proceeds in a sequence as it does alone. -/
theorem bind {a b : Action α} (h : Proceeds a s q b t) (k : α → Action β) :
    Proceeds (a.bind k) s q (b.bind k) t := by
  induction h with
  | here => exact .here _ _
  | read _ ih => exact .read ih
  | write _ ih => exact .write ih
  | enter _ ih =>
    rw [Action.bind_assoc] at ih
    exact .enter ih
  | after hf _ ih => exact .after hf ih

/-- After its first part a sequence comes to the rest. -/
theorem of_traced {a : Action α} {cs : List Call} {x : α} (h : Traced a s cs (.ok x) t)
    (k : α → Action β) : Proceeds (a.bind k) s (requests cs) (k x) t := by
  generalize hr : Except.ok x = r at h
  induction h with
  | done y s => cases hr; exact .here _ _
  | fail f s => cases hr
  | read _ ih => exact .read (ih k hr)
  | write _ ih => exact .write (ih k hr)
  | call hf _ _ ih =>
    rw [requests_cons]
    exact .after hf (ih k hr)

/-- Calling a value and passing on how it ends comes to the body of what is called. -/
theorem invoke (f : Value) (arguments : Arguments Value) (k : Value → Action α) (s : Store) :
    Proceeds ((Action.invoke f arguments).bind k) s [(f, arguments)]
      ((f.apply arguments).bind k) s :=
  .enter (.here _ s)

/-- Asking a value comes to the body of what is asked. -/
theorem ask (f : Value) (vs : List Value) (s : Store) :
    Proceeds (Action.ask f vs) s [(f, .of vs)] (f.apply (.of vs)) s := by
  refine .enter ?_
  show Proceeds ((f.apply (.of vs)).bind .done) s [] _ s
  rw [Action.bind_done]
  exact .here _ s

/-- A run is how the action proceeds, followed by the run of what it comes to. -/
theorem traced {a b : Action α} {x : α} {ds : List Call} (h : Proceeds a s q b t)
    (g : Traced b t ds (.ok x) u) :
    ∃ cs, Traced a s cs (.ok x) u ∧ requests cs = q ++ requests ds := by
  induction h with
  | here => exact ⟨ds, g, rfl⟩
  | read _ ih =>
    obtain ⟨cs, hcs, hq⟩ := ih g
    exact ⟨cs, .read hcs, hq⟩
  | write _ ih =>
    obtain ⟨cs, hcs, hq⟩ := ih g
    exact ⟨cs, .write hcs, hq⟩
  | @enter f arguments k _ _ _ _ _ ih =>
    obtain ⟨cs, hcs, hq⟩ := ih g
    rcases Action.runs_bind_iff.1 hcs.runs with ⟨v, w, hf, -⟩ | ⟨e, he, -⟩
    · obtain ⟨inner, hf⟩ := hf.exists_traced
      obtain ⟨es, rfl, hk⟩ := hcs.of_bind hf
      refine ⟨_, .call hf hk, ?_⟩
      rw [requests_cons, ← requests_append, hq, List.cons_append]
    · cases he
  | after hf _ ih =>
    obtain ⟨cs, hcs, hq⟩ := ih g
    refine ⟨_, .call hf hcs, ?_⟩
    rw [requests_cons, hq, List.cons_append, List.append_assoc]

/-- A run of a call begins with a run of its body and what follows a value. -/
theorem exists_entered {f : Value} {arguments : Arguments Value} {k : Ending → Action α}
    {inner cs : List Call} {o : Ending} {r : Except Failure α}
    (hf : Traced (f.apply arguments) s inner o t) (hk : Traced (k o) t cs r u) :
    ∃ ds r' w, Traced ((f.apply arguments).bind fun v => k (.ok v)) s ds r' w ∧
      requests ds ⊆ requests inner ++ requests cs := by
  cases o with
  | ok v =>
    refine ⟨_, _, _, hf.bind hk, ?_⟩
    rw [requests_append]
    exact List.Subset.refl _
  | error e => exact ⟨_, _, _, hf.bind_error, List.subset_append_left _ _⟩

/-- A run of an action that comes to a call makes it. -/
theorem mem_requests {a b : Action α} {f : Value} {arguments : Arguments Value}
    {k : Ending → Action α} {cs : List Call} {o : Except Failure α} (h : Proceeds a s q b t)
    (hb : b = .call f arguments k) (g : Traced a s cs o u) : (f, arguments) ∈ requests cs := by
  induction h generalizing cs o u with
  | here =>
    subst hb
    cases g with
    | call hf hk =>
      rw [requests_cons]
      exact List.mem_cons_self
  | read _ ih => cases g with | read hk => exact ih hb hk
  | write _ ih => cases g with | write hk => exact ih hb hk
  | enter _ ih =>
    cases g with
    | call hf hk =>
      rw [requests_cons]
      obtain ⟨ds, r, w, hentered, hsubset⟩ := exists_entered hf hk
      exact List.mem_cons_of_mem _ (hsubset (ih hb hentered))
  | after hf _ ih =>
    cases g with
    | call hg hk =>
      obtain ⟨rfl, rfl, rfl⟩ := hf.unique hg
      rw [requests_cons]
      exact List.mem_cons_of_mem _ (List.mem_append_right _ (ih hb hk))

/-- What a sequence comes to beyond its first part, the rest comes to. -/
theorem past {a : Action α} {k : α → Action β} {x : α} {cs : List Call} {b : Action β} {f : Value}
    {arguments : Arguments Value} {l : Ending → Action β} (h : Traced a s cs (.ok x) t)
    (g : Proceeds (a.bind k) s q b u) (hb : b = .call f arguments l)
    (hnew : (f, arguments) ∉ requests cs) : ∃ r, Proceeds (k x) t r b u ∧ r ⊆ q := by
  generalize ho : Except.ok x = o at h
  induction h generalizing q β with
  | done y s =>
    cases ho
    exact ⟨q, g, List.Subset.refl q⟩
  | fail e s => cases ho
  | read _ ih =>
    cases g with
    | here => cases hb
    | read g => exact ih g hb hnew ho
  | write _ ih =>
    cases g with
    | here => cases hb
    | write g => exact ih g hb hnew ho
  | @call _ f' arguments' k' _ _ _ inner cs outcome _ hf _ ihf ihk =>
    rw [requests_cons] at hnew
    have hinner : (f, arguments) ∉ requests inner := fun hmem =>
      hnew (List.mem_cons_of_mem _ (List.mem_append_left _ hmem))
    have hcs : (f, arguments) ∉ requests cs := fun hmem =>
      hnew (List.mem_cons_of_mem _ (List.mem_append_right _ hmem))
    cases g with
    | here =>
      cases hb
      exact absurd List.mem_cons_self hnew
    | enter g =>
      cases outcome with
      | error e => exact absurd (g.mem_requests hb hf.bind_error) hinner
      | ok v =>
        obtain ⟨r, g, hr⟩ := ihf g hb hinner rfl
        obtain ⟨r', g, hr'⟩ := ihk g hb hcs ho
        exact ⟨r', g, fun x hx => List.mem_cons_of_mem _ (hr (hr' hx))⟩
    | after hf' g =>
      obtain ⟨rfl, rfl, rfl⟩ := hf.unique hf'
      obtain ⟨r, g, hr⟩ := ihk g hb hcs ho
      exact ⟨r, g, fun x hx => List.mem_cons_of_mem _ (List.mem_append_right _ (hr hx))⟩

end Proceeds

end AlgebraicEffects
