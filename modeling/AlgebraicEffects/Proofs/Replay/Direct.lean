import AlgebraicEffects.Proofs.Replay.Built
import AlgebraicEffects.Proofs.Replay.Generators

/-!
Replay is correct.

A generator can be resumed once from each point, and a built program starts it again for every
answer. If the body is deterministic, that is, if in every later world it stops where a coroutine
does, as a function of what its arguments and the answers look like, then the built program unfolds
to the direct semantics of that coroutine, whatever is resumed, how often and in which order.
-/

set_option autoImplicit false

namespace AlgebraicEffects

open Action (Traced Runs)

variable {V : Type} {S : Scene V}

/-- A program built by replay from a deterministic generator unfolds to the direct semantics of its
body after the history. -/
theorem buildFrom_unfolds {C : Course S} {B : Coroutine V (Tree V)} {factory kwargs : Value}
    {keywords : List (String × Value)} {root : S.World} {a b : Nat} {positional ys : List Value}
    {n : Node V}
    (hkeywords : Runs Value.apply (kwargs.entriesIfAny >>= Replay.keywordsOf) (S.store root)
      (.ok keywords) (S.store root))
    (hbody : Deterministic C B factory (positional.map S.see) keywords root)
    (hknown : ∀ y ∈ ys, S.Known root y) (hawaits : B.Awaits (ys.map S.see))
    (hn : B.direct (ys.map S.see) [] n) :
    ∃ e u, Runs Value.apply
        (Replay.buildFrom factory (.tuple a positional) kwargs (.tuple b ys)) (S.store root) e
        (S.store u) ∧ C.Later root u ∧ Unfolds C Freely u e (B.direct (ys.map S.see)) := by
  obtain ⟨cs, e, u, hbuilt, hu, hunfolds⟩ := exists_built hbody a b rfl hknown hawaits hn
  refine ⟨e, u, ?_, hu, hunfolds⟩
  have hbind : Replay.buildFrom factory (.tuple a positional) kwargs (.tuple b ys) =
      (kwargs.entriesIfAny.bind Replay.keywordsOf).bind fun ks =>
        Replay.buildOn factory (.tuple a positional) positional ks (.tuple b ys) :=
    (Action.bind_assoc _ _ _).symm
  rw [hbind]
  exact hkeywords.bind hbuilt.runs

section Echo

/-- A body that asks once and returns the answer. -/
private def echoBody : List Stmt := [.yield (some "x") (.variable "ask"), .finish (.variable "x")]

private def echoScope : Scope := [("ask", .operation 1 "ask" [] (.arrowOf .leaf))]

private def echo : Value := .arrowOf (.generatorBody "echo" ⟨[], none⟩ echoBody echoScope)

private def echoes : Coroutine (Option Int) (Tree (Option Int))
  | [] => .yields (Tree.bare "ask" [])
  | [a] => .ends (Tree.leaf a)
  | _ => .diverges

private theorem invoke_echo (s : Store) :
    Runs Value.apply (Action.invoke echo ⟨[], []⟩) s (.ok (.generator s.generators.size "echo"))
      (s.addGenerator (.fresh echoScope echoBody)) :=
  .call (.read (.write (.done _ _))) (.done _ _)

private theorem start_echo (s : Store) {g : Nat}
    (hg : s.generatorAt g = .fresh echoScope echoBody) (answer : Value) :
    ∃ cs, Traced (Generator.progress g answer) s cs
      (.ok (.yielded (.operation 1 "ask" [] (.arrowOf .leaf))))
      ((s.setGenerator g .running).setGenerator g
        (.suspended (some "x") echoScope [.block [.finish (.variable "x")]])) := by
  refine ⟨_, Generator.traced_progress_yielded (Generator.traced_advance_of_scripted
    (.inl ⟨_, _, hg⟩) (Generator.traced_advanceBody_of_fresh hg
      (Generator.traced_guarded (Traced.invoke (.write (.done _ _))))))⟩

private theorem finish_echo (s : Store) {g : Nat}
    (hg : s.generatorAt g = .suspended (some "x") echoScope [.block [.finish (.variable "x")]])
    (answer : Value) :
    ∃ cs, Traced (Generator.progress g answer) s cs (.ok (.returned answer))
      ((s.setGenerator g .running).setGenerator g .finished) := by
  refine ⟨_, Generator.traced_progress_returned (Generator.traced_advance_of_scripted
    (.inr ⟨_, _, _, hg⟩) (Generator.traced_advanceBody_of_suspended hg
      (Generator.traced_guarded_error (Traced.invoke (.fail _ _)))))⟩

private theorem echo_deterministic (root : Store) :
    Deterministic Course.integers echoes echo [] [] root := by
  intro w positional ys _ hpositional hknown _ hstops
  have hnil : positional = [] := List.map_eq_nil_iff.1 hpositional
  subst hnil
  generalize hmade : Store.addGenerator w (.fresh echoScope echoBody) = made
  have hfresh : made.generatorAt (Store.generators w).size = .fresh echoScope echoBody := by
    rw [← hmade]
    exact Store.generatorAt_addGenerator w _
  have hsize : (Store.generators w).size < made.generators.size := by
    rw [← hmade]
    exact (Store.size_addGenerator w _).symm ▸ Nat.lt_succ_self _
  obtain ⟨cs, hstart⟩ := start_echo made hfresh .nothing
  match ys, hknown, hstops with
  | [], _, _ =>
    refine ⟨_, _, made, _, _, hmade ▸ invoke_echo w,
      (Replay.traced_sent hstart (Replay.traced_feed_nil _ _ _ _)).runs, trivial, ?_⟩
    exact .yielded (unfolds_bare (S := Scene.integers) _ 1 "ask" [] fun _ _ _ => trivial)
  | [y], hknown, _ =>
    obtain ⟨m, rfl⟩ := hknown y (List.mem_singleton_self y)
    obtain ⟨ds, hfinish⟩ := finish_echo
      ((made.setGenerator _ .running).setGenerator (Store.generators w).size
        (.suspended (some "x") echoScope [.block [.finish (.variable "x")]]))
      (Store.generatorAt_setGenerator _ _ _ (by simpa using hsize)) (.int m)
    refine ⟨_, _, made, _, _, hmade ▸ invoke_echo w,
      (Replay.traced_sent hstart (Replay.traced_feed_returned hfinish)).runs, trivial, ?_⟩
    exact .returned (unfolds_leaf (S := Scene.integers) (v := .int m) rfl ⟨m, rfl⟩)
  | _ :: _ :: _, _, hstops => exact absurd rfl hstops

theorem buildFrom_unfolds_echo :
    ∃ e u, Runs Value.apply (Replay.buildFrom echo (.tuple 0 []) .nothing (.tuple 0 []))
        Store.empty e u ∧
      Unfolds Course.integers Freely u e (echoes.direct []) := by
  obtain ⟨e, u, hrun, -, hunfolds⟩ :=
    @buildFrom_unfolds _ _ Course.integers echoes echo .nothing [] Store.empty 0 0 [] [] _
      (.done _ _) (echo_deterministic Store.empty) (fun _ hy => absurd hy List.not_mem_nil)
      Coroutine.awaits_nil ⟨[], .operation (.inl ⟨rfl, rfl⟩)⟩
  exact ⟨e, u, hrun, hunfolds⟩

end Echo

end AlgebraicEffects
