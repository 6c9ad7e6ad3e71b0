import AlgebraicEffects.Proofs.Memory.Once
import AlgebraicEffects.Proofs.Memory.Shared
import AlgebraicEffects.Program.Arrow

/-!
Replays that are not remembered.

An evaluation keeps a memory only if the implementation is a generator function itself. A plain
function that gives the generator of one, and the arrow over a generator function, are replayed
without. Their programs unfold to the direct semantics of the generator just as well, but each history
that is passed costs a whole run of the body: whatever was resumed before the last answer is resumed
again.
-/

set_option autoImplicit false

namespace AlgebraicEffects

open Action (Traced)

variable {V τ : Type} {S : Scene V}

section Whole

variable {turns : List V → Turn V τ} {h : List V}

theorem along_snoc (h : List V) (a : V) :
    along turns (h ++ [a]) = along turns h ++ (turns (h ++ [a])).calls := by
  rw [along, passed_append, ← List.cons_append, List.flatMap_append]
  simp only [passed, List.flatMap_cons, List.flatMap_nil, List.append_nil, List.nil_append]
  rfl

/-- The last turn of a whole run comes last. -/
theorem suffix_along (h : List V) : (turns h).calls <:+ along turns h := by
  rcases List.eq_nil_or_concat h with rfl | ⟨h, a, rfl⟩
  · simp [along, passed]
  · rw [List.concat_eq_append, along_snoc]
    exact List.suffix_append _ _

theorem along_eq_nil_iff : along turns h = [] ↔ ∀ g, g <+: h → (turns g).calls = [] := by
  rw [along, List.flatMap_eq_nil_iff]
  constructor
  · exact fun hall g hg => hall g (mem_passed_iff.2 ⟨List.nil_prefix, hg⟩)
  · exact fun hall g hg => hall g (mem_passed_iff.1 hg).2

/-- A whole run resumes as its last turn does just if no earlier turn resumes. -/
theorem along_eq_calls_iff :
    along turns h = (turns h).calls ↔ ∀ g, g <+: h → g ≠ h → (turns g).calls = [] := by
  rcases List.eq_nil_or_concat h with rfl | ⟨h, a, rfl⟩
  · constructor
    · exact fun _ g hg hne => absurd (List.prefix_nil.1 hg) hne
    · exact fun _ => by simp [along, passed]
  · rw [List.concat_eq_append, along_snoc, List.append_left_eq_self, along_eq_nil_iff]
    constructor
    · intro hall g hg hne
      rcases List.prefix_concat_iff.1 hg with hg | hg
      · exact absurd hg hne
      · exact hall g hg
    · intro hall g hg
      refine hall g (hg.trans (List.prefix_append _ _)) ?_
      rintro rfl
      have hle := hg.length_le
      rw [List.length_append, List.length_singleton] at hle
      omega

/-- Whole runs for these histories resume no more than the last turns of each do just if these are the
only turns that resume. -/
theorem flatMap_along_eq_iff {histories : List (List V)} :
    histories.flatMap (along turns) = histories.flatMap (fun h => (turns h).calls) ↔
      ∀ h ∈ histories, ∀ g, g <+: h → g ≠ h → (turns g).calls = [] := by
  constructor
  · intro heq h hh
    refine along_eq_calls_iff.1 ?_
    have hlength := length_eq_of_flatMap (fun h _ => (suffix_along h).length_le)
      (congrArg List.length heq).symm h hh
    exact ((suffix_along h).eq_of_length hlength).symm
  · intro hall
    rw [List.flatMap_def, List.flatMap_def]
    exact congrArg List.flatten
      (List.map_congr_left fun h hh => along_eq_calls_iff.2 (hall h hh))

end Whole

section Asking

open Classical in
/-- What a function is called with, as it looks, at a call of it. -/
noncomputable def asked (S : Scene V) (function : Function) : Call → List V
  | .mk (.function _ f) arguments _ =>
    if f = function then (arguments.answer?.map S.see).toList else []
  | _ => []

/-- What a run does that passes these histories and replays the body for each of them from the
beginning. It resumes no more than an uninterrupted run that goes on with these histories just if the
body does not resume before the last answer of any of them. -/
structure Repeated (S : Scene V) (function : Function) (turns : List V → Turn V τ)
    (histories : List (List V)) (cs : List Call) : Prop where
  asked : collect (asked S function) cs = histories.flatMap (along turns)
  once_iff : collect (AlgebraicEffects.asked S function) cs =
      histories.flatMap (fun h => (turns h).calls) ↔
    ∀ h ∈ histories, ∀ g, g <+: h → g ≠ h → (turns g).calls = []

/-- The protocol of a program whose replays are not remembered, whose state is the path of answers to
it. It shows what the direct semantics has there, and a resumption replays the body for each history
that it passes. -/
def repeating (S : Scene V) (function : Function) (turns : List V → Turn V (Tree V)) :
    Protocol S (List V) where
  meets w e path := ∀ n, (coroutineOf turns).direct [] path n → S.Shows w e n
  awaits path a := ∃ n, (coroutineOf turns).direct [] (path ++ [a]) n
  next _ path a cs _ path' := path' = path ++ [a] ∧ ∀ g zs m n,
    Coroutine.At (coroutineOf turns) (coroutineOf turns []) [] path g m →
    Coroutine.At (coroutineOf turns) (coroutineOf turns []) [] path' (g ++ zs) n →
    Repeated S function turns (passed g zs) cs

variable {function : Function}

theorem Repeated.of_collect {turns : List V → Turn V τ} {histories : List (List V)} {cs : List Call}
    (h : collect (AlgebraicEffects.asked S function) cs = histories.flatMap (along turns)) :
    Repeated S function turns histories cs where
  asked := h
  once_iff := by
    rw [h]
    exact flatMap_along_eq_iff

/-- A call of another function asks nothing. -/
theorem asked_of_ne {f : Function} (tag : Nat) (arguments : Arguments Value) (inner : List Call)
    (hne : f ≠ function) : asked S function (.mk (.function tag f) arguments inner) = [] :=
  if_neg hne

theorem overlooks_asked (table : Handler.Table) (atLeaf : Option Value) (resume : Value) :
    Overlooks (asked S (.under table atLeaf resume)) where
  grafted _ _ _ _ := asked_of_ne _ _ _ nofun
  replaying _ _ _ _ _ _ := asked_of_ne _ _ _ nofun

end Asking

section Entries

variable {β : Type} (f : Call → List β) (C : Course S) (Given : List Value → Prop) (root : S.World)

/-- A plain function that gives the generators of `g`: it calls `g` with its own arguments and gives
back the generator. -/
structure Relays (wrapper g : Value) : Prop where
  plain : wrapper.isGeneratorFunction = false
  relays (w : S.World) (positional : List Value) : C.Later root w → Given positional →
    ∃ us u, C.Later w u ∧ Given us ∧ ∀ cs address name s,
      Traced (Action.invoke g ⟨us, []⟩) (S.store u) cs (.ok (.generator address name)) s →
      ∃ ds, Traced (Action.invoke wrapper ⟨positional, []⟩) (S.store w) ds
          (.ok (.generator address name)) s ∧
        collect f ds = collect f cs

/-- The ways in which a generator function can stand in a table without being the entry itself. -/
inductive Wraps (g : Value) : Value → Prop where
  | plain {wrapper : Value} : Relays f C Given root wrapper g → Wraps g wrapper
  | arrow (tag own : Nat) : Wraps g (.arrow tag (.generated own g))

variable {f C Given root}

theorem Wraps.isGeneratorFunction {g entry : Value} (h : Wraps f C Given root g entry) :
    entry.isGeneratorFunction = false := by
  cases h with
  | plain h => exact h.plain
  | arrow => rfl

variable {B : Coroutine V (Tree V)} {tally : List V → List β} {keywords : List (String × Value)}

theorem Tallied.later {factory : Value} {w : S.World} (hw : C.Later root w)
    (h : Tallied f C B tally factory Given keywords root) :
    Tallied f C B tally factory Given keywords w :=
  fun u positional ys hu => h u positional ys (C.trans hw hu)

/-- What is found in the replays of a generator function is found in those of a plain function that
gives its generators. -/
theorem Relays.tallied {wrapper g : Value} (hrelays : Relays f C Given root wrapper g)
    (h : Tallied f C B tally g Given [] root) : Tallied f C B tally wrapper Given [] root := by
  intro w positional ys hw hpositional hknown hawaits hstops
  obtain ⟨us, u, hu, hus, hpass⟩ := hrelays.relays w positional hw hpositional
  obtain ⟨address, name, s, cs, fed, es, z, hmade, hsent, hz, hfound, hstop⟩ :=
    h u us ys (C.trans hw hu) hus (fun y hy => C.known hu (hknown y hy)) hawaits hstops
  obtain ⟨ds, hwrapped, hsame⟩ := hpass cs address name s hmade
  refine ⟨address, name, s, ds, fed, es, z, hwrapped, hsent, C.trans hu hz, ?_, hstop⟩
  rw [collect_append, hsame, ← collect_append]
  exact hfound

/-- An arrow is called once, and what it gives is no generator. -/
theorem traced_buildOn_arrow {g : Value} {tag own : Nat} {us : List Value} {s t : Store}
    {cs : List Call} {e : Ending} (b : Nat)
    (h : Traced (Replay.build g (.tuple 0 us) [] (.tuple 0 [])) s cs e t) :
    Traced (Replay.buildOn (.arrow tag (.generated own g)) (.tuple b us) us [] (.tuple 0 [])) s
      [.mk (.arrow tag (.generated own g)) ⟨us, []⟩
        [.mk (.function own (.programFactory g)) ⟨us, []⟩ cs]] (e.map Program.lift) t := by
  have hfactory : Traced ((Value.function own (.programFactory g)).apply ⟨us, []⟩) s cs e t := h
  have harrow : Traced ((Value.arrow tag (.generated own g)).apply ⟨us, []⟩) s
      [.mk (.function own (.programFactory g)) ⟨us, []⟩ cs] (e.map Program.lift) t :=
    hfactory.invoke.map Program.lift
  rw [Replay.buildOn_eq]
  cases e with
  | error x => exact harrow.invoke.bind_error
  | ok v =>
    rw [← List.append_nil [Call.mk _ _ _]]
    refine harrow.invoke.bind ?_
    show Traced _ t [] (.ok (Program.lift v)) t
    rcases Replay.lift_cases v with ⟨_, _, _, _, rfl⟩ | ⟨_, _, hleaf⟩
    · exact .done _ _
    · rw [hleaf]
      exact .done _ _

/-- The action builds a program that behaves as the direct semantics of the body and tallies a replay
for each history that is passed. -/
def Tallies (f : Call → List β) (C : Course S) (B : Coroutine V (Tree V)) (tally : List V → List β)
    (root : S.World) (action : Action Value) : Prop :=
  ∃ cs e u, Traced action (S.store root) cs e (S.store u) ∧ C.Later root u ∧
    (∀ zs m, Coroutine.At B (B []) [] [] zs m → collect f cs = ([] :: passed [] zs).flatMap tally) ∧
    Behaves C C.Later (tallying f B tally S []) u e []

variable (hgiven : Settles Given) (hf : Overlooks f) {tag own : Nat}
include hgiven hf

/-- A program that is built without a history. -/
theorem tallies_build {factory : Value} (hbody : Tallied f C B tally factory Given keywords root)
    (a : Nat) {positional : List Value} (hpositional : Given positional) {n : Node V}
    (hn : B.direct [] [] n) :
    Tallies f C B tally root (Replay.build factory (.tuple a positional) keywords (.tuple 0 [])) := by
  obtain ⟨t, us, w, hsettled, hw, hus⟩ := exists_settled C hgiven factory root a hpositional
  obtain ⟨cs, e, u, hbuilt, hu, hfound, hbehaves⟩ := exists_tallied hgiven (hbody.later hw) hf t 0 hus
    (fun y hy => absurd hy List.not_mem_nil) Coroutine.awaits_nil hn
  exact ⟨[] ++ cs, e, u, hsettled.bind hbuilt, C.trans hw hu, hfound, hbehaves⟩

/-- The arrow over a generator function gives the program that is built from its source. -/
theorem tallies_build_arrow {g : Value} (hbody : Tallied f C B tally g Given [] root)
    (hskips : ∀ callee call inner, callee = Value.arrow tag (.generated own g) ∨
      callee = Value.function own (.programFactory g) → f (.mk callee call inner) = [])
    (a : Nat) {positional : List Value} (hpositional : Given positional) {n : Node V}
    (hn : B.direct [] [] n) :
    Tallies f C B tally root
      (Replay.build (.arrow tag (.generated own g)) (.tuple a positional) [] (.tuple 0 [])) := by
  obtain ⟨t, us, w, hsettled, hw, hus⟩ :=
    exists_settled C hgiven (.arrow tag (.generated own g)) root a hpositional
  obtain ⟨cs, e, u, hbuilt, hu, hfound, hbehaves⟩ :=
    tallies_build hgiven hf (hbody.later hw) 0 hus hn
  refine ⟨_, e.map Program.lift, u, hsettled.bind (traced_buildOn_arrow t hbuilt), C.trans hw hu,
    fun zs m d => ?_, hbehaves.lifted fun w v path h n hn => (h n hn).lifted⟩
  rw [List.nil_append, collect_singleton, collect_singleton, hskips _ _ _ (.inl rfl),
    hskips _ _ _ (.inr rfl), List.nil_append, List.nil_append]
  exact hfound zs m d

end Entries

section Relay

/-- A plain function of one parameter that gives what `g` gives for it. -/
def relay (g : Value) : Value :=
  .arrowOf (.closure "relay" ⟨["resume"], none⟩
    (.form (.primitive .call) [.variable "g", .variable "resume"] []) [("g", g)])

variable {C : Course S} {root : S.World} {resume : Function}

/-- The scope of a call with a function that keeps what it is when it is given its identity. -/
theorem traced_scope (hresume : ∀ n, (resume.tagged n).1 = resume) (captured : Scope) (s : Store)
    (tag : Nat) : ∃ m, Traced (Params.scope ⟨["resume"], none⟩ captured (.of [.function tag resume])) s
      [] (.ok (Scope.set "resume" (.function m resume) captured))
      (s.identifyAll (.of [.function tag resume])).2 := by
  obtain ⟨m, hm⟩ := identifyAll_function hresume s tag
  have hidentify := traced_identifyAll s (.of [.function tag resume])
  rw [hm] at hidentify
  exact ⟨m, hidentify.bind (.done _ _)⟩

theorem relays_relay (hresume : ∀ n, (resume.tagged n).1 = resume)
    (hne : ∀ name params body scope, Function.closure name params body scope ≠ resume) (g : Value) :
    Relays (asked S resume) C (fun vs => ∃ tag, vs = [.function tag resume]) root (relay g) g where
  plain := rfl
  relays := by
    rintro w _ - ⟨tag, rfl⟩
    obtain ⟨u, hu, hstore⟩ := C.identifiedAll w (.of [.function tag resume])
    obtain ⟨m, hscope⟩ := traced_scope hresume [("g", g)] (S.store w) tag
    rw [← hstore] at hscope
    refine ⟨[.function m resume], u, hu, ⟨m, rfl⟩, fun cs address name s hmade => ?_⟩
    have hcalled := hmade.bind (traced_identify s (.generator address name))
    have happlied : Traced ((relay g).apply ⟨[.function tag resume], []⟩) (S.store w) _
      (.ok (.generator address name)) s := hscope.bind hcalled
    refine ⟨_, happlied.invoke, ?_⟩
    have hskips : asked S resume (.mk (relay g) ⟨[.function tag resume], []⟩ ([] ++ (cs ++ []))) = [] :=
      asked_of_ne _ _ _ (hne _ _ _ _)
    rw [collect_singleton, hskips]
    simp only [List.nil_append, List.append_nil]

end Relay

section Evaluation

variable {C : Course S} {Given : List Value → Prop} {root : S.World}
  {turns : List V → Turn V (Tree V)} {table : Handler.Table} {atLeaf : Option Value}
  {program g entry resume : Value} {tag : Nat} {name : String} {operands : List Value}

/-- What shows the direct semantics and tallies whole runs repeats them. -/
theorem Behaves.repeating {function : Function} {w : S.World} {e : Ending}
    (h : Behaves C C.Later
      (tallying (asked S function) (coroutineOf turns) (along turns) S []) w e []) :
    Behaves C C.Later (AlgebraicEffects.repeating S function turns) w e [] := by
  refine h.simulates (fun _ path path' => path = path') (fun _ _ hu => hu) (fun _ _ _ _ _ h => h)
    ?_ ?_ ?_ rfl
  · rintro w e path _ rfl hm
    exact hm
  · rintro w path _ a rfl ha
    exact ha
  · rintro w path _ a cs u path' rfl - hu ⟨hpath, hfound⟩
    exact ⟨hu, path', rfl, hpath, fun ys zs m n d d' => .of_collect (hfound ys zs m n d d')⟩

/-- Evaluated under a handler whose implementation gives the generators of a deterministic generator
function without being it, an operation gives a program that unfolds to the direct semantics of the
body. The continuation is called as in a whole run of the body for each history that is passed. -/
theorem evaluate_repeats (hgiven : Settles Given)
    (hoperation : Program.lift program = .operation tag name operands resume)
    (hlookup : table.lookup name = some entry)
    (hwraps : Wraps (asked S (.under table atLeaf resume)) C Given root g entry)
    (hoperands : Given (operands ++ [.arrowOf (.under table atLeaf resume)]))
    (hbody : Tallied (asked S (.under table atLeaf resume)) C (coroutineOf turns) (along turns) g
      Given [] root)
    {n : Node V} (hn : (coroutineOf turns).direct [] [] n) :
    ∃ cs e u, Traced (Handler.evaluate table atLeaf program) (S.store root) cs e (S.store u) ∧
      C.Later root u ∧ Unfolds C Freely u e ((coroutineOf turns).direct []) ∧
      (∀ zs m, Coroutine.At (coroutineOf turns) (coroutineOf turns []) [] [] zs m →
        Repeated S (.under table atLeaf resume) turns ([] :: passed [] zs) cs) ∧
      Behaves C C.Later (repeating S (.under table atLeaf resume) turns) u e [] := by
  have hevaluate : Handler.evaluate table atLeaf program = Replay.build entry
      (.tuple 0 (operands ++ [.arrowOf (.under table atLeaf resume)])) [] (.tuple 0 []) := by
    rw [← Handler.evaluate_lift, hoperation]
    exact Handler.evaluate_handled hlookup hwraps.isGeneratorFunction tag operands resume
  have hbuilt : Tallies (asked S (.under table atLeaf resume)) C (coroutineOf turns) (along turns)
      root (Replay.build entry (.tuple 0 (operands ++ [.arrowOf (.under table atLeaf resume)])) []
        (.tuple 0 [])) := by
    cases hwraps with
    | plain hrelays =>
      exact tallies_build hgiven (overlooks_asked table atLeaf resume) (hrelays.tallied hbody) 0
        hoperands hn
    | arrow arrowTag own =>
      refine tallies_build_arrow hgiven (overlooks_asked table atLeaf resume) hbody ?_ 0 hoperands hn
      rintro callee call inner (rfl | rfl)
      · rfl
      · exact asked_of_ne own call inner nofun
  obtain ⟨cs, e, u, hrun, hu, hfound, hbehaves⟩ := hbuilt
  exact ⟨cs, e, u, hevaluate ▸ hrun, hu, hbehaves.unfolds, fun zs m d => .of_collect (hfound zs m d),
    hbehaves.repeating⟩

end Evaluation

section Insisting

/-- A body that resumes with one, yields the sub-program and returns its answer. -/
private def insistBody : List Stmt :=
  [.yield (some "y") (.form (.primitive .call) [.variable "resume", .variable "one"] []),
   .finish (.variable "y")]

private def insist : Value := .arrowOf (.generatorBody "insist" ⟨["resume"], none⟩ insistBody [("one", .int 1)])

private def insistTurns : List (Option Int) → Turn (Option Int) (Tree (Option Int))
  | [] => ⟨[some 1], .yields (Tree.leaf (some 1))⟩
  | [a] => ⟨[], .ends (Tree.leaf a)⟩
  | _ => ⟨[], .diverges⟩

/-- The continuation of `act` under a handler; it only carries its answer. -/
private def insistResume (entry : Value) : Function := .under [("act", entry)] none (.arrowOf .leaf)

private def insistScope (tag : Nat) (entry : Value) : Scope :=
  [("resume", .function tag (insistResume entry)), ("one", .int 1)]

/-- The arguments of `act` are its continuation alone. -/
private def Insists (entry : Value) (vs : List Value) : Prop :=
  ∃ tag, vs = [.function tag (insistResume entry)]

variable {entry : Value}

private theorem start_insist (s : Store) {g m : Nat} (hlt : g < s.generators.size)
    (hg : s.generatorAt g = .fresh (insistScope m entry) insistBody) :
    ∃ cs t k, Traced (Generator.progress g .nothing) s cs (.ok (.yielded (.leaf k (.int 1)))) t ∧
      collect (asked Scene.integers (insistResume entry)) cs = [some 1] ∧
      t.generatorAt g = .suspended (some "y") (insistScope m entry) [.block insistBody.tail] := by
  have hcarry : Traced ((Value.function m (insistResume entry)).apply (.of [.int 1]))
      (s.setGenerator g .running) [.mk (.arrowOf .leaf) (.of [.int 1]) []] (.ok (.leaf 0 (.int 1)))
      (s.setGenerator g .running) := .call (.done _ _) (.done _ _)
  have hcalled := hcarry.invoke.bind (traced_identify (s.setGenerator g .running) (.leaf 0 (.int 1)))
  have hbody : Traced ((Value.arrowOf (.proceeding g (insistScope m entry) [.block insistBody])).apply
      (.of [])) (s.setGenerator g .running) _ _ _ := hcalled.attempt.bind (.write (.done _ _))
  have hstarted : Traced (Generator.progress g .nothing) s _ _ _ :=
    Generator.traced_progress_yielded (Generator.traced_advance_of_scripted (.inl ⟨_, _, hg⟩)
      (Generator.traced_advanceBody_of_fresh hg (Generator.traced_guarded hbody.invoke)))
  have hsize : g < ((s.setGenerator g .running).identify (.leaf 0 (.int 1))).2.generators.size := by
    obtain ⟨n, -, hn⟩ := Store.identify_snd (s.setGenerator g .running) (.leaf 0 (.int 1))
    rw [hn]
    exact (Store.size_setGenerator s g .running).symm ▸ hlt
  refine ⟨_, _, _, hstarted, ?_, ?_⟩
  · have hone : (Arguments.of [Value.int 1]).answer? = some (.int 1) := rfl
    simp [collect, Call.collect, asked, Value.arrowOf, insistResume, hone, Scene.integers,
      Value.integer?]
  · exact Store.generatorAt_setGenerator _ _ _ hsize

private theorem finish_insist (s : Store) {g m : Nat} (answer : Value)
    (hg : s.generatorAt g =
      .suspended (some "y") (insistScope m entry) [.block insistBody.tail]) :
    ∃ cs t, Traced (Generator.progress g answer) s cs (.ok (.returned answer)) t ∧
      collect (asked Scene.integers (insistResume entry)) cs = [] := by
  have hfinished : Traced (Generator.progress g answer) s _ _ _ :=
    Generator.traced_progress_returned (Generator.traced_advance_of_scripted (.inr ⟨_, _, _, hg⟩)
      (Generator.traced_advanceBody_of_suspended hg
        (Generator.traced_guarded_error (Traced.invoke (.fail (.exhausted answer) _)))))
  refine ⟨_, _, hfinished, ?_⟩
  simp [collect, Call.collect, asked, Value.arrowOf, insistResume]

private theorem insist_tallied (root : Store) :
    Tallied (asked Scene.integers (insistResume entry)) Course.integers (coroutineOf insistTurns)
      (along insistTurns) insist (Insists entry) [] root := by
  rintro w _ ys - ⟨tag, rfl⟩ hknown - hstops
  obtain ⟨m, hscope⟩ := @traced_scope (insistResume entry) (fun _ => rfl) [("one", .int 1)] w tag
  generalize (Store.identifyAll w (.of [.function tag (insistResume entry)])).2 = u at hscope
  have happlied : Traced (insist.apply ⟨[.function tag (insistResume entry)], []⟩) w []
      (.ok (.generator u.generators.size "insist"))
      (u.addGenerator (.fresh (insistScope m entry) insistBody)) :=
    hscope.bind (.read (.write (.done _ _)))
  have hmade := happlied.invoke
  have hquiet : collect (asked Scene.integers (insistResume entry))
      [.mk insist ⟨[.function tag (insistResume entry)], []⟩ []] = [] := by
    simp [collect, Call.collect, asked, insist, Value.arrowOf, insistResume]
  obtain ⟨cs, t, k, hstart, hasked, hnext⟩ :=
    start_insist (u.addGenerator (.fresh (insistScope m entry) insistBody)) (g := u.generators.size)
      (by simp) (Store.generatorAt_addGenerator u _)
  rcases ys with - | ⟨y, - | ⟨z, zs⟩⟩
  · refine ⟨_, _, _, _, _, _, t, hmade, Replay.traced_sent hstart (Replay.traced_feed_nil _ _ _ _),
      trivial, ?_, ?_⟩
    · rw [List.append_nil, collect_append, hquiet, hasked]
      rfl
    · exact .yielded (unfolds_leaf (S := Scene.integers) (x := .int 1) rfl ⟨1, rfl⟩)
  · obtain ⟨n, rfl⟩ := hknown y (List.mem_singleton_self y)
    obtain ⟨ds, z, hfinish, hnothing⟩ := finish_insist t (.int n) hnext
    refine ⟨_, _, _, _, _, _, z, hmade,
      Replay.traced_sent hstart (Replay.traced_feed_returned hfinish), trivial, ?_, ?_⟩
    · rw [collect_append, collect_append, hquiet, hasked, hnothing]
      rfl
    · exact .returned (unfolds_leaf (S := Scene.integers) (v := .int n) rfl ⟨n, rfl⟩)
  · exact absurd rfl hstops

private theorem insist_settles : Settles (Insists entry) := by
  rintro s a _ ⟨tag, rfl⟩
  cases a with
  | succ a => exact ⟨_, _, rfl, tag, rfl⟩
  | zero => cases tag <;> exact ⟨_, _, rfl, _, rfl⟩

theorem evaluate_repeats_insist :
    (∃ cs e u, Traced (Handler.evaluate [("act", relay insist)] none act) Store.empty cs e u ∧
      collect (asked Scene.integers (insistResume (relay insist))) cs = [some 1, some 1]) ∧
    ∃ cs e u, Traced (Handler.evaluate [("act", .arrow 0 (.generated 0 insist))] none act)
        Store.empty cs e u ∧
      collect (asked Scene.integers (insistResume (.arrow 0 (.generated 0 insist)))) cs =
        [some 1, some 1] := by
  have hpath : Coroutine.At (coroutineOf insistTurns) (coroutineOf insistTurns []) [] [] [some 1]
      (.leaf (some 1)) := .leaf ⟨rfl, rfl⟩ (.ended ⟨rfl, rfl⟩)
  constructor
  · obtain ⟨cs, e, u, hrun, -, -, hrepeated, -⟩ := evaluate_repeats (C := Course.integers)
      insist_settles lift_act rfl (.plain (relays_relay (fun _ => rfl) (by simp) insist)) ⟨_, rfl⟩
      (insist_tallied Store.empty) ⟨_, hpath⟩
    exact ⟨cs, e, u, hrun, (hrepeated _ _ hpath).asked⟩
  · obtain ⟨cs, e, u, hrun, -, -, hrepeated, -⟩ := evaluate_repeats (C := Course.integers)
      insist_settles lift_act rfl (.arrow 0 0) ⟨_, rfl⟩ (insist_tallied Store.empty) ⟨_, hpath⟩
    exact ⟨cs, e, u, hrun, (hrepeated _ _ hpath).asked⟩

end Insisting

end AlgebraicEffects
