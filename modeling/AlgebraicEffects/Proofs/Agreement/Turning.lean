import AlgebraicEffects.Proofs.Agreement.Operations
import AlgebraicEffects.Proofs.Schedule.Turns
import AlgebraicEffects.Run

/-!
The turn of a flow on a host.

A flow prints by the handler innermost, notes its value at the end, and is suspended on a host. What is
known of a run is kept beside the store: the stage of its flows, and what the host keeps (`Hosting`). In
its turn a flow does to both what its play does (`Hosting.turn`).
-/

set_option autoImplicit false

namespace AlgebraicEffects

open Action (Traced)
open Output (printName)
open Suspension (suspendName)

variable {V : Type} {S : Scene V} {C : Course S} {L : Listener} {base dest : Nat} {host sink : Value}

/-- The table of the handler that prints. -/
def printTable (sink : Value) : Handler.Table := [(printName, .arrowOf (.emitTo sink))]

/-- The continuation of a suspended flow, as the host is given it. The flow prints and notes its value
at the end. -/
def reentry (host sink : Value) (dest : Nat) (resume : Value) : Value :=
  .arrowOf (.resumeChecked (.arrowOf (.under (suspensionTable host) none
    (.arrowOf (.under (printTable sink) none (.arrowOf (.grafted resume (.arrowOf (.recordIn dest)))))))))

/-- What the action ends as takes its turn: it prints, notes its value and is suspended. Then this has
been said, and so it is. -/
def InTurn (C : Course S) (L : Listener) (host sink : Value) (dest : Nat) (a : Action Value)
    (w : S.World) (Q : List V → S.World → Prop) : Prop :=
  ∃ said, Tells C L ((a.bind fun q => Program.graft q (.arrowOf (.recordIn dest))).bind
      (Handler.evaluate (printTable sink) none)) w said
    (Lands fun z e => ∃ q, e = .ok q ∧ ∃ more,
      Tells C L (Handler.evaluate (suspensionTable host) none q) z more (AtLeaf (Q (said ++ more))))

section Worlds

variable {α : Type} {w u : S.World} {said : List V} {Q : S.World → Ending → Prop}

/-- What hosts and flows do to what belongs to them is a step of the course. -/
theorem Tells.admitted (hC : C.Admits base) {a : Action α} {k : α → Action Value} {x : α} {t : Store}
    (htr : Traced a (S.store w) [] (.ok x) t) (ht : (S.store w).Around base t)
    (h : ∀ u, S.store u = t → C.Later w u → Tells C L (k x) u said Q) : Tells C L (a.bind k) w said Q := by
  obtain ⟨u, rfl, hu⟩ := hC w t ht
  obtain ⟨cs, o, z, hk, hz, hsaid, ho⟩ := h u rfl hu
  exact ⟨cs, o, z, htr.bind hk, C.trans hu hz, hsaid, ho⟩

end Worlds

section Rules

variable {a b : Action Value} {w y : S.World} {Q : List V → S.World → Prop} {q resume answer next : Value}
  {tag own : Nat}

/-- The first part of a turn may be made by a function of the library. -/
theorem Tells.grafted {k : Value → Action Value} {said : List V} {R : S.World → Ending → Prop}
    (h : Tells C L (((Action.ask resume [answer]).bind fun q => Program.graft q next).bind k) w said R) :
    Tells C L ((Action.ask (.arrowOf (.grafted resume next)) [answer]).bind k) w said R := by
  obtain ⟨cs, o, z, htr, hz, hsaid, hR⟩ := h
  obtain ⟨ds, htr, hds⟩ := (Resolves.ask (f := .grafted resume next) rfl [answer] (S.store w)).bind k cs o _ htr
  exact ⟨ds, o, z, htr, hz, hds.trans hsaid, hR⟩

theorem InTurn.mono {R : List V → S.World → Prop} (h : InTurn C L host sink dest a w Q)
    (hQ : ∀ said z, Q said z → R said z) : InTurn C L host sink dest a w R := by
  obtain ⟨said, h⟩ := h
  refine ⟨said, h.mono fun z e _ ⟨p, hp, hprogram, q, hq, more, hmore⟩ =>
    ⟨p, hp, hprogram, q, hq, more, hmore.mono fun u o _ hu => ⟨hu.1, hQ _ _ hu.2⟩⟩⟩

theorem InTurn.resolved (h : InTurn C L host sink dest b y Q) (hy : C.Later w y)
    (hresolves : Resolves S L a (S.store w) b (S.store y)) : InTurn C L host sink dest a w Q := by
  obtain ⟨said, cs, o, z, htr, hz, hsaid, hq⟩ := h
  obtain ⟨ds, htr, hds⟩ := ((hresolves.bind _).bind _) cs o _ htr
  exact ⟨said, ds, o, z, htr, C.trans hy hz, hds.trans hsaid, hq⟩

/-- What settles goes on with its turn. -/
theorem InTurn.settles {R : S.World → Ending → Prop} (h : Quietly C L base a w R)
    (hR : ∀ z e, R z e → ∃ v, e = .ok v)
    (hturn : ∀ z v, (C.reserving base).Later w z → R z (.ok v) →
      InTurn C L host sink dest (.done v) z Q) : InTurn C L host sink dest a w Q := by
  obtain ⟨v, z, hz, hv, hresolves⟩ := h.exists_resolved hR .done
  rw [Action.bind_done] at hresolves
  exact (hturn z v hz hv).resolved hz.1 hresolves

/-- A flow that has reached its end notes its value. -/
theorem InTurn.leaf {x : Value} (hq : Program.lift q = .leaf tag x)
    (h : Tells C L (Action.ask (.arrowOf (.recordIn dest)) [x]) w [] fun z e =>
      (∃ y, e = .ok (.leaf 0 y)) ∧ Q [] z) : InTurn C L host sink dest (.done q) w Q := by
  refine ⟨[], .bind_silent (.graft_of_leaf hq rfl (h.mono fun z e _ hz => ?_))⟩
  obtain ⟨⟨y, rfl⟩, hQ⟩ := hz
  refine ⟨_, rfl, _, rfl, ?_⟩
  rw [Handler.evaluate_leaf rfl]
  refine .done ⟨_, rfl, rfl, _, rfl, [], ?_⟩
  rw [Handler.evaluate_leaf rfl]
  exact .done ⟨⟨_, _, rfl⟩, hQ⟩

/-- A flow is suspended: the function that it is suspended with is called with its continuation and
the host. -/
theorem InTurn.suspended {f : Function} {said : List V} (hf : f.isInternal = true)
    (h : Tells C L (f.apply (.of [reentry host sink dest resume, host])) w said fun z e =>
      (∃ x, e = .ok x) ∧ Q said z) :
    InTurn C L host sink dest (.done (.operation tag suspendName [.function own f] resume)) w Q := by
  refine ⟨[], .bind_silent (.done ⟨_, rfl, ?_⟩)⟩
  rw [Handler.evaluate_forwarded rfl]
  refine .done ⟨_, rfl, rfl, _, rfl, said, ?_⟩
  rw [Handler.evaluate_handled rfl rfl]
  refine (Tells.build rfl rfl ?_).mono fun _ _ _ h => h.holds
  rw [← List.append_nil said]
  refine Tells.bind (.invoke (L.deaf own hf) (h.mono fun z e _ hz => ?_))
  obtain ⟨⟨x, rfl⟩, hQ⟩ := hz
  refine ⟨x, rfl, .done ⟨_, rfl, rfl, ⟨_, _, rfl⟩, ?_⟩⟩
  rw [List.append_nil]
  exact hQ

/-- A flow that prints is heard, and goes on with its turn. -/
theorem InTurn.printed (hsink : Sink (C.reserving base) L sink) {x : Value}
    (h : ∀ z, (C.reserving base).Later w z →
      InTurn C L host sink dest (Action.ask resume [.nothing]) z fun more => Q (S.see x :: more)) :
    InTurn C L host sink dest (.done (.operation tag printName [x] resume)) w Q := by
  obtain ⟨cs, o, z, htr, hz, hsaid, r, rfl⟩ := hsink.tells w x
  obtain ⟨said, hnext⟩ := h z hz
  refine ⟨S.see x :: said, .bind_silent (.done ⟨_, rfl, ?_⟩)⟩
  rw [Handler.evaluate_handled rfl rfl]
  refine .build rfl rfl ?_
  show Tells C L _ w ([S.see x] ++ said) _
  refine Tells.bind ⟨cs, .ok r, z, htr, hz.1, hsaid, r, rfl, .ask rfl ?_⟩
  show Tells C L ((Action.ask (.arrowOf (.grafted resume (.arrowOf (.recordIn dest)))) [.nothing]).bind
    (Handler.evaluate (printTable sink) none)) z said _
  exact hnext.grafted

/-- The host calls a suspended flow back, and the flow takes its turn. -/
theorem InTurn.recalled {arguments : List Value}
    (harguments : arguments = [answer] ∨ arguments = [] ∧ answer = .nothing)
    (h : InTurn C L host sink dest (Action.ask resume [answer]) w Q) :
    ∃ said, Tells C L (Action.ask (reentry host sink dest resume) arguments) w said
      (AtLeaf (Q said)) := by
  obtain ⟨said, cs, _, z, htr, hz, hsaid, q, rfl, -, hq⟩ := h
  obtain ⟨p, hp, more, hevaluated⟩ := hq
  cases hp
  have hprinted : Tells C L (Action.ask (.arrowOf (.under (printTable sink) none
      (.arrowOf (.grafted resume (.arrowOf (.recordIn dest)))))) [answer]) w said fun u e =>
        ∃ p, e = .ok p ∧ Tells C L (Handler.evaluate (suspensionTable host) none p) u more
          (AtLeaf (Q (said ++ more))) :=
    .ask rfl (Tells.grafted ⟨cs, _, z, htr, hz, hsaid, q, rfl, hevaluated⟩)
  have hresumed := hprinted.under
  have hchecked : Tells C L ((Action.ask (.arrowOf (.under (suspensionTable host) none
      (.arrowOf (.under (printTable sink) none
        (.arrowOf (.grafted resume (.arrowOf (.recordIn dest)))))))) [answer]).bind
          Suspension.ensureHandled) w (said ++ more) (AtLeaf (Q (said ++ more))) := by
    rw [← List.append_nil (said ++ more)]
    refine Tells.bind (hresumed.mono fun u e _ h => ?_)
    obtain ⟨⟨tag, x, rfl⟩, hQ⟩ := h
    refine ⟨_, rfl, .done ⟨⟨tag, x, rfl⟩, ?_⟩⟩
    rw [List.append_nil]
    exact hQ
  refine ⟨said ++ more, .ask rfl ?_⟩
  rcases harguments with rfl | ⟨rfl, rfl⟩ <;> exact hchecked

/-- The function that a flow is suspended with calls it back at once. -/
theorem InTurn.at_once (h : InTurn C L host sink dest (Action.ask resume [answer]) w Q) :
    ∃ said, Tells C L ((Action.ask (reentry host sink dest resume) [answer]).bind fun _ =>
      .done .nothing) w said fun z e => (∃ x, e = .ok x) ∧ Q said z := by
  obtain ⟨said, hnext⟩ := h.recalled (.inl rfl)
  refine ⟨said, ?_⟩
  rw [← List.append_nil said]
  refine Tells.bind (hnext.mono fun z e _ hz => ?_)
  obtain ⟨⟨tag, x, rfl⟩, hQ⟩ := hz
  refine ⟨_, rfl, .done ⟨⟨_, rfl⟩, ?_⟩⟩
  rw [List.append_nil]
  exact hQ

end Rules

section Beginning

variable {program handlers : Value} {tag : Nat} {w : S.World} {Q : List V → S.World → Prop}

/-- Calling a handler evaluates the program under it. -/
theorem traced_handler (tag : Nat) {table : Handler.Table} {p : Value} {s t : Store} {cs : List Call}
    {o : Ending} (h : Traced (Handler.evaluate table none p) s cs o t) : ∃ ds,
    Traced (Action.ask (.handler tag table none) [Program.lift p]) s ds o t ∧
      L.heard S ds = L.heard S cs := by
  rw [← Handler.evaluate_lift] at h
  have hcall : Traced ((Value.handler tag table none).apply (.of [Program.lift p])) s cs o t := h
  exact ⟨_, hcall.invoke, L.heard_of_deaf (L.deaf_handler tag table none) _ cs⟩

/-- The flow with which a run begins takes its turn. -/
theorem InTurn.begins (h : InTurn C L host sink dest (.done program) w Q)
    (hitems : handlers.items = .done [.handler tag (printTable sink) none]) :
    ∃ cs z, Traced (Run.begin program handlers host dest) (S.store w) cs (.ok ()) (S.store z) ∧
      C.Later w z ∧ Q (L.heard S cs) z := by
  obtain ⟨said, cs, _, z, htr, hz, rfl, q, rfl, -, hq⟩ := h
  obtain ⟨p, hp, more, ds, _, u, hevaluated, hu, rfl, ⟨own, x, rfl⟩, hQ⟩ := hq
  cases hp
  have hgrafted : ∃ bs tracked t, Traced (Program.graft program (.arrowOf (.recordIn dest))) (S.store w)
      bs (.ok tracked) t := by
    obtain ⟨bs, o, t, hgraft⟩ := htr.exists_of_bind
    cases o with
    | ok tracked => exact ⟨bs, tracked, t, hgraft⟩
    | error f => cases (htr.unique hgraft.bind_error).2.1
  obtain ⟨bs, tracked, t, hgrafted⟩ := hgrafted
  obtain ⟨es, rfl, hprinted⟩ := htr.of_bind (k := Handler.evaluate (printTable sink) none) hgrafted
  obtain ⟨es', hprinted, hes⟩ := traced_handler (S := S) (L := L) tag hprinted
  obtain ⟨ds', hevaluated, hds⟩ := traced_handler (S := S) (L := L) 0 hevaluated
  have happlied : Traced (Handler.applyAll tracked [.handler tag (printTable sink) none,
      Suspension.handler host]) t (es' ++ (ds' ++ [])) (.ok (.leaf own x)) (S.store u) := by
    rw [Handler.applyAll_cons]
    refine hprinted.bind ?_
    rw [Handler.applyAll_cons]
    exact hevaluated.bind (.done _ _)
  refine ⟨bs ++ ((es' ++ (ds' ++ [])) ++ []), u, hgrafted.bind ?_, C.trans hz hu, ?_⟩
  · rw [hitems]
    exact happlied.bind (.done _ _)
  · simp only [L.heard_append, List.append_nil, hes, hds] at hQ ⊢
    rw [← List.append_assoc]
    exact hQ

end Beginning

end AlgebraicEffects
