import AlgebraicEffects.Proofs.Comparing.Arrows

/-!
What is attached to arrows.

An arrow can be given arguments early, and functions can be mapped over what it gives or bound to it; each
time this makes another arrow. Calling what a chain of such links has made is calling the arrow at its
beginning once, with the arguments of all links in front of those of the call, and then mapping and binding
the functions in their order (`arrow_chains_normalize`). Where arguments are given early twice in a row they
are kept together, and else one arrow calls another one. Both come to the same, as adding keywords is
associative (`Arguments.before_assoc`). Which arrows call each other on the way is not observed.
-/

set_option autoImplicit false

namespace AlgebraicEffects

open Action (Traced)

variable {V : Type} {S : Scene V} {C : Course S} {L : Listener} {w : S.World} {a b : Action Value}
  {f v base : Value}

/-- What is attached to an arrow. -/
inductive Link where
  /-- Arguments that are given early. -/
  | early (arguments : Arguments Value)
  /-- A function that is mapped over what the arrow gives. -/
  | mapped (mapper : Value)
  /-- A function that what the arrow gives is bound to. -/
  | bound (binder : Value)
  /-- The same, by the operator. -/
  | shifted (binder : Value)

namespace Link

/-- Whether what is attached can be attached. -/
def isCallable : Link → Bool
  | .early _ => true
  | .mapped f | .bound f | .shifted f => f.isCallable

/-- The failure of what cannot be attached. -/
def refusal : Link → Failure
  | .mapped _ => .mapperNotCallable
  | _ => .binderNotCallable

/-- The arguments that a link gives early. -/
def arguments : Link → Arguments Value
  | .early as => as
  | _ => .of []

/-- The arrow with what is attached to it. -/
def attach (a : Value) : Link → Action Value
  | .early as => do Action.invoke (← a.attributeNamed "partial") as
  | .mapped f => a.askNamed "fmap" [f]
  | .bound f => a.askNamed "and_then_k" [f]
  | .shifted f => Primitive.chainOnto a f

/-- What a link does with a program. -/
def perform (p : Value) : Link → Action Value
  | .early _ => .done p
  | .mapped f => Program.map p f
  | .bound f | .shifted f => Program.graft p f

/-- The arguments of a call behind those that the links give early. -/
def given (links : List Link) (call : Arguments Value) : Arguments Value :=
  links.foldr (fun l late => l.arguments.before late) call

/-- The arrow that a link makes. -/
def made (a : Value) : Link → Value
  | .early as =>
    match a with
    | .arrow _ (.partially base first keywords) =>
      let all := Arguments.before ⟨first, keywords⟩ as
      Arrow.partialApply base all.positional all.keywords
    | a => Arrow.partialApply a as.positional as.keywords
  | .mapped f => Arrow.ofCallable (.arrowOf (.fmapped a f))
  | .bound f | .shifted f => Arrow.ofCallable (.arrowOf (.chained a f))

end Link

section Making

variable {s t : Store} {cs : List Call} {l : Link} {u : Value} {c : Arrow}

/-- A function is attached to an arrow if it can be called. -/
theorem Arrow.traced_built (hv : v.IsArrow) (f : Value) (own : Function) (refusal : Failure) (s : Store) :
    Traced (if f.isCallable then Arrow.built v own else .fail refusal) s []
      (if f.isCallable then .ok (Arrow.ofCallable (.arrowOf own)) else .error refusal) s := by
  split
  · rw [hv.built_eq]
    exact .done _ s
  · exact .fail _ s

/-- A function that belongs to arrows, called by its name. -/
theorem Arrow.traced_named {m : Method} {name : String} {as : Arguments Value} {o : Ending} {tag : Nat}
    (hnamed : (Value.arrow tag c).attributeNamed name =
      .done ((Value.arrowOf (.method m)).bindTo (.arrow tag c)))
    (h : Traced (m.apply { as with positional := .arrow tag c :: as.positional }) s cs o t) :
    ∃ ds, Traced (do Action.invoke (← (Value.arrow tag c).attributeNamed name) as) s ds o t := by
  have hmethod : Traced (Action.invoke (.arrowOf (.method m))
      { as with positional := .arrow tag c :: as.positional }) s _ o t := .invoke h
  have hbound : Traced (((Value.arrowOf (.method m)).bindTo (.arrow tag c)).apply as) s _ o t := hmethod
  rw [hnamed]
  exact ⟨_, hbound.invoke⟩

/-- What is attached to an arrow makes another arrow, or it is refused. -/
theorem Link.traced_attach (hv : v.IsArrow) (l : Link) (s : Store) : ∃ cs,
    Traced (l.attach v) s cs (if l.isCallable then .ok (l.made v) else .error l.refusal) s := by
  have hfmap (f : Value) := Arrow.traced_built hv f (.fmapped v f) .mapperNotCallable s
  have hchain (f : Value) := Arrow.traced_built hv f (.chained v f) .binderNotCallable s
  cases l with
  | early as => cases hv <;> exact Arrow.traced_named rfl (.done _ s)
  | mapped f => cases hv <;> exact Arrow.traced_named rfl (hfmap f)
  | bound f => cases hv <;> exact Arrow.traced_named rfl (hchain f)
  | shifted f => cases hv <;> exact ⟨[], hchain f⟩

theorem Link.eq_made (hv : v.IsArrow) (h : Traced (l.attach v) s cs (.ok u) t) :
    l.isCallable = true ∧ u = l.made v := by
  obtain ⟨ds, htr⟩ := traced_attach hv l s
  obtain ⟨-, hends, -⟩ := h.unique htr
  split at hends
  · next hl =>
    cases hends
    exact ⟨hl, rfl⟩
  · cases hends

/-- The same arrow, perhaps with another identity. -/
inductive Value.SameArrow : Value → Value → Prop where
  | whole (tag tag' : Nat) (a : Arrow) : SameArrow (.arrow tag a) (.arrow tag' a)
  | plain (tag tag' own own' : Nat) (f : Function) :
      SameArrow (.arrow tag (.plain (.function own f))) (.arrow tag' (.plain (.function own' f)))

theorem Value.SameArrow.isArrow (h : v.SameArrow u) (hv : v.IsArrow) : u.IsArrow := by
  cases h with
  | plain tag tag' own own' f => exact .plain tag' _
  | whole tag tag' a =>
    cases hv with
    | plain tag f => exact .plain tag' f
    | generated tag own source => exact .generated tag' own source
    | partially tag first keywords hbase => exact .partially tag' first keywords hbase

theorem Value.SameArrow.plain_eq {own : Function} (h : (Arrow.ofCallable (.arrowOf own)).SameArrow u) :
    ∃ tag tag', u = .arrow tag (.plain (.function tag' own)) := by
  cases h with
  | whole _ tag => exact ⟨tag, _, rfl⟩
  | plain _ tag _ tag' => exact ⟨tag, tag', rfl⟩

theorem Link.isArrow_made (hv : v.IsArrow) (l : Link) : (l.made v).IsArrow := by
  cases l with
  | early as =>
    cases hv with
    | plain tag f => exact .partially 0 _ _ (.plain tag f)
    | generated tag own source => exact .partially 0 _ _ (.generated tag own source)
    | partially tag first keywords hbase => exact .partially 0 _ _ hbase
  | mapped f | bound f | shifted f => exact .plain 0 _

theorem Value.IsArrow.sameArrow (hv : v.IsArrow) : v.SameArrow v := by
  cases hv <;> exact .whole _ _ _

variable (hC : C.IsOpen) (hdeaf : ∀ tag a, L.hears (.arrow tag a) = false)
include hC hdeaf

/-- Calling what a link has made is calling the arrow that it is attached to, and then doing what the link
does. -/
theorem Link.agree_made (hv : v.IsArrow) (l : Link) (hl : l.isCallable = true)
    (hsame : (l.made v).SameArrow u) (w : S.World) (call : Arguments Value) :
    C.Agree L w (Action.invoke u call)
      ((Action.invoke v (l.arguments.before call)).bind l.perform) := by
  cases l with
  | mapped f =>
    obtain ⟨tag, tag', rfl⟩ := hsame.plain_eq
    show C.Agree L w _ ((Action.invoke v ((Arguments.of []).before call)).bind (Program.map · f))
    rw [Arguments.nothing_before, map_eq_graft hl]
    exact agree_over (k := (·.mapOver f)) hC hdeaf hv rfl (fun _ => rfl) (Value.mapOver_lift hl) tag tag' call
  | bound f | shifted f =>
    obtain ⟨tag, tag', rfl⟩ := hsame.plain_eq
    show C.Agree L w _ ((Action.invoke v ((Arguments.of []).before call)).bind (Program.graft · f))
    rw [Arguments.nothing_before]
    exact agree_over hC hdeaf hv rfl (fun _ => rfl) (Value.andThen_lift · f) tag tag' call
  | early as =>
    show C.Agree L w _ ((Action.invoke v (as.before call)).bind .done)
    rw [Action.bind_done]
    cases hv with
    | plain tag f =>
      cases hsame with
      | whole _ tag' => exact agree_partially hC hdeaf (.plain tag f) tag' as call
    | generated tag own source =>
      cases hsame with
      | whole _ tag' => exact agree_partially hC hdeaf (.generated tag own source) tag' as call
    | partially tag first keywords hbase =>
      cases hsame with
      | whole _ tag' =>
        have hall := agree_partially (w := w) hC hdeaf hbase tag' (.before ⟨first, keywords⟩ as) call
        rw [Arguments.before_assoc] at hall
        exact hall.trans hC (agree_partially hC hdeaf hbase tag ⟨first, keywords⟩ (as.before call)).symm

end Making

/-- What is made of an arrow by attaching links one after the other, each of which gives an arrow that may get
its identity then. -/
inductive Link.Chain (base : Value) : List Link → Value → Prop where
  | nil : Chain base [] base
  | snoc {links : List Link} {l : Link} {v u u' : Value} {s t : Store} {cs : List Call} :
      Chain base links v → Traced (l.attach v) s cs (.ok u) t → u.SameArrow u' →
        Chain base (links ++ [l]) u'

namespace Link

variable {links : List Link} {l : Link} {u : Value}

theorem Chain.isArrow (hbase : base.IsArrow) (h : Chain base links v) : v.IsArrow := by
  induction h with
  | nil => exact hbase
  | snoc _ hmade hsame ih =>
    obtain ⟨-, rfl⟩ := eq_made ih hmade
    exact hsame.isArrow (isArrow_made ih _)

theorem Chain.isCallable (hbase : base.IsArrow) (h : Chain base links v) :
    ∀ l ∈ links, l.isCallable = true := by
  induction h with
  | nil => exact fun _ hl => absurd hl List.not_mem_nil
  | snoc hchain hmade _ ih =>
    intro l hl
    rcases List.mem_append.1 hl with hl | hl
    · exact ih l hl
    · rw [List.mem_singleton.1 hl]
      exact (eq_made (hchain.isArrow hbase) hmade).1

theorem Chain.made (hbase : base.IsArrow) (h : Chain base links v) (hl : l.isCallable = true)
    (hsame : (l.made v).SameArrow u) : Chain base (links ++ [l]) u := by
  obtain ⟨_, hmade⟩ := traced_attach (h.isArrow hbase) l Store.empty
  rw [if_pos hl] at hmade
  exact .snoc h hmade hsame

/-- What can be attached is attached. -/
theorem exists_chain (hbase : base.IsArrow) (s : Store) (hlinks : ∀ l ∈ links, l.isCallable = true) :
    ∃ cs v, Traced (links.foldlM attach base) s cs (.ok v) s ∧ Chain base links v := by
  induction links using List.reverseRecOn with
  | nil => exact ⟨[], base, .done base s, .nil⟩
  | append_singleton links l ih =>
    obtain ⟨cs, v, htr, hchain⟩ := ih fun l hl => hlinks l (List.mem_append_left _ hl)
    have hl := hlinks l (List.mem_append_right _ (List.mem_singleton_self l))
    have hv := hchain.isArrow hbase
    obtain ⟨ds, hmade⟩ := traced_attach hv l s
    rw [if_pos hl] at hmade
    refine ⟨cs ++ (ds ++ []), l.made v, ?_, hchain.made hbase hl (isArrow_made hv l).sameArrow⟩
    rw [List.foldlM_append]
    exact htr.bind (hmade.bind (.done _ s))

/-- What a link does with what cannot be told apart cannot be told apart. -/
theorem agree_perform (hC : C.IsOpen) (hl : l.isCallable = true) (h : C.Agree L w a b) :
    C.Agree L w (a.bind l.perform) (b.bind l.perform) := by
  cases l with
  | early =>
    show C.Agree L w (a.bind .done) (b.bind .done)
    rwa [Action.bind_done, Action.bind_done]
  | mapped f =>
    show C.Agree L w (a.bind (Program.map · f)) (b.bind (Program.map · f))
    rw [map_eq_graft hl]
    exact h.grafted hC rfl
  | bound f | shifted f => exact h.grafted hC hl

/-- Calling what a chain has made is calling the arrow at its beginning once. -/
theorem Chain.agree (hC : C.IsOpen) (hdeaf : ∀ tag a, L.hears (.arrow tag a) = false)
    (hbase : base.IsArrow) (h : Chain base links v) (w : S.World) (call : Arguments Value) :
    C.Agree L w (Action.invoke v call)
      ((Action.invoke base (given links call)).bind fun p => links.foldlM perform p) := by
  -- The arguments of the last link become those of the call of the arrow before it.
  induction h generalizing call with
  | nil =>
    show C.Agree L w _ ((Action.invoke base call).bind .done)
    rw [Action.bind_done]
    exact Course.agree_refl hC (hC.invoke _ _) (hbase.givesPrograms call)
  | @snoc links l v u u' s t cs hchain hmade hsame ih =>
    have hv := hchain.isArrow hbase
    obtain ⟨hl, rfl⟩ := eq_made hv hmade
    have hlast := agree_perform hC hl (ih (l.arguments.before call))
    have hsplit (p : Value) : (links ++ [l]).foldlM perform p =
        (links.foldlM perform p).bind l.perform := by
      rw [List.foldlM_append]
      show (links.foldlM perform p).bind (fun q => (l.perform q).bind .done) = _
      simp only [Action.bind_done]
    rw [given, List.foldr_append]
    simp only [hsplit]
    rw [← Action.bind_assoc]
    exact (agree_made hC hdeaf hv l hl hsame w call).trans hC hlast

/-- The positional arguments are put together. -/
theorem positional_given (links : List Link) (call : Arguments Value) : (given links call).positional =
    links.flatMap (·.arguments.positional) ++ call.positional := by
  induction links with
  | nil => rfl
  | cons l links ih =>
    rw [List.flatMap_cons, List.append_assoc, ← ih]
    rfl

/-- A keyword has the value that it is given last. -/
theorem lookup_given (links : List Link) (call : Arguments Value) (name : String) :
    (given links call).keywords.lookup name =
      (links.map (·.arguments.keywords) ++ [call.keywords]).reverse.findSome? (·.lookup name) := by
  induction links with
  | nil =>
    show call.keywords.lookup name = [call.keywords].findSome? (·.lookup name)
    rw [List.findSome?_singleton]
  | cons l links ih =>
    rw [List.map_cons, List.cons_append, List.reverse_cons, List.findSome?_append, ← ih,
      List.findSome?_singleton]
    exact lookup_mergeKeywords _ _ name

/-- Each keyword is passed on once. -/
theorem nodup_given (links : List Link) (call : Arguments Value)
    (hlinks : ∀ l ∈ links, (l.arguments.keywords.map (·.1)).Nodup) (h : (call.keywords.map (·.1)).Nodup) :
    ((given links call).keywords.map (·.1)).Nodup := by
  induction links with
  | nil => exact h
  | cons l links ih =>
    exact nodup_mergeKeywords (hlinks l List.mem_cons_self) (ih fun l hl => hlinks l (List.mem_cons_of_mem _ hl))

end Link

section Normalizing

variable (hC : C.IsOpen) (hdeaf : ∀ tag a, L.hears (.arrow tag a) = false) (hbase : base.IsArrow)
include hC hdeaf hbase

/-- Attaching one function and then another one is attaching what does the first and goes on with the other
one. -/
theorem agree_shifted {f g h u v : Value} (hu : Link.Chain base [.shifted f, .shifted g] u)
    (hv : Link.Chain base [.shifted h] v)
    (hdoes : ∀ x z, C.Later w z →
      C.Agree L z (Program.lift <$> Action.ask h [x]) ((Action.ask f [x]).bind (Program.graft · g)))
    (call : Arguments Value) : C.Agree L w (Action.invoke u call) (Action.invoke v call) := by
  have hf : f.isCallable = true := hu.isCallable hbase (.shifted f) List.mem_cons_self
  have hg : g.isCallable = true :=
    hu.isCallable hbase (.shifted g) (List.mem_cons_of_mem _ List.mem_cons_self)
  have hh : h.isCallable = true := hv.isCallable hbase (.shifted h) List.mem_cons_self
  -- The links give no arguments early.
  have hboth := hu.agree hC hdeaf hbase w call
  have hone := hv.agree hC hdeaf hbase w call
  simp only [Link.given, List.foldr, Link.arguments, Arguments.nothing_before, List.foldlM_cons,
    List.foldlM_nil, Link.perform, bind, pure, Action.bind_done] at hboth hone
  refine (hboth.trans hC (.rebuilt ?_ ?_ ?_ ?_)).trans hC hone.symm
  · exact (Comparison.rebuilds_graft hf).andThen (Comparison.rebuilds_graft hg)
  · exact Comparison.rebuilds_graft hh
  · exact fun z tag tag' x hz => agree_graft_leaf_leaf hf hh tag tag' (hdoes x z hz)
  · exact Course.agree_refl hC (hC.invoke base call) (hbase.givesPrograms call)

/-- However arguments are given early to an arrow and functions are mapped over it or bound to it, calling what
this makes comes to calling the arrow once, with the positional arguments in their order and each keyword as it
was given last, and then to mapping and binding the functions in their order. So binding one function and then
another one comes to binding what does the first and binds the other one to what that gives. -/
theorem arrow_chains_normalize (w : S.World) :
    (∀ links : List Link, (∀ l ∈ links, l.isCallable = true) → ∀ s, ∃ cs v,
      Traced (links.foldlM Link.attach base) s cs (.ok v) s ∧ Link.Chain base links v) ∧
    (∀ links v call, Link.Chain base links v → (Action.invoke v call).GivesPrograms ∧
      C.Agree L w (Action.invoke v call)
        ((Action.invoke base (Link.given links call)).bind fun p => links.foldlM Link.perform p)) ∧
    (∀ links call,
      (Link.given links call).positional =
        links.flatMap (·.arguments.positional) ++ call.positional ∧
      (∀ name, (Link.given links call).keywords.lookup name =
        (links.map (·.arguments.keywords) ++ [call.keywords]).reverse.findSome? (·.lookup name)) ∧
      ((∀ l ∈ links, (l.arguments.keywords.map (·.1)).Nodup) → (call.keywords.map (·.1)).Nodup →
        ((Link.given links call).keywords.map (·.1)).Nodup)) ∧
    ∀ f g h u v, Link.Chain base [.shifted f, .shifted g] u → Link.Chain base [.shifted h] v →
      (∀ x z, C.Later w z →
        C.Agree L z (Program.lift <$> Action.ask h [x]) ((Action.ask f [x]).bind (Program.graft · g))) →
      ∀ call, C.Agree L w (Action.invoke u call) (Action.invoke v call) :=
  ⟨fun _ hlinks s => Link.exists_chain hbase s hlinks,
    fun _ _ call hv => ⟨(hv.isArrow hbase).givesPrograms call, hv.agree hC hdeaf hbase w call⟩,
    fun links call => ⟨Link.positional_given links call, Link.lookup_given links call,
      Link.nodup_given links call⟩,
    fun _ _ _ _ _ hu hv hdoes call => agree_shifted hC hdeaf hbase hu hv hdoes call⟩

end Normalizing

/-- An arrow of a scripted function with two arguments and a keyword. -/
def sized : Value := .arrow 1000 (.plain (.function 1001 (.closure "sized" ⟨["first", "second", "width"], none⟩
  (.form (.primitive .tuple) [.variable "first", .variable "second", .variable "width"] []) [])))

/-- Arguments that are given before and after a function is mapped over the arrow. -/
def sizedLinks : List Link :=
  [.early ⟨[.int 1], [("width", .int 3)]⟩, .mapped (.arrowOf .leaf),
    .early ⟨[.int 2], [("width", .int 4)]⟩, .bound (.arrowOf .leaf)]

/-- What they make, with an identity for each arrow. -/
def sizedChain : Value :=
  .arrow 1006 (.plain (.function 1007 (.chained (.arrow 1005 (.partially
    (.arrow 1003 (.plain (.function 1004 (.fmapped
      (.arrow 1002 (.partially sized [.int 1] [("width", .int 3)])) (.arrowOf .leaf)))))
    [.int 2] [("width", .int 4)])) (.arrowOf .leaf))))

theorem arrow_chains_normalize_sized :
    Course.shapes.Agree .scripts Store.empty (Action.invoke sizedChain (.of []))
      ((Action.invoke sized ⟨[.int 1, .int 2], [("width", .int 4)]⟩).bind fun p =>
        sizedLinks.foldlM Link.perform p) ∧
    ∃ u v, Link.Chain sized [.shifted (.arrowOf .leaf), .shifted (.arrowOf .leaf)] u ∧
      Link.Chain sized
        [.shifted (.arrowOf (.chained (Arrow.ofCallable (.arrowOf .leaf)) (.arrowOf .leaf)))] v ∧
      ∀ call, Course.shapes.Agree .scripts Store.empty (Action.invoke u call) (Action.invoke v call) := by
  have hsized : sized.IsArrow := .plain 1000 _
  obtain ⟨hattached, hchain, -, hassoc⟩ := arrow_chains_normalize (L := .scripts) Course.isOpen_shapes
    (fun _ _ => rfl) hsized Store.empty
  have hearly := Link.Chain.nil.made (l := .early ⟨[.int 1], [("width", .int 3)]⟩) hsized rfl
    (.whole 0 1002 _)
  have hmapped := hearly.made (l := .mapped (.arrowOf .leaf)) hsized rfl (.plain 0 1003 0 1004 _)
  have hagain := hmapped.made (l := .early ⟨[.int 2], [("width", .int 4)]⟩) hsized rfl (.whole 0 1005 _)
  have hbound : Link.Chain sized sizedLinks sizedChain :=
    hagain.made (l := .bound (.arrowOf .leaf)) hsized rfl (.plain 0 1006 0 1007 _)
  obtain ⟨-, u, -, hu⟩ := hattached [.shifted (.arrowOf .leaf), .shifted (.arrowOf .leaf)]
    (by decide) Store.empty
  obtain ⟨-, v, -, hv⟩ := hattached
    [.shifted (.arrowOf (.chained (Arrow.ofCallable (.arrowOf .leaf)) (.arrowOf .leaf)))]
    (by decide) Store.empty
  refine ⟨(hchain _ _ (.of []) hbound).2, u, v, hu, hv, hassoc _ _ _ u v hu hv fun x z _ => ?_⟩
  exact agree_chained Course.isOpen_shapes rfl x z

end AlgebraicEffects
