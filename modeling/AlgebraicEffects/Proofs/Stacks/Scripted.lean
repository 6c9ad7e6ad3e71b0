import AlgebraicEffects.Proofs.Shapes
import AlgebraicEffects.Proofs.Stacks.Performing
import Mathlib.Data.List.Forall2
import Mathlib.Data.Option.Basic

/-!
Implementations that are scripts.

A script that does something and then returns what resuming with an answer gives is an implementation that
resumes last (`reacts_script`): what it is given and what it is given back get their identities, which
nobody sees.
-/

set_option autoImplicit false

namespace AlgebraicEffects

open Action (Traced)

section Renaming

variable {V : Type} {see : Value → V}

/-- Parts of what is given its identity get theirs. -/
theorem forall₂_taggedItems (vs : List Value) : ∀ done n,
    ∃ vs', (taggedItems done vs n).1 = done.reverse ++ vs' ∧ List.Forall₂ Renamed vs vs' := by
  induction vs with
  | nil => exact fun done n => ⟨[], (List.append_nil _).symm, .nil⟩
  | cons v vs ih =>
    intro done n
    obtain ⟨vs', hvs', hall⟩ := ih ((v.tagged n).1 :: done) (v.tagged n).2
    refine ⟨(v.tagged n).1 :: vs', ?_, .cons (.inr ⟨n, rfl⟩) hall⟩
    rw [List.reverse_cons, List.append_assoc] at hvs'
    exact hvs'

/-- A tuple that is given its identity. -/
theorem exists_identify_tuple (s : Store) (vs : List Value) : ∃ tag vs',
    (s.identify (.tuple 0 vs)).1 = .tuple tag vs' ∧ List.Forall₂ Renamed vs vs' := by
  cases vs with
  | nil => exact ⟨0, [], rfl, .nil⟩
  | cons v vs =>
    obtain ⟨vs', hvs', hall⟩ := forall₂_taggedItems (v :: vs) [] (s.nextTag + 1)
    exact ⟨s.nextTag, vs', congrArg (Value.tuple s.nextTag) hvs', hall⟩

theorem exists_identifyAll (s : Store) (vs : List Value) : ∃ vs',
    (s.identifyAll (.of vs)).1 = .of vs' ∧ List.Forall₂ Renamed vs vs' := by
  unfold Store.identifyAll
  split
  · exact ⟨vs, rfl, List.forall₂_same.2 fun _ _ => .inl rfl⟩
  · obtain ⟨vs', hvs', hall⟩ := forall₂_taggedItems vs [] s.nextTag
    exact ⟨vs', congrArg Arguments.of hvs', hall⟩

/-- What is given to an implementation is seen as before, and its continuation is the same function. -/
theorem exists_of_renamed {params vs : List Value} {k : Nat} {table : Handler.Table}
    {atLeaf : Option Value} {resume : Value} (hsee : ∀ v n, see (v.tagged n).1 = see v)
    (h : List.Forall₂ Renamed (params ++ [.function k (.under table atLeaf resume)]) vs) :
    ∃ params' k', vs = params' ++ [.function k' (.under table atLeaf resume)] ∧
      params'.map see = params.map see := by
  induction params generalizing vs with
  | nil =>
    cases h with
    | cons hk hnil =>
      cases hnil
      obtain ⟨k', rfl⟩ := hk.under
      exact ⟨[], k', rfl, rfl⟩
  | cons v params ih =>
    cases h with
    | @cons _ v' _ vs' hv hrest =>
      obtain ⟨params', k', rfl, hparams⟩ := ih hrest
      refine ⟨v' :: params', k', rfl, ?_⟩
      rw [List.map_cons, List.map_cons, hparams]
      rcases hv with rfl | ⟨n, rfl⟩
      · rfl
      · rw [hsee]

end Renaming

section Scripts

/-- Filling parameters that are all required, by position. -/
theorem fill_required {α : Type} (names : List String) (vs : List α) :
    Signature.fill true (names.map fun n => ⟨n, none⟩) vs [] =
      if names.length ≤ vs.length then some (vs.take names.length, vs.drop names.length, []) else none := by
  induction names generalizing vs with
  | nil => simp [Signature.fill]
  | cons name names ih =>
    cases vs with
    | nil => simp [Signature.fill, Signature.takeKeyword]
    | cons v vs =>
      simp only [List.map_cons, Signature.fill, List.any_nil, Bool.and_false, Bool.false_eq_true,
        if_false, ih, List.length_cons, Nat.add_le_add_iff_right, List.take_succ_cons,
        List.drop_succ_cons]
      split <;> rfl

/-- A signature of required parameters is filled by as many values. -/
theorem accept_required (names : List String) (vs : List Value) :
    Action.accept (Signature.required names) (.of vs) =
      if vs.length = names.length then .done ⟨vs, [], []⟩ else Action.fault .badType := by
  have hbind : (Signature.required names).bind? (.of vs) =
      if vs.length = names.length then some ⟨vs, [], []⟩ else none := by
    unfold Signature.bind? Signature.required Arguments.of
    simp only [Signature.fill, Option.bind_eq_bind, Option.bind_some]
    rw [fill_required]
    by_cases h : names.length ≤ vs.length
    · rw [if_pos h]
      by_cases heq : vs.length = names.length
      · rw [if_pos heq, ← heq]
        simp only [List.take_length, List.drop_length, Option.bind_some, List.nil_append,
          List.append_nil]
        rfl
      · have hdrop : (vs.drop names.length).isEmpty = false := by
          rw [List.isEmpty_eq_false_iff, ne_eq, List.drop_eq_nil_iff]
          omega
        simp only [if_neg heq, Option.bind_some, hdrop, Bool.or_self]
        rfl
    · rw [if_neg h, if_neg (by omega)]
      rfl
  rw [Action.accept, hbind]
  by_cases h : vs.length = names.length
  · rw [if_pos h, if_pos h]
  · rw [if_neg h, if_neg h]

/-- A script that does something, and returns what resuming with an answer gives. -/
def script (name : String) (names : List String) (captured : Scope) (before answer : Expr) : Value :=
  .arrowOf (.closure name ⟨names ++ ["resume"], none⟩
    (.block [before, .form (.primitive .call) [.variable "resume", answer] []]) captured)

/-- What the script finds: what it has captured, its parameters and what it resumes. -/
def scriptScope (names : List String) (captured : Scope) (params : List Value) (resume : Value) : Scope :=
  ((names ++ ["resume"]).zip (params ++ [resume])).foldl (fun s (x, v) => Scope.set x v s) captured

/-- What the script does before it resumes: it comes to an answer. -/
def scriptActs (names : List String) (captured : Scope) (before answer : Expr) (resume : Value)
    (params : List Value) : Action Value :=
  if params.length = names.length then
    (before.eval (scriptScope names captured params resume)).bind fun _ =>
      answer.eval (scriptScope names captured params resume)
  else Action.fault .badType

variable {names : List String} {captured : Scope} {before answer : Expr} {params : List Value}
  {resume : Value}

theorem scriptScope_eq (h : params.length = names.length) :
    scriptScope names captured params resume = Scope.set "resume" resume
      ((names.zip params).foldl (fun s (x, v) => Scope.set x v s) captured) := by
  rw [scriptScope, List.zip_append h.symm, List.foldl_append]
  rfl

/-- The body of the script resumes with its answer. -/
theorem eval_script (h : params.length = names.length) :
    (Expr.block [before, .form (.primitive .call) [.variable "resume", answer] []]).eval
        (scriptScope names captured params resume) =
      (scriptActs names captured before answer resume params).bind fun a =>
        (Action.invoke resume (.of [a])).bind Action.identify := by
  have hget : Scope.get "resume" (scriptScope names captured params resume) = .done resume := by
    rw [scriptScope_eq h, Scope.get, Scope.set, List.lookup_cons_self]
    rfl
  have heval : (Expr.form (.primitive .call) [.variable "resume", answer] []).eval
      (scriptScope names captured params resume) =
        (Scope.get "resume" (scriptScope names captured params resume)).bind fun r =>
          (answer.eval (scriptScope names captured params resume)).bind fun a =>
            (Action.invoke r (.of [a])).bind Action.identify := by
    have hform : (Expr.form (.primitive .call) [.variable "resume", answer] []).eval
        (scriptScope names captured params resume) =
          ((Scope.get "resume" (scriptScope names captured params resume)).bind fun r =>
            ((answer.eval (scriptScope names captured params resume)).bind fun a =>
              .done [a]).bind fun vs => .done (r :: vs)).bind fun values =>
                Form.perform (.primitive .call) ⟨values, []⟩ := rfl
    rw [hform]
    simp only [Action.bind_assoc]
    rfl
  rw [scriptActs, if_pos h, Action.bind_assoc]
  show (before.eval _).bind (fun _ => Expr.eval _ _) = _
  congr 1
  funext _
  rw [heval, hget]
  rfl

end Scripts

section Programs

theorem isProgram_identify {v : Value} (h : v.isProgram = true) (s : Store) :
    (s.identify v).1.isProgram = true := by
  cases v with
  | leaf tag | operation tag => cases tag <;> rfl
  | _ => cases h

theorem Action.GivesPrograms.invoke {f : Value} {arguments : Arguments Value}
    (h : (f.apply arguments).GivesPrograms) : (Action.invoke f arguments).GivesPrograms := by
  intro s cs v t htr
  obtain ⟨inner, rfl, hinner⟩ := htr.of_invoke
  exact h s inner v t hinner

theorem Action.GivesPrograms.identified {a : Action Value} (h : a.GivesPrograms) :
    (a.bind Action.identify).GivesPrograms := by
  intro s cs v t htr
  obtain ⟨ds, q, u, ha⟩ := htr.exists_of_bind
  cases q with
  | error f => cases (htr.unique ha.bind_error).2.1
  | ok x =>
    obtain ⟨es, -, hx⟩ := htr.of_bind ha
    obtain ⟨-, hv, -⟩ := hx.unique (traced_identify u x)
    cases hv
    exact isProgram_identify (h s ds x u ha) u

/-- What has its identity is the same end of a run. -/
theorem retagged_identify_program {V : Type} {see : Value → V}
    (hsee : ∀ v n, see (v.tagged n).1 = see v) {p : Value} (hp : p.isProgram = true) (s : Store) :
    Retagged see (.ok p) (.ok (s.identify p).1) := by
  have hparams (vs : List Value) (n : Nat) : (taggedItems [] vs n).1.map see = vs.map see := by
    obtain ⟨vs', hvs', hall⟩ := forall₂_taggedItems vs [] n
    rw [hvs', List.reverse_nil, List.nil_append]
    clear hvs'
    induction hall with
    | nil => rfl
    | cons hv _ ih =>
      rw [List.map_cons, List.map_cons, ih]
      rcases hv with rfl | ⟨n, rfl⟩
      · rfl
      · rw [hsee]
  cases p with
  | leaf tag x =>
    cases tag with
    | zero => exact .leaf (hsee x _)
    | succ tag => exact .same _
  | operation tag name params resume =>
    cases tag with
    | zero => exact .operation (hparams params _) (.inr ⟨_, rfl⟩)
    | succ tag => exact .same _
  | _ => cases hp

end Programs

section Reacting

variable {V τ : Type} {T : Venue V τ} {L : Listener}

/-- On this venue identities are not seen, and giving them out changes nothing. -/
structure Venue.Blind (T : Venue V τ) : Prop where
  see_tagged (v : Value) (n : Nat) : T.see (v.tagged n).1 = T.see v
  renumbered (w : T.World) (n : Nat) : (T.store w).nextTag ≤ n →
    ∃ u, T.Later w u ∧ T.store u = (T.store w).tagsFrom n ∧ ∀ x, T.Holds w x → T.Holds u x

variable {name : String} {names : List String} {captured : Scope} {before answer : Expr}

/-- A script is called once with its arguments, which have got their identities. -/
theorem perform_script (name : String) (names : List String) (captured : Scope) (before answer : Expr)
    (params : List Value) (c : Value) :
    ∃ rest : Value → List Value → Value → Action Value,
      (∀ arguments positional, ∀ v : Value, v.isProgram = true → rest arguments positional v = .done v) ∧
        Handler.perform (script name names captured before answer) params c =
          (Action.identify (.tuple 0 (params ++ [c]))).bind fun arguments =>
            arguments.items.bind fun positional =>
              (Action.invoke (script name names captured before answer) ⟨positional, []⟩).bind
                (rest arguments positional) := by
  refine ⟨_, fun arguments positional v hv => ?_, rfl⟩
  cases v with
  | leaf | operation => rfl
  | _ => cases hv

/-- The body of a closure is evaluated where its arguments, which have got their identities, are bound. -/
theorem apply_closure (name : String) (body : Expr) (call : Arguments Value) :
    (Value.arrowOf (.closure name ⟨names, none⟩ body captured)).apply call =
      (Action.identifyAll call).bind fun call =>
        (Action.accept (Signature.required names) call).bind fun b =>
          body.eval ((names.zip b.values).foldl (fun s (x, v) => Scope.set x v s) captured) := by
  have hbody : (Value.arrowOf (.closure name ⟨names, none⟩ body captured)).apply call =
      ((Action.identifyAll call).bind fun call =>
        (Action.accept (Signature.required names) call).bind fun b =>
          .done ((names.zip b.values).foldl (fun s (x, v) => Scope.set x v s) captured)).bind
            body.eval := rfl
  rw [hbody]
  simp only [Action.bind_assoc]
  rfl

/-- Where the arguments have their identities, the script acts and resumes. -/
theorem bind_accept_script (params : List Value) (k : Value) :
    ((Action.accept (Signature.required (names ++ ["resume"])) (.of (params ++ [k]))).bind fun b =>
      (Expr.block [before, .form (.primitive .call) [.variable "resume", answer] []]).eval
        (((names ++ ["resume"]).zip b.values).foldl (fun s (x, v) => Scope.set x v s) captured)) =
      (scriptActs names captured before answer k params).bind fun a =>
        (Action.invoke k (.of [a])).bind Action.identify := by
  rw [accept_required]
  by_cases h : params.length = names.length
  · rw [if_pos (by simp [h]), ← eval_script h]
    rfl
  · rw [if_neg (by simpa using h), scriptActs, if_neg h]
    rfl

/-- A script does what it does before it resumes, and then resumes. -/
theorem Venue.Blind.leads_script (hT : T.Blind)
    (hdeaf : L.hears (script name names captured before answer) = false) (w : T.World)
    (params : List Value) (table : Handler.Table) (resume : Value) :
    ∃ u params' k, T.Later w u ∧ (∀ x, T.Holds w x → T.Holds u x) ∧
      params'.map T.see = params.map T.see ∧
      L.Leads T.see (T.store w) (Handler.perform (script name names captured before answer) params
          (.arrowOf (.under table none resume))) 1 [] (T.store u)
        ((scriptActs names captured before answer (.function k (.under table none resume)) params').bind
          fun a => (Action.invoke (.function k (.under table none resume)) (.of [a])).bind
            Action.identify) := by
  obtain ⟨n₁, hn₁, hs₁⟩ := (T.store w).identify_snd
    (.tuple 0 (params ++ [.arrowOf (.under table none resume)]))
  obtain ⟨tag, vs₁, hvs₁, hrenamed₁⟩ := exists_identify_tuple (T.store w)
    (params ++ [.arrowOf (.under table none resume)])
  obtain ⟨params₁, k₁, rfl, hparams₁⟩ := exists_of_renamed hT.see_tagged hrenamed₁
  obtain ⟨n₂, hn₂, hs₂⟩ := ((T.store w).tagsFrom n₁).identifyAll_snd
    (.of (params₁ ++ [.function k₁ (.under table none resume)]))
  obtain ⟨vs₂, hvs₂, hrenamed₂⟩ := exists_identifyAll ((T.store w).tagsFrom n₁)
    (params₁ ++ [.function k₁ (.under table none resume)])
  obtain ⟨params₂, k₂, rfl, hparams₂⟩ := exists_of_renamed hT.see_tagged hrenamed₂
  obtain ⟨u, hu, hstore, hholds⟩ := hT.renumbered w n₂ (Nat.le_trans hn₁ hn₂)
  refine ⟨u, params₂, k₂, hu, hholds, hparams₂.trans hparams₁, ?_⟩
  obtain ⟨rest, hrest, hperform⟩ := perform_script name names captured before answer params
    (.arrowOf (.under table none resume))
  have hidentify := traced_identify (T.store w) (.tuple 0 (params ++ [.arrowOf (.under table none resume)]))
  rw [hvs₁, hs₁] at hidentify
  have hidentifyAll := traced_identifyAll ((T.store w).tagsFrom n₁)
    (.of (params₁ ++ [.function k₁ (.under table none resume)]))
  rw [hvs₂, hs₂] at hidentifyAll
  have hcall : L.Leads T.see ((T.store w).tagsFrom n₁)
      (Action.invoke (script name names captured before answer)
        (.of (params₁ ++ [.function k₁ (.under table none resume)]))) 1 [] ((T.store w).tagsFrom n₁)
      ((script name names captured before answer).apply
        (.of (params₁ ++ [.function k₁ (.under table none resume)]))) := by
    refine .call fun inner => ?_
    rw [L.events_mk]
    show (if L.hears (script name names captured before answer) then _ else []) ++ _ = _
    rw [hdeaf, if_neg Bool.false_ne_true]
  let body (call : Arguments Value) : Action Value :=
    (Action.accept (Signature.required (names ++ ["resume"])) call).bind fun b =>
      (Expr.block [before, .form (.primitive .call) [.variable "resume", answer] []]).eval
        (((names ++ ["resume"]).zip b.values).foldl (fun s (x, v) => Scope.set x v s) captured)
  have hbody : L.Leads T.see _ ((Action.identifyAll _).bind body) _ _ _ _ := .after hidentifyAll
  rw [← apply_closure name, show body (.of _) = _ from bind_accept_script params₂ _] at hbody
  have hprograms : ((scriptActs names captured before answer (.function k₂ (.under table none resume))
      params₂).bind fun a => (Action.invoke (.function k₂ (.under table none resume)) (.of [a])).bind
        Action.identify).GivesPrograms :=
    .bind fun a => .identified (.invoke (.bind (a := Action.ask resume [a]) fun p =>
      .evaluate table none p))
  have hall := (hcall.trans hbody).bind (rest (.tuple tag
    (params₁ ++ [.function k₁ (.under table none resume)]))
      (params₁ ++ [.function k₁ (.under table none resume)]))
  let called (arguments : Value) : Action Value := arguments.items.bind fun positional =>
    (Action.invoke (script name names captured before answer) ⟨positional, []⟩).bind
      (rest arguments positional)
  have hgiven : L.Leads T.see _ ((Action.identify _).bind called) _ _ _ _ := .after hidentify
  rw [← show Handler.perform _ params _ = _ from hperform] at hgiven
  rw [hstore]
  exact (hgiven.trans hall).trans (.unchanged hprograms (hrest _ _))

/-- What gives programs may give them with their identities. -/
theorem Venue.Blind.goesOver_identified (hT : T.Blind) {w u : T.World} {a b : Action Value} {n : Nat}
    {es : List (Event V)} (hb : b.GivesPrograms)
    (h : L.Leads T.see (T.store w) a (n + 1) es (T.store u) (b.bind Action.identify)) :
    GoesOver T L w a es u b where
  forth cs o t htr := by
    obtain ⟨ds, hds, -, hweight⟩ := h.forth cs o t htr
    obtain ⟨gs, q, s, hgs⟩ := hds.exists_of_bind
    refine ⟨gs, q, s, hgs, ?_⟩
    cases q with
    | error f =>
      obtain ⟨rfl, -, -⟩ := hds.unique hgs.bind_error
      omega
    | ok p =>
      obtain ⟨is, rfl, -⟩ := hds.of_bind hgs
      rw [weight_append] at hweight
      omega
  back ds q y htr _ := by
    cases q with
    | error f =>
      obtain ⟨cs, hcs, hevents⟩ := h.back ds _ _ htr.bind_error
      exact ⟨cs, _, y, hcs, T.refl y, fun _ hx => hx, .same _, hevents⟩
    | ok p =>
      obtain ⟨m, hm, hs⟩ := (T.store y).identify_snd p
      obtain ⟨z, hz, hstore, hholds⟩ := hT.renumbered y m hm
      have hidentify := traced_identify (T.store y) p
      rw [hs, ← hstore] at hidentify
      obtain ⟨cs, hcs, hevents⟩ := h.back _ _ _ (htr.bind hidentify)
      rw [List.append_nil] at hevents
      exact ⟨cs, _, z, hcs, hz, hholds,
        retagged_identify_program hT.see_tagged (hb _ _ _ _ htr) (T.store y), hevents⟩

/-- A script that acts and returns what resuming gives does what its acting comes to. -/
theorem reacts_script (hT : T.Blind)
    (hdeaf : L.hears (script name names captured before answer) = false) {react : Reaction V τ}
    (hact : ∀ k, ActsAs T L (scriptActs names captured before answer k) (fun b => [b]) (fun _ => [])
      react) : Reacts T L (script name names captured before answer) react where
  ends {w x params table resume cs o t} hx htr := by
    obtain ⟨u, params', k, -, hholds, hparams, hleads⟩ := hT.leads_script hdeaf w params table resume
    obtain ⟨ds, hds, -, -⟩ := hleads.forth cs o t htr
    obtain ⟨gs, q, s, hgs⟩ := hds.exists_of_bind
    rw [← hparams]
    exact (hact _).ends (hholds x hx) hgs
  resumes {w x y params es a} hx hq table resume := by
    obtain ⟨u, params', k, hu, hholds, hparams, hleads⟩ := hT.leads_script hdeaf w params table resume
    rw [← hparams] at hq
    obtain ⟨cs, b, z, htr, hz, hy, hfit, hsee, rfl⟩ := (hact _).answers (hholds x hx) hq
    have hacted := hleads.trans (.after htr)
    have hask : L.Leads T.see (T.store z) (Action.ask (.function k (.under table none resume)) [b]) 1 []
        (T.store z) _ := .ask rfl
    have hasked := hacted.trans (hask.bind Action.identify)
    refine ⟨z, b, T.trans hu hz, hy, hfit, hsee, ?_⟩
    refine hT.goesOver_identified (n := 1 + weight cs) (.bind (a := Action.ask resume [b]) fun p =>
      .evaluate table none p) ?_
    simpa only [List.nil_append, List.append_nil] using hasked
  fails {w x y params es g} hx hq table resume := by
    obtain ⟨u, params', k, hu, hholds, hparams, hleads⟩ := hT.leads_script hdeaf w params table resume
    rw [← hparams] at hq
    obtain ⟨cs, f, z, htr, hz, hy, hsee, rfl⟩ := (hact _).fails (hholds x hx) hq
    obtain ⟨ds, hds, hevents⟩ := hleads.back _ _ _ htr.bind_error
    exact ⟨ds, f, z, hds, T.trans hu hz, hy, hsee, hevents⟩

end Reacting

section Shapes

/-- The venue of all stores, on which the shapes of plain data are seen and there is no private state. -/
def Venue.shapes : Venue Shape Unit where
  World := Store
  store := id
  Later _ _ := True
  refl _ := trivial
  trans _ _ := trivial
  see := Value.shape
  Fit _ _ := True
  Holds _ _ := True

theorem blind_shapes : Venue.shapes.Blind where
  see_tagged := Value.shape_tagged
  renumbered w n _ := ⟨(show Store from w).tagsFrom n, trivial, rfl, fun _ _ => trivial⟩

/-- On this venue the shapes of values are seen and no more, and any value may be an answer. -/
structure Venue.Plain {τ : Type} (T : Venue Shape τ) : Prop extends T.Blind where
  see_eq : T.see = Value.shape
  fit (w : T.World) (v : Value) : T.Fit w v

theorem plain_shapes : Venue.shapes.Plain := { blind_shapes with see_eq := rfl, fit := fun _ _ => trivial }

/-- A sink that takes any message. -/
def scriptedSink : Value := .arrowOf (.closure "sink" ⟨["message"], none⟩ (.literal .nothing) [])

/-- Who hears the sink. -/
def sinkListener : Listener where
  hears
    | .function _ (.closure name _ _ _) => name == "sink"
    | _ => false
  deaf _ f hf := by
    cases f with
    | closure => cases hf
    | _ => rfl
  deaf_handler _ _ _ := rfl

/-- Gives a message to the sink and resumes with nothing. -/
def sayScript : Value :=
  script "say" ["message"] [("sink", scriptedSink)]
    (.form (.primitive .call) [.variable "sink", .variable "message"] []) (.literal .nothing)

/-- Resumes with an answer. -/
def answerScript (t : String) : Value := script "answer" [] [] (.literal .nothing) (.literal (.text t))

variable {τ : Type} {T : Venue Shape τ}

/-- What the script that says comes to. -/
inductive Says : Reaction Shape τ where
  | said (m : Shape) (x : τ) : Says [m] x [.said m] (.ok .nothing) x
  | refused {ps : List Shape} (x : τ) : ps.length ≠ 1 → Says ps x [] (.error .other) x

/-- What a script that answers comes to. -/
inductive Gives (t : String) : Reaction Shape τ where
  | answered (x : τ) : Gives t [] x [] (.ok (.text t)) x
  | refused {ps : List Shape} (x : τ) : ps ≠ [] → Gives t ps x [] (.error .other) x

theorem traced_scriptedSink (m : Value) (s : Store) :
    Traced (scriptedSink.apply (.of [m])) s [] (.ok .nothing) (s.identifyAll (.of [m])).2 := by
  obtain ⟨vs, hvs, hall⟩ := exists_identifyAll s [m]
  have hidentify := traced_identifyAll s (.of [m])
  rw [hvs] at hidentify
  cases hall with
  | @cons _ v _ _ hv hnil =>
    cases hnil
    rw [scriptedSink, apply_closure]
    exact hidentify.bind (.done _ _)

theorem traced_sayScript (k m : Value) (s : Store) :
    Traced (scriptActs ["message"] [("sink", scriptedSink)]
      (.form (.primitive .call) [.variable "sink", .variable "message"] []) (.literal .nothing) k [m])
      s [.mk scriptedSink (.of [m]) []] (.ok .nothing) (s.identifyAll (.of [m])).2 := by
  have hbefore : scriptActs ["message"] [("sink", scriptedSink)]
      (.form (.primitive .call) [.variable "sink", .variable "message"] []) (.literal .nothing) k [m] =
        ((Action.invoke scriptedSink (.of [m])).bind Action.identify).bind fun _ => .done .nothing := rfl
  rw [hbefore]
  exact .call (traced_scriptedSink m s) (.done _ _)

theorem events_sink {V : Type} (see : Value → V) (m : Value) :
    sinkListener.events see [.mk scriptedSink (.of [m]) []] = [.said (see m)] := by
  rw [Listener.events_mk]
  rfl

theorem actsAs_say (hT : T.Plain) (k : Value) : ActsAs T sinkListener
    (scriptActs ["message"] [("sink", scriptedSink)]
      (.form (.primitive .call) [.variable "sink", .variable "message"] []) (.literal .nothing) k)
    (fun b => [b]) (fun _ => []) Says where
  ends {w x params cs r t} _ _ := by
    match params with
    | [m] => exact ⟨_, _, x, .said _ x⟩
    | [] => exact ⟨_, _, x, .refused x (by simp)⟩
    | _ :: _ :: _ => exact ⟨_, _, x, .refused x (by simp)⟩
  answers {w x y params es a} hx h := by
    rw [hT.see_eq] at h ⊢
    generalize hps : params.map Value.shape = ps at h
    cases h with
    | said m =>
      obtain ⟨v, rfl, rfl⟩ := List.map_eq_singleton_iff.1 hps
      obtain ⟨n, hn, hs⟩ := (T.store w).identifyAll_snd (.of [v])
      obtain ⟨u, hu, hstore, hholds⟩ := hT.renumbered w n hn
      have htr := traced_sayScript k v (T.store w)
      rw [hs, ← hstore] at htr
      exact ⟨_, _, u, htr, hu, hholds x hx, hT.fit u _, rfl, events_sink _ v⟩
  fails {w x y params es f} hx h := by
    rw [hT.see_eq] at h ⊢
    generalize hps : params.map Value.shape = ps at h
    cases h with
    | refused _ hlength =>
      subst hps
      refine ⟨[], .fault .badType, w, ?_, T.refl w, hx, rfl, rfl⟩
      rw [scriptActs, if_neg (by simpa using hlength)]
      exact .fail _ _

theorem actsAs_answer (hT : T.Plain) (t : String) (k : Value) :
    ActsAs T sinkListener (scriptActs [] [] (.literal .nothing) (.literal (.text t)) k)
      (fun b => [b]) (fun _ => []) (Gives t) where
  ends {w x params cs r s} _ _ := by
    match params with
    | [] => exact ⟨_, _, x, .answered x⟩
    | _ :: _ => exact ⟨_, _, x, .refused x (by simp)⟩
  answers {w x y params es a} hx h := by
    rw [hT.see_eq] at h ⊢
    generalize hps : params.map Value.shape = ps at h
    cases h with
    | answered =>
      obtain rfl := List.map_eq_nil_iff.1 hps
      exact ⟨[], .text t, w, .done _ _, T.refl w, hx, hT.fit w _, rfl, rfl⟩
  fails {w x y params es f} hx h := by
    rw [hT.see_eq] at h ⊢
    generalize hps : params.map Value.shape = ps at h
    cases h with
    | refused _ hne =>
      subst hps
      refine ⟨[], .fault .badType, w, ?_, T.refl w, hx, rfl, rfl⟩
      rw [scriptActs, if_neg (by simpa using hne)]
      exact .fail _ _

/-- The script that says, and the one that answers, as handlers. -/
def scripts : List Value :=
  [.handler 0 [("say", sayScript)] none, .handler 0 [("name", answerScript "b")] none]

theorem reacts_sayScript (hT : T.Plain) : Reacts T sinkListener sayScript Says :=
  reacts_script hT.toBlind rfl (actsAs_say hT)

theorem reacts_answerScript (hT : T.Plain) (t : String) :
    Reacts T sinkListener (answerScript t) (Gives t) :=
  reacts_script hT.toBlind rfl (actsAs_answer hT t)

/-- Says something, and asks for a name with which it ends. -/
def sayingProgram : Value :=
  .operation 0 "say" [.text "a"] (.arrowOf (.constant (.operation 0 "name" [] (.arrowOf .leaf))))

/-- Where the program is. -/
inductive Saying where
  | saying
  | asking
  | named (v : Shape)

/-- How the program goes on. -/
inductive Saying.Next : Saying → Shape → τ → List (Event Shape) → Saying → τ → Prop where
  | said (a : Shape) (x : τ) : Next .saying a x [] .asking x
  | answered (a : Shape) (x : τ) : Next .asking a x [] (.named a) x

def Saying.conduct : Conduct Shape τ Saying where
  node
    | .saying => .operation "say" [.text "a"]
    | .asking => .operation "name" []
    | .named v => .leaf v
  next := Next

theorem conducts_saying (hT : T.Plain) (w : T.World) :
    Conducts T sinkListener Saying.conduct w (.ok sayingProgram) .saying := by
  refine ⟨fun _ e q => e = .ok sayingProgram ∧ q = .saying ∨
    e = .ok (.operation 0 "name" [] (.arrowOf .leaf)) ∧ q = .asking ∨
    ∃ v : Value, e = .ok (.leaf 0 v) ∧ q = .named v.shape, ?_, .inl ⟨rfl, rfl⟩⟩
  rintro w e q (⟨rfl, rfl⟩ | ⟨rfl, rfl⟩ | ⟨v, rfl, rfl⟩)
  all_goals rw [hT.see_eq]
  · refine ⟨.operation, ?_⟩
    rintro _ _ _ _ ⟨rfl⟩ u a x - - hx
    have htr : Traced (Action.ask (.arrowOf (.constant (.operation 0 "name" [] (.arrowOf .leaf)))) [a])
        (T.store u) [.mk (.arrowOf (.constant (.operation 0 "name" [] (.arrowOf .leaf))))
          (.of [a]) []] (.ok (.operation 0 "name" [] (.arrowOf .leaf))) (T.store u) :=
      Traced.invoke (.done _ _)
    constructor
    · exact fun _ _ _ _ => ⟨_, _, x, .said _ x⟩
    · rintro _ _ _ ⟨⟩
      exact ⟨_, _, u, htr, T.refl u, Listener.events_silent rfl 0 _ [], hx, .inr (.inl ⟨rfl, rfl⟩)⟩
  · refine ⟨.operation, ?_⟩
    rintro _ _ _ _ ⟨rfl⟩ u a x - - hx
    have htr : Traced (Action.ask (.arrowOf .leaf) [a]) (T.store u) [.mk (.arrowOf .leaf) (.of [a]) []]
        (.ok (.leaf 0 a)) (T.store u) := Traced.invoke (.done _ _)
    constructor
    · exact fun _ _ _ _ => ⟨_, _, x, .answered _ x⟩
    · rintro _ _ _ ⟨⟩
      exact ⟨_, _, u, htr, T.refl u, Listener.events_silent rfl 1 _ [], hx, .inr (.inr ⟨a, rfl, rfl⟩)⟩
  · have hleaf : Looks Value.shape (.ok (.leaf 0 v)) (.leaf v.shape) := .leaf rfl
    exact ⟨hleaf, nofun⟩

end Shapes

end AlgebraicEffects
