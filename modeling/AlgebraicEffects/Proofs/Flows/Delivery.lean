import AlgebraicEffects.Effects.Suspension
import AlgebraicEffects.Proofs.Flows.Proceeding

/-!
What becomes of suspended flows.

A host takes callbacks and runs each of them once, in whatever order (`Registrar`). An action
delivers (`Delivers`) if, however the host goes about it, its turns end one after the other with
callbacks of its own left to run, until one turn comes to a value for what encloses the action, and
then none of them is left. Between the turns anything may happen but for writes into the lists that
the action has made. Whether certain values are called is watched: none of them is, up to the
delivery.
-/

set_option autoImplicit false

namespace AlgebraicEffects

open Action (Traced)

/-- What a host is given to call: a value with arguments. -/
abbrev Callback := Value × List Value

def Callback.call (c : Callback) : Action Value := c.1.apply (.of c.2)

/-- A host that takes callbacks: which of them wait in a store, when it is open, which delays it
accepts and which times its clock may show. Nothing is said of the order in which it runs them. Some
lists may be shared by all who use the host: anyone may write into them. -/
structure Registrar (host : Value) where
  Open : Store → Prop
  waiting : Store → List Callback
  Accepts : Value → Prop
  Times : Value → Prop
  Shared : Nat → Prop
  aside {s t : Store} : t.agendas = s.agendas → t.loops = s.loops →
    (Open s → Open t) ∧ waiting t = waiting s
  time {s : Store} : Open s → ∃ v, Times v ∧ Traced (Host.time host) s [] (.ok v) s
  callSoon {s : Store} (c : Callback) : Open s →
    ∃ t, Traced (Host.callSoon host c.1 c.2) s [] (.ok .nothing) t ∧ Open t ∧
      t.writtenLists = s.writtenLists ∧ s.nextTag ≤ t.nextTag ∧ (waiting t).Perm (waiting s ++ [c])
  callLater {s : Store} {delay : Value} (c : Callback) : Accepts delay → Open s →
    ∃ t, Traced (Host.callLater host delay c.1 c.2) s [] (.ok .nothing) t ∧ Open t ∧
      t.writtenLists = s.writtenLists ∧ s.nextTag ≤ t.nextTag ∧ (waiting t).Perm (waiting s ++ [c])
  wait {delay : Value} (s : Store) : Accepts delay →
    Traced (Suspension.wait delay) s []
      (.ok (.bare Suspension.suspendName [.arrowOf (.waitStart delay)])) s

/-- The host is open, and identities have been given out in order: no list with an identity that is
still to be given out is shared or has been written into. -/
structure Registrar.Ready {host : Value} (H : Registrar host) (s : Store) : Prop where
  isOpen : H.Open s
  pos : 0 < s.nextTag
  unwritten : ∀ tag, s.nextTag ≤ tag → s.writtenLists.lookup tag = none
  shared : ∀ tag, H.Shared tag → tag < s.nextTag

theorem Registrar.Ready.later {host : Value} {H : Registrar host} {s t : Store} (h : H.Ready s)
    (hopen : H.Open t) (htag : s.nextTag ≤ t.nextTag) (hlists : t.writtenLists = s.writtenLists) :
    H.Ready t where
  isOpen := hopen
  pos := Nat.lt_of_lt_of_le h.pos htag
  unwritten tag hle := by
    rw [hlists]
    exact h.unwritten tag (Nat.le_trans htag hle)
  shared tag hshared := Nat.lt_of_lt_of_le (h.shared tag hshared) htag

/-- Whether a function of the library is called when flows are suspended and go on. -/
def Function.movesFlows : Function → Bool
  | .leaf | .grafted _ _ | .under _ _ _ | .waitStart _ | .exitStart | .forkStart | .allocateCells
  | .parStart _ _ | .parForked _ _ _ | .parSettle _ _ | .suspendOn _ | .nowOf _
  | .resumeChecked _ => true
  | _ => false

/-- What is watched for being called. The functions that move flows are not. -/
structure Watch where
  sees : Value → Bool
  blind {f : Function} : f.movesFlows = true → sees (.arrowOf f) = false

/-- Nothing that is watched is called. -/
def Watch.Silent (W : Watch) (q : List Request) : Prop := ∀ r ∈ q, W.sees r.1 = false

/-- The action comes to the other one without calling anything that is watched. -/
def Comes (W : Watch) {α : Type} (a : Action α) (s : Store) (b : Action α) (t : Store) : Prop :=
  ∃ q, Proceeds a s q b t ∧ W.Silent q

namespace Comes

variable {W : Watch} {α β : Type} {s t u : Store}

theorem here (a : Action α) (s : Store) : Comes W a s a s :=
  ⟨[], .here a s, fun _ h => absurd h List.not_mem_nil⟩

theorem trans {a b c : Action α} (h : Comes W a s b t) (g : Comes W b t c u) : Comes W a s c u := by
  obtain ⟨q, h, hq⟩ := h
  obtain ⟨r, g, hr⟩ := g
  exact ⟨q ++ r, h.trans g, List.forall_mem_append.2 ⟨hq, hr⟩⟩

theorem bind {a b : Action α} (h : Comes W a s b t) (k : α → Action β) :
    Comes W (a.bind k) s (b.bind k) t := by
  obtain ⟨q, h, hq⟩ := h
  exact ⟨q, h.bind k, hq⟩

theorem write (change : Store → Store) (k : Action α) (s : Store) :
    Comes W (.write change k) s k (change s) :=
  ⟨[], .write (.here k _), fun _ h => absurd h List.not_mem_nil⟩

/-- What calls nothing comes to what follows it. -/
theorem of_traced {a : Action α} {x : α} (h : Action.Traced a s [] (.ok x) t) (k : α → Action β) :
    Comes W (a.bind k) s (k x) t :=
  ⟨[], .of_traced h k, fun _ h => absurd h List.not_mem_nil⟩

theorem invoke {f : Value} (hf : W.sees f = false) (arguments : Arguments Value)
    (k : Value → Action α) (s : Store) :
    Comes W ((Action.invoke f arguments).bind k) s ((f.apply arguments).bind k) s :=
  ⟨_, .invoke f arguments k s, List.forall_mem_singleton.2 hf⟩

theorem ask {f : Value} (hf : W.sees f = false) (vs : List Value) (s : Store) :
    Comes W (Action.ask f vs) s (f.apply (.of vs)) s :=
  ⟨_, .ask f vs s, List.forall_mem_singleton.2 hf⟩

end Comes

section First

variable {W : Watch} {α : Type} {s t u : Store} {q r : List Request} {b c : Action α}
  {f g : Value} {arguments arguments' : Arguments Value} {k l : Ending → Action α}

theorem Watch.Silent.not_mem (h : W.Silent q) (hf : W.sees f = true) : (f, arguments) ∉ q :=
  fun hmem => Bool.false_ne_true ((h _ hmem).symm.trans hf)

/-- An action comes to one first call of something that is watched. -/
theorem Proceeds.first_unique {a : Action α} (h : Proceeds a s q b t) (hq : W.Silent q)
    (hb : b = .call f arguments k) (hf : W.sees f = true) (h' : Proceeds a s r c u) (hr : W.Silent r)
    (hc : c = .call g arguments' l) (hg : W.sees g = true) : b = c ∧ t = u := by
  induction h generalizing r with
  | here =>
    subst hb
    cases h' with
    | here => exact ⟨rfl, rfl⟩
    | enter => exact absurd List.mem_cons_self (hr.not_mem hf)
    | after => exact absurd List.mem_cons_self (hr.not_mem hf)
  | read _ ih =>
    cases h' with
    | here => cases hc
    | read h' => exact ih hq hb h' hr
  | write _ ih =>
    cases h' with
    | here => cases hc
    | write h' => exact ih hq hb h' hr
  | enter h ih =>
    have hlater := (List.forall_mem_cons.1 hq).2
    cases h' with
    | here =>
      cases hc
      exact absurd List.mem_cons_self (hq.not_mem hg)
    | enter h' => exact ih hlater hb h' (List.forall_mem_cons.1 hr).2
    | @after _ _ _ _ _ _ inner o _ _ hcalled h' =>
      obtain ⟨hinner, hrest⟩ := List.forall_mem_append.1 (List.forall_mem_cons.1 hr).2
      cases o with
      | ok v =>
        exact ih hlater hb ((Proceeds.of_traced hcalled _).trans h')
          (List.forall_mem_append.2 ⟨hinner, hrest⟩)
      | error e =>
        exact absurd (h.mem_requests hb hcalled.bind_error) (Watch.Silent.not_mem hinner hf)
  | @after _ _ _ _ _ _ inner o _ _ hcalled h ih =>
    obtain ⟨hinner, hlater⟩ := List.forall_mem_append.1 (List.forall_mem_cons.1 hq).2
    cases h' with
    | here =>
      cases hc
      exact absurd List.mem_cons_self (hq.not_mem hg)
    | enter h' =>
      cases o with
      | ok v =>
        obtain ⟨r', h', hsubset⟩ := h'.past hcalled hc (Watch.Silent.not_mem hinner hg)
        exact ih hlater hb h' fun x hx => hr x (List.mem_cons_of_mem _ (hsubset hx))
      | error e =>
        exact absurd (h'.mem_requests hc hcalled.bind_error) (Watch.Silent.not_mem hinner hg)
    | after hcalled' h' =>
      obtain ⟨rfl, rfl, rfl⟩ := hcalled.unique hcalled'
      exact ih hlater hb h' (List.forall_mem_append.1 (List.forall_mem_cons.1 hr).2).2

end First

theorem eq_of_singleton_split {α : Type} {c d : α} {before after : List α}
    (h : [c] = before ++ d :: after) : before = [] ∧ d = c ∧ after = [] := by
  cases before with
  | nil =>
    cases h
    exact ⟨rfl, rfl, rfl⟩
  | cons b before => simp at h

section Turns

variable {host : Value} (H : Registrar host)

/-- What may happen between turns of an action that has made these lists. -/
structure Meanwhile (own : Nat → Prop) (s t : Store) : Prop where
  later : s.nextTag ≤ t.nextTag
  kept : ∀ tag, own tag → t.writtenLists.lookup tag = s.writtenLists.lookup tag
  stays : H.Ready t

/-- What an action with these lists does in a turn, or in a part of it: of the lists that were there
it writes into no others but shared ones, and it adds these callbacks. -/
structure Works (own : Nat → Prop) (s : Store) (new : List Callback) (t : Store) : Prop where
  later : s.nextTag ≤ t.nextTag
  kept : ∀ tag < s.nextTag, ¬ H.Shared tag → ¬ own tag →
    t.writtenLists.lookup tag = s.writtenLists.lookup tag
  stays : H.Ready t
  registered : (H.waiting t).Perm (H.waiting s ++ new)

/-- The lists of an action after a turn: those that it had, and all that were made in the turn. -/
def gained (own : Nat → Prop) (s t : Store) (tag : Nat) : Prop :=
  own tag ∨ s.nextTag ≤ tag ∧ tag < t.nextTag

variable {H} {own more : Nat → Prop} {s t u : Store} {new others : List Callback}

theorem gained_gained (hst : s.nextTag ≤ t.nextTag) (htu : t.nextTag ≤ u.nextTag) :
    gained (gained own s t) t u = gained own s u := by
  funext tag
  refine propext ⟨?_, ?_⟩
  · rintro ((h | h) | h)
    · exact .inl h
    · exact .inr ⟨h.1, Nat.lt_of_lt_of_le h.2 htu⟩
    · exact .inr ⟨Nat.le_trans hst h.1, h.2⟩
  · rintro (h | h)
    · exact .inl (.inl h)
    · rcases Nat.lt_or_ge tag t.nextTag with hlt | hge
      · exact .inl (.inr ⟨h.1, hlt⟩)
      · exact .inr ⟨hge, h.2⟩

theorem gained_self : gained own s s = own := by
  funext tag
  exact propext ⟨fun h => h.elim id fun h => absurd h.2 (Nat.not_lt.2 h.1), .inl⟩

theorem gained_mono (h : ∀ tag, own tag → more tag) (tag : Nat) :
    gained own s t tag → gained more s t tag :=
  Or.imp_left (h tag)

theorem Meanwhile.mono (h : Meanwhile H more s t) (hle : ∀ tag, own tag → more tag) :
    Meanwhile H own s t :=
  ⟨h.later, fun tag htag => h.kept tag (hle tag htag), h.stays⟩

theorem Meanwhile.trans (h : Meanwhile H own s t) (g : Meanwhile H own t u) :
    Meanwhile H own s u :=
  ⟨Nat.le_trans h.later g.later, fun tag htag => (g.kept tag htag).trans (h.kept tag htag), g.stays⟩

theorem Works.refl (h : H.Ready s) : Works H own s [] s where
  later := Nat.le_refl _
  kept _ _ _ _ := rfl
  stays := h
  registered := by rw [List.append_nil]

theorem Works.mono (h : Works H own s new t) (hle : ∀ tag, own tag → more tag) :
    Works H more s new t :=
  ⟨h.later, fun tag hlt hshared htag => h.kept tag hlt hshared fun hown => htag (hle tag hown),
    h.stays, h.registered⟩

theorem Works.trans {next : List Callback} (h : Works H own s new t)
    (g : Works H (gained own s t) t next u) : Works H own s (new ++ next) u where
  later := Nat.le_trans h.later g.later
  kept tag hlt hshared htag := by
    refine (g.kept tag (Nat.lt_of_lt_of_le hlt h.later) hshared fun hgained => ?_).trans
      (h.kept tag hlt hshared htag)
    rcases hgained with hown | hnew
    · exact htag hown
    · exact Nat.not_lt.2 hnew.1 hlt
  stays := g.stays
  registered := by
    rw [← List.append_assoc]
    exact g.registered.trans (h.registered.append_right next)

/-- Lists stay as they are while a callback is registered. -/
theorem Works.of_registered {c : Callback} (hs : H.Ready s) (htag : s.nextTag ≤ t.nextTag)
    (hlists : t.writtenLists = s.writtenLists) (hopen : H.Open t)
    (hperm : (H.waiting t).Perm (H.waiting s ++ [c])) : Works H own s [c] t :=
  ⟨htag, fun _ _ _ _ => by rw [hlists], hs.later hopen htag hlists, hperm⟩

/-- Lists have been made, and are not shared. -/
def Registrar.Made (H : Registrar host) (s : Store) (own : Nat → Prop) : Prop :=
  ∀ tag, own tag → tag < s.nextTag ∧ ¬ H.Shared tag

theorem Registrar.Made.later (h : H.Made s own) (hle : s.nextTag ≤ t.nextTag) : H.Made t own :=
  fun tag htag => ⟨Nat.lt_of_lt_of_le (h tag htag).1 hle, (h tag htag).2⟩

/-- What is made in a turn has been made then. -/
theorem Registrar.Made.gained (h : H.Made s own) (hshared : ∀ tag, H.Shared tag → tag < s.nextTag)
    (hle : s.nextTag ≤ t.nextTag) : H.Made t (gained own s t) := by
  rintro tag (hown | hnew)
  · exact h.later hle tag hown
  · exact ⟨hnew.2, fun h => Nat.not_lt.2 hnew.1 (hshared tag h)⟩

/-- What an action does to lists that are not its own is what may happen meanwhile to another one.
-/
theorem Works.meanwhile (h : Works H own s new t) (hmade : H.Made s more)
    (happart : ∀ tag, more tag → ¬ own tag) : Meanwhile H more s t :=
  ⟨h.later, fun tag htag => h.kept tag (hmade tag htag).1 (hmade tag htag).2 (happart tag htag),
    h.stays⟩

end Turns

/-- What encloses a program: what is done with it, up to the end of the turn. -/
abbrev Context := Value → Action Value

section Delivering

variable {host : Value} (H : Registrar host) (W : Watch) (enclosing : Context → Prop)
  (L : Value → Prop)

/-- The action with these lists of its own, begun in the store while these other callbacks of its
own wait, comes to exactly one value for one of the enclosing contexts, in this turn or in a later
one. -/
inductive Delivers : (Nat → Prop) → List Callback → Action Value → Store → Prop where
  | pause {own : Nat → Prop} {others new callbacks : List Callback} {a : Action Value} {x : Value}
      {s t : Store} :
      Comes W a s (.done x) t → Works H own s new t →
      callbacks.Perm (others ++ new) → callbacks ≠ [] →
      (∀ before c after, callbacks = before ++ c :: after → ∀ u, Meanwhile H (gained own s t) t u →
        Delivers (gained own s t) (before ++ after) c.call u) →
      Delivers own others a s
  | finish {own : Nat → Prop} {a : Action Value} {s t : Store} {C : Context} {tag : Nat} {v : Value} :
      Comes W a s (C (.leaf tag v)) t → Works H own s [] t →
      enclosing C → L v → Delivers own [] a s

/-- The action delivers whenever the host is ready. -/
def Surely (a : Action Value) : Prop :=
  ∀ s, H.Ready s → Delivers H W enclosing L (fun _ => False) [] a s

/-- Callbacks wait for the host to call one of them, from which on the others wait. -/
def Waits (own : Nat → Prop) (callbacks : List Callback) (s : Store) : Prop :=
  callbacks ≠ [] ∧ ∀ before c after, callbacks = before ++ c :: after →
    ∀ t, Meanwhile H own s t → Delivers H W enclosing L own (before ++ after) c.call t

variable {H W enclosing L} {own more : Nat → Prop} {others new : List Callback} {s t : Store}
  {a b : Action Value}

theorem Waits.later {callbacks : List Callback} (h : Waits H W enclosing L own callbacks s)
    (ht : Meanwhile H own s t) : Waits H W enclosing L own callbacks t :=
  ⟨h.1, fun before c after hsplit u hu => h.2 before c after hsplit u (ht.trans hu)⟩

namespace Delivers

/-- The order in which other callbacks are listed does not matter. -/
theorem perm {others' : List Callback} (h : Delivers H W enclosing L own others a s)
    (hperm : others.Perm others') : Delivers H W enclosing L own others' a s := by
  cases h with
  | pause ha hworks hB hne hnext =>
    exact .pause ha hworks (hB.trans (hperm.append_right _)) hne hnext
  | finish ha hworks hC hv =>
    obtain rfl := hperm.nil_eq
    exact .finish ha hworks hC hv

/-- An action with more lists of its own is disturbed less and may do more. -/
theorem mono (h : Delivers H W enclosing L own others a s) (hle : ∀ tag, own tag → more tag) :
    Delivers H W enclosing L more others a s := by
  induction h generalizing more with
  | pause ha hworks hperm hne _ ih =>
    exact .pause ha (hworks.mono hle) hperm hne fun before c after hsplit u hu =>
      ih before c after hsplit u (hu.mono (gained_mono hle)) (gained_mono hle)
  | finish ha hworks hC hv => exact .finish ha (hworks.mono hle) hC hv

/-- Before the action delivers it may do other things of its own. -/
theorem comes {callbacks : List Callback} (h : Comes W a s b t)
    (hworks : Works H own s new t) (hperm : callbacks.Perm (others ++ new))
    (g : Delivers H W enclosing L (gained own s t) callbacks b t) :
    Delivers H W enclosing L own others a s := by
  generalize hown : gained own s t = own' at g
  cases g with
  | @pause _ _ new' B _ x _ u hb hworks' hB hne hnext =>
    subst hown
    rw [gained_gained hworks.later hworks'.later] at hnext
    refine .pause (h.trans hb) (hworks.trans hworks') ?_ hne hnext
    rw [← List.append_assoc]
    exact hB.trans (hperm.append_right new')
  | finish hb hworks' hC hv =>
    subst hown
    obtain ⟨rfl, rfl⟩ := List.append_eq_nil_iff.1 hperm.nil_eq.symm
    exact .finish (h.trans hb) (hworks.trans hworks') hC hv

/-- What is delivered may be worked on before it is delivered further. -/
theorem andThen {further : Context → Prop} {M : Value → Prop}
    (h : Delivers H W enclosing L own others a s)
    (hnext : ∀ C tag v, enclosing C → L v → Surely H W further M (C (.leaf tag v))) :
    Delivers H W further M own others a s := by
  induction h with
  | pause ha hworks hperm hne _ ih => exact .pause ha hworks hperm hne ih
  | finish ha hworks hC hv =>
    refine comes ha hworks (.refl _) ?_
    exact (hnext _ _ _ hC hv _ hworks.stays).mono fun _ => False.elim

end Delivers

namespace Surely

/-- What comes to an action that surely delivers, without a change of the store, surely delivers. -/
theorem comes (h : ∀ s, Comes W a s b s) (g : Surely H W enclosing L b) :
    Surely H W enclosing L a := by
  intro s hs
  refine Delivers.comes (h s) (.refl hs) (.refl []) ?_
  rw [gained_self]
  exact g s hs

theorem andThen {further : Context → Prop} {M : Value → Prop} (h : Surely H W enclosing L a)
    (hnext : ∀ C tag v, enclosing C → L v → Surely H W further M (C (.leaf tag v))) :
    Surely H W further M a := fun s hs => (h s hs).andThen hnext

end Surely

end Delivering

end AlgebraicEffects
