import AlgebraicEffects.Proofs.Flows.Cells
import AlgebraicEffects.Proofs.Flows.Suspending
import AlgebraicEffects.Proofs.Handling

/-!
Two programs side by side finish exactly once.

An evaluation forks into two flows that share its cells. The host may run their callbacks in any
order, so either of them can be interrupted by the other one at every pause. What carries the proof
is that a flow in its turn leaves alone the lists of the other flow and the cells, until it
finishes. The flow that finishes first fills its cell and ends; from then on the other one is alone
and delivers both values. Main statement: `finishesOnce_par`.
-/

set_option autoImplicit false

namespace AlgebraicEffects

open Action (Traced)
open Suspension (suspendName)

/-- The lists of two flows, and that of their cells. -/
def joint (tag : Nat) (own others : Nat → Prop) (t : Nat) : Prop := t = tag ∨ own t ∨ others t

section Joint

variable {tag : Nat} {s t : Store} {own others : Nat → Prop}

theorem gained_joint : gained (joint tag own others) s t = joint tag (gained own s t) others := by
  funext other
  unfold gained joint
  exact propext (by grind)

theorem joint_comm (other : Nat) (h : joint tag own others other) : joint tag others own other :=
  h.imp_right Or.symm

end Joint

section Separate

variable {host : Value} (H : Registrar host)

/-- The lists of two flows are apart from each other and from that of the cells, and all have been
made. -/
structure Separate (tag : Nat) (s : Store) (own others : Nat → Prop) : Prop where
  pos : tag ≠ 0
  cells : ¬ own tag ∧ ¬ others tag
  disjoint : ∀ t, own t → ¬ others t
  made : H.Made s (joint tag own others)
  shared : ∀ t, H.Shared t → t < s.nextTag

namespace Separate

variable {H} {tag : Nat} {s t : Store} {own others : Nat → Prop}

theorem symm (h : Separate H tag s own others) : Separate H tag s others own :=
  ⟨h.pos, h.cells.symm, fun t ho hown => h.disjoint t hown ho,
    fun t ht => h.made t (ht.imp_right .symm), h.shared⟩

theorem later (h : Separate H tag s own others) (hle : s.nextTag ≤ t.nextTag) :
    Separate H tag t own others :=
  ⟨h.pos, h.cells, h.disjoint, h.made.later hle, fun t ht => Nat.lt_of_lt_of_le (h.shared t ht) hle⟩

theorem made_cells (h : Separate H tag s own others) : tag < s.nextTag ∧ ¬ H.Shared tag :=
  h.made tag (.inl rfl)

theorem made_others (h : Separate H tag s own others) : H.Made s others := fun t ht =>
  h.made t (.inr (.inr ht))

/-- The lists that a flow makes in its turn are its own. -/
theorem turn (h : Separate H tag s own others) (hle : s.nextTag ≤ t.nextTag) :
    Separate H tag t (gained own s t) others where
  pos := h.pos
  cells := ⟨fun hgained => hgained.elim h.cells.1 fun hnew =>
    Nat.not_lt.2 hnew.1 h.made_cells.1, h.cells.2⟩
  disjoint other hgained hother := by
    rcases hgained with hown | hnew
    · exact h.disjoint other hown hother
    · exact Nat.not_lt.2 hnew.1 (h.made_others other hother).1
  made := by
    rw [← gained_joint]
    exact h.made.gained h.shared hle
  shared other hother := Nat.lt_of_lt_of_le (h.shared other hother) hle

/-- What a flow does in its turn leaves the other one alone. -/
theorem meanwhile (h : Separate H tag s own others) {new : List Callback}
    (hworks : Works H own s new t) : Meanwhile H others s t :=
  hworks.meanwhile h.made_others fun t ht hown => h.disjoint t hown ht

/-- The cells stay as they are in the turn of a flow. -/
theorem holds (h : Separate H tag s own others) {new : List Callback} (hworks : Works H own s new t)
    {cells : Bool → Value} (hcells : Holds tag cells s) : Holds tag cells t :=
  hcells.of_lookup (hworks.kept tag h.made_cells.1 h.made_cells.2 h.cells.1)

end Separate

end Separate

/-- One of these values, with its identity. -/
def Identified (P : Value → Prop) (w : Value) : Prop :=
  ∃ (v : Value) (s : Store), P v ∧ w = (s.identify v).1

/-- The pair of a value of the first flow and one of the second flow. -/
def Pairs (P : Bool → Value → Prop) (v : Value) : Prop :=
  ∃ cells : Bool → Value, (∀ side, Identified (P side) (cells side)) ∧
    v = .tuple 0 [cells false, cells true]

/-- The contexts of a flow, which goes on with storing its value. -/
def branch (enclosing : Context → Prop) (side : Bool) (tag : Nat) : Context → Prop :=
  inside (· = fun p => Program.graft p (settling side tag)) enclosing

section Flows

variable {host : Value} {H : Registrar host} {W : Watch} {effects : Effects}
  {enclosing : Context → Prop} {P : Bool → Value → Prop} {M : Value → Prop} {tag : Nat}
  {own otherOwn : Nat → Prop} {others new callbacks waiting : List Callback}
  {a : Action Value} {s t : Store}

theorem Identified.ne_notAvailable (hP : ∀ side, ¬ P side .notAvailable) {side : Bool} {w : Value}
    (h : Identified (P side) w) : w ≠ .notAvailable := by
  obtain ⟨v, s, hv, rfl⟩ := h
  exact identify_ne_notAvailable s fun heq => hP side (heq ▸ hv)

/-- The flow that finishes second delivers both values. -/
theorem Delivers.alone (hP : ∀ side, ¬ P side .notAvailable) {side : Bool}
    (h : Delivers H W (branch enclosing side tag) (P side) own others a s) :
    Separate H tag s own otherOwn → ∀ cells, Holds tag cells s →
      (∀ other, other ≠ side → Identified (P other) (cells other)) →
      Delivers H W enclosing (Pairs P) (joint tag own otherOwn) others a s := by
  induction h with
  | @pause own others new callbacks a x s t ha hworks hperm hne _ ih =>
    intro hapart cells hcells hother
    refine .pause ha (hworks.mono fun _ h => .inr (.inl h)) hperm hne
      fun before c after hsplit u hu => ?_
    rw [gained_joint] at hu ⊢
    exact ih before c after hsplit u (hu.mono fun _ h => .inr (.inl h))
      ((hapart.turn hworks.later).later hu.later) cells
      ((hapart.holds hworks hcells).of_lookup (hu.kept tag (.inl rfl))) hother
  | @finish own a s t _ leafTag v ha hworks hC hv =>
    intro hapart cells hcells hother
    obtain ⟨_, C, rfl, hC, rfl⟩ := hC
    obtain ⟨u, hsettles, -, hcomes⟩ := exists_stored (W := W) hworks.stays
      (hapart.later hworks.later).made_cells.1 hapart.pos (gained (joint tag own otherOwn) s t)
      (.inl (.inl rfl)) (hapart.holds hworks hcells) side v
    have hfilled (other : Bool) :
        Identified (P other) (filled cells side (t.identify v).1 other) := by
      unfold filled
      split
      · subst_vars
        exact ⟨v, t, hv, rfl⟩
      · exact hother other ‹_›
    have hdelivers := hcomes leafTag C
    rw [deliver_of_full fun other => (hfilled other).ne_notAvailable hP] at hdelivers
    exact .comes ha (hworks.mono fun _ h => .inr (.inl h)) (.refl []) (.finish (C := C) hdelivers
      hsettles hC ⟨filled cells side (t.identify v).1, hfilled, rfl⟩)

/-- At a pause of one of two flows, the host calls either of them next. -/
theorem Delivers.beside {x : Value} (ha : Comes W a s (.done x) t) (hworks : Works H own s new t)
    (hperm : callbacks.Perm (others ++ new)) (hne : callbacks ≠ [])
    (hown : ∀ before c after, callbacks = before ++ c :: after → ∀ u,
      Meanwhile H (joint tag (gained own s t) otherOwn) t u →
        Delivers H W enclosing M (joint tag (gained own s t) otherOwn) (before ++ after ++ waiting)
          c.call u)
    (hother : ∀ before c after, waiting = before ++ c :: after → ∀ u,
      Meanwhile H (joint tag (gained own s t) otherOwn) t u →
        Delivers H W enclosing M (joint tag (gained own s t) otherOwn) (before ++ after ++ callbacks)
          c.call u) :
    Delivers H W enclosing M (joint tag own otherOwn) (others ++ waiting) a s := by
  have hall : (callbacks ++ waiting).Perm (others ++ waiting ++ new) := by
    refine (hperm.append_right waiting).trans ?_
    rw [List.append_assoc, List.append_assoc]
    exact List.perm_append_comm.append_left others
  refine .pause ha (hworks.mono fun _ h => .inr (.inl h)) hall
    (List.append_ne_nil_of_left_ne_nil hne _) fun before c after hsplit u hu => ?_
  · rw [gained_joint] at hu ⊢
    rcases List.append_eq_append_iff.1 hsplit with ⟨between, rfl, hwaiting⟩ | ⟨rest, hcallbacks, hrest⟩
    · refine (hother between c after hwaiting u hu).perm ?_
      rw [List.append_assoc callbacks]
      exact List.perm_append_comm
    · cases rest with
      | nil =>
        rw [List.append_nil] at hcallbacks
        subst hcallbacks
        exact (hother [] c after hrest.symm u hu).perm List.perm_append_comm
      | cons d rest =>
        obtain ⟨rfl, rfl⟩ := List.cons.inj hrest
        exact (hown before c rest hcallbacks u hu).perm (.of_eq (List.append_assoc _ _ _))

/-- The flow that finishes first ends, and the other one is alone from then on. -/
theorem Delivers.first (hP : ∀ side, ¬ P side .notAvailable)
    (henclosing : Encloses H W effects enclosing) {side other : Bool} (hsides : side ≠ other)
    {C : Context} (hC : enclosing C) {leafTag : Nat} {v : Value} (hv : P side v)
    (ha : Comes W a s ((Program.graft (.leaf leafTag v) (settling side tag)).bind C) t)
    (hworks : Works H own s [] t)
    (hwaits : Waits H W (branch enclosing other tag) (P other) otherOwn waiting s)
    (hapart : Separate H tag s own otherOwn) (hcells : Holds tag (fun _ => .notAvailable) s) :
    Delivers H W enclosing (Pairs P) (joint tag own otherOwn) waiting a s := by
  obtain ⟨u, hsettles, hholds, hcomes⟩ := exists_stored (W := W) hworks.stays
    (hapart.later hworks.later).made_cells.1 hapart.pos (fun t => t = tag) rfl
    (hapart.holds hworks hcells) side v
  have hother : filled (fun _ => .notAvailable) side (t.identify v).1 other = .notAvailable :=
    if_neg hsides.symm
  have hends := hcomes leafTag C
  rw [deliver_of_empty hother] at hends
  obtain ⟨callback, K, -, hK, hbegin, -⟩ := henclosing.suspend hC 0 .exitStart (.arrowOf .leaf) rfl
  obtain ⟨x, hx⟩ := hK .nothing u
  have hpause : Comes W a s (.done x) u := ((ha.trans hends).trans (hbegin u)).trans hx
  have hworks' : Works H (joint tag own otherOwn) s [] u :=
    (hworks.mono fun _ h => .inr (.inl h)).trans (hsettles.mono fun _ h => .inl (.inl h))
  have hmeanwhile : Meanwhile H otherOwn s u := (hapart.meanwhile hworks).trans
    (hsettles.meanwhile (hapart.made_others.later hworks.later) fun t ht heq =>
      hapart.cells.2 (heq ▸ ht))
  refine .pause hpause hworks' (.of_eq (List.append_nil _).symm) hwaits.1
    fun before c after hsplit z hz => ?_
  rw [gained_joint] at hz ⊢
  refine ((hwaits.2 before c after hsplit z (hmeanwhile.trans (hz.mono fun _ h => .inr (.inr h)))).alone
    hP ((hapart.turn hworks'.later).symm.later hz.later) _ (hholds.of_lookup (hz.kept tag (.inl rfl)))
    fun third hthird => ?_).mono joint_comm
  have hside : third = side := by
    cases third <;> cases side <;> cases other <;> simp_all
  exact ⟨v, t, hside ▸ hv, if_pos hside⟩

/-- One flow pauses while the other one waits; it is known what becomes of both when the other one
is called. -/
theorem Delivers.interrupted (hP : ∀ side, ¬ P side .notAvailable)
    (henclosing : Encloses H W effects enclosing) {side other : Bool} (hsides : side ≠ other)
    (h : Delivers H W (branch enclosing side tag) (P side) own others a s) :
    Waits H W (branch enclosing other tag) (P other) otherOwn waiting s →
    (∀ before c after, waiting = before ++ c :: after → ∀ u, Meanwhile H otherOwn s u →
      ∀ callbacks own', Waits H W (branch enclosing side tag) (P side) own' callbacks u →
        Separate H tag u otherOwn own' → Holds tag (fun _ => .notAvailable) u →
        Delivers H W enclosing (Pairs P) (joint tag otherOwn own') (before ++ after ++ callbacks)
          c.call u) →
    Separate H tag s own otherOwn → Holds tag (fun _ => .notAvailable) s →
    Delivers H W enclosing (Pairs P) (joint tag own otherOwn) (others ++ waiting) a s := by
  induction h with
  | @pause own others new callbacks a x s t ha hworks hperm hne hnext ih =>
    intro hwaits hcalled hapart hcells
    have hmeanwhile := hapart.meanwhile hworks
    have hcells' := hapart.holds hworks hcells
    refine .beside ha hworks hperm hne (fun before c after hsplit u hu => ?_)
      fun before c after hsplit u hu => ?_
    · have hu' : Meanwhile H otherOwn s u := hmeanwhile.trans (hu.mono fun _ h => .inr (.inr h))
      exact ih before c after hsplit u (hu.mono fun _ h => .inr (.inl h)) (hwaits.later hu')
        (fun before c after hsplit z hz => hcalled before c after hsplit z (hu'.trans hz))
        ((hapart.turn hworks.later).later hu.later) (hcells'.of_lookup (hu.kept tag (.inl rfl)))
    · refine (hcalled before c after hsplit u (hmeanwhile.trans (hu.mono fun _ h => .inr (.inr h)))
        callbacks _ ⟨hne, fun before c after hsplit z hz => hnext before c after hsplit z
          ((hu.mono fun _ h => .inr (.inl h)).trans hz)⟩
        ((hapart.turn hworks.later).later hu.later).symm
        (hcells'.of_lookup (hu.kept tag (.inl rfl)))).mono joint_comm
  | finish ha hworks hC hv =>
    intro hwaits _ hapart hcells
    obtain ⟨_, C, rfl, hC, rfl⟩ := hC
    exact .first hP henclosing hsides hC hv ha hworks hwaits hapart hcells

/-- Two flows side by side, of which one is in its turn and the other one waits, deliver the pair of
their values. -/
theorem Delivers.both (hP : ∀ side, ¬ P side .notAvailable)
    (henclosing : Encloses H W effects enclosing) {side other : Bool} (hsides : side ≠ other)
    (h : Delivers H W (branch enclosing side tag) (P side) own others a s) :
    ∀ waiting otherOwn, Waits H W (branch enclosing other tag) (P other) otherOwn waiting s →
      Separate H tag s own otherOwn → Holds tag (fun _ => .notAvailable) s →
      Delivers H W enclosing (Pairs P) (joint tag own otherOwn) (others ++ waiting) a s := by
  induction h with
  | @pause own others new callbacks a x s t ha hworks hperm hne hnext ih =>
    intro waiting otherOwn hwaits hapart hcells
    have hmeanwhile := hapart.meanwhile hworks
    have hcells' := hapart.holds hworks hcells
    refine .beside ha hworks hperm hne (fun before c after hsplit u hu => ?_)
      fun before c after hsplit u hu => ?_
    · exact ih before c after hsplit u (hu.mono fun _ h => .inr (.inl h)) waiting otherOwn
        (hwaits.later (hmeanwhile.trans (hu.mono fun _ h => .inr (.inr h))))
        ((hapart.turn hworks.later).later hu.later) (hcells'.of_lookup (hu.kept tag (.inl rfl)))
    · -- The other flow is called. What becomes of both when this one is called next is known.
      have hturn := hwaits.2 before c after hsplit u
        (hmeanwhile.trans (hu.mono fun _ h => .inr (.inr h)))
      refine (hturn.interrupted hP henclosing hsides.symm ⟨hne, fun before c after hsplit z hz =>
        hnext before c after hsplit z ((hu.mono fun _ h => .inr (.inl h)).trans hz)⟩
        (fun before c after hsplit z hz callbacks own' hwaits' hapart' hholds' =>
          ih before c after hsplit z ((hu.mono fun _ h => .inr (.inl h)).trans hz) callbacks own'
            hwaits' hapart' hholds')
        ((hapart.turn hworks.later).later hu.later).symm
        (hcells'.of_lookup (hu.kept tag (.inl rfl)))).mono joint_comm
  | finish ha hworks hC hv =>
    intro waiting otherOwn hwaits hapart hcells
    obtain ⟨_, C, rfl, hC, rfl⟩ := hC
    exact .first hP henclosing hsides hC hv ha hworks hwaits hapart hcells

/-- What is grafted onto an operation that evaluates to its own answer is called with the answer. -/
theorem comes_grafted {f : Function} (hf : f.movesFlows = true) (answer : Value) (C : Context)
    (s : Store) :
    Comes W ((Action.ask (.arrowOf (.grafted (.arrowOf .leaf) (.arrowOf f))) [answer]).bind C) s
      ((f.apply (.of [answer])).bind fun p => C (Program.lift p)) s := by
  refine (Comes.invoke (W.blind rfl) (.of [answer]) C s).trans ?_
  show Comes W (((Action.ask (.arrowOf .leaf) [answer]).bind fun p =>
    Program.graft p (.arrowOf f)).bind C) s _ s
  rw [Action.bind_assoc]
  refine (comes_leaf answer _ s).trans ?_
  show Comes W (((Action.ask (.arrowOf f) [answer]).bind fun x =>
    .done (Program.lift x)).bind C) s _ s
  rw [Action.bind_assoc]
  exact .invoke (W.blind hf) (.of [answer]) _ s

/-- An evaluation begins with cells that no one has seen before. -/
theorem exists_allocated (henclosing : Encloses H W effects enclosing) {C : Context}
    (hC : enclosing C) (left right : Value) :
    ∃ D, enclosing D ∧ ∀ s, Comes W ((Suspension.par left right).bind C) s
      ((Suspension.parStartBody left right (.of [cellList 0])).bind fun p => D (Program.lift p)) s := by
  obtain ⟨callback, K, hcallback, hK, hbegin, hcalled⟩ := henclosing.suspend hC 0 .allocateCells
    (.arrowOf (.grafted (.arrowOf .leaf) (.arrowOf (.parStart left right)))) rfl
  obtain ⟨D, hD, hresumed⟩ := hcalled [cellList 0] (cellList 0) (.inr rfl)
  refine ⟨_, henclosing.followed hD fun _ s => hK .nothing s, fun s => (hbegin s).trans ?_⟩
  show Comes W (((Action.ask callback [cellList 0]).bind fun _ => .done .nothing).bind K) s _ s
  rw [Action.bind_assoc]
  refine (Comes.invoke hcallback (.of [cellList 0]) _ s).trans (((hresumed s).bind _).trans ?_)
  rw [Action.bind_assoc]
  exact comes_grafted (f := .parStart left right) rfl (cellList 0) _ s

theorem traced_parStart (left right : Value) (s : Store) :
    Traced (Suspension.parStartBody left right (.of [cellList 0])) s []
      (.ok (.operation 0 suspendName [.arrowOf .forkStart] (.arrowOf (.grafted (.arrowOf .leaf)
        (.arrowOf (.parForked left right (cellList s.nextTag)))))))
      (s.tagsFrom (s.nextTag + 1)) :=
  (traced_identify s (cellList 0)).bind (.done _ _)

/-- A flow that forks goes on at once, and from the host's queue. -/
theorem exists_forked (henclosing : Encloses H W effects enclosing) {C : Context} (hC : enclosing C)
    (next : Function) (hnext : next.movesFlows = true) (hs : H.Ready s) :
    ∃ (callback : Value) (t : Store), Works H (fun _ => False) s [(callback, [.bool true])] t ∧
      (∃ D, enclosing D ∧ Comes W (C (.operation 0 suspendName [.arrowOf .forkStart]
        (.arrowOf (.grafted (.arrowOf .leaf) (.arrowOf next))))) s
        ((next.apply (.of [.bool false])).bind fun p => D (Program.lift p)) t) ∧
      ∃ D, enclosing D ∧ ∀ u, Comes W (callback.apply (.of [.bool true])) u
        ((next.apply (.of [.bool true])).bind fun p => D (Program.lift p)) u := by
  obtain ⟨callback, K, hcallback, hK, hbegin, hcalled⟩ := henclosing.suspend hC 0 .forkStart
    (.arrowOf (.grafted (.arrowOf .leaf) (.arrowOf next))) rfl
  obtain ⟨t, hregistered, hopen, hlists, htag, hperm⟩ := H.callSoon (callback, [.bool true]) hs.isOpen
  obtain ⟨D, hD, hnow⟩ := hcalled [.bool false] (.bool false) (.inr rfl)
  obtain ⟨E, hE, hlater⟩ := hcalled [.bool true] (.bool true) (.inr rfl)
  refine ⟨callback, t, .of_registered hs htag hlists hopen hperm,
    ⟨_, henclosing.followed hD fun _ u => hK .nothing u, (hbegin s).trans ?_⟩,
    E, hE, fun u => (hlater u).trans (comes_grafted hnext _ _ u)⟩
  show Comes W (((Host.callSoon host callback [.bool true]).bind fun _ =>
    (Action.ask callback [.bool false]).bind fun _ => .done .nothing).bind K) s _ t
  rw [Action.bind_assoc]
  refine (Comes.of_traced hregistered _).trans ?_
  rw [Action.bind_assoc]
  refine (Comes.invoke hcallback (.of [.bool false]) _ t).trans (((hnow t).bind _).trans ?_)
  rw [Action.bind_assoc]
  exact comes_grafted hnext _ _ t

/-- A flow runs its program, and goes on with storing its value. -/
theorem surely_branch (henclosing : Encloses H W effects enclosing) {C : Context} (hC : enclosing C)
    {L : Value → Prop} {program : Value}
    (h : FinishesOnce H W effects L (.done (Program.lift program))) (side : Bool) (tag : Nat) :
    Surely H W (branch enclosing side tag) L
      ((Program.graft program (settling side tag)).bind fun p => C (Program.lift p)) := by
  rw [graft_bind_lift program rfl C, ← graft_lift]
  exact h _ (encloses_graft henclosing rfl) _ ⟨_, C, rfl, hC, rfl⟩

/-- Two programs that finish exactly once, with values other than the one that stands for none,
finish exactly once side by side, with the pair of their values. -/
theorem finishesOnce_par {left right : Value} (hP : ∀ side, ¬ P side .notAvailable)
    (hleft : FinishesOnce H W effects (P false) (.done (Program.lift left)))
    (hright : FinishesOnce H W effects (P true) (.done (Program.lift right))) :
    FinishesOnce H W effects (Pairs P) (Suspension.par left right) := by
  intro enclosing henclosing C hC s hs
  obtain ⟨D, hD, hallocated⟩ := exists_allocated henclosing hC left right
  have hcells : Works H (fun _ => False) s [] (s.tagsFrom (s.nextTag + 1)) :=
    .of_tagsFrom hs (Nat.le_succ _)
  obtain ⟨callback, t, hforked, ⟨E, hE, hnow⟩, E', hE', hlater⟩ :=
    exists_forked henclosing hD (.parForked left right (cellList s.nextTag)) rfl hcells.stays
  have hcomes : Comes W ((Suspension.par left right).bind C) s
      ((Program.graft left (settling false s.nextTag)).bind fun p => E (Program.lift p)) t :=
    ((hallocated s).trans (Comes.of_traced (traced_parStart left right s) _)).trans hnow
  have hworks := hcells.trans (hforked.mono fun _ => False.elim)
  -- The second flow waits for the host, while the first one goes on in the same turn.
  have hwaits : Waits H W (branch enclosing true s.nextTag) (P true) (fun _ => False)
      [(callback, [.bool true])] t := by
    refine ⟨List.cons_ne_nil _ _, fun before c after hsplit u hu => ?_⟩
    obtain ⟨rfl, rfl, rfl⟩ := eq_of_singleton_split hsplit
    refine .comes (hlater u) (.refl hu.stays) (.refl []) ?_
    exact (surely_branch henclosing hE' hright true s.nextTag u hu.stays).mono fun _ => False.elim
  have htag : s.nextTag < t.nextTag := hforked.later
  have hunshared : ¬ H.Shared s.nextTag := fun h => Nat.lt_irrefl _ (hs.shared _ h)
  have hapart : Separate H s.nextTag t (fun _ => False) (fun _ => False) := by
    refine ⟨Nat.ne_of_gt hs.pos, ⟨id, id⟩, fun _ h => h.elim, ?_, hworks.stays.shared⟩
    rintro tag (rfl | h | h)
    · exact ⟨htag, hunshared⟩
    · exact h.elim
    · exact h.elim
  have hholds : Holds s.nextTag (fun _ => .notAvailable) t := by
    unfold Holds Store.itemsNow
    rw [hforked.kept s.nextTag (Nat.lt_succ_self _) hunshared id]
    show (s.writtenLists.lookup s.nextTag).getD _ = _
    rw [hs.unwritten _ (Nat.le_refl _)]
    rfl
  refine .comes hcomes hworks (.refl _) ?_
  refine ((surely_branch henclosing hE hleft false s.nextTag t hworks.stays).both hP henclosing
    Bool.false_ne_true _ _ hwaits hapart hholds).mono ?_
  rintro tag (rfl | h | h)
  · exact .inr ⟨Nat.le_refl _, htag⟩
  · exact h.elim
  · exact h.elim

end Flows

end AlgebraicEffects
