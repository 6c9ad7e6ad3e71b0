import AlgebraicEffects.Proofs.Choice.Enumeration
import AlgebraicEffects.Proofs.Showing

/-!
The extremes are those of the list of all choices.

The handler that keeps the greatest value resumes each decision with true and with false and compares
what comes of the two branches, so its comparisons follow the shape of the tree. The list of the leaves
has no shape. Both end at the same leaf, the first of the greatest ones, because what beats the greatest
value of one branch beats all values of that branch, and a tie is decided for the branch in front
(`FirstGreatest.append`, `FirstGreatest.append_of_less`). The least value is the greatest in the converse
order (`extremes_agree_with_enumeration`).
-/

set_option autoImplicit false

namespace AlgebraicEffects

open Action (Traced)
open Choice (decideName failName)
open Output (printName)

variable {V : Type} {S : Scene V} {C : Course S} {L : Listener}

section Orders

/-- Any two of the values can be compared, and ranks are transitive among them. -/
structure TotalPreorder (atMost : V → V → Prop) (values : List V) : Prop where
  total {u v : V} : u ∈ values → v ∈ values → atMost u v ∨ atMost v u
  trans {u v x : V} : u ∈ values → v ∈ values → x ∈ values → atMost u v → atMost v x → atMost u x

theorem TotalPreorder.mono {atMost : V → V → Prop} {values fewer : List V}
    (h : TotalPreorder atMost values) (hfewer : fewer ⊆ values) : TotalPreorder atMost fewer :=
  ⟨fun hu hv => h.total (hfewer hu) (hfewer hv),
    fun hu hv hx => h.trans (hfewer hu) (hfewer hv) (hfewer hx)⟩

theorem TotalPreorder.flip {atMost : V → V → Prop} {values : List V}
    (h : TotalPreorder atMost values) : TotalPreorder (fun x y => atMost y x) values :=
  ⟨fun hu hv => h.total hv hu, fun hu hv hx huv hvx => h.trans hx hv hu hvx huv⟩

/-- The first of the greatest values of a list. -/
structure FirstGreatest (atMost : V → V → Prop) (values : List V) (v : V) : Prop where
  greatest : ∀ u ∈ values, atMost u v
  first : ∃ before after, values = before ++ v :: after ∧ ∀ u ∈ before, ¬ atMost v u

namespace FirstGreatest

variable {atMost : V → V → Prop} {us vs : List V} {u v : V}

theorem mem (h : FirstGreatest atMost vs v) : v ∈ vs := by
  obtain ⟨before, after, rfl, -⟩ := h.first
  exact List.mem_append_right before List.mem_cons_self

theorem singleton (h : TotalPreorder atMost [v]) : FirstGreatest atMost [v] v where
  greatest u hu := by
    rw [List.mem_singleton.1 hu]
    exact (h.total List.mem_cons_self List.mem_cons_self).elim id id
  first := ⟨[], [], rfl, fun _ hu => nomatch hu⟩

/-- What is not beaten by the greatest value behind it stays. -/
theorem append (horder : TotalPreorder atMost (us ++ vs)) (hu : FirstGreatest atMost us u)
    (hv : FirstGreatest atMost vs v) (hle : atMost v u) : FirstGreatest atMost (us ++ vs) u where
  greatest x hx := by
    rcases List.mem_append.1 hx with hx | hx
    · exact hu.greatest x hx
    · exact horder.trans (List.mem_append_right us hx) (List.mem_append_right us hv.mem)
        (List.mem_append_left vs hu.mem) (hv.greatest x hx) hle
  first := by
    obtain ⟨before, after, rfl, hbefore⟩ := hu.first
    exact ⟨before, after ++ vs, List.append_assoc _ _ _, hbefore⟩

/-- What beats the greatest value in front of it beats all values there. -/
theorem append_of_less (horder : TotalPreorder atMost (us ++ vs)) (hu : FirstGreatest atMost us u)
    (hv : FirstGreatest atMost vs v) (hlt : ¬ atMost v u) : FirstGreatest atMost (us ++ vs) v := by
  have hmemu := List.mem_append_left vs hu.mem
  have hmemv := List.mem_append_right us hv.mem
  have hle : atMost u v := (horder.total hmemu hmemv).resolve_right hlt
  refine ⟨fun x hx => ?_, ?_⟩
  · rcases List.mem_append.1 hx with hx | hx
    · exact horder.trans (List.mem_append_left vs hx) hmemu hmemv (hu.greatest x hx) hle
    · exact hv.greatest x hx
  · obtain ⟨before, after, rfl, hbefore⟩ := hv.first
    refine ⟨us ++ before, after, (List.append_assoc _ _ _).symm, fun x hx => ?_⟩
    rcases List.mem_append.1 hx with hx | hx
    · exact fun hvx => hlt (horder.trans hmemv (List.mem_append_left _ hx) hmemu hvx
        (hu.greatest x hx))
    · exact hbefore x hx

end FirstGreatest

/-- Order tests of the values that are seen so decide, in all worlds from now on, whether the one is
not at most the other. -/
def Compares (C : Course S) (atMost : V → V → Prop) (values : List V) (w : S.World) : Prop :=
  ∀ u x y, C.Later w u → S.Fit u x → S.Fit u y → S.see x ∈ values → S.see y ∈ values →
    ∃ b, Traced (Value.less x y) (S.store u) [] (.ok b) (S.store u) ∧
      (b = true ↔ ¬ atMost (S.see y) (S.see x))

theorem Compares.mono {atMost : V → V → Prop} {values fewer : List V} {w u : S.World}
    (h : Compares C atMost values w) (hu : C.Later w u) (hfewer : fewer ⊆ values) :
    Compares C atMost fewer u :=
  fun z x y hz hx hy hmemx hmemy => h z x y (C.trans hu hz) hx hy (hfewer hmemx) (hfewer hmemy)

end Orders

namespace Choices

/-- No branch fails. -/
def Unfailing : Choices V → Prop
  | leaf _ => True
  | fail => False
  | decide t f => t.Unfailing ∧ f.Unfailing
  | print _ c => c.Unfailing

/-- The answers with which the decisions are resumed, each one once, true in front. -/
def answers : Choices V → List Bool
  | leaf _ => []
  | fail => []
  | decide t f => true :: t.answers ++ false :: f.answers
  | print _ c => c.answers

/-- The tree in which the answer to a decision is a message at the head of its branch. -/
def noted (message : Bool → V) : Choices V → Choices V
  | leaf v => leaf v
  | fail => fail
  | decide t f => decide (print (message true) (t.noted message)) (print (message false) (f.noted message))
  | print m c => print m (c.noted message)

theorem solutions_noted (message : Bool → V) (c : Choices V) :
    (c.noted message).solutions = c.solutions := by
  induction c with
  | leaf v => rfl
  | fail => rfl
  | decide t f iht ihf => exact congrArg₂ (· ++ ·) iht ihf
  | print m c ih => exact ih

theorem Unfailing.noted {c : Choices V} (message : Bool → V) (h : c.Unfailing) :
    (c.noted message).Unfailing := by
  induction c with
  | leaf v => trivial
  | fail => exact h
  | decide t f iht ihf => exact ⟨iht h.1, ihf h.2⟩
  | print m c ih => exact ih h

/-- In a tree without messages of its own, nothing but the answers is noted. -/
theorem messages_noted {message : Bool → V} {c : Choices V} (h : c.messages = []) :
    (c.noted message).messages = c.answers.map message := by
  induction c with
  | leaf v => rfl
  | fail => rfl
  | decide t f iht ihf =>
    obtain ⟨ht, hf⟩ := List.append_eq_nil_iff.1 h
    simp only [Choices.noted, messages, answers, iht ht, ihf hf, List.map_append, List.map_cons,
      List.cons_append]
  | print m c ih => cases h

/-- A tree without messages begins with none, so none are in front of what is left. -/
theorem messages_rest_noted {message : Bool → V} {c : Choices V} (h : c.messages = []) :
    (c.noted message).rest.messages = c.answers.map message := by
  rw [← messages_noted h]
  cases c with
  | print m c => cases h
  | _ => rfl

end Choices

/-- No branch fails, and the leaves are ranked by the order tests. -/
structure Ranked (C : Course S) (atMost : V → V → Prop) (c : Choices V) (w : S.World) : Prop where
  unfailing : c.Unfailing
  order : TotalPreorder atMost c.solutions
  compares : Compares C atMost c.solutions w

namespace Ranked

variable {atMost : V → V → Prop} {c : Choices V} {w u : S.World}

theorem later (h : Ranked C atMost c w) (hu : C.Later w u) : Ranked C atMost c u :=
  ⟨h.unfailing, h.order, h.compares.mono hu (List.Subset.refl _)⟩

theorem noted (h : Ranked C atMost c w) (message : Bool → V) :
    Ranked C atMost (c.noted message) w := by
  refine ⟨h.unfailing.noted message, ?_, ?_⟩
  · rw [Choices.solutions_noted]
    exact h.order
  · rw [Choices.solutions_noted]
    exact h.compares

theorem front {t f : Choices V} (h : Ranked C atMost (.decide t f) w) : Ranked C atMost t w :=
  ⟨h.unfailing.1, h.order.mono (List.subset_append_left _ _),
    h.compares.mono (C.refl w) (List.subset_append_left _ _)⟩

theorem back {t f : Choices V} (h : Ranked C atMost (.decide t f) w) : Ranked C atMost f w :=
  ⟨h.unfailing.2, h.order.mono (List.subset_append_right _ _),
    h.compares.mono (C.refl w) (List.subset_append_right _ _)⟩

end Ranked

/-- The order in which the values are ranked, for the greatest one or for the least one. -/
def ranking (greatest : Bool) (atMost : V → V → Prop) : V → V → Prop :=
  if greatest then atMost else fun x y => atMost y x

theorem TotalPreorder.ranking {atMost : V → V → Prop} {values : List V}
    (h : TotalPreorder atMost values) (greatest : Bool) :
    TotalPreorder (ranking greatest atMost) values := by
  cases greatest
  · exact h.flip
  · exact h

/-- The run has ended as the leaf of the first of the greatest values, or of the least ones. -/
def Extremal (greatest : Bool) (atMost : V → V → Prop) (values : List V) (w : S.World) (e : Ending) :
    Prop :=
  ∃ v, FirstGreatest (ranking greatest atMost) values v ∧ S.Shows w e (.leaf v)

section Integers

/-- The integer that is compared, of an integer or a truth value. -/
def Shape.integer? : Shape → Option Int
  | .int n => some n
  | .bool b => some (if b then 1 else 0)
  | _ => none

/-- The order of integers and truth values. -/
def Shape.atMost (u v : Shape) : Prop := ∃ m n, u.integer? = some m ∧ v.integer? = some n ∧ m ≤ n

theorem number?_of_shape {x : Value} {n : Int} (h : x.shape.integer? = some n) :
    x.number? = some (.int n) := by
  cases x with
  | int | bool =>
    cases h
    rfl
  | _ => cases h

theorem totalPreorder_integers {values : List Shape}
    (h : ∀ v ∈ values, ∃ n, v.integer? = some n) : TotalPreorder Shape.atMost values where
  total hu hv := by
    obtain ⟨m, hm⟩ := h _ hu
    obtain ⟨n, hn⟩ := h _ hv
    exact (Int.le_total m n).imp (fun hle => ⟨m, n, hm, hn, hle⟩) fun hle => ⟨n, m, hn, hm, hle⟩
  trans := by
    rintro u v x - - - ⟨m, n, hm, hn, hle⟩ ⟨n', k, hn', hk, hle'⟩
    cases hn.symm.trans hn'
    exact ⟨m, k, hm, hk, Int.le_trans hle hle'⟩

/-- Integers and truth values are ranked by the order tests. -/
theorem compares_integers {values : List Shape} (h : ∀ v ∈ values, ∃ n, v.integer? = some n)
    (w : Store) : Compares Course.shapes Shape.atMost values w := by
  intro u x y _ _ _ hx hy
  obtain ⟨m, hm⟩ := h _ hx
  obtain ⟨n, hn⟩ := h _ hy
  refine ⟨decide (m < n), Value.traced_less_integers (number?_of_shape hm) (number?_of_shape hn) u, ?_⟩
  rw [decide_eq_true_iff]
  refine ⟨fun hlt => ?_, fun hle => ?_⟩
  · rintro ⟨n', m', hn', hm', hle⟩
    cases hn.symm.trans hn'
    cases hm.symm.trans hm'
    omega
  · exact Int.not_le.1 fun hle' => hle ⟨n, m, hn, hm, hle'⟩

theorem ranked_integers {c : Choices Shape} (hc : c.Unfailing)
    (h : ∀ v ∈ c.solutions, ∃ n, v.integer? = some n) (w : Store) :
    Ranked Course.shapes Shape.atMost c w :=
  ⟨hc, totalPreorder_integers h, compares_integers h w⟩

end Integers

namespace Choice

variable {atMost : V → V → Prop} {values us vs : List V} {greatest : Bool} {w : S.World} {x y : Value}

/-- The table of the handler that keeps the greatest value, or the least one. -/
def comparison (greatest : Bool) : Handler.Table := [(decideName, .arrowOf (.extremum greatest))]

variable (greatest) in
/-- The value in front is kept unless the other one is ranked above it. -/
theorem exists_extreme (hless : Compares C atMost values w) (hx : S.Fit w x) (hy : S.Fit w y)
    (hmemx : S.see x ∈ values) (hmemy : S.see y ∈ values) :
    ∃ z, Traced (extreme greatest x y) (S.store w) [] (.ok z) (S.store w) ∧ z.isProgram = false ∧
      (z = x ∧ ranking greatest atMost (S.see y) (S.see x) ∨
        z = y ∧ ¬ ranking greatest atMost (S.see y) (S.see x)) := by
  have htested : ∃ b, Traced (if greatest then Value.less x y else Value.less y x) (S.store w) []
      (.ok b) (S.store w) ∧ (b = true ↔ ¬ ranking greatest atMost (S.see y) (S.see x)) ∧
      x.isProgram = false ∧ y.isProgram = false := by
    cases greatest with
    | true =>
      obtain ⟨b, htr, hb⟩ := hless w x y (C.refl w) hx hy hmemx hmemy
      exact ⟨b, htr, hb, Value.not_isProgram_of_less htr⟩
    | false =>
      obtain ⟨b, htr, hb⟩ := hless w y x (C.refl w) hy hx hmemy hmemx
      exact ⟨b, htr, hb, (Value.not_isProgram_of_less htr).symm⟩
  obtain ⟨b, htr, hb, hplainx, hplainy⟩ := htested
  cases b with
  | true => exact ⟨y, htr.bind (.done _ _), hplainy, .inr ⟨rfl, hb.1 rfl⟩⟩
  | false =>
    exact ⟨x, htr.bind (.done _ _), hplainx, .inl ⟨rfl, by_contra fun h => nomatch hb.2 h⟩⟩

/-- Comparing the first greatest values of two lists gives that of the one in front of the other. -/
theorem tells_extremumOf (horder : TotalPreorder atMost (us ++ vs))
    (hless : Compares C atMost (us ++ vs) w) (hx : S.Fit w x) (hy : S.Fit w y)
    (hfirst : FirstGreatest (ranking greatest atMost) us (S.see x))
    (hsecond : FirstGreatest (ranking greatest atMost) vs (S.see y)) :
    Tells C L (Action.ask (.arrowOf (.extremumOf greatest x)) [y]) w [] fun z e =>
      ∃ r, e = .ok r ∧ Extremal greatest atMost (us ++ vs) z (.ok (Program.lift r)) := by
  obtain ⟨z, htr, hplain, hz⟩ := exists_extreme greatest hless hx hy
    (List.mem_append_left vs hfirst.mem) (List.mem_append_right us hsecond.mem)
  have hlift : Program.lift (Program.lift z) = .leaf 0 z := by
    rw [lift_lift, Program.lift, hplain]
    rfl
  refine .ask rfl ⟨[], .ok z, w, htr, C.refl w, rfl, z, rfl, S.see z, ?_, ?_⟩
  · rcases hz with ⟨rfl, hle⟩ | ⟨rfl, hlt⟩
    · exact hfirst.append (horder.ranking greatest) hsecond hle
    · exact hfirst.append_of_less (horder.ranking greatest) hsecond hlt
  · refine .leaf hlift ?_
    rcases hz with ⟨rfl, -⟩ | ⟨rfl, -⟩
    · exact hx
    · exact hy

/-- The value of the branch of true is compared with that of the branch of false. -/
theorem tells_extremumSecond {resume : Value} {said : List V}
    (horder : TotalPreorder atMost (us ++ vs)) (hless : Compares C atMost (us ++ vs) w)
    (hx : S.Fit w x) (hfirst : FirstGreatest (ranking greatest atMost) us (S.see x))
    (hsecond : Tells C L (Action.ask resume [.bool false]) w said
      (Lands (Extremal greatest atMost vs))) :
    Tells C L (Action.ask (.arrowOf (.extremumSecond greatest resume)) [x]) w said fun z e =>
      ∃ r, e = .ok r ∧ Extremal greatest atMost (us ++ vs) z (.ok (Program.lift r)) := by
  rw [← List.append_nil said]
  refine .ask rfl (Tells.bind (hsecond.mono fun z e hz hlanded => ?_))
  obtain ⟨q, rfl, -, v, hv, hshown⟩ := hlanded
  cases hshown with
  | leaf hlift hfit =>
    have hcompared := tells_extremumOf (L := L) horder (hless.mono hz (List.Subset.refl _))
      (C.fit hz hx) hfit hfirst hv
    refine ⟨q, rfl, .graft_of_leaf hlift rfl (hcompared.mono fun u e _ h => ?_)⟩
    obtain ⟨r, rfl, hr⟩ := h
    refine ⟨r, rfl, _, rfl, ?_⟩
    rw [lift_lift]
    exact hr

/-- Under the handler that keeps the extreme value, the messages that are left are heard and the leaf
of that value is the end. -/
theorem tells_comparison {c : Choices V} {p : Value} (hc : Ranked C atMost c w)
    (hp : Decides C L c w (.ok p)) :
    Tells C L (Handler.evaluate (comparison greatest) none p) w c.rest.messages
      (Lands (Extremal greatest atMost c.solutions)) := by
  have hbelow {c : Choices V} {w u : S.World} {resume a : Value}
      (h : Resumable C L resume a w c.lead (Decides C L c)) (hu : C.Later w u)
      (hc : Ranked C atMost c w)
      (ih : ∀ z p, Ranked C atMost c z → Decides C L c z (.ok p) →
        Tells C L (Handler.evaluate (comparison greatest) none p) z c.rest.messages
          (Lands (Extremal greatest atMost c.solutions))) :
      Tells C L (Action.ask (.arrowOf (.under (comparison greatest) none resume)) [a]) u
        c.messages (Lands (Extremal greatest atMost c.solutions)) := by
    rw [c.messages_eq]
    refine .under ((h u hu).mono fun z e hz hd => ?_)
    obtain ⟨p, rfl⟩ := hd.exists_ok
    exact ⟨p, rfl, ih z p (hc.later (C.trans hu hz)) hd⟩
  induction c generalizing w p with
  | leaf v =>
    cases hp with
    | leaf hlift hfit =>
      rw [Handler.evaluate_leaf hlift]
      exact .done ⟨_, rfl, rfl, _, .singleton (hc.order.ranking greatest), .leaf rfl hfit⟩
  | fail => exact hc.unfailing.elim
  | decide t f iht ihf =>
    obtain ⟨tag, resume, he, htrue, hfalse⟩ := hp
    cases he
    rw [Handler.evaluate_handled rfl rfl]
    refine .build rfl rfl (Tells.bind ?_)
    refine (hbelow htrue (C.refl w) hc.front fun _ _ => iht).mono fun z e hz hlanded => ?_
    obtain ⟨q, rfl, -, v, hv, hshown⟩ := hlanded
    cases hshown with
    | leaf hlift hfit =>
      have hcompared := tells_extremumSecond hc.order (hc.later hz).compares hfit hv
        (hbelow hfalse hz hc.back fun _ _ => ihf)
      refine ⟨q, rfl, .graft_of_leaf hlift rfl (hcompared.mono fun u e _ h => ?_)⟩
      obtain ⟨r, rfl, hr⟩ := h
      exact ⟨r, rfl, _, rfl, Program.isProgram_lift r, hr⟩
  | print m c ih => exact ih ⟨hc.unfailing, hc.order, hc.compares⟩ hp

/-- The strategies that list all values, keep the greatest one and keep the least one hear the same,
and the two extremes are those of the list. -/
def Agree (C : Course S) (L : Listener) (atMost : V → V → Prop) (under : Value → Action Value)
    (w : S.World) (said : List V) : Prop :=
  ∃ listed, Tells C L (under allChoices) w said (Listed listed) ∧
    Tells C L (under pickMax) w said (Extremal true atMost listed) ∧
    Tells C L (under pickMin) w said (Extremal false atMost listed)

/-- A handler that keeps an extreme value, called on what offers the decisions. -/
theorem tells_extremes {c : Choices V} {p : Value} (hc : Ranked C atMost c w)
    (hp : Decides C L c w (.ok p)) :
    Tells C L (Action.ask pickMax [p]) w c.rest.messages (Lands (Extremal true atMost c.solutions)) ∧
      Tells C L (Action.ask pickMin [p]) w c.rest.messages
        (Lands (Extremal false atMost c.solutions)) :=
  ⟨.invoke (L.deaf_handler _ _ _) (tells_comparison hc hp),
    .invoke (L.deaf_handler _ _ _) (tells_comparison hc hp)⟩

theorem agree_of_decides {c : Choices V} {p : Value} (hc : Ranked C atMost c w)
    (hp : Decides C L c w (.ok p)) :
    Agree C L atMost (fun h => Action.ask h [p]) w c.rest.messages :=
  ⟨c.solutions, tells_allChoices hp, (tells_extremes hc hp).1.landed, (tells_extremes hc hp).2.landed⟩

/-- The extremes agree with enumeration. On a program that does nothing but decide and whose leaves are
ranked by the order tests, the greatest value that is kept is the first of the greatest ones in the list
of all choices, and the least value the first of the least ones. If the continuations are heard, each
branch is heard to be resumed once under all three strategies, true in front. With the handler that
prints innermost, the sink is given the same messages under all three, in the same order. -/
theorem extremes_agree_with_enumeration :
    (∀ (c : Choices V) (w : S.World) (p : Value), Ranked C atMost c w → c.messages = [] →
      Offers C L c w (.ok p) → Agree C L atMost (fun h => Action.ask h [p]) w []) ∧
    (∀ (c : Choices V) (w : S.World) (p : Value), Ranked C atMost c w → c.messages = [] →
      Decides C L (c.noted fun b => S.see (.bool b)) w (.ok p) →
      Agree C L atMost (fun h => Action.ask h [p]) w (c.answers.map fun b => S.see (.bool b))) ∧
    ∀ (c : Choices V) (w : S.World) (p sink : Value), Ranked C atMost c w → Sink C L sink →
      Offers C L c w (.ok p) →
      Agree C L atMost (fun h => (Output.printHandler sink).bind fun g => Handler.applyAll p [g, h]) w
        c.messages := by
  refine ⟨fun c w p hc hsilent hp => ?_, fun c w p hc hsilent hp => ?_,
    fun c w p sink hc hsink hp => ?_⟩
  · rw [← Choices.messages_rest_of_messages hsilent]
    exact agree_of_decides hc (hp.decides hsilent)
  · rw [← Choices.messages_rest_noted hsilent]
    exact agree_of_decides (hc.noted _) hp
  · rw [c.messages_eq]
    exact ⟨c.solutions,
      hp.printed_later hsink fun z q _ hprogram hq =>
        .applied hprogram ((tells_allChoices hq).mono fun _ _ _ h => h.lands),
      (hp.printed_later hsink fun z q hz hprogram hq =>
        .applied hprogram (tells_extremes (hc.later hz) hq).1),
      (hp.printed_later hsink fun z q hz hprogram hq =>
        .applied hprogram (tells_extremes (hc.later hz) hq).2)⟩

section Instances

/-- One and true are equal, so the one in front is kept. -/
def tied : Value :=
  .operation 0 decideName []
    (onceAnswered (.chosen (.leaf 0 (.int 1)) (.leaf 0 (.bool true))))

def tiedChoices : Choices Shape := .decide (.leaf (.int 1)) (.leaf (.bool true))

theorem offers_tied (w : Store) : Offers Course.shapes .scripts tiedChoices w (.ok tied) :=
  offers_choose (S := Scene.shapes) rfl
    (fun _ _ => Scene.Shows.leaf (S := Scene.shapes) (v := .leaf 0 (.int 1)) rfl trivial)
    fun _ _ => Scene.Shows.leaf (S := Scene.shapes) (v := .leaf 0 (.bool true)) rfl trivial

/-- Prints in front of one of two equal leaves. -/
def tiedAloud : Value :=
  .operation 0 decideName []
    (onceAnswered (.chosen (printingBefore "one" (.leaf 0 (.int 1))) (.leaf 0 (.bool true))))

def tiedAloudChoices : Choices Shape :=
  .decide (.print (.text "one") (.leaf (.int 1))) (.leaf (.bool true))

theorem offers_tiedAloud (w : Store) :
    Offers Course.shapes .scripts tiedAloudChoices w (.ok tiedAloud) := by
  refine offers_choose (S := Scene.shapes) rfl (fun u _ => ?_) fun _ _ =>
    Scene.Shows.leaf (S := Scene.shapes) (v := .leaf 0 (.bool true)) rfl trivial
  exact offers_print (S := Scene.shapes) rfl fun _ _ =>
    Scene.Shows.leaf (S := Scene.shapes) (v := .leaf 0 (.int 1)) rfl trivial

/-- Ends with its answer. Its continuation is the function of a script. -/
def answering : Value :=
  .operation 0 decideName []
    (.function 1000 (.closure "resume" ⟨["decided"], none⟩ (.variable "decided") []))

def answeringChoices : Choices Shape := .decide (.leaf (.bool true)) (.leaf (.bool false))

theorem decides_answering (w : Store) :
    Decides Course.shapes .scripts (answeringChoices.noted .bool) w (.ok answering) := by
  have hanswered (b : Bool) : Resumable Course.shapes .scripts
      (.function 1000 (.closure "resume" ⟨["decided"], none⟩ (.variable "decided") [])) (.bool b) w
      [.bool b] (Decides Course.shapes .scripts (.leaf (.bool b))) := by
    intro u _
    have hbody : Traced ((Value.function 1000 (.closure "resume" ⟨["decided"], none⟩
        (.variable "decided") [])).apply (.of [.bool b])) u [] (.ok (.bool b)) u := .done _ _
    refine ⟨_, _, u, hbody.invoke, trivial, rfl, ?_⟩
    exact Scene.Shows.leaf (S := Scene.shapes) (v := .bool b) rfl trivial
  exact ⟨_, _, rfl, hanswered true, hanswered false⟩

theorem extremes_agree_with_enumeration_tied :
    Agree Course.shapes .scripts Shape.atMost (fun h => Action.ask h [tied]) Store.empty [] ∧
    Agree Course.shapes .scripts Shape.atMost (fun h => Action.ask h [answering]) Store.empty
      [.bool true, .bool false] ∧
    Agree Course.shapes .scripts Shape.atMost (fun h => (Output.printHandler quietSink).bind fun g =>
      Handler.applyAll tiedAloud [g, h]) Store.empty [.text "one"] := by
  obtain ⟨hsilent, hheard, hprinted⟩ :=
    @extremes_agree_with_enumeration Shape Scene.shapes Course.shapes .scripts Shape.atMost
  have hranked {first second : Choices Shape} {m n : Shape}
      (hfirst : first.Unfailing ∧ first.solutions = [m])
      (hsecond : second.Unfailing ∧ second.solutions = [n]) (hm : ∃ k, m.integer? = some k)
      (hn : ∃ k, n.integer? = some k) :
      Ranked Course.shapes Shape.atMost (.decide first second) Store.empty := by
    refine ranked_integers (c := .decide first second) ⟨hfirst.1, hsecond.1⟩ (fun v hv => ?_) _
    rw [Choices.solutions, hfirst.2, hsecond.2] at hv
    rcases List.mem_pair.1 hv with rfl | rfl
    · exact hm
    · exact hn
  exact ⟨hsilent tiedChoices Store.empty _
      (hranked ⟨trivial, rfl⟩ ⟨trivial, rfl⟩ ⟨1, rfl⟩ ⟨1, rfl⟩) rfl (offers_tied _),
    hheard answeringChoices Store.empty _
      (hranked ⟨trivial, rfl⟩ ⟨trivial, rfl⟩ ⟨1, rfl⟩ ⟨0, rfl⟩) rfl (decides_answering _),
    hprinted tiedAloudChoices Store.empty _ _
      (hranked ⟨trivial, rfl⟩ ⟨trivial, rfl⟩ ⟨1, rfl⟩ ⟨1, rfl⟩) sink_quietSink (offers_tiedAloud _)⟩

end Instances

end Choice

end AlgebraicEffects
