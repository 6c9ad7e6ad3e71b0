import AlgebraicEffects.Demonstration
import AlgebraicEffects.Proofs.Choice.Ranges
import AlgebraicEffects.Proofs.Replay.Feeding
import AlgebraicEffects.Proofs.Replay.Statements
import Mathlib.Data.Nat.Sqrt

/-!
The search for right triangles is exact.

The body of the search yields a choice of each leg and then fails unless the hypotenuse is an integer. It
is replayed for each answer, so it is followed from its beginning for each history (`exists_first`,
`exists_second`, `exists_third`, `exists_last`), and what it yields is grafted onto the replay for one
answer more. So the built program offers the triangles in lexicographic order
(`pythagorean_finds_triangles`).
-/

set_option autoImplicit false

namespace AlgebraicEffects

open Action (Traced Runs)
open Choice (decideName failName)
open Generator (Progress go progress)

namespace Triangles

section Arithmetic

/-- The hypotenuse of a right triangle with these legs, rounded down. -/
def hypotenuse (a b : Int) : Int := (a * a + b * b).toNat.sqrt

/-- The right triangles with this leg, whose other leg is longer, and whose sides are integers. -/
def withLeg (a high : Int) : List (Int × Int × Int) :=
  (Int.range (a + 1) (high + 1)).flatMap fun b =>
    if hypotenuse a b * hypotenuse a b = a * a + b * b then [(a, b, hypotenuse a b)] else []

/-- The right triangles whose legs lie between two bounds and whose sides are integers. -/
def triangles (low high : Int) : List (Int × Int × Int) :=
  (Int.range low (high - 1 + 1)).flatMap fun a => withLeg a high

theorem hypotenuse_eq_iff {a b c : Int} :
    hypotenuse a b * hypotenuse a b = a * a + b * b ∧ c = hypotenuse a b ↔
      0 ≤ c ∧ a * a + b * b = c * c := by
  constructor
  · rintro ⟨h, rfl⟩
    exact ⟨Int.natCast_nonneg _, h.symm⟩
  · rintro ⟨hc, h⟩
    obtain ⟨n, rfl⟩ := Int.eq_ofNat_of_zero_le hc
    have hroot : hypotenuse a b = n := by
      rw [hypotenuse, h, ← Int.natCast_mul, Int.toNat_natCast, Nat.sqrt_eq]
    exact ⟨by rw [hroot, h], hroot.symm⟩

theorem mem_withLeg {a high : Int} {x : Int × Int × Int} :
    x ∈ withLeg a high ↔ ∃ b, a < b ∧ b ≤ high ∧
      hypotenuse a b * hypotenuse a b = a * a + b * b ∧ x = (a, b, hypotenuse a b) := by
  simp only [withLeg, List.mem_flatMap, Int.mem_range_iff]
  constructor
  · rintro ⟨b, hb, hx⟩
    split at hx
    · next hsquare => exact ⟨b, by omega, by omega, hsquare, List.mem_singleton.1 hx⟩
    · cases hx
  · rintro ⟨b, hlt, hhigh, hsquare, rfl⟩
    refine ⟨b, by omega, ?_⟩
    rw [if_pos hsquare]
    exact List.mem_singleton_self _

theorem mem_triangles {low high a b c : Int} :
    (a, b, c) ∈ triangles low high ↔
      low ≤ a ∧ a < b ∧ b ≤ high ∧ 0 ≤ c ∧ a * a + b * b = c * c := by
  rw [← hypotenuse_eq_iff]
  simp only [triangles, List.mem_flatMap, Int.mem_range_iff, mem_withLeg]
  constructor
  · rintro ⟨a, ha, b, hlt, hhigh, hsquare, hx⟩
    cases hx
    exact ⟨ha.1, hlt, hhigh, hsquare, rfl⟩
  · rintro ⟨hlow, hlt, hhigh, hsquare, rfl⟩
    exact ⟨a, by omega, b, hlt, hhigh, hsquare, rfl⟩

theorem pairwise_range (m n : Int) : (Int.range m n).Pairwise (· < ·) := by
  refine List.pairwise_map.2 (List.pairwise_lt_range.imp fun h => ?_)
  omega

/-- The triangles are listed in lexicographic order, each one once. -/
theorem pairwise_triangles (low high : Int) :
    (triangles low high).Pairwise (Prod.Lex (· < ·) (Prod.Lex (· < ·) (· < ·))) := by
  refine List.pairwise_flatMap.2 ⟨fun a _ => ?_, (pairwise_range _ _).imp fun hlt => ?_⟩
  · refine List.pairwise_flatMap.2 ⟨fun b _ => ?_, (pairwise_range _ _).imp fun hlt => ?_⟩
    · split
      · exact List.pairwise_singleton _ _
      · exact .nil
    · intro x hx y hy
      rw [List.mem_ite_nil_right, List.mem_singleton] at hx hy
      obtain ⟨-, rfl⟩ := hx
      obtain ⟨-, rfl⟩ := hy
      exact .right _ (.left _ _ hlt)
  · intro x hx y hy
    obtain ⟨b, -, -, -, rfl⟩ := mem_withLeg.1 hx
    obtain ⟨b', -, -, -, rfl⟩ := mem_withLeg.1 hy
    exact .left _ _ hlt

end Arithmetic

section Guard

/-- The program that goes on only if something holds. -/
inductive Guarding (holds : Prop) : Value → Prop where
  | passes {tag : Nat} : holds → Guarding holds (.leaf tag .nothing)
  | fails {tag : Nat} {resume : Value} : ¬ holds → Guarding holds (.operation tag failName [] resume)

theorem Guarding.identify {holds : Prop} {p : Value} (h : Guarding holds p) (s : Store) :
    Guarding holds (s.identify p).1 := by
  unfold Store.identify
  split
  · exact h
  · cases h with
    | @passes tag hholds => cases tag <;> exact .passes hholds
    | @fails tag resume hfails => cases tag <;> exact .fails hfails

/-- Goes on if these integers are equal. -/
def guardEqual (m n : Int) : Action Value :=
  (Value.equal (.int m) (.int n)).bind fun d => Choice.guard (.bool d)

theorem exists_guardEqual (m n : Int) (s : Store) :
    ∃ p, Traced (guardEqual m n) s [] (.ok p) s ∧ Guarding (m = n) p := by
  have hequal := Value.traced_equal_int m n s
  by_cases heq : m = n
  · rw [decide_eq_true heq] at hequal
    exact ⟨_, hequal.bind (.done _ _), .passes heq⟩
  · rw [decide_eq_false heq] at hequal
    exact ⟨_, hequal.bind (.done _ _), .fails heq⟩

theorem Guarding.offers {holds : Prop} [Decidable holds] {p : Value} (h : Guarding holds p)
    {L : Listener} (w : Store) :
    Offers Course.shapes L (if holds then .leaf .nothing else .fail) w (.ok p) := by
  cases h with
  | @passes tag hholds =>
    rw [if_pos hholds]
    exact Scene.Shows.leaf (S := Scene.shapes) (v := .leaf tag .nothing) rfl trivial
  | fails hfails =>
    rw [if_neg hfails]
    exact ⟨_, _, rfl⟩

end Guard

section Body

/-- The statements of the search. -/
def searchBody : List Stmt :=
  match Demonstration.pythagorean with
  | .arrow _ (.generated _ (.function _ (.generatorBody _ _ body _))) => body
  | _ => []

/-- The generator function of the search. -/
def source : Value := .arrowOf (.generatorBody "pythagorean" ⟨["low", "high"], none⟩ searchBody [])

theorem pythagorean_eq : Demonstration.pythagorean = Arrow.ofGenerator source := rfl

/-- The scope in which the search begins, and those in which its legs are known. -/
def bounds (low high : Int) : Scope :=
  Scope.set "high" (.int high) (Scope.set "low" (.int low) [])

def firstLeg (low high a : Int) : Scope := Scope.set "a" (.int a) (bounds low high)

def bothLegs (low high a b : Int) : Scope := Scope.set "b" (.int b) (firstLeg low high a)

def allSides (low high a b : Int) : Scope :=
  Scope.set "c" (.int (hypotenuse a b)) (bothLegs low high a b)

/-- The generator is suspended behind so many statements. -/
def Suspended (g : Nat) (x : Option String) (scope : Scope) (k : Nat) (t : Store) : Prop :=
  t.generatorAt g = .suspended x scope [.block (searchBody.drop k)] ∧ g < t.generators.size

variable {g : Nat} {low high a b : Int} {s t : Store}

/-- What a statement yields is seen by the script, and the generator is suspended behind it. -/
theorem exists_suspended (x : Option String) (rest : List Stmt) {P : Value → Prop}
    (hP : ∀ p (s : Store), P p → P (s.identify p).1) {action : Action Value}
    (hrun : ∀ s, ∃ p, Traced action s [] (.ok p) s ∧ P p) {scope : Scope} {e : Expr}
    (he : e.eval scope = action.bind Action.identify) (hsize : g < s.generators.size) :
    ∃ p t, Runs Value.apply (go g scope [.block (.yield x e :: rest)]) (s.setGenerator g .running)
        (.ok p) t ∧ P p ∧
      t.generatorAt g = .suspended x scope [.block rest] ∧ g < t.generators.size := by
  obtain ⟨p, htr, hp⟩ := hrun (s.setGenerator g .running)
  obtain ⟨n, -, hn⟩ := (s.setGenerator g .running).identify_snd p
  have hsize' : g < ((s.setGenerator g .running).identify p).2.generators.size := by
    rw [hn]
    exact (Store.size_setGenerator s g _).symm ▸ hsize
  refine ⟨_, _, Generator.runs_go_yield ?_, hP p (s.setGenerator g .running) hp,
    Store.generatorAt_setGenerator _ _ _ hsize', (Store.size_setGenerator _ _ _).symm ▸ hsize'⟩
  rw [he]
  exact htr.runs.bind (traced_identify _ p).runs

theorem eval_one (scope : Scope) : (Expr.literal (.int 1)).eval scope = .done (.int 1) :=
  Expr.eval_int (by decide +kernel)

theorem eval_firstChoice (low high : Int) : ∃ e,
    searchBody = .yield (some "a") e :: searchBody.drop 1 ∧ e.eval (bounds low high) =
      (Choice.chooseIn (.int low) (.int (high - 1))).bind Action.identify := by
  refine ⟨_, rfl, (Expr.eval_form (evalAll_cons rfl (evalAll_cons ?_ rfl))).trans rfl⟩
  exact (Expr.eval_form (evalAll_cons rfl (evalAll_cons (eval_one _) rfl))).trans rfl

theorem eval_secondChoice (low high a : Int) : ∃ e,
    searchBody.drop 1 = .yield (some "b") e :: searchBody.drop 2 ∧
      e.eval (firstLeg low high a) =
        (Choice.chooseIn (.int (a + 1)) (.int high)).bind Action.identify := by
  refine ⟨_, rfl, (Expr.eval_form (evalAll_cons ?_ (evalAll_cons rfl rfl))).trans rfl⟩
  exact (Expr.eval_form (evalAll_cons rfl (evalAll_cons (eval_one _) rfl))).trans rfl

/-- The expressions that the search computes twice. -/
def square (x : String) : Expr := .form (.primitive .mul) [.variable x, .variable x] []

def sumOfSquares : Expr := .form (.primitive .add) [square "a", square "b"] []

theorem eval_square {scope : Scope} {x : String} {n : Int} (h : scope.get x = .done (.int n)) :
    (square x).eval scope = .done (.int (n * n)) := by
  have hx : (Expr.variable x).eval scope = .done (.int n) := by
    rw [Expr.eval, h]
  exact (Expr.eval_form_two hx hx).trans rfl

theorem eval_sumOfSquares {scope : Scope} (ha : scope.get "a" = .done (.int a))
    (hb : scope.get "b" = .done (.int b)) :
    sumOfSquares.eval scope = .done (.int (a * a + b * b)) :=
  (Expr.eval_form_two (eval_square ha) (eval_square hb)).trans rfl

theorem eval_hypotenuse (low high a b : Int) : ∃ e,
    searchBody.drop 2 = .set "c" e :: searchBody.drop 3 ∧
      e.eval (bothLegs low high a b) = .done (.int (hypotenuse a b)) := by
  have hsquare (n : Int) : 0 ≤ n * n := by
    rw [← Int.natAbs_mul_self]
    exact Int.natCast_nonneg _
  have hroot : Value.integerSqrt (.int (a * a + b * b)) = .done (.int (hypotenuse a b)) :=
    if_neg (Int.not_lt.2 (Int.add_nonneg (hsquare a) (hsquare b)))
  have hsum : sumOfSquares.eval (bothLegs low high a b) = .done (.int (a * a + b * b)) :=
    eval_sumOfSquares rfl rfl
  refine ⟨.form (.primitive .integerSqrt) [sumOfSquares] [], rfl, ?_⟩
  refine (Expr.eval_form (evalAll_cons hsum rfl)).trans ?_
  show (Value.integerSqrt (.int (a * a + b * b))).bind Action.identify = _
  rw [hroot]
  rfl

theorem eval_guard (low high a b : Int) : ∃ e,
    searchBody.drop 3 = .yield none e :: searchBody.drop 4 ∧
      e.eval (allSides low high a b) =
        (guardEqual (hypotenuse a b * hypotenuse a b) (a * a + b * b)).bind Action.identify := by
  unfold allSides
  generalize hypotenuse a b = c
  let compared : Expr := .form (.primitive .equal) [square "c", sumOfSquares] []
  have hequal : compared.eval (Scope.set "c" (.int c) (bothLegs low high a b)) =
      Form.perform (.primitive .equal) ⟨[.int (c * c), .int (a * a + b * b)], []⟩ :=
    Expr.eval_form_two (eval_square rfl) (eval_sumOfSquares rfl rfl)
  refine ⟨.form (.effect .guard) [compared] [], rfl, (Expr.eval_form_one _ _).trans ?_⟩
  rw [hequal, guardEqual, Action.bind_assoc]
  rfl

theorem eval_result (low high a b : Int) : ∃ e,
    searchBody.drop 4 = [.finish e] ∧ e.eval (allSides low high a b) =
      Action.identify (.tuple 0 [.int a, .int b, .int (hypotenuse a b)]) :=
  ⟨_, rfl, rfl⟩

/-- The search starts with a choice of the shorter leg. -/
theorem exists_first (hs : s.generatorAt g = .fresh (bounds low high) searchBody)
    (hsize : g < s.generators.size) :
    ∃ p t, Advances g s [] (.yielded p) t ∧ Ranging low (high - 1) p ∧
      Suspended g (some "a") (bounds low high) 1 t := by
  obtain ⟨e, hbody, he⟩ := eval_firstChoice low high
  obtain ⟨p, t, hgo, hp, ht⟩ := exists_suspended (some "a") (searchBody.drop 1)
    (fun _ s (h : Ranging low (high - 1) _) => h.identify s) (Choice.exists_chooseIn low (high - 1))
    he hsize
  rw [← hbody] at hgo
  exact ⟨p, t, .started ((Generator.Resumes.started hs).runs_yielded hgo), hp, ht⟩

/-- Given the shorter leg, it goes on with a choice of the longer one. -/
theorem exists_second (ht : Suspended g (some "a") (bounds low high) 1 t) (a : Int) :
    ∃ p u, Runs Value.apply (progress g (.int a)) t (.ok (.yielded p)) u ∧
      Ranging (a + 1) high p ∧ Suspended g (some "b") (firstLeg low high a) 2 u := by
  obtain ⟨e, hbody, he⟩ := eval_secondChoice low high a
  obtain ⟨p, u, hgo, hp, hu⟩ := exists_suspended (some "b") (searchBody.drop 2)
    (fun _ s (h : Ranging (a + 1) high _) => h.identify s) (Choice.exists_chooseIn (a + 1) high)
    he ht.2
  rw [← hbody] at hgo
  exact ⟨p, u, (Generator.Resumes.resumed ht.1).runs_yielded hgo, hp, hu⟩

/-- Given both legs, it fails unless the hypotenuse is an integer. -/
theorem exists_third (ht : Suspended g (some "b") (firstLeg low high a) 2 t) (b : Int) :
    ∃ p u, Runs Value.apply (progress g (.int b)) t (.ok (.yielded p)) u ∧
      Guarding (hypotenuse a b * hypotenuse a b = a * a + b * b) p ∧
      Suspended g none (allSides low high a b) 4 u := by
  obtain ⟨e, hset, he⟩ := eval_hypotenuse low high a b
  obtain ⟨e', hguard, he'⟩ := eval_guard low high a b
  obtain ⟨p, u, hgo, hp, hu⟩ := exists_suspended none (searchBody.drop 4)
    (fun _ s (h : Guarding (hypotenuse a b * hypotenuse a b = a * a + b * b) _) => h.identify s)
    (exists_guardEqual _ _) he' ht.2
  rw [← hguard] at hgo
  refine ⟨p, u, (Generator.Resumes.resumed ht.1).runs_yielded ?_, hp, hu⟩
  rw [hset]
  refine Generator.runs_go_set ?_ hgo
  show Runs Value.apply (e.eval (bothLegs low high a b)) _ _ _
  rw [he]
  exact .done _ _

/-- Unless it has failed, it returns the sides, whatever it is given. -/
theorem exists_last (ht : Suspended g none (allSides low high a b) 4 t) (y : Value) :
    ∃ v u, Runs Value.apply (progress g y) t (.ok (.returned v)) u ∧
      v.shape = .tuple [.int a, .int b, .int (hypotenuse a b)] := by
  obtain ⟨e, hbody, he⟩ := eval_result low high a b
  have hseen := (traced_identify (t.setGenerator g .running)
    (.tuple 0 [.int a, .int b, .int (hypotenuse a b)])).runs
  rw [← he] at hseen
  have hgo : Runs Value.apply (go g (allSides low high a b) [.block [.finish e]]) _ _ _ :=
    Generator.runs_go_finish hseen
  rw [← hbody] at hgo
  exact ⟨_, _, (Generator.Resumes.resumed ht.1).runs_returned hgo, shape_identify _ _⟩

end Body

section Choices

/-- What is seen of a triangle. -/
def sides : Int × Int × Int → Shape
  | (a, b, c) => .tuple [.int a, .int b, .int c]

/-- The choices that follow an integer. -/
def onInteger (d : Int → Choices Shape) : Shape → Choices Shape
  | .int n => d n
  | _ => .fail

/-- The choices of the search when both legs are known, when one is, and from its beginning. -/
def knowingLegs (a b : Int) : Choices Shape :=
  Choices.bind (fun _ => .leaf (sides (a, b, hypotenuse a b)))
    (if hypotenuse a b * hypotenuse a b = a * a + b * b then .leaf .nothing else .fail)

def knowingLeg (high a : Int) : Choices Shape :=
  (Choices.between (a + 1) high).bind (onInteger (knowingLegs a))

def searching (low high : Int) : Choices Shape :=
  (Choices.between low (high - 1)).bind (onInteger (knowingLeg high))

theorem solutions_knowingLegs (a b : Int) : (knowingLegs a b).solutions =
    List.map sides (if hypotenuse a b * hypotenuse a b = a * a + b * b
      then [(a, b, hypotenuse a b)] else []) := by
  rw [knowingLegs]
  split <;> rfl

theorem solutions_onInteger {d : Int → Choices Shape} {f : Int → List (Int × Int × Int)}
    (h : ∀ n, (d n).solutions = (f n).map sides) (m n : Int) :
    ((Choices.between m n).bind (onInteger d)).solutions =
      ((Int.range m (n + 1)).flatMap f).map sides := by
  rw [Choices.solutions_bind, Choices.solutions_between, List.flatMap_map, List.map_flatMap]
  exact congrArg (List.flatMap · _) (funext h)

theorem solutions_searching (low high : Int) :
    (searching low high).solutions = (triangles low high).map sides :=
  solutions_onInteger (fun a => solutions_onInteger (solutions_knowingLegs a) (a + 1) high) low _

theorem messages_onInteger {d : Int → Choices Shape} (h : ∀ n, (d n).messages = []) (m n : Int) :
    ((Choices.between m n).bind (onInteger d)).messages = [] := by
  refine Choices.messages_bind (Choices.messages_ascending _ _) fun v hv => ?_
  rw [Choices.solutions_between] at hv
  obtain ⟨k, -, rfl⟩ := List.mem_map.1 hv
  exact h k

theorem messages_searching (low high : Int) : (searching low high).messages = [] := by
  refine messages_onInteger (fun a => messages_onInteger (fun b => ?_) _ _) _ _
  rw [knowingLegs]
  split <;> rfl

end Choices

section Building

variable {low high : Int} {w : Store} {Q : Store → Ending → Prop}

/-- The arguments of the search. -/
def limits (low high : Int) : List Value := [.int low, .int high]

/-- What goes on when the search has received these answers. -/
def onwards (low high : Int) (k b : Nat) (ys : List Value) : Value :=
  Replay.rebuild source [] k b (limits low high) ys

/-- The program of the search after this history. -/
def rebuilt (low high : Int) (k b : Nat) (ys : List Value) : Action Value :=
  Replay.buildOn source (.tuple k (limits low high)) (limits low high) [] (.tuple b ys)

theorem runs_made (low high : Int) (s : Store) :
    Runs Value.apply (Action.invoke source ⟨limits low high, []⟩) s
      (.ok (.generator s.generators.size "pythagorean"))
      (s.addGenerator (.fresh (bounds low high) searchBody)) :=
  .call (.read (.write (.done _ _))) (.done _ _)

/-- What is built is what becomes of a fresh generator that is fed the history. -/
theorem ends_rebuilt {k b : Nat} {ys : List Value} {P : Replay.Fed → Prop}
    (hsent : ∀ s g, s.generatorAt g = .fresh (bounds low high) searchBody →
      g < s.generators.size → ∃ r t, Runs Value.apply (Replay.sent g ys) s (.ok r) t ∧ P r)
    (hfed : ∀ r u, P r → Ends Course.shapes (Replay.concluded source (.tuple k (limits low high)) []
      (.tuple b ys) r) u Q) :
    Ends Course.shapes (rebuilt low high k b ys) w Q := by
  rw [rebuilt, Replay.buildOn_eq]
  refine ends_bind_of_runs (S := Scene.shapes) (runs_made low high w) trivial ?_
  obtain ⟨r, t, hruns, hr⟩ := hsent (Store.addGenerator w (.fresh (bounds low high) searchBody)) _
    (Store.generatorAt_addGenerator w _) ((Store.size_addGenerator w _).symm ▸ Nat.lt_succ_self _)
  exact ends_bind_of_runs (S := Scene.shapes) hruns trivial (hfed r t hr)

theorem exists_settled_limits (low high : Int) (k : Nat) (s : Store) :
    ∃ j t, Runs Value.apply (Action.identify (.tuple k (limits low high))) s
      (.ok (.tuple j (limits low high))) t := by
  cases k with
  | zero => exact ⟨_, _, (traced_identify s (.tuple 0 (limits low high))).runs⟩
  | succ k => exact ⟨_, _, (traced_identify s (.tuple (k + 1) (limits low high))).runs⟩

/-- To go on with an answer is to build again for one answer more. -/
theorem ends_onwards {k b : Nat} {ys : List Value} {y : Value}
    (hy : y.isIdentified = true) (h : ∀ j u, Ends Course.shapes (rebuilt low high j 0 (ys ++ [y])) u Q) :
    Ends Course.shapes (Action.ask (onwards low high k b ys) [y]) w Q := by
  obtain ⟨j, t, hsettled⟩ := exists_settled_limits low high k w
  have hidentified : Action.identify y = .done y := if_pos hy
  have hbody : (Function.replaying source (.tuple k (limits low high)) [] (.tuple b ys)).apply
      (.of [y]) = (Action.identify y).bind fun answer =>
        (Action.identify (.tuple k (limits low high))).bind fun arguments =>
          arguments.items.bind fun positional =>
            Replay.buildOn source arguments positional [] (.tuple 0 (ys ++ [answer])) := rfl
  refine .ask rfl ?_
  rw [hbody, hidentified]
  refine ends_bind_of_runs (S := Scene.shapes) (.done y w) trivial ?_
  exact ends_bind_of_runs (S := Scene.shapes) hsettled trivial (h j t)

/-- The built program of a body that yields offers what it has yielded, and then what it offers for one
answer more. -/
theorem ends_grafted {k b : Nat} {ys : List Value} {p : Value} {c : Choices Shape}
    {d : Shape → Choices Shape} (hp : ∀ u, Offers Course.shapes .nobody c u (.ok p))
    (hd : ∀ u y, y.shape ∈ c.solutions → y.isIdentified = true ∧
      ∀ j, Ends Course.shapes (rebuilt low high j 0 (ys ++ [y])) u
        (Offers Course.shapes .nobody (d y.shape))) :
    Ends Course.shapes (Program.graft p (onwards low high k b ys)) w
      (Offers Course.shapes .nobody (c.bind d)) := by
  refine (hp w).graft rfl fun u y _ _ hy => ?_
  exact ends_onwards (hd u y hy).1 fun j z => (hd z y hy).2 j

theorem int_of_shape {y : Value} {n : Int} (h : y.shape = .int n) : y = .int n := by
  cases y with
  | int m =>
    cases h
    rfl
  | _ => cases h

theorem nothing_of_shape {y : Value} (h : y.shape = .nothing) : y = .nothing := by
  cases y with
  | nothing => rfl
  | _ => cases h

/-- A body that has yielded the choice of an integer goes on with each of them. -/
theorem ends_chosen {k b : Nat} {ys : List Value} {m n : Int} {d : Int → Choices Shape}
    (hsent : ∀ s g, s.generatorAt g = .fresh (bounds low high) searchBody →
      g < s.generators.size → ∃ p t, Runs Value.apply (Replay.sent g ys) s (.ok (.yielded p)) t ∧
        Ranging m n p)
    (hd : ∀ i j u, Ends Course.shapes (rebuilt low high j 0 (ys ++ [.int i])) u
      (Offers Course.shapes .nobody (d i))) :
    Ends Course.shapes (rebuilt low high k b ys) w
      (Offers Course.shapes .nobody ((Choices.between m n).bind (onInteger d))) := by
  refine ends_rebuilt (P := fun r => ∃ p, r = .yielded p ∧ Ranging m n p) (fun s g hs hsize => ?_) ?_
  · obtain ⟨p, t, hruns, hp⟩ := hsent s g hs hsize
    exact ⟨_, t, hruns, p, rfl, hp⟩
  · rintro _ u ⟨p, rfl, hp⟩
    refine ends_grafted hp.offers fun z y hy => ?_
    rw [Choices.solutions_between] at hy
    obtain ⟨i, -, hi⟩ := List.mem_map.1 hy
    obtain rfl := int_of_shape hi.symm
    exact ⟨rfl, fun j => hd i j z⟩

/-- When the guard has been passed, the built program is the triangle. -/
theorem ends_passed (a b : Int) (j : Nat) (w : Store) :
    Ends Course.shapes (rebuilt low high j 0 [.int a, .int b, .nothing]) w
      (Offers Course.shapes .nobody (.leaf (sides (a, b, hypotenuse a b)))) := by
  refine ends_rebuilt (P := fun r => ∃ v, r = .returned v 3 ∧
    v.shape = sides (a, b, hypotenuse a b)) (fun s g hs hsize => ?_) ?_
  · obtain ⟨p, t, hfirst, -, ht⟩ := exists_first hs hsize
    obtain ⟨q, u, hsecond, -, hu⟩ := exists_second ht a
    obtain ⟨r, z, hthird, -, hz⟩ := exists_third hu b
    obtain ⟨v, y, hlast, hv⟩ := exists_last hz .nothing
    exact ⟨_, y, (((hfirst.answered hsecond).answered hthird).answered hlast).sent_returned [], v, rfl, hv⟩
  · rintro _ u ⟨v, rfl, hv⟩
    have hfinished : Replay.finish source (.tuple 0 [.int a, .int b, .nothing]) v 3 =
        .done (Program.lift v) := Replay.finish_of_all source v 0 [.int a, .int b, .nothing]
    rw [Replay.concluded, hfinished]
    have hlift : Program.lift (Program.lift v) = .leaf 0 v := by
      cases v with
      | tuple => rfl
      | _ => cases hv
    refine .done ?_
    rw [← hv]
    exact Scene.Shows.leaf (S := Scene.shapes) hlift trivial

/-- Of both legs, it offers the triangle, if it is one. -/
theorem ends_knowingLegs (a b : Int) (j : Nat) (w : Store) :
    Ends Course.shapes (rebuilt low high j 0 [.int a, .int b]) w
      (Offers Course.shapes .nobody (knowingLegs a b)) := by
  refine ends_rebuilt (P := fun r => ∃ p, r = .yielded p ∧
    Guarding (hypotenuse a b * hypotenuse a b = a * a + b * b) p) (fun s g hs hsize => ?_) ?_
  · obtain ⟨p, t, hfirst, -, ht⟩ := exists_first hs hsize
    obtain ⟨q, u, hsecond, -, hu⟩ := exists_second ht a
    obtain ⟨r, z, hthird, hr, -⟩ := exists_third hu b
    exact ⟨_, z, ((hfirst.answered hsecond).answered hthird).sent, r, rfl, hr⟩
  · rintro _ u ⟨p, rfl, hp⟩
    refine ends_grafted hp.offers fun z y hy => ?_
    have hnothing : y.shape = .nothing := by
      split at hy
      · exact List.mem_singleton.1 hy
      · cases hy
    obtain rfl := nothing_of_shape hnothing
    exact ⟨rfl, fun j => ends_passed a b j z⟩

/-- Of the shorter leg, it offers the triangles with it. -/
theorem ends_knowingLeg (a : Int) (j : Nat) (w : Store) :
    Ends Course.shapes (rebuilt low high j 0 [.int a]) w
      (Offers Course.shapes .nobody (knowingLeg high a)) := by
  refine ends_chosen (fun s g hs hsize => ?_) fun b j u => ends_knowingLegs a b j u
  obtain ⟨p, t, hfirst, -, ht⟩ := exists_first hs hsize
  obtain ⟨q, u, hsecond, hq, -⟩ := exists_second ht a
  exact ⟨q, u, (hfirst.answered hsecond).sent, hq⟩

theorem ends_searching (low high : Int) (j : Nat) (w : Store) :
    Ends Course.shapes (rebuilt low high j 0 []) w
      (Offers Course.shapes .nobody (searching low high)) := by
  refine ends_chosen (fun s g hs hsize => ?_) fun a j u => ends_knowingLeg a j u
  obtain ⟨p, t, hfirst, hp, -⟩ := exists_first hs hsize
  exact ⟨p, t, hfirst.sent, hp⟩

/-- The search, called with its limits, offers the triangles. -/
theorem ends_pythagorean (low high : Int) (w : Store) :
    Ends Course.shapes (Action.ask Demonstration.pythagorean (limits low high)) w
      (Offers Course.shapes .nobody (searching low high)) := by
  obtain ⟨j, t, hsettled⟩ := exists_settled_limits low high 0 w
  have hbuilt : Ends Course.shapes (Replay.build source (.tuple 0 (limits low high)) [] (.tuple 0 []))
      w (Offers Course.shapes .nobody (searching low high)) :=
    ends_bind_of_runs (S := Scene.shapes) hsettled trivial (ends_searching low high j t)
  rw [pythagorean_eq]
  refine .invoke rfl (.map (.invoke rfl (hbuilt.mono fun z e _ he => ?_)))
  obtain ⟨p, rfl⟩ := he.exists_ok
  exact ⟨p, rfl, he.lifted⟩

end Building

section Exact

/-- What is done with the program of the search. -/
def searched (low high : Int) (k : Value → Action Value) : Action Value :=
  (Action.ask Demonstration.pythagorean (limits low high)).bind k

theorem ends_searched {low high : Int} {w : Store} {k : Value → Action Value}
    {Q : Store → Ending → Prop}
    (hk : ∀ p u, Decides Course.shapes .nobody (searching low high) u (.ok p) →
      Ends Course.shapes (k p) u Q) : Ends Course.shapes (searched low high k) w Q := by
  refine .bind_silent ((ends_pythagorean low high w).mono fun z e _ hp => ?_)
  obtain ⟨p, rfl⟩ := hp.exists_ok
  exact ⟨p, rfl, hk p z (hp.decides (messages_searching low high))⟩

theorem search_searching (low high : Int) :
    (searching low high).search.2 = (triangles low high).getLast?.map sides := by
  rw [Choices.search_snd, solutions_searching, List.getLast?_map]

/-- The search for right triangles is exact. All choices are the triangles between the limits, each one
once, in lexicographic order. Backtracking and the first solution find the last of them; when there is
none, backtracking ends with an unhandled failure and the first solution is nothing. A range is
enumerated in ascending order, each integer once, and an empty one is a failure. -/
theorem pythagorean_finds_triangles (low high : Int) (s : Store) :
    ((triangles low high).Pairwise (Prod.Lex (· < ·) (Prod.Lex (· < ·) (· < ·))) ∧
      ∀ a b c, (a, b, c) ∈ triangles low high ↔
        low ≤ a ∧ a < b ∧ b ≤ high ∧ 0 ≤ c ∧ a * a + b * b = c * c) ∧
    (Ends Course.shapes (searched low high fun p => Action.ask Choice.allChoices [p]) s
        (Listed ((triangles low high).map sides)) ∧
      Ends Course.shapes (searched low high fun p => Action.ask Choice.backtrack [p]) s
        (Found ((triangles low high).getLast?.map sides)) ∧
      Ends Course.shapes (searched low high Choice.firstSolution) s
        (Picked ((triangles low high).getLast?.map sides))) ∧
    ((Int.range low (high + 1)).Pairwise (· < ·) ∧
      (∀ n, n ∈ Int.range low (high + 1) ↔ low ≤ n ∧ n ≤ high) ∧
      Ends Course.shapes ((Choice.chooseIn (.int low) (.int high)).bind fun p =>
        Action.ask Choice.allChoices [p]) s (Listed ((Int.range low (high + 1)).map .int)) ∧
      (high < low →
        Ends Course.shapes (Choice.chooseIn (.int low) (.int high)) s (Found none))) := by
  have hrest : (searching low high).rest.messages = [] :=
    Choices.messages_rest_of_messages (messages_searching low high)
  have hsilent : (searching low high).rest.search.1 = [] := Choices.search_fst_of_messages hrest
  refine ⟨⟨pairwise_triangles low high, fun a b c => mem_triangles⟩,
    ⟨ends_searched fun p u hp => ?_, ends_searched fun p u hp => ?_, ends_searched fun p u hp => ?_⟩,
    pairwise_range _ _, fun n => ?_, ?_, fun hlt => ?_⟩
  · have hlisted := Choice.tells_allChoices hp
    rwa [hrest, solutions_searching] at hlisted
  · have hfound := Choice.tells_backtrack hp
    rw [hsilent, search_searching] at hfound
    exact hfound.landed
  · have hpicked := Choice.tells_firstSolution hp
    rwa [hsilent, search_searching] at hpicked
  · rw [Int.mem_range_iff]
    omega
  · obtain ⟨p, htr, hp⟩ := Choice.exists_chooseIn low high s
    refine ends_bind_of_runs (S := Scene.shapes) htr.runs trivial ?_
    have hmessages : (Choices.between low high).messages = [] := Choices.messages_ascending _ _
    have hlisted := Choice.tells_allChoices ((hp.offers (L := .nobody) s).decides hmessages)
    rwa [Choices.messages_rest_of_messages hmessages, Choices.solutions_between] at hlisted
  · obtain ⟨p, htr, hp⟩ := Choice.exists_chooseIn low high s
    refine ends_of_runs (S := Scene.shapes) htr.runs trivial ?_
    cases hp with
    | empty => exact ⟨_, _, rfl⟩
    | more hle => omega

theorem pythagorean_finds_triangles_smallest :
    (Ends Course.shapes (searched 1 5 fun p => Action.ask Choice.allChoices [p]) .empty
        (Listed [sides (3, 4, 5)]) ∧
      Ends Course.shapes (searched 1 5 Choice.firstSolution) .empty
        (Picked (some (sides (3, 4, 5))))) ∧
    Ends Course.shapes (Choice.chooseIn (.int 1) (.int 0)) .empty (Found none) := by
  have htriangles : triangles 1 5 = [(3, 4, 5)] := by decide +kernel
  obtain ⟨-, ⟨hlisted, -, hpicked⟩, -⟩ := pythagorean_finds_triangles 1 5 .empty
  rw [htriangles] at hlisted hpicked
  obtain ⟨-, -, -, -, -, hempty⟩ := pythagorean_finds_triangles 1 0 .empty
  exact ⟨⟨hlisted, hpicked⟩, hempty (by decide)⟩

end Exact

end Triangles

end AlgebraicEffects
