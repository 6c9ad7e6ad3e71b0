import AlgebraicEffects.Proofs.Calls

/-!
Identities are given out.

A value gets its identity once and keeps it. The identities of a store are numbered, and each one that
is given out is greater than those before. So a value without an identity gets one that nothing else
has, and giving it out changes nothing of the store but the supply.
-/

set_option autoImplicit false

namespace AlgebraicEffects

open Action (Traced)

namespace Tagging

variable {α β : Type}

theorem le_pure (x : α) (n : Nat) : n ≤ ((pure x : Tagging α) n).2 := Nat.le_refl n

theorem le_newTag (n : Nat) : n ≤ (newTag n).2 := Nat.le_succ n

theorem le_bind {a : Tagging α} {k : α → Tagging β} (ha : ∀ n, n ≤ (a n).2)
    (hk : ∀ x n, n ≤ (k x n).2) (n : Nat) : n ≤ ((a >>= k) n).2 :=
  Nat.le_trans (ha n) (hk _ _)

/-- The last part but for what is made of it. -/
theorem le_map {a : Tagging α} {f : α → β} (ha : ∀ n, n ≤ (a n).2) (n : Nat) :
    n ≤ ((a >>= fun x => pure (f x)) n).2 :=
  le_bind ha (fun _ => le_pure _) n

end Tagging

section Order

open Tagging

mutual

/-- Identities are given out in order. -/
theorem Value.le_tagged : (v : Value) → ∀ n, n ≤ (v.tagged n).2
  | .float 0 _ => le_map le_newTag
  | .list 0 items => le_bind le_newTag fun _ => le_map (le_taggedItems [] items)
  | .tuple 0 [] => le_pure _
  | .tuple 0 (v :: vs) =>
    le_bind le_newTag fun _ => le_bind v.le_tagged fun u => le_map (le_taggedItems [u] vs)
  | .names 0 _ => le_map le_newTag
  | .dict 0 entries => le_bind le_newTag fun _ => le_map (le_taggedEntries [] entries)
  | .view 0 items => le_bind le_newTag fun _ => le_map (le_taggedItems [] items)
  | .frozen 0 entries => le_bind le_newTag fun _ => le_map (le_taggedEntries [] entries)
  | .leaf 0 v => le_bind le_newTag fun _ => le_map v.le_tagged
  | .operation 0 _ params resume =>
    le_bind le_newTag fun _ => le_bind le_newTag fun _ =>
      le_bind (le_taggedItems [] params) fun _ => le_map resume.le_tagged
  | .function 0 f => le_bind le_newTag fun _ => le_map f.le_tagged
  | .arrow 0 a => le_bind le_newTag fun _ => le_map a.le_tagged
  | .handler 0 table none =>
    le_bind le_newTag fun _ => le_bind (le_taggedTable [] table) fun _ => le_pure _
  | .handler 0 table (some f) =>
    le_bind le_newTag fun _ => le_bind (le_taggedTable [] table) fun _ => le_map f.le_tagged
  | .ok 0 v => le_bind le_newTag fun _ => le_map v.le_tagged
  | .err 0 v => le_bind le_newTag fun _ => le_map v.le_tagged
  | .outcome 0 r vs => le_bind le_newTag fun _ => le_bind r.le_tagged fun _ => le_map vs.le_tagged
  | .failure f => by
    cases f with
    | caught tag f => exact le_pure _
    | _ => exact le_bind le_newTag fun _ => le_map (Failure.le_tagged _)
  | .float (_ + 1) _ | .list (_ + 1) _ | .tuple (_ + 1) _ | .names (_ + 1) _ | .dict (_ + 1) _
  | .view (_ + 1) _ | .frozen (_ + 1) _ | .leaf (_ + 1) _ | .operation (_ + 1) _ _ _
  | .function (_ + 1) _ | .arrow (_ + 1) _ | .handler (_ + 1) _ _ | .ok (_ + 1) _
  | .err (_ + 1) _ | .outcome (_ + 1) _ _ => le_pure _
  | .nothing | .bool _ | .int _ | .text _ | .bytes _ | .generator _ _ | .agenda _ | .loopHost _
  | .notAvailable => le_pure _

theorem le_taggedItems : (done vs : List Value) → ∀ n, n ≤ (taggedItems done vs n).2
  | _, [] => le_pure _
  | done, v :: vs => le_bind v.le_tagged fun u => le_taggedItems (u :: done) vs

theorem le_taggedEntries : (done es : List (Value × Value)) →
    ∀ n, n ≤ (taggedEntries done es n).2
  | _, [] => le_pure _
  | done, (k, v) :: es =>
    le_bind k.le_tagged fun a => le_bind v.le_tagged fun b => le_taggedEntries ((a, b) :: done) es

theorem le_taggedTable : (done es : List (String × Value)) → ∀ n, n ≤ (taggedTable done es n).2
  | _, [] => le_pure _
  | done, (name, v) :: es => le_bind v.le_tagged fun u => le_taggedTable ((name, u) :: done) es

theorem Function.le_tagged (f : Function) : ∀ n, n ≤ (f.tagged n).2 := by
  cases f with
  | boundTo f receiver => exact le_bind f.le_tagged fun _ => le_map receiver.le_tagged
  | binder f => exact le_map f.le_tagged
  | stack handlers => exact le_map (le_taggedItems [] handlers)
  | _ => exact le_pure _

theorem Arrow.le_tagged : (a : Arrow) → ∀ n, n ≤ (a.tagged n).2
  | .plain f => le_map f.le_tagged
  | .generated 0 source => le_bind le_newTag fun _ => le_map source.le_tagged
  | .generated (_ + 1) _ => le_pure _
  | .partially base arguments keywords =>
    le_bind base.le_tagged fun _ => le_bind (le_taggedItems [] arguments) fun _ =>
      le_map (le_taggedTable [] keywords)

theorem Failure.le_tagged (f : Failure) : ∀ n, n ≤ (f.tagged n).2 := by
  cases f with
  | raised kind argument => exact le_map argument.le_tagged
  | unhandledEffect message name params =>
    exact le_bind name.le_tagged fun _ => le_map params.le_tagged
  | replayDivergence message functionName expected consumed =>
    refine le_bind functionName.le_tagged fun _ => le_bind expected.le_tagged fun _ => ?_
    exact le_map consumed.le_tagged
  | stepLimit message maxSteps => exact le_map maxSteps.le_tagged
  | missingKey message key => exact le_map key.le_tagged
  | exhausted v => exact le_map v.le_tagged
  | _ => exact le_pure _

end

theorem Arguments.le_tagged (call : Arguments Value) : ∀ n, n ≤ (call.tagged n).2 :=
  le_bind (le_taggedItems [] call.positional) fun _ => le_map (le_taggedTable [] call.keywords)

end Order

/-- The value with its identity, and the store that has given it out. -/
def Store.identify (s : Store) (v : Value) : Value × Store :=
  if v.isIdentified then (v, s)
  else ((v.tagged s.nextTag).1, { s with nextTag := (v.tagged s.nextTag).2 })

theorem traced_identify (s : Store) (v : Value) :
    Traced (Action.identify v) s [] (.ok (s.identify v).1) (s.identify v).2 := by
  unfold Action.identify Store.identify
  by_cases h : v.isIdentified
  · simp only [h, if_true]
    exact .done v s
  · simp only [h, if_false, Bool.false_eq_true]
    exact .read (.write (.done _ _))

/-- The arguments of a call with their identities, and the store that has given them out. -/
def Store.identifyAll (s : Store) (call : Arguments Value) : Arguments Value × Store :=
  if call.areIdentified then (call, s)
  else ((call.tagged s.nextTag).1, { s with nextTag := (call.tagged s.nextTag).2 })

theorem traced_identifyAll (s : Store) (call : Arguments Value) :
    Traced (Action.identifyAll call) s [] (.ok (s.identifyAll call).1) (s.identifyAll call).2 := by
  unfold Action.identifyAll Store.identifyAll
  by_cases h : call.areIdentified
  · simp only [h, if_true]
    exact .done call s
  · simp only [h, if_false, Bool.false_eq_true]
    exact .read (.write (.done _ _))

/-- The store with another supply of identities. -/
def Store.tagsFrom (s : Store) (n : Nat) : Store := { s with nextTag := n }

/-- Giving out an identity changes the supply and nothing else. -/
theorem Store.identify_snd (s : Store) (v : Value) :
    ∃ n, s.nextTag ≤ n ∧ (s.identify v).2 = s.tagsFrom n := by
  unfold Store.identify
  by_cases h : v.isIdentified
  · exact ⟨s.nextTag, Nat.le_refl _, by simp only [h, if_true]; rfl⟩
  · exact ⟨(v.tagged s.nextTag).2, v.le_tagged _, by simp only [h, if_false, Bool.false_eq_true]; rfl⟩

theorem Store.loops_identify (s : Store) (v : Value) : (s.identify v).2.loops = s.loops := by
  obtain ⟨n, -, hn⟩ := s.identify_snd v
  rw [hn]
  rfl

theorem Store.identifyAll_snd (s : Store) (call : Arguments Value) :
    ∃ n, s.nextTag ≤ n ∧ (s.identifyAll call).2 = s.tagsFrom n := by
  unfold Store.identifyAll
  by_cases h : call.areIdentified
  · exact ⟨s.nextTag, Nat.le_refl _, by simp only [h, if_true]; rfl⟩
  · exact ⟨(call.tagged s.nextTag).2, call.le_tagged _,
      by simp only [h, if_false, Bool.false_eq_true]; rfl⟩

/-- The value has its identity, and gets no other. -/
def Value.Settled (v : Value) : Prop := ∀ s : Store, s.identify v = (v, s)

theorem Value.settled_of_isIdentified {v : Value} (h : v.isIdentified = true) : v.Settled := by
  intro s
  simp only [Store.identify, h, if_true]

theorem Value.isIdentified_tagged {v : Value} {n : Nat} (hn : 0 < n) (h : v.isIdentified = false)
    (hcaught : ∀ tag f, v ≠ .failure (.caught tag f)) : (v.tagged n).1.isIdentified = true := by
  have hne : (n != 0) = true := bne_iff_ne.2 (Nat.ne_of_gt hn)
  cases v with
  | tuple tag items =>
    cases tag with
    | zero =>
      cases items with
      | nil => cases h
      | cons v vs => exact Bool.or_eq_true_iff.2 (.inl hne)
    | succ tag => cases h
  | frozen tag entries =>
    cases tag with
    | zero => exact Bool.or_eq_true_iff.2 (.inl hne)
    | succ tag => cases h
  | handler tag table atLeaf =>
    cases tag with
    | zero => cases atLeaf <;> exact hne
    | succ tag => cases h
  | failure f =>
    cases f with
    | caught tag f => exact absurd rfl (hcaught tag f)
    | _ => exact hne
  | float tag | list tag | names tag | dict tag | view tag | leaf tag | operation tag
  | function tag | arrow tag | ok tag | err tag | outcome tag =>
    cases tag with
    | zero => exact hne
    | succ tag => cases h
  | _ => cases h

/-- A value that has been given its identity keeps it. -/
theorem Value.settled_identify {s : Store} (hs : 0 < s.nextTag) (v : Value) :
    (s.identify v).1.Settled := by
  by_cases h : v.isIdentified
  · rw [Value.settled_of_isIdentified h s]
    exact Value.settled_of_isIdentified h
  · have hv : v.isIdentified = false := Bool.eq_false_iff.2 h
    have hidentify : (s.identify v).1 = (v.tagged s.nextTag).1 := by
      simp only [Store.identify, hv, if_false, Bool.false_eq_true]
    rw [hidentify]
    by_cases hcaught : ∃ tag f, v = .failure (.caught tag f)
    · obtain ⟨tag, f, rfl⟩ := hcaught
      intro t
      show (if _ then _ else _) = _
      split <;> rfl
    · refine Value.settled_of_isIdentified (Value.isIdentified_tagged hs hv fun tag f hf => ?_)
      exact hcaught ⟨tag, f, hf⟩

end AlgebraicEffects
