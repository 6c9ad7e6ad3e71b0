import AlgebraicEffects.Proofs.Comparing.Running
import Mathlib.Data.List.Forall2

/-!
Two runs side by side.

Two actions are matched when, whenever the first comes to an end, taken up whenever it waits, the second
does so too, both in worlds that go together, with the same told of them, and with values that are
related, or failures that go together. Twins show the same, and their continuations are matched in all
worlds from now on that go together. As a continuation is resumed by a call, twins are told apart by how
many calls the first run may make (`Twins`).
-/

set_option autoImplicit false

namespace AlgebraicEffects

open Action (Traced)
open Suspension (suspendName)

variable {V : Type} {S : Scene V}

/-- Both runs have ended with values that are related, or with failures that are. -/
inductive EndAlike {α : Type} (P : α → α → Prop) (F : Failure → Failure → Prop) :
    Except Failure α → Except Failure α → Prop where
  | ok {x x' : α} : P x x' → EndAlike P F (.ok x) (.ok x')
  | error {f f' : Failure} : F f f' → EndAlike P F (.error f) (.error f')

theorem EndAlike.mono {α : Type} {P Q : α → α → Prop} {F : Failure → Failure → Prop}
    {e e' : Except Failure α} (h : EndAlike P F e e') (hPQ : ∀ x x', P x x' → Q x x') :
    EndAlike Q F e e' := by
  cases h with
  | ok hv => exact .ok (hPQ _ _ hv)
  | error hf => exact .error hf

namespace Comparison

variable (E : Comparison S)

/-- What is told of a run: where waits are passed they are left out. -/
def told (es : List (Event V)) : List (Event V) := if E.passes then es.filter Event.isTold else es

theorem told_append (es fs : List (Event V)) : E.told (es ++ fs) = E.told es ++ E.told fs := by
  unfold told
  split
  · exact List.filter_append es fs
  · rfl

theorem told_append_congr {es es' fs fs' : List (Event V)} (h : E.told es = E.told es')
    (g : E.told fs = E.told fs') : E.told (es ++ fs) = E.told (es' ++ fs') := by
  rw [told_append, told_append, h, g]

/-- How values of the two runs are related, in worlds of the two runs. -/
abbrev Likeness (S : Scene V) := S.World → Value → S.World → Value → Prop

/-- The two runs have come to ends that match. -/
def Meet (Φ : Nat → Likeness S) (w u : S.World) (j : Nat) (es : List (Event V)) (s : Store)
    (e : Ending) (fs : List (Event V)) (t : Store) (e' : Ending) : Prop :=
  ∃ z y, S.store z = s ∧ S.store y = t ∧ E.course.Later w z ∧ E.course.Later u y ∧ E.Level z y ∧
    E.told es = E.told fs ∧ EndAlike (fun v v' => Φ j z v y v') E.Fails e e'

/-- Two runs have begun in these worlds, this has been observed of each, and from these stores they go on as
the actions. Whenever the first comes to an end in at most `n` calls more, the second one does so too, and the
ends match. Both are taken up whenever they wait. -/
def Aligned (n : Nat) (w : S.World) (es : List (Event V)) (s : Store) (a : Action Value) (u : S.World)
    (fs : List (Event V)) (t : Store) (b : Action Value) (Φ : Nat → Likeness S) : Prop :=
  Always E n a s fun j said s' e =>
    Ultimately E b t fun said' t' e' => E.Meet Φ w u j (es ++ said) s' e (fs ++ said') t' e'

/-- Whenever the first action comes to an end in at most `n` calls, the second one does so too, and the
ends match. Both are taken up whenever they wait. -/
def Matched (n : Nat) (a : Action Value) (w : S.World) (b : Action Value) (u : S.World)
    (Φ : Nat → Likeness S) : Prop :=
  Always E n a (S.store w) fun j es s e =>
    Ultimately E b (S.store u) fun fs t e' => E.Meet Φ w u j es s e fs t e'

end Comparison

variable {E : Comparison S} {w u z y : S.World} {n : Nat} {a b : Action Value}
  {Φ Ψ : Nat → Comparison.Likeness S}

namespace Comparison

theorem map_see {xs xs' : List Value} (h : List.Forall₂ (E.Same w u) xs xs') :
    xs.map S.see = xs'.map S.see := by
  induction h with
  | nil => rfl
  | cons hx _ ih => rw [List.map_cons, List.map_cons, E.see hx, ih]

/-- Actions match if they are aligned with nothing before them. -/
theorem matched_iff :
    E.Matched n a w b u Φ ↔ E.Aligned n w [] (S.store w) a u [] (S.store u) b Φ := Iff.rfl

theorem same_all_later {xs xs' : List Value} (hw : E.course.Later w z) (hu : E.course.Later u y)
    (h : List.Forall₂ (E.Same w u) xs xs') : List.Forall₂ (E.Same z y) xs xs' :=
  h.imp fun _ _ hx => E.same_later hw hu hx

end Comparison

namespace Comparison.Meet

variable {j : Nat} {es fs : List (Event V)} {s t : Store} {e e' : Ending}

theorem mono (h : E.Meet Φ w u j es s e fs t e')
    (hΦ : ∀ z v y v', E.course.Later w z → E.course.Later u y → E.Level z y → Φ j z v y v' →
      Ψ j z v y v') : E.Meet Ψ w u j es s e fs t e' := by
  obtain ⟨z, y, hz, hy, hlz, hly, hlevel, htold, hends⟩ := h
  exact ⟨z, y, hz, hy, hlz, hly, hlevel, htold, hends.mono fun v v' => hΦ z v y v' hlz hly hlevel⟩

/-- What happened before the two parts matched is put in front. -/
theorem after {w' u' : S.World} {es' fs' : List (Event V)} (h : E.Meet Φ w' u' j es s e fs t e')
    (hw : E.course.Later w w') (hu : E.course.Later u u') (htold : E.told es' = E.told fs') :
    E.Meet Φ w u j (es' ++ es) s e (fs' ++ fs) t e' := by
  obtain ⟨z, y, hz, hy, hlz, hly, hlevel, htold', hends⟩ := h
  exact ⟨z, y, hz, hy, E.course.trans hw hlz, E.course.trans hu hly, hlevel,
    E.told_append_congr htold htold', hends⟩

end Comparison.Meet

namespace Comparison.Aligned

variable {es fs : List (Event V)} {s t : Store}

theorem fewer {m : Nat} (h : E.Aligned n w es s a u fs t b Φ) (hm : m ≤ n) :
    E.Aligned m w es s a u fs t b Φ := Always.fewer h hm

theorem mono (h : E.Aligned n w es s a u fs t b Φ)
    (hΦ : ∀ j z v y v', E.course.Later w z → E.course.Later u y → E.Level z y → Φ j z v y v' →
      Ψ j z v y v') : E.Aligned n w es s a u fs t b Ψ :=
  Always.mono h fun j _ _ _ _ hR => hR.mono fun _ _ _ hmeet =>
    hmeet.mono fun z v y v' hz hy hlevel => hΦ j z v y v' hz hy hlevel

/-- What goes on as other actions do is aligned when those are. -/
theorem of_leads {a' b' : Action Value} {s' t' : Store} {calls calls' : Nat} {es' fs' : List (Event V)}
    (ha : E.Leads s a calls es' s' a') (hb : E.Leads t b calls' fs' t' b')
    (h : ∀ m, m + calls ≤ n → E.Aligned m w (es ++ es') s' a' u (fs ++ fs') t' b' Φ) :
    E.Aligned n w es s a u fs t b Φ :=
  Always.of_leads ha fun m hm => Always.mono (h m hm) fun _ _ _ _ _ hR =>
    Ultimately.of_leads hb (hR.mono fun _ _ _ hmeet => by
      rwa [List.append_assoc, List.append_assoc] at hmeet)

/-- What is done next is aligned if it matches whenever the first parts have ended. -/
theorem bind {k k' : Value → Action Value} (hk : E.Through k) (hk' : E.Through k')
    (h : E.Aligned n w es s a u fs t b fun j z v y v' => E.Matched j (k v) z (k' v') y Φ) :
    E.Aligned n w es s (a.bind k) u fs t (b.bind k') Φ := by
  refine Always.bind (Always.mono h fun j said s' e _ hR => ?_) hk
  cases e with
  | error f =>
    refine .bind (hR.mono fun said' t' e' hmeet => ?_) hk'
    obtain ⟨z, y, hz, hy, hlz, hly, hlevel, htold, hends⟩ := hmeet
    cases hends with
    | error hf => exact ⟨z, y, hz, hy, hlz, hly, hlevel, htold, .error hf⟩
  | ok v =>
    -- For each end of the other first part the sequences go on matched.
    refine (hR.always fun said' t' e' hmeet => ?_).mono fun i more s' o _ hnext => .bind hnext hk'
    obtain ⟨z, y, rfl, rfl, hlz, hly, hlevel, htold, hends⟩ := hmeet
    cases hends with
    | ok hv =>
      refine Always.mono hv fun i more s' o _ hrest => ?_
      refine hrest.mono fun more' t' e' hmeet => ?_
      have hafter := hmeet.after hlz hly htold
      rwa [List.append_assoc, List.append_assoc] at hafter

variable {p : Value} {d : Number} {f : Function}

/-- Where the first run waits, it has waited when it goes on. -/
theorem of_wait (hp : E.Awaits (.ok p) d f) (h : ∀ m s', m < n → s.Elapses s' →
    E.Aligned m w (es ++ [.waited d]) s' (f.apply (.of [.nothing])) u fs t b Φ) :
    E.Aligned n w es s (.done p) u fs t b Φ := by
  refine .intro (fun cs o t' htr _ => ?_) (fun cs o t' j htr _ ho => ?_)
    fun cs o t' j d' g s' htr hj ho hs' => ?_
  all_goals cases htr
  · exact E.keeps_refl s
  · exact absurd hp (ho d f)
  · obtain ⟨rfl, rfl⟩ := hp.2.unique ho.2
    refine Always.mono (h j s' (Nat.lt_of_le_of_lt (Nat.le_add_left ..) hj) hs') fun i said s'' e _ hR => ?_
    rw [List.append_assoc] at hR
    exact hR

/-- The same for the second run. -/
theorem of_wait_too (hp : E.Awaits (.ok p) d f) (h : ∀ t', t.Elapses t' →
    E.Aligned n w es s a u (fs ++ [.waited d]) t' (f.apply (.of [.nothing])) Φ) :
    E.Aligned n w es s a u fs t (.done p) Φ := by
  have : Nonempty { t' : Store // t.Elapses t' } := ⟨t, .refl t⟩
  have hall := Always.all fun t' : { t' : Store // t.Elapses t' } => h t'.1 t'.2
  refine Always.mono hall fun j said s' e _ hR => ?_
  refine .waits (.done p t) (E.keeps_refl t) hp fun t' ht' => ?_
  refine (hR ⟨t', ht'⟩).mono fun said' t'' e' hmeet => ?_
  rw [List.append_assoc] at hmeet
  exact hmeet

end Comparison.Aligned

namespace Comparison.Matched

/-- Actions that are matched are aligned after what is told alike. -/
theorem aligned {es fs : List (Event V)} (h : E.Matched n a z b y Φ) (hz : E.course.Later w z)
    (hy : E.course.Later u y) (htold : E.told es = E.told fs) :
    E.Aligned n w es (S.store z) a u fs (S.store y) b Φ :=
  Always.mono h fun _ _ _ _ _ hR => hR.mono fun _ _ _ hmeet => hmeet.after hz hy htold

theorem mono (h : E.Matched n a w b u Φ)
    (hΦ : ∀ j z v y v', j ≤ n → E.course.Later w z → E.course.Later u y → E.Level z y →
      Φ j z v y v' → Ψ j z v y v') : E.Matched n a w b u Ψ :=
  Always.mono h fun j _ _ _ hj hR => hR.mono fun _ _ _ hmeet =>
    hmeet.mono fun z v y v' hz hy hlevel => hΦ j z v y v' hj hz hy hlevel

theorem fewer {m : Nat} (h : E.Matched n a w b u Φ) (hm : m ≤ n) : E.Matched m a w b u Φ :=
  Always.fewer h hm

/-- Actions that go on as others, with the same observed, are matched when those are. -/
theorem of_leads {a' b' : Action Value} {w' u' : S.World} {calls calls' : Nat}
    {es fs : List (Event V)} (ha : E.Leads (S.store w) a calls es (S.store w') a')
    (hb : E.Leads (S.store u) b calls' fs (S.store u') b') (hw : E.course.Later w w')
    (hu : E.course.Later u u') (htold : E.told es = E.told fs)
    (h : ∀ m, m + calls ≤ n → E.Matched m a' w' b' u' Φ) : E.Matched n a w b u Φ :=
  Always.of_leads ha fun m hm => Always.mono (h m hm) fun _ _ _ _ _ hR =>
    Ultimately.of_leads hb (hR.mono fun _ _ _ hmeet => hmeet.after hw hu htold)

/-- The same, where nothing is observed and the worlds stay. -/
theorem leading {a' b' : Action Value} {calls calls' : Nat}
    (ha : E.Leads (S.store w) a calls [] (S.store w) a')
    (hb : E.Leads (S.store u) b calls' [] (S.store u) b')
    (h : ∀ m, m + calls ≤ n → E.Matched m a' w b' u Φ) : E.Matched n a w b u Φ :=
  .of_leads ha hb (E.course.refl w) (E.course.refl u) rfl h

/-- Calls of which nothing is observed, with fewer calls left for the bodies of what is called. -/
theorem invoke {f g : Value} {xs ys : Arguments Value}
    (hf : ∀ inner, E.events [.mk f xs inner] = E.events inner)
    (hg : ∀ inner, E.events [.mk g ys inner] = E.events inner)
    (h : ∀ m, m < n → E.Matched m (f.apply xs) w (g.apply ys) u Φ) :
    E.Matched n (Action.invoke f xs) w (Action.invoke g ys) u Φ :=
  .leading (.call hf) (.call hg) fun m hm => h m (by omega)

/-- Functions of which nothing is observed. -/
theorem ask {f g : Function} {tag tag' : Nat} {xs ys : List Value} (hf : f.isSilent = true)
    (hg : g.isSilent = true)
    (h : ∀ m, m < n → E.Matched m (f.apply (.of xs)) w (g.apply (.of ys)) u Φ) :
    E.Matched n (Action.ask (.function tag f) xs) w (Action.ask (.function tag' g) ys) u Φ :=
  .invoke (E.events_silent hf tag _) (E.events_silent hg tag' _) h

/-- Actions with known runs that rest. -/
theorem of_traced {cs ds : List Call} {o o' : Ending} (ha : Traced a (S.store w) cs o (S.store z))
    (hb : Traced b (S.store u) ds o' (S.store y)) (hka : E.Keeps (S.store w) (E.events cs) (S.store z))
    (hkb : E.Keeps (S.store u) (E.events ds) (S.store y)) (ho : E.Rests o) (ho' : E.Rests o')
    (hz : E.course.Later w z) (hy : E.course.Later u y) (hlevel : E.Level z y)
    (htold : E.told (E.events cs) = E.told (E.events ds))
    (h : ∀ j, j ≤ n → EndAlike (fun v v' => Φ j z v y v') E.Fails o o') : E.Matched n a w b u Φ :=
  Always.of_traced ha hka ho fun j hj =>
    Ultimately.ends hb hkb ho' ⟨z, y, rfl, rfl, hz, hy, hlevel, htold, h j hj⟩

theorem done {v v' : Value} (hv : E.Rests (.ok v)) (hv' : E.Rests (.ok v')) (hlevel : E.Level w u)
    (h : ∀ j, j ≤ n → Φ j w v u v') : E.Matched n (.done v) w (.done v') u Φ :=
  .of_traced (.done v _) (.done v' _) (E.keeps_refl _) (E.keeps_refl _) hv hv' (E.course.refl w) (E.course.refl u)
    hlevel rfl fun j hj => .ok (h j hj)

/-- Actions with known runs that fail alike. -/
theorem failing {cs ds : List Call} {f f' : Failure} {α : Type} {a b : Action α}
    {k k' : α → Action Value} (ha : Traced a (S.store w) cs (.error f) (S.store z))
    (hb : Traced b (S.store u) ds (.error f') (S.store y))
    (hka : E.Keeps (S.store w) (E.events cs) (S.store z))
    (hkb : E.Keeps (S.store u) (E.events ds) (S.store y))
    (hz : E.course.Later w z) (hy : E.course.Later u y) (hlevel : E.Level z y)
    (htold : E.told (E.events cs) = E.told (E.events ds))
    (h : E.Fails f f') : E.Matched n (a.bind k) w (b.bind k') u Φ :=
  .of_traced ha.bind_error hb.bind_error hka hkb (E.rests_error f) (E.rests_error f') hz hy hlevel htold
    fun _ _ => .error h

/-- What is done next matches if the first parts do. -/
theorem bind {k k' : Value → Action Value} (hk : E.Through k) (hk' : E.Through k')
    (h : E.Matched n a w b u fun j z v y v' => E.Matched j (k v) z (k' v') y Φ) :
    E.Matched n (a.bind k) w (b.bind k') u Φ :=
  matched_iff.2 (Aligned.bind hk hk' (matched_iff.1 h))

end Comparison.Matched

/-- What is said of the programs of two runs: how the values at their leaves are related, for a number of
calls that the first run may still make, and which operations it performs. -/
structure Traits {V : Type} (S : Scene V) where
  carries : Nat → Comparison.Likeness S
  fewer {m n : Nat} {w u : S.World} {x x' : Value} : m ≤ n → carries n w x u x' → carries m w x u x'
  performs : String → List Value → Prop

namespace Comparison

/-- Where waits are passed, none of them is an operation that is left. -/
def Admits (E : Comparison S) (name : String) : Prop := E.passes = true → name ≠ suspendName

/-- Programs that show the same, and whose continuations are matched in all worlds from now on that go
together and go on as twins, as long as the first makes less than `n` calls. A continuation may give a
value for the leaf that carries it. -/
def Twins (E : Comparison S) (Λ : Traits S) (n : Nat) (w : S.World) (v : Value) (u : S.World)
    (v' : Value) : Prop :=
  (∃ tag tag' x x', v = .leaf tag x ∧ v' = .leaf tag' x' ∧ Λ.carries n w x u x') ∨
  ∃ tag tag' name params params' resume resume', v = .operation tag name params resume ∧
    v' = .operation tag' name params' resume' ∧ E.Admits name ∧ Λ.performs name params ∧
    List.Forall₂ (E.Same w u) params params' ∧
    ∀ z y x x', E.course.Later w z → E.course.Later u y → E.Level z y → E.Same z y x x' →
      E.Matched n (Program.continueWith resume x) z (Program.continueWith resume' x') y
        fun i z v y v' => ∃ _ : i < n, Twins E Λ i z v y v'
termination_by n

/-- Values that go on with a program when they are called, which are matched in all worlds from now on that
go together and for all answers that do, as long as the first run makes at most `n` calls. -/
def Resume (E : Comparison S) (Λ : Traits S) (n : Nat) (w : S.World) (resume : Value) (u : S.World)
    (resume' : Value) : Prop :=
  ∀ z y x x', E.course.Later w z → E.course.Later u y → E.Level z y → E.Same z y x x' →
    E.Matched n (Program.continueWith resume x) z (Program.continueWith resume' x') y (E.Twins Λ)

variable {Λ Λ' : Traits S} {v v' : Value}

theorem Twins.leaf {tag tag' : Nat} {x x' : Value} (h : Λ.carries n w x u x') :
    E.Twins Λ n w (.leaf tag x) u (.leaf tag' x') := by
  rw [Twins]
  exact .inl ⟨tag, tag', x, x', rfl, rfl, h⟩

theorem Twins.operation {tag tag' : Nat} {name : String} {params params' : List Value}
    {resume resume' : Value} (hadmits : E.Admits name) (hperforms : Λ.performs name params)
    (hparams : List.Forall₂ (E.Same w u) params params') (h : E.Resume Λ n w resume u resume') :
    E.Twins Λ n w (.operation tag name params resume) u (.operation tag' name params' resume') := by
  rw [Twins]
  refine .inr ⟨tag, tag', name, params, params', resume, resume', rfl, rfl, hadmits, hperforms, hparams,
    fun z y x x' hz hy hlevel hx => ?_⟩
  exact (Always.guarded (h z y x x' hz hy hlevel hx)).mono fun i said t o _ ⟨hi, hR⟩ =>
    hR.mono fun _ _ _ hmeet => hmeet.mono fun _ _ _ _ _ _ _ htwins => ⟨hi, htwins⟩

/-- Twins are leaves, or operations with continuations that are matched. -/
theorem Twins.elim {P : Prop} (h : E.Twins Λ n w v u v')
    (hleaf : ∀ tag tag' x x', v = .leaf tag x → v' = .leaf tag' x' → Λ.carries n w x u x' → P)
    (hoperation : ∀ tag tag' name params params' resume resume', v = .operation tag name params resume →
      v' = .operation tag' name params' resume' → E.Admits name → Λ.performs name params →
      List.Forall₂ (E.Same w u) params params' → E.Resume Λ n w resume u resume' → P) : P := by
  rw [Twins] at h
  rcases h with ⟨tag, tag', x, x', rfl, rfl, hx⟩ | ⟨tag, tag', name, params, params', resume, resume', rfl,
    rfl, hadmits, hperforms, hparams, hresume⟩
  · exact hleaf _ _ _ _ rfl rfl hx
  · refine hoperation _ _ _ _ _ _ _ rfl rfl hadmits hperforms hparams ?_
    intro z y x x' hz hy hlevel hx
    exact (hresume z y x x' hz hy hlevel hx).mono fun i z v y v' _ _ _ _ ⟨_, htwins⟩ => htwins

theorem Resume.later {r r' : Value} (h : E.Resume Λ n w r u r') (hz : E.course.Later w z)
    (hy : E.course.Later u y) : E.Resume Λ n z r y r' :=
  fun z' y' x x' hz' hy' => h z' y' x x' (E.course.trans hz hz') (E.course.trans hy hy')

theorem Resume.fewer {m : Nat} {r r' : Value} (h : E.Resume Λ n w r u r') (hm : m ≤ n) :
    E.Resume Λ m w r u r' :=
  fun z y x x' hz hy hlevel hx => (h z y x x' hz hy hlevel hx).fewer hm

theorem Twins.isProgram (h : E.Twins Λ n w v u v') : v.isProgram = true ∧ v'.isProgram = true := by
  refine h.elim ?_ ?_
  · rintro _ _ _ _ rfl rfl _
    exact ⟨rfl, rfl⟩
  · rintro _ _ _ _ _ _ _ rfl rfl _ _ _ _
    exact ⟨rfl, rfl⟩

theorem rests_leaf (tag : Nat) (x : Value) : E.Rests (.ok (.leaf tag x)) := by
  rintro d f ⟨-, _, _, _, _, he, -⟩
  cases he

theorem rests_operation {name : String} (h : E.Admits name) (tag : Nat) (params : List Value)
    (resume : Value) : E.Rests (.ok (.operation tag name params resume)) := by
  rintro d f ⟨hpasses, _, _, _, _, he, -⟩
  cases he
  exact h hpasses rfl

theorem Twins.rests (h : E.Twins Λ n w v u v') : E.Rests (.ok v) ∧ E.Rests (.ok v') := by
  refine h.elim ?_ ?_
  · rintro _ _ _ _ rfl rfl _
    exact ⟨rests_leaf _ _, rests_leaf _ _⟩
  · rintro _ _ _ _ _ _ _ rfl rfl hadmits _ _ _
    exact ⟨rests_operation hadmits _ _ _, rests_operation hadmits _ _ _⟩

theorem Twins.fewer {m : Nat} (h : E.Twins Λ n w v u v') (hm : m ≤ n) : E.Twins Λ m w v u v' := by
  refine h.elim ?_ ?_
  · rintro _ _ _ _ rfl rfl hx
    exact .leaf (Λ.fewer hm hx)
  · rintro _ _ _ _ _ _ _ rfl rfl hadmits hperforms hparams hresume
    exact .operation hadmits hperforms hparams (hresume.fewer hm)

theorem Twins.later (h : E.Twins Λ n w v u v') (hz : E.course.Later w z) (hy : E.course.Later u y)
    (hcarries : ∀ x x', Λ.carries n w x u x' → Λ.carries n z x y x') : E.Twins Λ n z v y v' := by
  refine h.elim ?_ ?_
  · rintro _ _ x x' rfl rfl hx
    exact .leaf (hcarries x x' hx)
  · rintro _ _ _ _ _ _ _ rfl rfl hadmits hperforms hparams hresume
    exact .operation hadmits hperforms (same_all_later hz hy hparams) (hresume.later hz hy)

/-- Giving back twins. -/
theorem Twins.done (h : E.Twins Λ n w v u v') (hlevel : E.Level w u) :
    E.Matched n (.done v) w (.done v') u (E.Twins Λ) :=
  .done h.rests.1 h.rests.2 hlevel fun _ hj => h.fewer hj

/-- What makes no difference to programs makes none to twins. -/
theorem Matched.unchanged {k k' : Value → Action Value} (h : E.Matched n a w b u (E.Twins Λ))
    (hk : ∀ v : Value, v.isProgram = true → k v = .done v)
    (hk' : ∀ v : Value, v.isProgram = true → k' v = .done v) :
    E.Matched n (a.bind k) w (b.bind k') u (E.Twins Λ) := by
  refine Always.mono (Always.next_unchanged h (fun j es s v hR => ?_) hk) fun j es s e _ hR => ?_
  · refine hR.known fun fs t e' hmeet => ?_
    obtain ⟨z, y, -, -, -, -, -, -, hends⟩ := hmeet
    cases hends with
    | ok htwins => exact htwins.isProgram.1
  · refine hR.next_unchanged (fun fs t v' hmeet => ?_) hk'
    obtain ⟨z, y, -, -, -, -, -, -, hends⟩ := hmeet
    cases hends with
    | ok htwins => exact htwins.isProgram.2

end Comparison

end AlgebraicEffects
