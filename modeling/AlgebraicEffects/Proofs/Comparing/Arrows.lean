import AlgebraicEffects.Proofs.Comparing.Grafting
import AlgebraicEffects.Proofs.Stacks.Scripted

/-!
Calls of arrows.

An arrow that is given arguments early calls the one it is made from with these in front of its own
(`agree_partially`), where of a keyword the value that comes last is taken (`lookup_mergeKeywords`). An arrow
over a function that calls another arrow goes on with what that gives (`agree_over`). No arrow takes the
keyword that names itself, so what is refused by one is refused by both.
-/

set_option autoImplicit false

namespace AlgebraicEffects

open Comparison (exact)

section Keywords

variable (early late : List (String × Value)) (name : String)

theorem any_eq_isSome_lookup (ks : List (String × Value)) :
    ks.any (·.1 == name) = (ks.lookup name).isSome := by
  rw [Bool.eq_iff_iff, List.lookup_isSome_iff, List.any_eq_true]
  simp only [BEq.comm]

theorem lookup_map_value (f : String → Value → Value) (ks : List (String × Value)) :
    (ks.map fun (n, v) => (n, f n v)).lookup name = (ks.lookup name).map (f name) := by
  induction ks with
  | nil => rfl
  | cons k ks ih =>
    rw [List.map_cons, List.lookup_cons, List.lookup_cons, ih]
    cases h : name == k.1 with
    | true => rw [eq_of_beq h]; rfl
    | false => rfl

theorem lookup_filter_name (p : String → Bool) (ks : List (String × Value)) :
    (ks.filter fun (n, _) => p n).lookup name = if p name then ks.lookup name else none := by
  induction ks with
  | nil => rw [List.filter_nil, List.lookup_nil, ite_self]
  | cons k ks ih =>
    obtain ⟨n, v⟩ := k
    rw [List.filter_cons, List.lookup_cons]
    cases h : name == n with
    | true =>
      obtain rfl := eq_of_beq h
      cases hp : p name <;> simp [hp, ih]
    | false => cases hp : p n <;> simp [List.lookup_cons, h, hp, ih]

/-- Of the values that a keyword is given the later one is taken. -/
theorem lookup_mergeKeywords :
    (mergeKeywords early late).lookup name = (late.lookup name).or (early.lookup name) := by
  rw [mergeKeywords, List.lookup_append, lookup_map_value name fun n v => (late.lookup n).getD v,
    lookup_filter_name name fun n => !early.any (·.1 == n), any_eq_isSome_lookup]
  cases early.lookup name <;> cases late.lookup name <;> rfl

theorem any_mergeKeywords : (mergeKeywords early late).any (·.1 == name) =
    (early.any (·.1 == name) || late.any (·.1 == name)) := by
  rw [any_eq_isSome_lookup, any_eq_isSome_lookup, any_eq_isSome_lookup, lookup_mergeKeywords,
    Option.isSome_or, Bool.or_comm]

/-- A keyword that is given twice is passed on once. -/
theorem nodup_mergeKeywords {early late : List (String × Value)} (h : (early.map (·.1)).Nodup)
    (h' : (late.map (·.1)).Nodup) : ((mergeKeywords early late).map (·.1)).Nodup := by
  have hearly : (early.map fun (n, v) => (n, (late.lookup n).getD v)).map (·.1) = early.map (·.1) := by
    rw [List.map_map]
    rfl
  rw [mergeKeywords, List.map_append, hearly]
  refine List.nodup_append.2 ⟨h, h'.sublist (List.filter_sublist.map _), ?_⟩
  rintro n hn _ hm rfl
  obtain ⟨k, hk, rfl⟩ := List.mem_map.1 hm
  obtain ⟨k', hk', hname⟩ := List.mem_map.1 hn
  have hnew := (List.mem_filter.1 hk).2
  rw [Bool.not_eq_true', List.any_eq_false] at hnew
  exact hnew k' hk' (beq_iff_eq.2 hname)

theorem mergeKeywords_assoc (first : List (String × Value)) :
    mergeKeywords (mergeKeywords first early) late =
      mergeKeywords first (mergeKeywords early late) := by
  have hlookup (n : String) := lookup_mergeKeywords early late n
  have hany (n : String) := any_mergeKeywords first early n
  simp only [mergeKeywords] at hlookup hany ⊢
  simp only [List.map_append, List.filter_append, List.append_assoc, List.map_map]
  congr 1
  · refine List.map_congr_left fun k _ => ?_
    simp only [Function.comp, hlookup]
    cases late.lookup k.1 <;> rfl
  · congr 1
    · rw [List.filter_map]
      rfl
    · rw [List.filter_filter]
      refine List.filter_congr fun k _ => ?_
      rw [hany, Bool.not_or]

/-- The arguments of a call behind those that are given before it; of keywords the later ones win. -/
def Arguments.before (early late : Arguments Value) : Arguments Value :=
  ⟨early.positional ++ late.positional, mergeKeywords early.keywords late.keywords⟩

theorem Arguments.before_assoc (first early late : Arguments Value) :
    (first.before early).before late = first.before (early.before late) := by
  simp only [before, List.append_assoc, mergeKeywords_assoc]

theorem Arguments.nothing_before (late : Arguments Value) : (Arguments.of []).before late = late := by
  have hall : mergeKeywords [] late.keywords = late.keywords := List.filter_true _
  simp only [before, of, hall, List.nil_append]

end Keywords

/-- An arrow, or one of another arrow that is given some of its arguments early. -/
inductive Value.IsArrow : Value → Prop where
  | plain (tag : Nat) (f : Value) : IsArrow (.arrow tag (.plain f))
  | generated (tag own : Nat) (source : Value) : IsArrow (.arrow tag (.generated own source))
  | partially {base : Value} (tag : Nat) (arguments : List Value) (keywords : List (String × Value)) :
      IsArrow base → IsArrow (.arrow tag (.partially base arguments keywords))

variable {V : Type} {S : Scene V} {C : Course S} {L : Listener} {w : S.World}
  {k : Value → Action Value} {f g v base : Value} {call : Arguments Value}

namespace Arrow

/-- No arrow takes a call that names the arrow itself. -/
theorem apply_refused (h : call.keywords.any (·.1 == reserved) = true) (a : Arrow) :
    a.apply call = .fault .badType := if_pos h

/-- A call that is refused gives nothing, so only those that are taken matter. -/
theorem givesPrograms_of_taken {tag : Nat} {a : Arrow}
    (h : call.keywords.any (·.1 == reserved) = false → (a.apply call).GivesPrograms) :
    (Action.invoke (.arrow tag a) call).GivesPrograms := by
  refine .invoke ?_
  show (a.apply call).GivesPrograms
  cases hself : call.keywords.any (·.1 == reserved) with
  | true =>
    rw [apply_refused hself]
    exact .fail _
  | false => exact h hself

variable (h : call.keywords.any (·.1 == reserved) = false)
include h

theorem apply_plain (f : Value) : (Arrow.plain f).apply call = Program.lift <$> Action.invoke f call :=
  if_neg (Bool.eq_false_iff.1 h)

theorem apply_generated (tag : Nat) (source : Value) : (Arrow.generated tag source).apply call =
    Program.lift <$> Action.invoke (.function tag (.programFactory source)) call :=
  if_neg (Bool.eq_false_iff.1 h)

theorem apply_partially (base : Value) (arguments : List Value) (keywords : List (String × Value)) :
    (Arrow.partially base arguments keywords).apply call =
      Action.invoke base (Arguments.before ⟨arguments, keywords⟩ call) := if_neg (Bool.eq_false_iff.1 h)

end Arrow

/-- There is a function under every arrow. -/
theorem Value.IsArrow.built_eq (hv : v.IsArrow) (f : Function) :
    Arrow.built v f = .done (Arrow.ofCallable (.arrowOf f)) := by
  have hunder : ∃ under, v.callable? = some under := by
    induction hv with
    | plain _ f => exact ⟨f, rfl⟩
    | generated => exact ⟨_, rfl⟩
    | partially _ _ _ _ ih => exact ih
  obtain ⟨under, hunder⟩ := hunder
  rw [Arrow.built, hunder]
  rfl

/-- Arrows give programs. -/
theorem Value.IsArrow.givesPrograms (hv : v.IsArrow) (call : Arguments Value) :
    (Action.invoke v call).GivesPrograms := by
  induction hv generalizing call with
  | plain tag f =>
    refine Arrow.givesPrograms_of_taken fun hself => ?_
    rw [Arrow.apply_plain hself]
    exact .lifted _
  | generated tag own source =>
    refine Arrow.givesPrograms_of_taken fun hself => ?_
    rw [Arrow.apply_generated hself]
    exact .lifted _
  | partially tag arguments keywords _ ih =>
    refine Arrow.givesPrograms_of_taken fun hself => ?_
    rw [Arrow.apply_partially hself]
    exact ih _

section Calling

variable (hC : C.IsOpen) (hdeaf : ∀ tag a, L.hears (.arrow tag a) = false)
include hdeaf

/-- Of the call of an arrow nothing is observed but what it calls. -/
theorem leads_arrow (tag : Nat) (a : Arrow) (call : Arguments Value) (s : Store) :
    (exact C L).Leads s (Action.invoke (.arrow tag a) call) 1 [] s (a.apply call) :=
  .call (L.events_arrow (hdeaf tag a) call)

/-- A call that names the arrow itself is refused. -/
theorem leads_refused (hv : v.IsArrow) (hself : call.keywords.any (·.1 == Arrow.reserved) = true) (s : Store) :
    (exact C L).Leads s (Action.invoke v call) 1 [] s (.fault .badType) := by
  cases hv
  all_goals
    rw [← Arrow.apply_refused hself]
    exact leads_arrow hdeaf ..

include hC

theorem agree_refused (k k' : Value → Action Value) (hf : f.IsArrow) (hg : g.IsArrow)
    {call call' : Arguments Value} (hself : call.keywords.any (·.1 == Arrow.reserved) = true)
    (hself' : call'.keywords.any (·.1 == Arrow.reserved) = true) :
    C.Agree L w ((Action.invoke f call).bind k) ((Action.invoke g call').bind k') :=
  .of_leads ((leads_refused hdeaf hf hself _).bind k) ((leads_refused hdeaf hg hself' _).bind k')
    (Course.agree_refl hC (Course.includes_fail _) (.fail _))

/-- An arrow that is given arguments early gives what the other one does with these in front. -/
theorem agree_partially (hbase : base.IsArrow) (tag : Nat) (early call : Arguments Value) :
    C.Agree L w (Action.invoke (.arrow tag (.partially base early.positional early.keywords)) call)
      (Action.invoke base (early.before call)) := by
  cases hself : call.keywords.any (·.1 == Arrow.reserved) with
  | true =>
    have hmerged : (early.before call).keywords.any (·.1 == Arrow.reserved) = true := by
      rw [Arguments.before, any_mergeKeywords, hself, Bool.or_true]
    have hagree := agree_refused (w := w) hC hdeaf .done .done
      (.partially tag early.positional early.keywords hbase) hbase hself hmerged
    rwa [Action.bind_done, Action.bind_done] at hagree
  | false =>
    refine .of_leads (leads_arrow hdeaf ..) (.refl _ _) ?_
    rw [Arrow.apply_partially hself]
    exact Course.agree_refl hC (hC.invoke _ _) (hbase.givesPrograms _)

/-- An arrow over a function that calls another arrow and goes on with what that gives. -/
theorem agree_over (hbase : base.IsArrow) {own : Function} (hsilent : own.isSilent = true)
    (hbody : ∀ call, own.apply call = (Action.invoke base call).bind k)
    (hk : ∀ p, k (Program.lift p) = Program.graft p g) (tag tag' : Nat) (call : Arguments Value) :
    C.Agree L w (Action.invoke (.arrow tag (.plain (.function tag' own))) call)
      ((Action.invoke base call).bind (Program.graft · g)) := by
  cases hself : call.keywords.any (·.1 == Arrow.reserved) with
  | true =>
    have hagree := agree_refused (w := w) hC hdeaf .done (Program.graft · g)
      (.plain tag (.function tag' own)) hbase hself hself
    rwa [Action.bind_done] at hagree
  | false =>
    have hlifted : (Program.lift <$> Action.invoke base call).bind k =
        (Action.invoke base call).bind (Program.graft · g) := by
      show ((Action.invoke base call).bind fun p => .done (Program.lift p)).bind k = _
      rw [Action.bind_assoc]
      exact congrArg (Action.bind _) (funext hk)
    have hinner : (exact C L).Leads (S.store w) (Action.invoke (.function tag' own) call) (1 + 0) [] (S.store w)
        ((Action.invoke base call).bind (Program.graft · g)) := by
      have hcalled : (exact C L).Leads (S.store w) (Action.invoke (.function tag' own) call) 1 []
          (S.store w) (own.apply call) := .call (L.events_silent hsilent tag' call)
      rw [hbody] at hcalled
      have hgone := (Comparison.Leads.lifted (E := exact C L) (hbase.givesPrograms call) (S.store w)).bind k
      rw [hlifted] at hgone
      exact hcalled.trans hgone
    refine .of_leads (leads_arrow hdeaf ..) (.refl _ _) ?_
    rw [Arrow.apply_plain hself]
    refine .lifted (.of_leads hinner (.refl _ _) ?_)
    exact Course.agree_refl hC (.bind (hC.invoke _ _) fun _ _ _ => hC.graft _ _) (.bind fun _ => .graft _ _)

end Calling

end AlgebraicEffects
