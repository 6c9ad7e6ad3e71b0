import AlgebraicEffects.Proofs.Discipline.Values

/-!
Programs follow every discipline: grafting and collecting them, evaluating them under handlers,
building them by replay, and the operations and handlers of the effects.
-/

set_option autoImplicit false

namespace AlgebraicEffects

open Action

variable {P : {α : Type} → Action α → Prop} [Discipline P]

namespace Program

@[grind ←] theorem follows_graft (program next : Value) : Follows P (graft program next) := by
  unfold graft
  grind

@[grind ←] theorem follows_map (program mapper : Value) : Follows P (map program mapper) := by
  unfold map
  grind

@[grind ←] theorem follows_continueWith (resume answer : Value) :
    Follows P (continueWith resume answer) := by
  unfold continueWith
  grind

@[grind ←] theorem follows_operation (name params resume : Value) :
    Follows P (operation name params resume) := by
  unfold operation
  grind

end Program

namespace Generator

@[grind ←] theorem follows_allocate (state : GeneratorState) : Follows P (allocate state) :=
  follows_read fun _ => follows_write (fun _ => ⟨rfl, rfl, rfl⟩) (follows_done _)

@[grind ←] theorem follows_setState (address : Nat) (state : GeneratorState) :
    Follows P (setState address state) :=
  follows_update fun _ => ⟨rfl, rfl, rfl⟩

@[grind ←] theorem follows_state (address : Nat) : Follows P (state address) := follows_inspect _

@[grind ←] theorem follows_guarded {address : Nat} {step : Action Value} (h : Follows P step) :
    Follows P (guarded address step) := by
  unfold guarded
  grind

@[grind ←] theorem follows_advanceBody (address : Nat) (answer : Value) :
    Follows P (advanceBody address answer) := by
  unfold advanceBody
  grind

@[grind ←] theorem follows_record (recording : Nat) (answer : Value) :
    Follows P (record recording answer) :=
  follows_update fun _ => ⟨rfl, rfl, rfl⟩

@[grind ←] theorem follows_advance (address : Nat) (answer : Value) :
    Follows P (advance address answer) := by
  unfold advance
  refine follows_bind (follows_state address) fun state => ?_
  split
  · refine follows_guarded (follows_bind (follows_ask _ _) fun v => ?_)
    grind
  · refine follows_guarded (follows_bind (follows_record _ _) fun _ => ?_)
    grind
  · exact follows_advanceBody address answer

@[grind ←] theorem follows_progress (address : Nat) (answer : Value) :
    Follows P (progress address answer) := by
  unfold progress
  grind

@[grind ←] theorem follows_pairingBody (address : Nat) (entries : List (Value × Value)) :
    Follows P (pairingBody address entries) := by
  unfold pairingBody
  grind

theorem follows_growingBody (list : Value) (address : Nat) :
    Follows P (growingBody list address) := by
  unfold growingBody
  refine follows_bind (follows_progress address .nothing) fun p => ?_
  split
  · refine follows_bind (follows_itemsNow _ _) fun now => ?_
    exact follows_bind (follows_update fun _ => ⟨rfl, rfl, rfl⟩) fun _ => follows_ask _ _
  · exact follows_pure _

@[grind ←] theorem follows_exhaustingBody (address : Nat) (collected : List Value) :
    Follows P (exhaustingBody address collected) := by
  unfold exhaustingBody
  grind

end Generator

namespace Program

@[grind ←] theorem follows_collectFrom (pending collected : List Value) :
    Follows P (collectFrom pending collected) := by
  cases pending with
  | nil => exact follows_done _
  | cons p ps => exact follows_graft p _

@[grind ←] theorem follows_collectAll (programs : List Value) : Follows P (collectAll programs) :=
  follows_collectFrom _ _

@[grind ←] theorem follows_sequence (programs : List Value) : Follows P (sequence programs) := by
  unfold sequence
  grind

@[grind ←] theorem follows_applyTo (function : Value) (arguments : List Value) :
    Follows P (applyTo function arguments) := follows_graft function _

@[grind ←] theorem follows_traverse (items f : Value) : Follows P (traverse items f) := by
  unfold traverse
  split
  · exact follows_ask _ _
  · refine Value.follows_bind_turns fun turns hturns => follows_bind (follows_mapM fun turn hturn => ?_) ?_
    · exact follows_bind (hturns turn hturn) fun v => follows_ask f [v]
    · exact fun vs => follows_collectAll vs

@[grind ←] theorem follows_tupleAll (programs : List Value) : Follows P (tupleAll programs) := by
  unfold tupleAll
  grind

theorem follows_traversingBody (address : Nat) (f : Value) (collected : List Value) :
    Follows P (traversingBody address f collected) := by
  unfold traversingBody
  grind

@[grind ←] theorem follows_traceFrom (program : Value) (answers records : List Value) :
    Follows P (traceFrom program answers records) := by
  unfold traceFrom
  grind

@[grind ←] theorem follows_exploreBelow (answers depth resume answer : Value) :
    Follows P (exploreBelow answers depth resume answer) := by
  unfold exploreBelow
  grind

@[grind ←] theorem follows_exploreAll (answers depth resume : Value) :
    Follows P (exploreAll answers depth resume) := by
  unfold exploreAll
  split
  · exact follows_ask _ _
  · refine Value.follows_bind_turns fun turns hturns => follows_bind (follows_mapM fun turn hturn => ?_) ?_
    · exact follows_bind (hturns turn hturn) fun v => follows_exploreBelow _ depth resume v
    · exact fun vs => follows_pure _

@[grind ←] theorem follows_explore (program answers depth : Value) :
    Follows P (explore program answers depth) := by
  unfold explore
  grind

theorem follows_exploringDrawnBody (address : Nat) (name : String) (resume depth : Value)
    (collected : List Value) :
    Follows P (exploringDrawnBody address name resume depth collected) := by
  unfold exploringDrawnBody
  grind

end Program

namespace Replay

@[grind ←] theorem follows_feed (address : Nat) (current : Value) (consumed : Nat)
    (answers : List Value) : Follows P (feed address current consumed answers) := by
  induction answers generalizing current consumed with
  | nil => exact follows_pure _
  | cons answer answers ih =>
    refine follows_bind (Generator.follows_progress address answer) fun p => ?_
    cases p with
    | yielded v => exact ih v (consumed + 1)
    | returned v => exact follows_pure _

@[grind ←] theorem follows_factoryName (factory : Value) : Follows P (factoryName factory) := by
  unfold factoryName
  grind

@[grind ←] theorem follows_finish (factory history v : Value) (consumed : Nat) :
    Follows P (finish factory history v consumed) := by
  unfold finish
  grind

@[grind ←] theorem follows_buildOn (factory arguments : Value) (positional : List Value)
    (keywords : List (String × Value)) (history : Value) :
    Follows P (buildOn factory arguments positional keywords history) := by
  unfold buildOn
  refine follows_bind (follows_invoke _ _) fun made => ?_
  split
  · refine follows_bind (Generator.follows_progress _ _) fun p => ?_
    grind
  · exact follows_pure _

@[grind ←] theorem follows_settled (factory arguments : Value) :
    Follows P (settled factory arguments) := by
  unfold settled
  grind

@[grind ←] theorem follows_build (factory arguments : Value) (keywords : List (String × Value))
    (history : Value) : Follows P (build factory arguments keywords history) := by
  unfold build
  grind

theorem follows_feedingBody (source : Nat) (name : String) (address : Nat)
    (current factory arguments : Value) (keywords : List (String × Value)) :
    Follows P (feedingBody source name address current factory arguments keywords) := by
  unfold feedingBody
  grind

@[grind ←] theorem follows_keywordsOf (entries : List (Value × Value)) :
    Follows P (keywordsOf entries) := by
  induction entries with
  | nil => exact follows_pure []
  | cons e es ih =>
    unfold keywordsOf
    grind

@[grind ←] theorem follows_buildFrom (factory arguments keywords history : Value) :
    Follows P (buildFrom factory arguments keywords history) := by
  unfold buildFrom
  grind

@[grind ←] theorem follows_allocateMemo : Follows P allocateMemo :=
  follows_read fun _ => follows_write (fun _ => ⟨rfl, rfl, rfl⟩) (follows_done _)

@[grind ←] theorem follows_allocateRecording : Follows P allocateRecording :=
  follows_read fun _ => follows_write (fun _ => ⟨rfl, rfl, rfl⟩) (follows_done _)

theorem follows_rememberingBody (memo : Nat) (implementation : Value) (params : List Value)
    (continuation : Value) (call : Arguments Value) :
    Follows P (rememberingBody memo implementation params continuation call) := by
  unfold rememberingBody
  grind

@[grind ←] theorem follows_nextCall (recording : Nat) : Follows P (nextCall recording) :=
  follows_read fun _ => follows_write (fun _ => ⟨rfl, rfl, rfl⟩) (follows_done _)

theorem follows_rememberedResumeBody (memo recording : Nat) (continuation : Value)
    (call : Arguments Value) :
    Follows P (rememberedResumeBody memo recording continuation call) := by
  unfold rememberedResumeBody
  refine follows_takeOptional fun answer => follows_bind (follows_nextCall recording) fun place => ?_
  refine follows_bind (follows_inspect _) fun found => ?_
  cases found with
  | some subtree => exact follows_pure subtree
  | none =>
    refine follows_bind (follows_ask continuation [answer]) fun v => ?_
    refine follows_bind (follows_identify v) fun subtree => ?_
    exact follows_bind (follows_update fun _ => ⟨rfl, rfl, rfl⟩) fun _ => follows_pure subtree

end Replay

section Drawing

@[grind ←] theorem Value.follows_checked (v : Value) : Follows P v.checked := by
  unfold Value.checked
  grind

mutual

@[grind ←] theorem Value.follows_drawn : (v : Value) → Follows P v.drawn
  | .list _ items | .tuple _ items | .operation _ _ items _ =>
    follows_bind (follows_drawnItems items) fun _ => follows_pure _
  | .dict _ entries | .frozen _ entries =>
    follows_bind (follows_drawnEntries entries) fun _ => follows_pure _
  | .leaf _ v | .ok _ v | .err _ v => follows_bind v.follows_drawn fun _ => follows_pure _
  | .outcome _ r vs => by
    have hr := r.follows_drawn
    have hvs := vs.follows_drawn
    unfold Value.drawn
    grind
  | .nothing | .bool _ | .int _ | .float _ _ | .text _ | .bytes _ | .names _ _ | .view _ _
  | .function _ _ | .arrow _ _ | .handler _ _ _ | .failure _ | .generator _ _ | .agenda _
  | .loopHost _ | .notAvailable => Value.follows_checked _

theorem follows_drawnItems : (vs : List Value) → Follows P (drawnItems vs)
  | [] => follows_pure []
  | v :: vs =>
    follows_bind v.follows_drawn fun _ => follows_bind (follows_drawnItems vs) fun _ => follows_pure _

theorem follows_drawnEntries : (es : List (Value × Value)) → Follows P (drawnEntries es)
  | [] => follows_pure []
  | (k, v) :: es =>
    follows_bind k.follows_drawn fun _ => follows_bind v.follows_drawn fun _ =>
      follows_bind (follows_drawnEntries es) fun _ => follows_pure _

end

theorem Generator.follows_drawingBody (address : Nat) (collected : List Value) :
    Follows P (Generator.drawingBody address collected) := by
  unfold Generator.drawingBody
  grind

@[grind ←] theorem Value.follows_reported (v : Value) : Follows P v.reported := by
  unfold Value.reported
  grind

end Drawing

namespace Handler

@[grind ←] theorem follows_evaluate (table : Table) (atLeaf : Option Value) (program : Value) :
    Follows P (evaluate table atLeaf program) := by
  unfold evaluate
  grind

@[grind ←] theorem follows_tableOf (entries : List (Value × Value)) :
    Follows P (tableOf entries) := by
  induction entries with
  | nil => exact follows_pure []
  | cons e es ih =>
    unfold tableOf
    grind

@[grind ←] theorem follows_ofEntries (entries : List (Value × Value)) (atLeaf : Value) :
    Follows P (ofEntries entries atLeaf) := by
  unfold ofEntries
  grind

@[grind ←] theorem follows_ofModel (model atLeaf : Value) (named : List (String × Value)) :
    Follows P (ofModel model atLeaf named) := by
  unfold ofModel
  grind

@[grind ←] theorem follows_extend (table : Table) (atLeaf : Option Value)
    (named : List (String × Value)) : Follows P (extend table atLeaf named) :=
  follows_ofEntries _ _

@[grind ←] theorem follows_handle (program model atLeaf : Value) :
    Follows P (handle program model atLeaf) := by
  unfold handle
  grind

theorem follows_applyTurns (program : Value) {turns : List (Action Value)}
    (h : ∀ turn ∈ turns, Follows P turn) : Follows P (applyTurns program turns) := by
  induction turns generalizing program with
  | nil => exact follows_pure _
  | cons turn turns ih =>
    refine follows_bind (h turn List.mem_cons_self) fun handler => ?_
    refine follows_bind (follows_ask handler _) fun next => ?_
    exact ih next fun later hlater => h later (List.mem_cons_of_mem turn hlater)

@[grind ←] theorem follows_applyAll (program : Value) (handlers : List Value) :
    Follows P (applyAll program handlers) := by
  refine follows_applyTurns program fun turn hturn => ?_
  obtain ⟨handler, -, rfl⟩ := List.mem_map.1 hturn
  exact follows_done handler

@[grind ←] theorem follows_applyEach (program handlers : Value) :
    Follows P (applyEach program handlers) := by
  unfold applyEach
  split
  · exact follows_ask _ _
  · exact Value.follows_bind_turns fun turns hturns => follows_applyTurns program hturns

theorem follows_handlingBody (address : Nat) (call : Arguments Value) :
    Follows P (handlingBody address call) := by
  unfold handlingBody
  grind

end Handler

end AlgebraicEffects
