import AlgebraicEffects.Proofs.Discipline.Effects

/-!
Every call follows every discipline.

What is left are the attributes and methods of values, the forms of scripts, and the bodies of
generators and functions. Main statement: whatever is called with whatever arguments, its body follows
the discipline (`Value.follows_apply`).
-/

set_option autoImplicit false

namespace AlgebraicEffects

open Action

variable {P : {α : Type} → Action α → Prop} [Discipline P]

section Attributes

@[grind ←] theorem Value.follows_textOr (name : String) (shown : Option String) :
    Follows P (Value.textOr name shown) := by
  unfold Value.textOr
  grind

@[grind ←] theorem Value.follows_nameNamed (v : Value) (name : String) :
    Follows P (v.nameNamed name) := by
  unfold Value.nameNamed
  grind

@[grind ←] theorem Value.follows_fieldOfFailure (f : Failure) (name : String) :
    Follows P (Value.fieldOfFailure f name) := by
  unfold Value.fieldOfFailure
  grind

@[grind ←] theorem Value.follows_fieldOfArrow (tag : Nat) (a : Arrow) (name : String) :
    Follows P (Value.fieldOfArrow tag a name) := by
  unfold Value.fieldOfArrow
  grind

@[grind ←] theorem Value.follows_fieldOfAgenda (address : Nat) (name : String) :
    Follows P (Value.fieldOfAgenda address name) := by
  unfold Value.fieldOfAgenda
  grind

@[grind ←] theorem Value.follows_fieldOfLoop (address : Nat) (name : String) :
    Follows P (Value.fieldOfLoop address name) := by
  unfold Value.fieldOfLoop
  grind

@[grind ←] theorem Value.follows_fieldNamed (v : Value) (name : String) :
    Follows P (v.fieldNamed name) := by
  unfold Value.fieldNamed
  grind

@[grind ←] theorem Value.follows_ownAttribute (v : Value) (name : String) :
    Follows P (v.ownAttribute name) := by
  unfold Value.ownAttribute
  grind

@[grind ←] theorem Function.follows_ownAttribute (tag : Nat) (f : Function) (name : String) :
    Follows P (f.ownAttribute tag name) := by
  unfold Function.ownAttribute
  grind

mutual

@[grind ←] theorem Value.follows_attributeNamed (name : String) :
    (v : Value) → Follows P (v.attributeNamed name)
  | .function tag f => by
    have hf := f.follows_attributeNamed tag name
    unfold Value.attributeNamed
    grind
  | .outcome _ r _ => by
    have hisOk := r.follows_attributeNamed "is_ok"
    have hisErr := r.follows_attributeNamed "is_err"
    have hunwrap := r.follows_attributeNamed "unwrap"
    unfold Value.attributeNamed
    grind
  | .nothing | .bool _ | .int _ | .float _ _ | .text _ | .bytes _ | .list _ _ | .tuple _ _
  | .names _ _ | .dict _ _ | .frozen _ _ | .view _ _ | .leaf _ _ | .operation _ _ _ _ | .arrow _ _
  | .handler _ _ _ | .ok _ _ | .err _ _ | .failure _ | .generator _ _ | .agenda _ | .loopHost _
  | .notAvailable => by
    unfold Value.attributeNamed
    exact Value.follows_ownAttribute _ name

theorem Function.follows_attributeNamed (tag : Nat) (name : String) (f : Function) :
    Follows P (f.attributeNamed tag name) := by
  cases f with
  | boundTo g receiver =>
    have hg := g.follows_attributeNamed name
    unfold Function.attributeNamed
    grind
  | _ =>
    unfold Function.attributeNamed
    exact Function.follows_ownAttribute tag _ name

end

end Attributes

section Methods

@[grind ←] theorem Arrow.follows_built (base : Value) (f : Function) :
    Follows P (Arrow.built base f) := by
  unfold Arrow.built
  grind

@[grind ←] theorem Arrow.follows_apply (a : Arrow) (call : Arguments Value) :
    Follows P (a.apply call) := by
  unfold Arrow.apply
  grind

@[grind ←] theorem Arrow.follows_furtherApply (a : Value) (arguments : List Value)
    (keywords : List (String × Value)) : Follows P (Arrow.furtherApply a arguments keywords) := by
  unfold Arrow.furtherApply
  grind

@[grind ←] theorem Arrow.follows_chain (base binder : Value) : Follows P (Arrow.chain base binder) := by
  unfold Arrow.chain
  grind

@[grind ←] theorem Arrow.follows_fmap (base mapper : Value) : Follows P (Arrow.fmap base mapper) := by
  unfold Arrow.fmap
  grind

@[grind ←] theorem Value.follows_askNamed (v : Value) (name : String) (arguments : List Value) :
    Follows P (v.askNamed name arguments) := by
  unfold Value.askNamed
  grind

@[grind ←] theorem Value.follows_andThen (v binder : Value) : Follows P (v.andThen binder) := by
  unfold Value.andThen
  grind

@[grind ←] theorem Value.follows_mapOver (v mapper : Value) : Follows P (v.mapOver mapper) := by
  unfold Value.mapOver
  grind

@[grind ←] theorem Value.follows_raiseError (v : Value) : Follows P v.raiseError := by
  unfold Value.raiseError
  grind

@[grind ←] theorem Value.follows_unwrapped (v : Value) : Follows P v.unwrapped := by
  unfold Value.unwrapped
  grind

@[grind ←] theorem Value.follows_asAgenda (needed : String) (v : Value) :
    Follows P (v.asAgenda needed) := by
  unfold Value.asAgenda
  grind

@[grind ←] theorem Value.follows_asLoop (needed : String) (v : Value) :
    Follows P (v.asLoop needed) := by
  unfold Value.asLoop
  grind

@[grind ←] theorem Value.follows_asHandler (needed : String) (v : Value) :
    Follows P (v.asHandler needed) := by
  unfold Value.asHandler
  grind

@[grind ←] theorem Value.follows_entryPlaced (v index : Value) :
    Follows P (v.entryPlaced index) := by
  unfold Value.entryPlaced
  grind

@[grind ←] theorem Value.follows_valuesOf (v : Value) : Follows P v.valuesOf := by
  unfold Value.valuesOf
  grind

@[grind ←] theorem Value.follows_extendWith (v more : Value) : Follows P (v.extendWith more) := by
  unfold Value.extendWith
  split
  · exact follows_ask _ _
  · refine follows_bind (Value.follows_items _) fun added => ?_
    refine follows_bind (follows_itemsNow _ _) fun now => ?_
    exact follows_bind (follows_update fun _ => ⟨rfl, rfl, rfl⟩) fun _ => follows_pure _
  · exact follows_fault _

@[grind ←] theorem Value.follows_boundMethod (f receiver : Value) :
    Follows P (f.boundMethod receiver) := by
  unfold Value.boundMethod
  grind

@[grind ←] theorem Method.follows_perform (m : Method) (b : Bound Value) :
    Follows P (m.perform b) := by
  unfold Method.perform
  split
  all_goals grind

@[grind ←] theorem Method.follows_apply (m : Method) (call : Arguments Value) :
    Follows P (m.apply call) := by
  unfold Method.apply
  grind

end Methods

section Demonstrations

namespace Demonstration

@[grind ←] theorem follows_write (label : String) (v : Value) : Follows P (write label v) := by
  unfold write
  grind

@[grind ←] theorem follows_printing : Follows P printing := Output.follows_printHandler _

@[grind ←] theorem follows_output : Follows P output := by
  unfold output
  refine follows_bind (Output.follows_writeLine _) fun _ => ?_
  refine follows_bind (follows_ask letters []) fun _ => follows_bind follows_printing fun _ => ?_
  refine follows_bind (Run.follows_run _ _ _) fun _ => ?_
  grind

@[grind ←] theorem follows_state : Follows P state := by
  unfold state
  grind

@[grind ←] theorem follows_choice : Follows P choice := by
  unfold choice
  refine follows_bind (follows_ask difference []) fun _ => ?_
  refine follows_bind (Run.follows_run _ _ _) fun all => follows_bind (follows_write _ all) fun _ => ?_
  refine follows_bind (follows_ask difference []) fun _ => ?_
  grind

@[grind ←] theorem follows_scheduler : Follows P scheduler := by
  unfold scheduler
  refine follows_bind (follows_ask slow _) fun left => follows_bind (follows_ask slow _) fun right => ?_
  refine follows_bind (Suspension.follows_par left right) fun _ => ?_
  grind

@[grind ←] theorem follows_unhandled : Follows P unhandled := by
  unfold unhandled
  grind

@[grind ←] theorem follows_run (name : Value) : Follows P (run name) := by
  unfold run
  grind

end Demonstration

end Demonstrations

section Forms

@[grind ←] theorem Operands.follows_one {vs : List Value} {f : Value → Action Value}
    (h : ∀ a, Follows P (f a)) : Follows P (Operands.one vs f) := by
  unfold Operands.one
  grind

@[grind ←] theorem Operands.follows_two {vs : List Value} {f : Value → Value → Action Value}
    (h : ∀ a b, Follows P (f a b)) : Follows P (Operands.two vs f) := by
  unfold Operands.two
  grind

@[grind ←] theorem Operands.follows_three {vs : List Value}
    {f : Value → Value → Value → Action Value} (h : ∀ a b c, Follows P (f a b c)) :
    Follows P (Operands.three vs f) := by
  unfold Operands.three
  grind

@[grind ←] theorem Operands.follows_four {vs : List Value}
    {f : Value → Value → Value → Value → Action Value} (h : ∀ a b c d, Follows P (f a b c d)) :
    Follows P (Operands.four vs f) := by
  unfold Operands.four
  grind

namespace Primitive

@[grind ←] theorem follows_truth {b : Action Bool} (h : Follows P b) : Follows P (truth b) := by
  unfold truth
  grind

@[grind ←] theorem follows_rangeOf (a b : Value) : Follows P (rangeOf a b) := by
  unfold rangeOf
  grind

@[grind ←] theorem follows_appendTo (items item : Value) : Follows P (appendTo items item) := by
  unfold appendTo
  grind

@[grind ←] theorem follows_isEarlierTask (t s u r : Value) :
    Follows P (isEarlierTask t s u r) := by
  unfold isEarlierTask
  grind

@[grind ←] theorem follows_chainOnto (a b : Value) : Follows P (chainOnto a b) := by
  unfold chainOnto
  grind

@[grind ←] theorem follows_bindOnto (f receiver : Value) : Follows P (bindOnto f receiver) := by
  unfold bindOnto
  grind

@[grind ←] theorem follows_textOf (v : Value) : Follows P (textOf v) := by
  unfold textOf
  grind

@[grind ←] theorem follows_checkInstance (v className : Value) :
    Follows P (checkInstance v className) := by
  unfold checkInstance
  grind

@[grind ←] theorem follows_takeNote (v : Value) : Follows P (takeNote v) := by
  unfold takeNote
  refine follows_bind (Value.follows_reported v) fun v => follows_bind (follows_shown v) fun _ => ?_
  exact follows_bind (follows_update fun _ => ⟨rfl, rfl, rfl⟩) fun _ => follows_pure _

@[grind ←] theorem follows_perform (p : Primitive) (b : Bound Value) :
    Follows P (p.perform b) := by
  cases p
  all_goals
    unfold perform
    grind

end Primitive

@[grind ←] theorem CoreForm.follows_perform (c : CoreForm) (b : Bound Value) :
    Follows P (c.perform b) := by
  cases c
  all_goals
    unfold CoreForm.perform
    grind

@[grind ←] theorem EffectForm.follows_perform (e : EffectForm) (b : Bound Value) :
    Follows P (e.perform b) := by
  cases e
  all_goals
    unfold EffectForm.perform
    grind

@[grind ←] theorem Form.follows_perform (f : Form) (arguments : Arguments Value) :
    Follows P (f.perform arguments) := by
  unfold Form.perform Form.performBound
  grind

end Forms

section Scripts

@[grind ←] theorem Scope.follows_get (x : String) (scope : Scope) : Follows P (Scope.get x scope) := by
  unfold Scope.get
  grind

@[grind ←] theorem follows_assignGlobal (x : String) (v : Value) : Follows P (assignGlobal x v) :=
  follows_update fun _ => ⟨rfl, rfl, rfl⟩

@[grind ←] theorem follows_raiseKind (kind message : Value) : Follows P (raiseKind kind message) := by
  unfold raiseKind
  grind

mutual

@[grind ←] theorem Expr.follows_eval : (e : Expr) → ∀ scope : Scope, Follows P (e.eval scope)
  | .literal l, scope => by
    unfold Expr.eval
    grind
  | .variable x, scope => Scope.follows_get x scope
  | .function name params body, scope => follows_identify _
  | .generator name params body, scope => follows_identify _
  | .bind x value body, scope =>
    follows_bind (value.follows_eval scope) fun v => body.follows_eval (Scope.set x v scope)
  | .branch condition yes no, scope => by
    have hyes := yes.follows_eval scope
    have hno := no.follows_eval scope
    refine follows_bind (condition.follows_eval scope) fun v => ?_
    grind
  | .both first second, scope => by
    have hsecond := second.follows_eval scope
    refine follows_bind (first.follows_eval scope) fun v => ?_
    grind
  | .either first second, scope => by
    have hsecond := second.follows_eval scope
    refine follows_bind (first.follows_eval scope) fun v => ?_
    grind
  | .block es, scope => follows_evalBlock es scope
  | .assign x value, scope =>
    follows_bind (value.follows_eval scope) fun v =>
      follows_bind (follows_assignGlobal x v) fun _ => follows_pure _
  | .dict entries, scope =>
    follows_bind (follows_evalEntries entries scope []) fun es => follows_identify _
  | .raise kind message, scope =>
    follows_bind (kind.follows_eval scope) fun k =>
      follows_bind (message.follows_eval scope) fun m => follows_raiseKind k m
  | .attempt e x recovery, scope => by
    have hrecovery := recovery.follows_eval
    refine follows_bind (follows_attempt (e.follows_eval scope)) fun o => ?_
    cases o with
    | ok v => exact follows_pure v
    | error f => exact follows_bind (follows_identify _) fun v => hrecovery _
  | .form f arguments keywords, scope =>
    follows_bind (follows_evalAll arguments scope) fun vs =>
      follows_bind (follows_evalKeywords keywords scope) fun ks => Form.follows_perform f ⟨vs, ks⟩

theorem follows_evalAll : (es : List Expr) → ∀ scope : Scope, Follows P (evalAll scope es)
  | [], _ => follows_pure []
  | e :: es, scope =>
    follows_bind (e.follows_eval scope) fun _ =>
      follows_bind (follows_evalAll es scope) fun _ => follows_pure _

theorem follows_evalBlock : (es : List Expr) → ∀ scope : Scope, Follows P (evalBlock scope es)
  | [], _ => follows_pure _
  | [e], scope => e.follows_eval scope
  | e :: e' :: es, scope =>
    follows_bind (e.follows_eval scope) fun _ => follows_evalBlock (e' :: es) scope

theorem follows_evalKeywords : (es : List (String × Expr)) → ∀ scope : Scope,
    Follows P (evalKeywords scope es)
  | [], _ => follows_pure []
  | (_, e) :: es, scope =>
    follows_bind (e.follows_eval scope) fun _ =>
      follows_bind (follows_evalKeywords es scope) fun _ => follows_pure _

theorem follows_evalEntries : (es : List (Expr × Expr)) → ∀ (scope : Scope)
    (entries : List (Value × Value)), Follows P (evalEntries scope entries es)
  | [], _, entries => follows_pure entries
  | (k, v) :: es, scope, entries =>
    follows_bind (k.follows_eval scope) fun key =>
      follows_bind (v.follows_eval scope) fun value =>
        follows_bind (Value.follows_addEntry entries key value) fun next =>
          follows_evalEntries es scope next

end

@[grind ←] theorem Params.follows_scope (params : Params) (captured : Scope)
    (call : Arguments Value) : Follows P (params.scope captured call) := by
  unfold Params.scope
  grind

theorem follows_closureBody (params : Params) (body : Expr) (captured : Scope)
    (call : Arguments Value) : Follows P (closureBody params body captured call) := by
  unfold closureBody
  grind

theorem follows_generatorFunctionBody (name : String) (params : Params) (body : List Stmt)
    (captured : Scope) (call : Arguments Value) :
    Follows P (generatorFunctionBody name params body captured call) := by
  unfold generatorFunctionBody
  grind

namespace Generator

@[grind ←] theorem follows_go (address : Nat) (scope : Scope) (frames : List Frame) :
    Follows P (go address scope frames) := follows_ask _ _

@[grind ←] theorem follows_raiseIn (address : Nat) (scope : Scope) (frames : List Frame)
    (f : Failure) : Follows P (raiseIn address scope frames f) := by
  unfold raiseIn
  grind

@[grind ←] theorem follows_evaluate {address : Nat} {scope : Scope} {frames : List Frame} {e : Expr}
    {next : Value → Action Value} (h : ∀ v, Follows P (next v)) :
    Follows P (evaluate address scope frames e next) := by
  unfold evaluate
  grind

@[grind ←] theorem follows_loopOver (address : Nat) (scope : Scope) (frames : List Frame)
    (x : String) (body : List Stmt) (v : Value) :
    Follows P (loopOver address scope frames x body v) := by
  unfold loopOver
  grind

@[grind ←] theorem follows_next (address : Nat) (scope : Scope) (frames : List Frame) (x : String)
    (tag position : Nat) (items : List Value) (body : List Stmt) :
    Follows P (next address scope frames x tag position items body) := by
  unfold next
  grind

@[grind ←] theorem follows_draw (address : Nat) (scope : Scope) (frames : List Frame) (x : String)
    (source : Nat) (body : List Stmt) :
    Follows P (draw address scope frames x source body) := by
  unfold draw
  grind

@[grind ←] theorem follows_execute (address : Nat) (scope : Scope) (frames : List Frame)
    (s : Stmt) : Follows P (execute address scope frames s) := by
  cases s with
  | finish e => exact follows_evaluate fun v => follows_fail _
  | _ =>
    unfold execute
    grind

theorem follows_proceedingBody (address : Nat) (scope : Scope) (frames : List Frame) :
    Follows P (proceedingBody address scope frames) := by
  unfold proceedingBody finishWith
  grind

end Generator

end Scripts

section Bodies

@[grind ←] theorem Function.follows_boundToBody (f receiver : Value) (call : Arguments Value) :
    Follows P (Function.boundToBody f receiver call) := follows_invoke _ _

@[grind ←] theorem Function.follows_binderBody (f : Value) (call : Arguments Value) :
    Follows P (Function.binderBody f call) := by
  unfold Function.binderBody
  grind

/-- The bodies that are not treated above take their arguments and go on with a few actions. -/
theorem Function.follows_apply (f : Function) (call : Arguments Value) :
    Follows P (f.apply call) := by
  cases f with
  | closure _ params body scope => exact follows_closureBody params body scope call
  | generatorBody name params body scope =>
    exact follows_generatorFunctionBody name params body scope call
  | proceeding address scope frames => exact Generator.follows_proceedingBody address scope frames
  | growing list address => exact Generator.follows_growingBody list address
  | drawing address collected => exact Generator.follows_drawingBody address collected
  | traversing address f collected => exact Program.follows_traversingBody address f collected
  | exploringDrawn address name resume depth collected =>
    exact Program.follows_exploringDrawnBody address name resume depth collected
  | feeding source name address current factory arguments keywords =>
    exact Replay.follows_feedingBody source name address current factory arguments keywords
  | remembering memo implementation params continuation =>
    exact Replay.follows_rememberingBody memo implementation params continuation call
  | rememberedResume memo recording continuation =>
    exact Replay.follows_rememberedResumeBody memo recording continuation call
  | handling address => exact Handler.follows_handlingBody address call
  | standardOutput => exact Output.follows_standardOutputBody call
  | turning address => exact Host.follows_turningBody address
  | _ =>
    unfold Function.apply
    dsimp only [Program.leafBody, Program.graftedBody, Program.mappedBody, Program.constantBody,
      Program.collectingBody, Program.lastOfBody, Program.asTupleBody, Program.applyingBody,
      Program.spreadingBody, Program.tracingBody, Program.exploringBody, Replay.replayingBody,
      Arrow.programFactoryBody, Arrow.fmappedBody, Arrow.chainedBody, Handler.underBody,
      Handler.stackBody, Output.emitToBody, Output.reemitBody, Output.reemittedBody,
      Output.gatherBody, Output.gatheredBody, Output.pairedBody, Log.logAtBody,
      Environment.readAllBody, Environment.askForBody, Chance.drawBody, Choice.chosenBody,
      Choice.chosenInBody, Choice.tryBothBody, Choice.fallBackBody, Choice.extremumBody,
      Choice.extremumSecondBody, Choice.extremumOfBody, Choice.enumerateBody,
      Choice.enumerateSecondBody, Choice.appendedBody, Choice.noSolutionsBody,
      Choice.singletonBody, Choice.failToNothingBody, State.modifyingBody, State.getStateBody,
      State.getAtBody, State.putStateBody, State.putAtBody, State.finishStateBody,
      State.finishAtBody, Suspension.waitStartBody, Suspension.exitStartBody,
      Suspension.forkStartBody, Suspension.allocateCellsBody, Suspension.parStartBody,
      Suspension.parForkedBody, Suspension.parSettleBody, Suspension.suspendOnBody,
      Suspension.nowOfBody, Suspension.resumeCheckedBody, Run.recordInBody]
    grind

/-- Whatever is called, its body follows the discipline. -/
theorem Value.follows_apply (f : Value) (call : Arguments Value) : Follows P (f.apply call) := by
  cases f with
  | function tag f => exact f.follows_apply call
  | arrow tag a => exact a.follows_apply call
  | handler tag table atLeaf => exact follows_takeOne fun p => Handler.follows_evaluate table atLeaf p
  | _ => exact follows_fault _

end Bodies

end AlgebraicEffects
