import AlgebraicEffects.Script.Meaning

/-!
Evaluation of scripts.

Expressions are evaluated from left to right in a scope of local variables over the global ones. A
function captures the scope in which it is made.
-/

set_option autoImplicit false

namespace AlgebraicEffects

/-- The value of a variable: the local one if there is one. -/
def Scope.get (x : String) (scope : Scope) : Action Value :=
  match scope.lookup x with
  | some v => return v
  | none => .read fun s =>
    match s.globals.lookup x with
    | some v => .done v
    | none => .fault .noKey

/-- Whether a literal can be read: an integer can be too long. -/
def Literal.isReadable : Literal → Bool
  | .int n => !isTooLong n
  | _ => true

/-- Binds a global variable. -/
def assignGlobal (x : String) (v : Value) : Action Unit :=
  Action.update fun s => { s with globals := Scope.set x v s.globals }

/-- Raises the failure of this kind with this text. -/
def raiseKind (kind message : Value) : Action Value :=
  match kind with
  | .text name =>
    match Kind.ofName? name with
    | some k => .fail (.raised k message)
    | none => .fault .noKey
  | _ => .fault .badType

mutual

def Expr.eval (scope : Scope) : Expr → Action Value
  | .literal l =>
    if l.isReadable then Action.identify (.ofLiteral l) else .fault .badValue
  | .variable x => scope.get x
  | .function name params body => Action.identify (.arrowOf (.closure name params body scope))
  | .generator name params body =>
    Action.identify (.arrowOf (.generatorBody name params body scope))
  | .bind x value body => do
    let v ← value.eval scope
    body.eval (Scope.set x v scope)
  | .branch condition yes no => do
    if ← Action.truth (← condition.eval scope) then yes.eval scope else no.eval scope
  | .both first second => do
    let v ← first.eval scope
    if ← Action.truth v then second.eval scope else return v
  | .either first second => do
    let v ← first.eval scope
    if ← Action.truth v then return v else second.eval scope
  | .block es => evalBlock scope es
  | .assign x value => do
    assignGlobal x (← value.eval scope)
    return .nothing
  | .dict entries => do Action.identify (.dict 0 (← evalEntries scope [] entries))
  | .raise kind message => do raiseKind (← kind.eval scope) (← message.eval scope)
  | .attempt e x recovery => do
    match ← (e.eval scope).attempt with
    | .ok v => return v
    | .error f => do recovery.eval (Scope.set x (← Action.identify (.failure f)) scope)
  | .form f arguments keywords => do
    let values ← evalAll scope arguments
    f.perform ⟨values, ← evalKeywords scope keywords⟩

def evalAll (scope : Scope) : List Expr → Action (List Value)
  | [] => return []
  | e :: es => do return (← e.eval scope) :: (← evalAll scope es)

/-- The value of the last expression, or nothing. -/
def evalBlock (scope : Scope) : List Expr → Action Value
  | [] => return .nothing
  | [e] => e.eval scope
  | e :: es => do
    let _ ← e.eval scope
    evalBlock scope es

def evalKeywords (scope : Scope) : List (String × Expr) → Action (List (String × Value))
  | [] => return []
  | (name, e) :: es => do return (name, ← e.eval scope) :: (← evalKeywords scope es)

def evalEntries (scope : Scope) (entries : List (Value × Value)) :
    List (Expr × Expr) → Action (List (Value × Value))
  | [] => return entries
  | (k, v) :: es => do
    let key ← k.eval scope
    evalEntries scope (← Value.addEntry entries key (← v.eval scope)) es

end

/-- What a scripted function accepts. -/
def Params.signature (params : Params) : Signature Value :=
  { Signature.required params.names with acceptsRest := params.rest.isSome }

/-- The scope of a call: the captured one with the parameters bound. -/
def Params.scope (params : Params) (captured : Scope) (call : Arguments Value) : Action Scope := do
  let call ← Action.identifyAll call
  let b ← Action.accept params.signature call
  let filled := (params.names.zip b.values).foldl (fun s (x, v) => Scope.set x v s) captured
  match params.rest with
  | some x => return Scope.set x (← Action.identify (.tuple 0 b.rest)) filled
  | none => return filled

/-- Calls a scripted function. -/
def closureBody (params : Params) (body : Expr) (captured : Scope) (call : Arguments Value) :
    Action Value := do body.eval (← params.scope captured call)

/-- Calls a scripted generator function: the body starts when the generator is first advanced. -/
def generatorFunctionBody (name : String) (params : Params) (body : List Stmt) (captured : Scope)
    (call : Arguments Value) : Action Value := do
  let scope ← params.scope captured call
  return .generator (← Generator.allocate (.fresh scope body)) name

end AlgebraicEffects
