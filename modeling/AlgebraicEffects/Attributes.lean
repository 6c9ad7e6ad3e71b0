import AlgebraicEffects.Effects.Suspension
import AlgebraicEffects.Program.Arrow

/-!
Attributes: the parts of values that can be asked for by name.

An attribute is a field of the value or one of the functions that belong to its kind, bound to the
value. A callable that is bound to its first argument has the attributes of the callable.
-/

set_option autoImplicit false

namespace AlgebraicEffects

/-- The functions that make a program from anything. -/
def Method.makers : List Method :=
  [.leaf, .leafOf, .lift, .collectAll, .traverse, .listOf, .tupleOf]

/-- The functions of every program. -/
def Method.ofPrograms : List Method := [.map, .flatMap, .andThen, .shiftInto]

namespace Value

/-- The functions that belong to the kind of a value and are given the value. -/
def methods : Value → List Method
  | .leaf _ _ => Method.ofPrograms
  | .operation _ _ _ _ => .continueWith :: Method.ofPrograms
  | .arrow _ (.partially _ _ _) => [.furtherPartially, .chain, .shiftArrow, .fmap, .boundTo]
  | .arrow _ _ => [.partially, .chain, .shiftArrow, .fmap, .boundTo]
  | .handler _ _ _ => [.handles, .extend, .evaluate]
  | .ok _ _ | .err _ _ => [.isOk, .isErr, .unwrap]
  | .outcome _ _ _ => [.unwrapOutcome]
  | .agenda _ => [.callLater, .callSoon, .time, .step, .drain, .isEmpty, .peekTime]
  | .loopHost _ => [.callLaterOnLoop, .callSoonOnLoop, .timeOfLoop]
  | .list _ _ => [.extendList]
  | .dict _ _ => [.values]
  | .frozen _ _ => [.values, .keyAt, .valueAt]
  | _ => []

/-- The function of this name among the given ones. -/
def methodNamed? (methods : List Method) (name : String) : Option Value :=
  (methods.find? (·.name = name)).map fun m => .arrowOf (.method m)

/-- A callable with its first argument given; nothing as the first argument gives the callable back.
-/
def bindTo (f receiver : Value) : Value :=
  match receiver with
  | .nothing => f
  | r => .arrowOf (.boundTo f r)

def textOr (name : String) : Option String → Action Value
  | some shown => return .text shown
  | none => Action.lacking name

/-- One of the names that a value shows. -/
def nameNamed (v : Value) (name : String) : Action Value :=
  match name with
  | "__name__" => textOr name v.naming.name
  | "__qualname__" => textOr name v.naming.qualified
  | name => Action.lacking name

/-- The tuple of what a failure was made with. -/
def argumentsOf (f : Failure) : Value :=
  match f.cause with
  | .raised _ v => .tuple 0 [v]
  | f => .tuple 0 [.text f.text]

def fieldOfFailure (f : Failure) (name : String) : Action Value :=
  match f.cause, name with
  | .unhandledEffect _ n _, "name" => return n
  | .unhandledEffect _ _ ps, "params" => return ps
  | .replayDivergence _ n _ _, "function_name" => return n
  | .replayDivergence _ _ e _, "expected" => return e
  | .replayDivergence _ _ _ c, "consumed" => return c
  | .stepLimit _ n, "max_steps" => return n
  | .missingKey _ k, "key" => return k
  | .noAttribute n, "name" => return .text n
  | .exhausted v, "value" => return v
  | .raised .exhausted v, "value" => return v
  | f, "args" => if f.hasMessage then return argumentsOf f else Action.lacking name
  | _, _ => Action.lacking name

def fieldOfArrow (tag : Nat) (a : Arrow) (name : String) : Action Value :=
  match name, a with
  | "original_func", .generated _ source => return source
  | "original_generator", .generated _ source => return source
  | "func", a =>
    match a.callable? with
    | some f => return f
    | none => Action.lacking name
  | name, a => (Value.arrow tag a).nameNamed name

def fieldOfAgenda (address : Nat) (name : String) : Action Value := do
  let a ← Host.agendaAt address
  match name with
  | "pending" => return .int a.queue.size
  | "steps" => return .int a.steps
  | "sequence_counter" => return .int a.sequenceCounter
  | "current_time" => return a.currentTime
  | "start_time" => return a.startTime
  | "max_steps" => return a.maxSteps
  | name => Action.lacking name

/-- A loop shows the failure that it keeps, if any, and its count. -/
def fieldOfLoop (address : Nat) (name : String) : Action Value := do
  let l ← Host.loopAt address
  match name with
  | "error" => return l.failure.elim .nothing .failure
  | "_outstanding" => return .int l.counted
  | name => Action.lacking name

/-- The field of a value that has this name. -/
def fieldNamed (v : Value) (name : String) : Action Value :=
  match v, name with
  | .leaf _ x, "value" => return x
  | .operation _ n _ _, "name" => return .text n
  | .operation tag _ ps _, "params" => return .tuple (if tag = 0 then 0 else tag + 1) ps
  | .operation _ _ _ r, "resume" => return r
  | .arrow tag a, name => fieldOfArrow tag a name
  | .handler _ table _, "names" => return .names 0 (table.map (·.1))
  | .handler _ table _, "table" => return .frozen 0 (table.map fun (n, i) => (.text n, i))
  | .handler _ _ atLeaf, "return_" => return atLeaf.getD .nothing
  | .ok _ x, "value" => return x
  | .err _ e, "error" => return e
  | .outcome _ (.err _ e) _, "error" => return e
  | .outcome _ _ _, "error" => .fail .noErrorOnSuccess
  | .outcome _ _ values, "values" => return values
  | .outcome _ result _, "result" => return result
  | .failure f, name => fieldOfFailure f name
  | .generator a n, name => (Value.generator a n).nameNamed name
  | .agenda a, name => fieldOfAgenda a name
  | .loopHost a, name => fieldOfLoop a name
  | _, name => Action.lacking name

/-- The function of this name that belongs to the kind of a value, bound to it, or else the field of
this name. -/
def ownAttribute (v : Value) (name : String) : Action Value :=
  match methodNamed? v.methods name, methodNamed? Method.makers name with
  | some m, _ => return m.bindTo v
  | none, some m => if v.isProgram then return m else v.fieldNamed name
  | none, none => v.fieldNamed name

end Value

/-- The attribute of a function that is not bound: its names, the way to bind it, for a stack its
handlers, and for the kind of leaves the functions that belong to it. -/
def Function.ownAttribute (tag : Nat) (f : Function) (name : String) : Action Value :=
  match f, name with
  | .stack handlers, "handlers" => return .tuple 0 handlers
  | .leaf, name =>
    match Value.methodNamed? (Method.makers ++ Method.ofPrograms) name with
    | some m => return m
    | none => (Value.function tag .leaf).nameNamed name
  | f, "__get__" =>
    if f.typeName = "function" then return .arrowOf (.binder (.function tag f))
    else Action.lacking name
  | f, name => (Value.function tag f).nameNamed name

mutual

/-- The part of a value that has this name. The success of an outcome and its value are asked of its
result. -/
def Value.attributeNamed (v : Value) (name : String) : Action Value :=
  match v, name with
  | .function tag f, name => f.attributeNamed tag name
  | .outcome _ r _, "is_ok" => do Action.ask (← r.attributeNamed "is_ok") []
  | .outcome _ r _, "is_err" => do Action.ask (← r.attributeNamed "is_err") []
  | .outcome _ r _, "value" => do Action.ask (← r.attributeNamed "unwrap") []
  | v, name => v.ownAttribute name

def Function.attributeNamed (tag : Nat) (f : Function) (name : String) : Action Value :=
  match f, name with
  | .boundTo _ receiver, "__self__" => return receiver
  | .boundTo g receiver, name =>
    if (Function.boundTo g receiver).isBuiltIn then g.nameNamed name
    else if name = "__func__" then return g
    else g.attributeNamed name
  | f, name => f.ownAttribute tag name

end

end AlgebraicEffects
