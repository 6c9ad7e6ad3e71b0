import AlgebraicEffects.Attributes
import AlgebraicEffects.Program.Collect

/-!
The functions that belong to kinds of values: what each accepts and what it does.

The first argument is the value that the function is meant for, but nothing forces it to be one. So
each function asks its first argument for the attributes that it needs, in the order in which it
needs them, and a value that lacks one of them is a failure at that point.
-/

set_option autoImplicit false

namespace AlgebraicEffects

/-- Calls the attribute of a value that has this name. -/
def Value.askNamed (v : Value) (name : String) (arguments : List Value) : Action Value := do
  Action.ask (← v.attributeNamed name) arguments

/-- Goes on after a program or an arrow. -/
def Value.andThen (v binder : Value) : Action Value :=
  if v.isProgram then Program.graft v binder else v.askNamed "and_then_k" [binder]

/-- Maps over what a program carries. -/
def Value.mapOver (v mapper : Value) : Action Value :=
  if v.isProgram then Program.map v mapper else v.askNamed "map" [mapper]

def Arrow.chainedBody (base binder : Value) (call : Arguments Value) : Action Value := do
  (← Action.invoke base call).andThen binder

def Arrow.fmappedBody (base mapper : Value) (call : Arguments Value) : Action Value := do
  (← Action.invoke base call).mapOver mapper

/-- Raises what a value keeps as its error. -/
def Value.raiseError (v : Value) : Action Value := do
  match ← v.attributeNamed "error" with
  | .failure f => .fail f
  | _ => .fault .badType

/-- The value of a success; the error of anything else is raised. -/
def Value.unwrapped : Value → Action Value
  | .ok _ v => return v
  | v => v.raiseError

/-- The agenda behind a value that is used as one. -/
def Value.asAgenda (needed : String) : Value → Action Nat
  | .agenda a => return a
  | _ => Action.lacking needed

/-- The event loop behind a value that is used as one. -/
def Value.asLoop (needed : String) : Value → Action Nat
  | .loopHost l => return l
  | _ => Action.lacking needed

/-- The table and the leaf transform of a value that is used as a handler. -/
def Value.asHandler (needed : String) : Value → Action (Handler.Table × Option Value)
  | .handler _ table atLeaf => return (table, atLeaf)
  | _ => Action.lacking needed

/-- The items of a frozen dictionary by position, counted from the end when it is negative. -/
def Value.entryPlaced (v index : Value) : Action (Value × Value) :=
  match v with
  | .frozen _ es => Value.positioned es index
  | _ => .fault .badType

/-- The values of a dictionary. -/
def Value.valuesOf : Value → Action Value
  | .dict tag es => do return .view 0 ((← Action.entriesNow tag es).map (·.2))
  | .frozen _ es => return .view 0 (es.map (·.2))
  | _ => .fault .badType

/-- Adds the items of a value to a list, which changes. Those of a generator are added one by
one. -/
def Value.extendWith (v more : Value) : Action Value :=
  match v, more with
  | .list _ _, .generator address _ => Action.ask (.arrowOf (.growing v address)) []
  | .list tag items, more => do
    let added ← more.items
    let now ← Action.itemsNow tag items
    Action.update fun s => s.writeList tag (now ++ added)
    return .nothing
  | _, _ => .fault .badType

/-- A callable bound to its first argument. -/
def Value.boundMethod (f receiver : Value) : Action Value :=
  match receiver with
  | .nothing => return f
  | r => if f.isCallable then return f.bindTo r else .fault .badType

namespace Method

/-- A required first argument that no keyword reaches. -/
private def unnamedReceiver : Signature Value :=
  { Signature.required [] with unnamed := [⟨"self", none⟩] }

/-- What a function accepts. -/
def signature : Method → Signature Value
  | .leaf | .leafOf | .lift => .required ["value"]
  | .collectAll => .required ["programs"]
  | .traverse => .required ["items", "func"]
  | .listOf | .tupleOf => (Signature.required []).withRest
  | .map | .flatMap => .required ["self", "f"]
  | .andThen | .chain | .shiftInto | .shiftArrow => .required ["self", "binder"]
  | .continueWith => .optional ["self"] [("answer", .nothing)]
  | .fmap => .required ["self", "mapper"]
  | .partially | .furtherPartially =>
    { unnamedReceiver with acceptsRest := true, acceptsExtra := true }
  | .boundTo => .optional ["self", "instance"] [("owner", .nothing)]
  | .handles => .required ["self", "name"]
  | .extend => { Signature.required ["self"] with acceptsExtra := true }
  | .evaluate => .required ["self", "program"]
  | .callLater | .callLaterOnLoop => (Signature.required ["self", "delay", "callback"]).withRest
  | .callSoon | .callSoonOnLoop => (Signature.required ["self", "callback"]).withRest
  | .isOk | .isErr | .unwrap | .unwrapOutcome | .time | .timeOfLoop | .step | .drain | .isEmpty
  | .peekTime => .required ["self"]
  | .values => unnamedReceiver
  | .extendList => { unnamedReceiver with unnamed := [⟨"self", none⟩, ⟨"iterable", none⟩] }
  | .keyAt | .valueAt => .optional ["self"] [("index", .int 0)]

/-- Calls a function with its arguments sorted by its signature. -/
def perform (m : Method) (b : Bound Value) : Action Value :=
  match m, b.values with
  | .leaf, [v] | .leafOf, [v] => return .leaf 0 v
  | .lift, [v] => return Program.lift v
  | .collectAll, [ps] => do Program.collectAll (← ps.items)
  | .traverse, [items, f] => Program.traverse items f
  | .listOf, [] => Program.collectAll b.rest
  | .tupleOf, [] => Program.tupleAll b.rest
  | .map, [p, f] => Program.map p f
  | .flatMap, [p, f] => Program.graft p f
  | .andThen, [p, f] | .shiftInto, [p, f] =>
    if p.isProgram then Program.graft p f else p.askNamed "flat_map" [f]
  | .continueWith, [p, answer] => Program.lift <$> p.askNamed "resume" [answer]
  | .partially, [base] => return Arrow.partialApply base b.rest b.extra
  | .furtherPartially, [a] => Arrow.furtherApply a b.rest b.extra
  | .chain, [a, binder] => Arrow.chain a binder
  | .shiftArrow, [a, binder] =>
    match a with
    | .arrow _ _ => Arrow.chain a binder
    | a => a.askNamed "and_then_k" [binder]
  | .fmap, [a, mapper] => Arrow.fmap a mapper
  | .boundTo, [f, receiver, _] => f.boundMethod receiver
  | .handles, [h, name] => do
    let (table, _) ← h.asHandler "table"
    if name.isKey then
      match name with
      | .text n => return .bool (table.any (·.1 == n))
      | _ => return .bool false
    else .fault .badType
  | .extend, [h] => do
    let (table, atLeaf) ← h.asHandler "table"
    Handler.extend table atLeaf b.extra
  | .evaluate, [h, p] => do
    let (table, atLeaf) ← h.asHandler (match Program.lift p with
      | .operation _ _ _ _ => "table"
      | _ => "return_")
    Handler.evaluate table atLeaf p
  | .isOk, [r] => return .bool (match r with | .ok _ _ => true | _ => false)
  | .isErr, [r] => return .bool (match r with | .err _ _ => true | _ => false)
  | .unwrap, [r] => r.unwrapped
  | .unwrapOutcome, [o] => do (← o.attributeNamed "result").askNamed "unwrap" []
  | .callLater, [host, delay, callback] => do
    Host.checkDelay delay
    Host.callLaterOnAgenda (← host.asAgenda "current_time") delay callback b.rest
  | .callSoon, [host, callback] => host.askNamed "call_later" (.float 0 0 :: callback :: b.rest)
  | .time, [host] => host.attributeNamed "current_time"
  | .step, [host] => do return .bool (← Host.step (← host.asAgenda "queue"))
  | .drain, [host] => do Host.drain (← host.asAgenda "step")
  | .isEmpty, [host] => do
    return .bool (← Host.agendaAt (← host.asAgenda "queue")).queue.isEmpty
  | .peekTime, [host] => do return (← Host.agendaAt (← host.asAgenda "queue")).peekTime
  | .callLaterOnLoop, [host, delay, callback] => do
    Host.checkDelay delay
    Host.callLaterOnLoop (← host.asLoop "_outstanding") delay callback b.rest
  | .callSoonOnLoop, [host, callback] => do
    Host.callSoonOnLoop (← host.asLoop "_outstanding") callback b.rest
  | .timeOfLoop, [host] => do Host.time (.loopHost (← host.asLoop "_loop"))
  | .values, [d] => d.valuesOf
  | .extendList, [l, more] => l.extendWith more
  | .keyAt, [d, index] => do return (← d.entryPlaced index).1
  | .valueAt, [d, index] => do return (← d.entryPlaced index).2
  | _, _ => .fault .badType

/-- Calls a function that belongs to a kind of value. -/
def apply (m : Method) (call : Arguments Value) : Action Value := do
  m.perform (← Action.accept m.signature call)

end Method

/-- Calls a callable that is bound to its first argument. -/
def Function.boundToBody (f receiver : Value) (call : Arguments Value) : Action Value :=
  Action.invoke f { call with positional := receiver :: call.positional }

/-- Gives the first argument of a function. The kind of the argument may be named beside it; without
one, nothing is no argument. -/
def Function.binderBody (f : Value) (call : Arguments Value) : Action Value :=
  match call.positional, call.keywords with
  | [.nothing], [] | [.nothing, .nothing], [] => .fault .badType
  | [receiver], [] | [receiver, _], [] => return f.bindTo receiver
  | _, _ => .fault .badType

end AlgebraicEffects
