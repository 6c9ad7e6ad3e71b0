import AlgebraicEffects.Replay.Generator

/-!
Generators inside reported values.

The values of an outcome are read item by item when it is reported. If they come from a generator,
it is run to its end then, and every item is reported as soon as it is there. So what is about to be
reported is first gone through from left to right: generators are replaced by the lists of their
items, and a part that cannot be reported ends the report.
-/

set_option autoImplicit false

namespace AlgebraicEffects

/-- Whether a value is a generator. -/
def Value.isGenerator : Value → Bool
  | .generator _ _ => true
  | _ => false

mutual

/-- Whether reporting the value runs a generator. -/
def Value.isPending : Value → Bool
  | .list _ items | .tuple _ items | .operation _ _ items _ => anyPending items
  | .dict _ entries | .frozen _ entries => anyEntryPending entries
  | .leaf _ v | .ok _ v | .err _ v => v.isPending
  | .outcome _ r vs => r.isPending || vs.isGenerator || vs.isPending
  | _ => false

def anyPending : List Value → Bool
  | [] => false
  | v :: vs => v.isPending || anyPending vs

def anyEntryPending : List (Value × Value) → Bool
  | [] => false
  | (k, v) :: es => k.isPending || v.isPending || anyEntryPending es

end

/-- Ends a report at the first part of a value that cannot be reported. -/
def Value.checked (v : Value) : Action Value := do
  match (← Action.shown v).fault? with
  | some .noAttribute => Action.lacking "__name__"
  | some kind => .fault kind
  | none => return v

mutual

/-- The value with the lists of their items in the place of generators. -/
def Value.drawn : Value → Action Value
  | .list tag items => do return .list tag (← drawnItems items)
  | .tuple tag items => do return .tuple tag (← drawnItems items)
  | .operation tag name params resume => do
    return .operation tag name (← drawnItems params) resume
  | .dict tag entries => do return .dict tag (← drawnEntries entries)
  | .frozen tag entries => do return .frozen tag (← drawnEntries entries)
  | .leaf tag v => do return .leaf tag (← v.drawn)
  | .ok tag v => do return .ok tag (← v.drawn)
  | .err tag v => do return .err tag (← v.drawn)
  | .outcome tag r vs => do
    let r ← r.drawn
    match vs with
    | .generator address _ =>
      return .outcome tag r (← Action.ask (.arrowOf (.drawing address [])) [])
    | vs => do (Value.outcome tag r (← vs.drawn)).checked
  | v => v.checked

def drawnItems : List Value → Action (List Value)
  | [] => return []
  | v :: vs => do return (← v.drawn) :: (← drawnItems vs)

def drawnEntries : List (Value × Value) → Action (List (Value × Value))
  | [] => return []
  | (k, v) :: es => do return (← k.drawn, ← v.drawn) :: (← drawnEntries es)

end

/-- Runs a generator to its end and lists what it yields, each item as it is reported. -/
def Generator.drawingBody (address : Nat) (collected : List Value) : Action Value := do
  match ← Generator.progress address .nothing with
  | .yielded v => Action.ask (.arrowOf (.drawing address (collected ++ [← v.drawn]))) []
  | .returned _ => return .list 0 collected

/-- The value as it is reported, or the fault of a part that cannot be reported. -/
def Value.reported (v : Value) : Action Value := do
  let v ← if v.isPending then v.drawn else pure v
  v.checked

end AlgebraicEffects
