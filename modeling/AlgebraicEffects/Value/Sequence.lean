import AlgebraicEffects.Value.Arithmetic

/-!
Values as sequences: their items, their length, and access by position or key.

Lists and dictionaries are read as they are now. Keys are compared as the same object first, and by
equality otherwise.
-/

set_option autoImplicit false

namespace AlgebraicEffects.Value

/-- The items of a value in order: of a dictionary the keys, of a text the characters. A generator
is run to its end. -/
def items (v : Value) : Action (List Value) :=
  match v with
  | .list tag vs => Action.itemsNow tag vs
  | .tuple _ vs | .view _ vs => .done vs
  | .text s => .done (s.toList.map fun c => .text (String.singleton c))
  | .bytes bs => .done (bs.map fun b => .int b.toNat)
  | .names _ ns => .done (ns.map .text)
  | .dict tag es => do return (← Action.entriesNow tag es).map (·.1)
  | .frozen _ es => .done (es.map (·.1))
  | .generator a _ => do
    match ← Action.ask (.arrowOf (.exhausting a [])) [] with
    | .list _ vs => return vs
    | _ => .fault .badType
  | _ => .fault .badType

/-- The tag of what can be written into; nothing else has one that its items can be looked up by. -/
def containerTag : Value → Nat
  | .list tag _ | .dict tag _ => tag
  | _ => 0

/-- What reads each item of a value when its turn comes: a list may be written into meanwhile. -/
def turns (v : Value) : Action (List (Action Value)) := do
  return (← v.items).mapIdx (Action.itemNow v.containerTag)

def length (v : Value) : Action Nat :=
  match v with
  | .list tag vs => do return (← Action.itemsNow tag vs).length
  | .tuple _ vs | .view _ vs => .done vs.length
  | .text s => .done s.length
  | .bytes bs => .done bs.length
  | .names _ ns => .done ns.length
  | .dict tag es => do return (← Action.entriesNow tag es).length
  | .frozen _ es => .done es.length
  | _ => .fault .badType

/-- The item at a position, counted from the end when it is negative. -/
def itemAt {α : Type} (items : List α) (position : Int) : Action α :=
  let index := if position < 0 then position + items.length else position
  if index < 0 then .fault .noIndex
  else
    match items[index.toNat]? with
    | some item => .done item
    | none => .fault .noIndex

/-- The item of a sequence at a position. -/
def positioned {α : Type} (items : List α) (key : Value) : Action α :=
  match key.count? with
  | some n => itemAt items n
  | none => .fault .badType

/-- The value under a key, in a store. -/
def lookupIn (s : Store) (key : Value) (entries : List (Value × Value)) : Option Value :=
  let shown := s.show key
  (entries.find? fun (k, _) => (s.show k).alike shown).map (·.2)

/-- The value under a key, if there is one; it has to be one that can be a key. -/
def find (entries : List (Value × Value)) (key : Value) : Action (Option Value) :=
  if key.isKey then Action.inspect fun s => key.lookupIn s entries else .fault .badType

/-- The value under a key. -/
def entryAt (entries : List (Value × Value)) (key : Value) : Action Value := do
  match ← find entries key with
  | some v => return v
  | none => .fault .noKey

def index (container key : Value) : Action Value :=
  match container with
  | .list tag vs => do positioned (← Action.itemsNow tag vs) key
  | .tuple _ vs => positioned vs key
  | .text s => do return .text (String.singleton (← positioned s.toList key))
  | .bytes bs => do return .int (← positioned bs key).toNat
  | .dict tag es => do entryAt (← Action.entriesNow tag es) key
  | .frozen _ es => entryAt es key
  | _ => .fault .badType

/-- Adds an entry at the end; a key that is there keeps its place and its spelling and takes the new
value. -/
def insertIn (s : Store) (key value : Value) (entries : List (Value × Value)) :
    List (Value × Value) :=
  let shown := s.show key
  if entries.any fun (k, _) => (s.show k).alike shown then
    entries.map fun (k, v) => if (s.show k).alike shown then (k, value) else (k, v)
  else entries ++ [(key, value)]

/-- Adds an entry whose key has to be one. -/
def addEntry (entries : List (Value × Value)) (key value : Value) :
    Action (List (Value × Value)) :=
  if key.isKey then Action.inspect fun s => insertIn s key value entries else .fault .badType

/-- Adds the entry that a sequence of two items stands for. -/
def addPair (entries : List (Value × Value)) (v : Value) : Action (List (Value × Value)) := do
  match ← v.items with
  | [key, value] => addEntry entries key value
  | _ => .fault .badValue

/-- The entries of a dictionary, or of a sequence of pairs. A generator is asked for each pair when
the one before has been added. -/
def entries (v : Value) : Action (List (Value × Value)) :=
  match v with
  | .dict tag es => Action.entriesNow tag es
  | .frozen _ es => .done es
  | .generator a _ => do
    match ← Action.ask (.arrowOf (.pairing a [])) [] with
    | .dict _ es => return es
    | _ => .fault .badType
  | v => do (← v.items).foldlM addPair []

/-- The entries of a value that may be left out: what counts as false has none. -/
def entriesIfAny (v : Value) : Action (List (Value × Value)) := do
  if ← Action.truth v then v.entries else return []

/-- The entry under a text; no other key is equal to it. -/
def underText (name : String) : List (Value × Value) → Option Value
  | [] => none
  | (.text n, v) :: es => if n = name then some v else underText name es
  | _ :: es => underText name es

/-- The entries without the one under a text. -/
def withoutText (name : String) : List (Value × Value) → List (Value × Value)
  | [] => []
  | (.text n, v) :: es =>
    if n = name then withoutText name es else (.text n, v) :: withoutText name es
  | e :: es => e :: withoutText name es

/-- Puts a value under a text; an entry that is there keeps its place. -/
def putUnderText (name : String) (value : Value) : List (Value × Value) → List (Value × Value)
  | [] => [(.text name, value)]
  | (.text n, v) :: es =>
    if n = name then (.text n, value) :: es else (.text n, v) :: putUnderText name value es
  | e :: es => e :: putUnderText name value es

end AlgebraicEffects.Value
