import AlgebraicEffects.Value.Nature

/-!
Snapshots: what values show at one moment.

A snapshot is plain data. Everything that can change later (agendas, lists and dictionaries that are
written into) is resolved in it, and what functions have captured is left out. Text, equality and
order are rules on snapshots. Objects that can be told apart keep their tags or addresses.
-/

set_option autoImplicit false

namespace AlgebraicEffects

inductive Snapshot where
  | nothing
  | bool (b : Bool)
  | int (n : Int)
  | float (tag : Nat) (x : Float)
  | text (s : String)
  | bytes (bs : List UInt8)
  | list (tag : Nat) (items : List Snapshot)
  | tuple (tag : Nat) (items : List Snapshot)
  | names (tag : Nat) (members : List String)
  | dict (tag : Nat) (entries : List (Snapshot × Snapshot))
  | frozen (tag : Nat) (entries : List (Snapshot × Snapshot))
  | view (tag : Nat) (items : List Snapshot)
  | leaf (tag : Nat) (value : Snapshot)
  | operation (tag : Nat) (name : String) (params : List Snapshot)
  | function (tag : Nat) (text : String)
  /-- A callable with its first argument and the name under which it shows itself. -/
  | boundTo (tag : Nat) (name : String) (f receiver : Snapshot)
  | binder (tag : Nat) (f : Snapshot)
  | stack (tag : Nat) (handlers : List Snapshot)
  /-- An arrow may be over something that is not an arrow and has no callable. -/
  | arrow (tag : Nat) (typeName : String) (name : Option String) (callable : Option Snapshot)
  /-- A handler without a leaf transform shows nothing in its place. -/
  | handler (tag : Nat) (table : List (String × Snapshot)) (atLeaf : Snapshot)
  | ok (tag : Nat) (value : Snapshot)
  | err (tag : Nat) (error : Snapshot)
  | outcome (tag : Nat) (result values : Snapshot)
  | failure (tag : Nat) (kind : Kind) (hasMessage : Bool) (argument : Snapshot)
      (fields : List (String × Snapshot))
  | generator (address : Nat)
  /-- A task shows its time, its number, its callback and the arguments of that. -/
  | agenda (address : Nat) (startTime maxSteps : Snapshot) (tasks : List Snapshot)
      (next : Snapshot) (sequenceCounter steps : Nat) (currentTime : Snapshot)
  | loopHost (address : Nat)
  | notAvailable
  /-- An object that is being shown already. -/
  | repeated (typeName : String)

/-- Names in the order of their code points. -/
def sortedNames (names : List String) : List String :=
  names.mergeSort fun a b => decide (a ≤ b)

namespace Snapshot

def typeName : Snapshot → String
  | nothing => (Value.nothing).typeName
  | bool b => (Value.bool b).typeName
  | int n => (Value.int n).typeName
  | float tag x => (Value.float tag x).typeName
  | text s => (Value.text s).typeName
  | bytes bs => (Value.bytes bs).typeName
  | list tag _ => (Value.list tag []).typeName
  | tuple tag _ => (Value.tuple tag []).typeName
  | names tag _ => (Value.names tag []).typeName
  | dict tag _ => (Value.dict tag []).typeName
  | frozen tag _ => (Value.frozen tag []).typeName
  | view tag _ => (Value.view tag []).typeName
  | leaf tag _ => (Value.leaf tag .nothing).typeName
  | operation _ _ _ => (Value.bare "" []).typeName
  | function _ _ => "function"
  | boundTo _ _ _ _ => (Function.boundTo .nothing .nothing).typeName
  | binder _ _ => (Function.binder .nothing).typeName
  | stack _ _ => (Function.stack []).typeName
  | arrow _ typeName _ _ => typeName
  | handler tag _ _ => (Value.handler tag [] none).typeName
  | ok tag _ => (Value.ok tag .nothing).typeName
  | err tag _ => (Value.err tag .nothing).typeName
  | outcome tag _ _ => (Value.outcome tag .nothing .nothing).typeName
  | failure _ kind _ _ _ => kind.name
  | generator a => (Value.generator a "").typeName
  | agenda a _ _ _ _ _ _ _ => (Value.agenda a).typeName
  | loopHost a => (Value.loopHost a).typeName
  | notAvailable => (Value.notAvailable).typeName
  | repeated typeName => typeName

/-- Truth values are numbers: false is zero and true is one. -/
def number? : Snapshot → Option Number
  | bool b => some (.int (if b then 1 else 0))
  | int n => some (.int n)
  | float _ x => some (.float x)
  | _ => none

/-- The items of what can be read item by item: of a text the characters, of a dictionary the keys.
-/
def items? : Snapshot → Option (List Snapshot)
  | list _ items | tuple _ items | view _ items => some items
  | text s => some (s.toList.map fun c => text (String.singleton c))
  | bytes bs => some (bs.map fun b => int b.toNat)
  | names _ members => some (members.map text)
  | dict _ entries | frozen _ entries => some (entries.map (·.1))
  | generator _ => some []
  | _ => none

end Snapshot

end AlgebraicEffects
