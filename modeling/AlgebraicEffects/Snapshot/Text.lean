import AlgebraicEffects.Decimal.Shortest
import AlgebraicEffects.Snapshot
import AlgebraicEffects.Text.Quoted

/-!
The text of what values show.

A value has a quoted text, which shows what it is, and a plain text, in which a text stands for
itself and a failure for what it was made with.
-/

set_option autoImplicit false

namespace AlgebraicEffects

/-- Items between brackets, separated by commas. -/
def enclosed (left : String) (items : List String) (right : String) : String :=
  left ++ ", ".intercalate items ++ right

/-- A tuple of one item keeps a comma. -/
def tupleText : List String → String
  | [item] => "(" ++ item ++ ",)"
  | items => enclosed "(" items ")"

/-- A named part of a record. -/
def fieldText (name text : String) : String := name ++ "=" ++ text

/-- What stands for an object inside its own text. -/
def repeatedText (typeName : String) : String :=
  if typeName = (Snapshot.dict 0 []).typeName then "\x7b...\x7d"
  else if typeName = (Snapshot.list 0 []).typeName then "[...]"
  else "..."

/-- The text of an object with this tag, inside the objects whose tags are on the path. -/
def withinPath (path : List Nat) (tag : Nat) (text : String) : String :=
  if tag != 0 && path.contains tag then "..." else text

mutual

/-- The quoted text of a value inside the objects whose tags are on the path. -/
def Snapshot.quotedIn (path : List Nat) : Snapshot → String
  | .nothing => "None"
  | .bool b => if b then "True" else "False"
  | .int n => toString n
  | .float _ x => Text.ofFloat x
  | .text s => Text.quoted s
  | .bytes bs => Text.quotedBytes bs
  | .list _ items => enclosed "[" (quotedItems path [] items) "]"
  | .tuple _ items => tupleText (quotedItems path [] items)
  | .names _ [] => "frozenset()"
  | .names _ members => enclosed "frozenset(\x7b" (members.map Text.quoted) "\x7d)"
  | .dict _ entries => enclosed "\x7b" (quotedEntries path [] entries) "\x7d"
  | .frozen _ entries =>
    enclosed "frozendict.frozendict(\x7b" (quotedEntries path [] entries) "\x7d)"
  | .view _ items => enclosed "dict_values([" (quotedItems path [] items) "])"
  | .leaf _ v => "Pure(" ++ v.quotedIn path ++ ")"
  | .operation _ name params =>
    enclosed "Operation(" [Text.quoted name, tupleText (quotedItems path [] params)] ")"
  | .function _ text => text
  | .boundTo _ name _ receiver =>
    "<bound method " ++ name ++ " of " ++ receiver.quotedIn path ++ ">"
  | .binder _ _ => "<method-wrapper '__get__' of function>"
  | .stack tag handlers =>
    let inner := quotedItems (tag :: path) [] handlers
    withinPath path tag (enclosed "_Stack(" [fieldText "handlers" (tupleText inner)] ")")
  | .arrow tag typeName _ callable =>
    let inner := match callable with
      | some f => f.quotedIn (tag :: path)
      | none => ""
    withinPath path tag (enclosed (typeName ++ "(") [fieldText "func" inner] ")")
  | .handler tag table atLeaf =>
    let entries := quotedTable (tag :: path) [] table
    withinPath path tag (enclosed "Handler("
      [fieldText "table" (enclosed "frozendict.frozendict(\x7b" entries "\x7d)"),
       fieldText "return_" (atLeaf.quotedIn (tag :: path))] ")")
  | .ok tag v =>
    withinPath path tag (enclosed "Ok(" [fieldText "value" (v.quotedIn (tag :: path))] ")")
  | .err tag e =>
    withinPath path tag (enclosed "Err(" [fieldText "error" (e.quotedIn (tag :: path))] ")")
  | .outcome tag r vs =>
    withinPath path tag (enclosed "RunResult("
      [fieldText "result" (r.quotedIn (tag :: path)),
       fieldText "values" (vs.quotedIn (tag :: path))] ")")
  | .failure _ kind _ argument _ => enclosed (kind.name ++ "(") [argument.quotedIn path] ")"
  | .generator _ => "<generator>"
  | .agenda _ startTime maxSteps _ _ sequenceCounter steps currentTime =>
    enclosed "Scheduler("
      [fieldText "start_time" (startTime.quotedIn path),
       fieldText "max_steps" (maxSteps.quotedIn path),
       fieldText "sequence_counter" (toString sequenceCounter), fieldText "steps" (toString steps),
       fieldText "current_time" (currentTime.quotedIn path)] ")"
  | .loopHost _ => "<AsyncioHost>"
  | .notAvailable => "NOT_AVAILABLE"
  | .repeated typeName => repeatedText typeName

def quotedItems (path : List Nat) (done : List String) : List Snapshot → List String
  | [] => done.reverse
  | v :: vs => quotedItems path (v.quotedIn path :: done) vs

def quotedEntries (path : List Nat) (done : List String) :
    List (Snapshot × Snapshot) → List String
  | [] => done.reverse
  | (k, v) :: es => quotedEntries path ((k.quotedIn path ++ ": " ++ v.quotedIn path) :: done) es

def quotedTable (path : List Nat) (done : List String) : List (String × Snapshot) → List String
  | [] => done.reverse
  | (k, v) :: es => quotedTable path ((Text.quoted k ++ ": " ++ v.quotedIn path) :: done) es

end

/-- The quoted text of a value. -/
def Snapshot.quoted (v : Snapshot) : String := v.quotedIn []

/-- The text without quotes: a text stands for itself and a failure for what it was made with. -/
def Snapshot.plain : Snapshot → String
  | .text s => s
  | .failure _ _ _ argument _ => argument.plain
  | v => v.quoted

/-- The message of a failure, if it has one. -/
def Snapshot.message? : Snapshot → Option String
  | .failure _ _ true argument _ => some argument.plain
  | _ => none

end AlgebraicEffects
