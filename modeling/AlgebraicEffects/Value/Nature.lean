import AlgebraicEffects.Value.Naming

/-!
What kind of thing a value is: the name of its type, whether it can be called, whether it counts as
true, and whether it can be a key.
-/

set_option autoImplicit false

namespace AlgebraicEffects

/-- Whether a function is bound to its first argument and shows no function of its own. -/
def Function.isBuiltIn : Function → Bool
  | .boundTo (.function _ (.method m)) _ => m.isBuiltIn
  | _ => false

def Function.typeName : Function → String
  | .leaf => "ABCMeta"
  | .asTuple => "type"
  | .standardOutput => "builtin_function_or_method"
  | .stack _ => "_Stack"
  | .boundTo f receiver =>
    if (Function.boundTo f receiver).isBuiltIn then "builtin_function_or_method" else "method"
  | .binder _ => "method-wrapper"
  | _ => "function"

/-- The text of a function that shows nothing of what it is made from. -/
def Function.text : Function → String
  | .leaf => "<class 'efftree.program.Pure'>"
  | .asTuple => "<class 'tuple'>"
  | .standardOutput => "<built-in function print>"
  | _ => "<function>"

def Arrow.typeName : Arrow → String
  | .plain _ => "KleisliProgram"
  | .generated _ _ => "DoYieldFunction"
  | .partially _ _ _ => "PartiallyAppliedKleisliProgram"

def Failure.kind : Failure → Kind
  | .raised kind _ => kind
  | .unhandledEffect _ _ _ => .unhandledEffect
  | .replayDivergence _ _ _ _ => .replayDivergence
  | .noResult => .noResult
  | .stepLimit _ _ => .stepLimit
  | .missingKey _ _ => .missingKey
  | .exhausted _ => .exhausted
  | .generatorRaisedStop => .runtime
  | .mapperNotCallable | .binderNotCallable | .effectNameNotText _ | .resumeNotCallable
  | .paramsText | .tableNameNotText _ | .implementationNotCallable _ | .leafTransformNotCallable
  | .leafTransformTwice | .leafTransformWithHandler | .sinkNotCallable | .startNotCallable =>
    .badType
  | .recursionLimitNotPositive | .noErrorOnSuccess | .maxStepsNegative | .delayNegative _
  | .waitNegative _ => .badValue
  | .noAttribute _ => .noAttribute
  | .fault kind => kind
  | .caught _ f => f.kind

/-- The failure itself, without the identity that it has as a value. -/
def Failure.cause : Failure → Failure
  | .caught _ f => f.cause
  | f => f

/-- The identity of a failure; zero before it has become a value. -/
def Failure.tag : Failure → Nat
  | .caught tag _ => tag
  | _ => 0

namespace Value

def typeName : Value → String
  | .nothing => "NoneType"
  | .bool _ => "bool"
  | .int _ => "int"
  | .float _ _ => "float"
  | .text _ => "str"
  | .bytes _ => "bytes"
  | .list _ _ => "list"
  | .tuple _ _ => "tuple"
  | .names _ _ => "frozenset"
  | .dict _ _ => "dict"
  | .frozen _ _ => "frozendict"
  | .view _ _ => "dict_values"
  | .leaf _ _ => "Pure"
  | .operation _ _ _ _ => "Operation"
  | .function _ f => f.typeName
  | .arrow _ a => a.typeName
  | .handler _ _ _ => "Handler"
  | .ok _ _ => "Ok"
  | .err _ _ => "Err"
  | .outcome _ _ _ => "RunResult"
  | .failure f => f.kind.name
  | .generator _ _ => "generator"
  | .agenda _ => "Scheduler"
  | .loopHost _ => "AsyncioHost"
  | .notAvailable => "_NotAvailable"

def isCallable : Value → Bool
  | .function _ _ | .arrow _ _ | .handler _ _ _ => true
  | _ => false

def isProgram : Value → Bool
  | .leaf _ _ | .operation _ _ _ _ => true
  | _ => false

/-- Zero and whatever is empty count as false, everything else as true. -/
def isTrue : Value → Bool
  | .nothing => false
  | .bool b => b
  | .int n => n != 0
  | .float _ x => !(x == 0)
  | .text s => !s.isEmpty
  | .bytes bs => !bs.isEmpty
  | .list _ items | .tuple _ items | .view _ items => !items.isEmpty
  | .names _ members => !members.isEmpty
  | .dict _ entries | .frozen _ entries => !entries.isEmpty
  | _ => true

end Value

mutual

/-- Whether calling the value gives a generator of its own body. -/
def Value.isGeneratorFunction : Value → Bool
  | .function _ f => f.isGeneratorFunction
  | _ => false

def Function.isGeneratorFunction : Function → Bool
  | .generatorBody _ _ _ _ => true
  | .boundTo f _ => f.isGeneratorFunction
  | _ => false

end

mutual

/-- Whether calling the value gives its arguments to a script. -/
def Value.isScripted : Value → Bool
  | .function _ f => f.isScripted
  | .arrow _ a => a.isScripted
  | _ => false

def Function.isScripted : Function → Bool
  | .closure _ _ _ _ | .generatorBody _ _ _ _ => true
  | .boundTo f _ => f.isScripted
  | .programFactory source => source.isScripted
  | .fmapped base _ | .chained base _ => base.isScripted
  | _ => false

def Arrow.isScripted : Arrow → Bool
  | .plain f => f.isScripted
  | .generated _ source => source.isScripted
  | .partially base _ _ => base.isScripted

end

mutual

/-- Whether a value can be a key: what can change in place cannot, nor what holds such a value. -/
def Value.isKey : Value → Bool
  | .list _ _ | .dict _ _ | .arrow _ _ | .agenda _ => false
  | .function _ f => f.isKey
  | .tuple _ items => allKeys items
  | .frozen _ entries => allEntryKeys entries
  | .leaf _ v | .ok _ v | .err _ v => v.isKey
  | .outcome _ r vs => r.isKey && vs.isKey
  | .handler _ table atLeaf =>
    allTableKeys table && match atLeaf with
      | none => true
      | some f => f.isKey
  | _ => true

def Function.isKey : Function → Bool
  | .boundTo f _ => f.isKey
  | .stack handlers => allKeys handlers
  | _ => true

def allKeys : List Value → Bool
  | [] => true
  | v :: vs => v.isKey && allKeys vs

def allEntryKeys : List (Value × Value) → Bool
  | [] => true
  | (_, v) :: es => v.isKey && allEntryKeys es

def allTableKeys : List (String × Value) → Bool
  | [] => true
  | (_, v) :: es => v.isKey && allTableKeys es

end

end AlgebraicEffects
