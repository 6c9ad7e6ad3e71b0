import AlgebraicEffects.Snapshot.Text

/-!
The messages of failures.

A message that shows values is made from what they show when the failure is made; it stays the same
when they change later.
-/

set_option autoImplicit false

namespace AlgebraicEffects.Failure

/-- The message about an operation that is left unhandled. -/
def unhandledText (name params : Snapshot) : String :=
  "No handler for effect " ++ name.quoted ++ " (params=" ++ params.quoted ++ ")\n" ++
    "Hint: evaluate the program with a handler whose table defines " ++ name.quoted

/-- The message about a body that returned before its answers ran out. -/
def divergenceText (functionName expected consumed : Snapshot) : String :=
  functionName.plain ++ " finished after receiving " ++ consumed.plain ++ " of " ++
    expected.plain ++ " recorded answers " ++
    "during replay; its body is not deterministic up to each yield"

/-- The message about an agenda that has run all the tasks it may. -/
def stepLimitText (maxSteps : Snapshot) : String :=
  "scheduler exceeded max_steps (" ++ maxSteps.plain ++ ")"

/-- The message about a key that an environment lacks. -/
def missingKeyText (key : Snapshot) : String :=
  "Environment key not found: " ++ key.quoted ++ "\n" ++
    "Hint: Provide this key via `reader_handler(\x7b'" ++ key.plain ++ "': value\x7d)`"

/-- The message of a failure that the library made; a fault of the ambient language has none. -/
def text : Failure → String
  | unhandledEffect message _ _ | replayDivergence message _ _ _ | stepLimit message _
  | missingKey message _ => message
  | noResult => "every flow ended at a dead end; the program produced no value"
  | generatorRaisedStop => "generator raised StopIteration"
  | mapperNotCallable => "mapper must be callable"
  | binderNotCallable => "binder must be callable returning a Program"
  | effectNameNotText typeName => "effect name must be a str, got " ++ typeName
  | resumeNotCallable => "resume must be callable"
  | paramsText => "params must be an iterable of arguments, not a single str or bytes"
  | tableNameNotText typeName => "effect names must be str, got " ++ typeName
  | implementationNotCallable name =>
    "implementation for " ++ Text.quoted name ++ " must be callable"
  | leafTransformNotCallable => "return_ must be callable"
  | leafTransformTwice => "leaf transform given both as 'return' entry and return_"
  | leafTransformWithHandler => "return_ cannot be combined with a Handler instance"
  | recursionLimitNotPositive => "recursion_limit must be > 0 or None"
  | noErrorOnSuccess => "Cannot access error on successful result"
  | maxStepsNegative => "max_steps must be >= 0 or None"
  | delayNegative shown => "delay must be non-negative, got " ++ shown
  | waitNegative shown => "Wait delay must be non-negative, got " ++ shown
  | sinkNotCallable => "sink must be callable"
  | startNotCallable => "start must be callable"
  | raised _ _ | exhausted _ | noAttribute _ | fault _ | caught _ _ => ""

/-- Whether a failure has a message that it shows. -/
def hasMessage : Failure → Bool
  | noAttribute _ | fault _ | exhausted _ => false
  | caught _ f => f.hasMessage
  | _ => true

end AlgebraicEffects.Failure
