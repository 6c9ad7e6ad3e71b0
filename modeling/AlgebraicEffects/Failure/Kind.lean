/-!
Kinds of failure.

The kind of a failure is what a caller can tell failures apart by. A missing environment key is also
a missing key, as `Kind.isMissingKey` says.
-/

set_option autoImplicit false

namespace AlgebraicEffects

inductive Kind where
  | badValue | runtime | badType | lookup | exhausted | noAttribute | noKey | noIndex
  | divisionByZero | overflow | outOfMemory
  | unhandledEffect | replayDivergence | noResult | stepLimit | missingKey
  deriving DecidableEq, Repr

namespace Kind

def name : Kind → String
  | badValue => "ValueError"
  | runtime => "RuntimeError"
  | badType => "TypeError"
  | lookup => "LookupError"
  | exhausted => "StopIteration"
  | noAttribute => "AttributeError"
  | noKey => "KeyError"
  | noIndex => "IndexError"
  | divisionByZero => "ZeroDivisionError"
  | overflow => "OverflowError"
  | outOfMemory => "MemoryError"
  | unhandledEffect => "UnhandledEffectError"
  | replayDivergence => "ReplayDivergenceError"
  | noResult => "NoResultError"
  | stepLimit => "SchedulerStepLimitError"
  | missingKey => "MissingEnvKeyError"

/-- The kinds that a script can raise by name. -/
def ofName? (n : String) : Option Kind :=
  [badValue, runtime, badType, lookup, exhausted].find? fun k => k.name = n

/-- The failures that the library itself defines. -/
def isLibraryOwn : Kind → Bool
  | unhandledEffect | replayDivergence | noResult | stepLimit | missingKey => true
  | _ => false

/-- A missing environment key is also a missing key. -/
def isMissingKey : Kind → Bool
  | noKey | missingKey => true
  | _ => false

end Kind

end AlgebraicEffects
