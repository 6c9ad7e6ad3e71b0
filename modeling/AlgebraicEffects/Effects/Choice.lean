import AlgebraicEffects.Handler.Basic

/-!
Nondeterministic choice: the effects `decide`, answered a truth value, and `fail`, never resumed.

A search strategy is a handler that decides how often, and with which answers, to resume a decision:
`backtrack` tries false and falls back to true, the extrema resume with both and compare, and
`allChoices` enumerates.
-/

set_option autoImplicit false

namespace AlgebraicEffects.Choice

def decideName : String := "decide"

def failName : String := "fail"

/-- The operation that decides. -/
def decide : Value := .bare decideName []

/-- The operation that abandons its branch. -/
def fail : Value := .bare failName []

/-- The first program when decided true, the second when decided false. -/
def choose (first second : Value) : Action Value :=
  Program.graft decide (.arrowOf (.chosen first second))

def chosenBody (first second : Value) (call : Arguments Value) : Action Value :=
  Action.takeOne "decided" call fun d => return if ← Action.truth d then first else second

/-- An integer from `low` to `high`, in ascending order; no integer when `low` is greater. -/
def chooseIn (low high : Value) : Action Value := do
  if ← Value.less high low then return fail
  else Program.graft decide (.arrowOf (.chosenIn low high))

def chosenInBody (low high : Value) (call : Arguments Value) : Action Value :=
  Action.takeOne "decided" call fun d => do
    if ← Action.truth d then return .leaf 0 low
    else chooseIn (← Value.add low (.int 1)) high

/-- Goes on when the condition holds and fails otherwise. -/
def guard (condition : Value) : Action Value := do
  return if ← Action.truth condition then .leaf 0 .nothing else fail

def backtrack : Value := Handler.standing 13 [(decideName, .tryBoth)] none

def pickMax : Value := Handler.standing 14 [(decideName, .extremum true)] none

def pickMin : Value := Handler.standing 15 [(decideName, .extremum false)] none

def allChoices : Value :=
  Handler.standing 16 [(decideName, .enumerate), (failName, .noSolutions)] (some .singleton)

/-- Resumes with false; a failure behind it is replaced by resuming with true. -/
def tryBothBody (call : Arguments Value) : Action Value :=
  Action.takeOne "resume" call fun resume => do
    Handler.evaluate [(failName, .arrowOf (.fallBack resume))] none
      (← Action.ask resume [.bool false])

def fallBackBody (resume : Value) (call : Arguments Value) : Action Value :=
  Action.takeOne "_resume" call fun _ => Action.ask resume [.bool true]

/-- Resumes with true, then with false, and keeps the extreme value. -/
def extremumBody (greatest : Bool) (call : Arguments Value) : Action Value :=
  Action.takeOne "resume" call fun resume => do
    Program.graft (← Action.ask resume [.bool true]) (.arrowOf (.extremumSecond greatest resume))

def extremumSecondBody (greatest : Bool) (resume : Value) (call : Arguments Value) :
    Action Value :=
  Action.takeOne "x" call fun x => do
    Program.graft (← Action.ask resume [.bool false]) (.arrowOf (.extremumOf greatest x))

/-- The first value unless the second is strictly more extreme. -/
def extreme (greatest : Bool) (x y : Value) : Action Value := do
  if ← (if greatest then Value.less x y else Value.less y x) then return y else return x

def extremumOfBody (greatest : Bool) (x : Value) (call : Arguments Value) : Action Value :=
  Action.takeOne "y" call fun y => extreme greatest x y

/-- Resumes with true, then with false, and joins the two lists. -/
def enumerateBody (call : Arguments Value) : Action Value :=
  Action.takeOne "resume" call fun resume => do
    Program.graft (← Action.ask resume [.bool true]) (.arrowOf (.enumerateSecond resume))

def enumerateSecondBody (resume : Value) (call : Arguments Value) : Action Value :=
  Action.takeOne "xs" call fun xs => do
    Program.map (← Action.ask resume [.bool false]) (.arrowOf (.appended xs))

def appendedBody (front : Value) (call : Arguments Value) : Action Value :=
  Action.takeOne "ys" call fun ys => do return .list 0 ((← front.items) ++ (← ys.items))

def noSolutionsBody (call : Arguments Value) : Action Value :=
  Action.takeOne "_resume" call fun _ => return .leaf 0 (.list 0 [])

def singletonBody (call : Arguments Value) : Action Value :=
  Action.takeOne "value" call fun v => return .list 0 [v]

def failToNothingBody (call : Arguments Value) : Action Value :=
  Action.takeOne "_resume" call fun _ => return .leaf 0 .nothing

/-- The first solution of the search, or nothing when every branch fails. -/
def firstSolution (program : Value) : Action Value := do
  Handler.evaluate [(failName, .arrowOf .failToNothing)] none
    (← Handler.evaluate [(decideName, .arrowOf .tryBoth)] none program)

end AlgebraicEffects.Choice
