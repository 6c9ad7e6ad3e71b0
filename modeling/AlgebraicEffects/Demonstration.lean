import AlgebraicEffects.Effects.Choice
import AlgebraicEffects.Effects.State
import AlgebraicEffects.Program.Arrow
import AlgebraicEffects.Run

/-!
Demonstrations: small programs under several handlers, written to the standard output.
-/

set_option autoImplicit false

namespace AlgebraicEffects.Demonstration

private def compute (p : Primitive) (operands : List Expr) : Expr :=
  .form (.primitive p) operands []

private def effect (e : EffectForm) (operands : List Expr) : Expr := .form (.effect e) operands []

private def text (s : String) : Expr := .literal (.text s)

private def var (x : String) : Expr := .variable x

private def integer (n : Int) : Expr := .literal (.int n)

/-- An arrow whose calls run a generator body. -/
private def program (name : String) (params : List String) (body : List Stmt) : Value :=
  Arrow.ofGenerator (.arrowOf (.generatorBody name ⟨params, none⟩ body []))

/-- Prints three letters. -/
def letters : Value :=
  program "abc" []
    [.yield none (effect .print [text "A"]), .yield none (effect .print [text "B"]),
     .yield none (effect .print [text "C"])]

/-- Adds ten to the state and answers it. -/
def addTen : Value :=
  program "add_ten" []
    [.yield (some "x") (effect .get []),
     .yield none (effect .put [compute .add [var "x", integer 10]]),
     .yield (some "y") (effect .get []),
     .finish (var "y")]

/-- The difference of two choices. -/
def difference : Value :=
  program "difference" []
    [.yield (some "x") (effect .choose [integer 15, integer 30]),
     .yield (some "y") (effect .choose [integer 5, integer 10]),
     .finish (compute .sub [var "x", var "y"])]

private def square (x : Expr) : Expr := compute .mul [x, x]

/-- Right triangles whose legs lie between two bounds and whose sides are integers. -/
def pythagorean : Value :=
  program "pythagorean" ["low", "high"]
    [.yield (some "a") (effect .chooseIn [var "low", compute .sub [var "high", integer 1]]),
     .yield (some "b") (effect .chooseIn [compute .add [var "a", integer 1], var "high"]),
     .set "c" (compute .integerSqrt [compute .add [square (var "a"), square (var "b")]]),
     .yield none (effect .guard
       [compute .equal [square (var "c"), compute .add [square (var "a"), square (var "b")]]]),
     .finish (compute .tuple [var "a", var "b", var "c"])]

/-- Waits, prints that it is done and answers its label. -/
def slow : Value :=
  program "slow" ["label", "delay"]
    [.yield none (effect .wait [var "delay"]),
     .yield none (effect .print [compute .concat [var "label", text " done"]]),
     .finish (var "label")]

def write (label : String) (v : Value) : Action Unit := do
  Output.writeLine (label ++ (← Action.shown v).plain)

def printing : Action Value := Output.printHandler (.arrowOf .standardOutput)

def output : Action Unit := do
  Output.writeLine "natural order:"
  let _ ← Run.run (← Action.ask letters []) (.list 0 [← printing]) .nothing
  Output.writeLine "reversed:"
  let reversing := [Output.reversePrintHandler, ← printing]
  let _ ← Run.run (← Action.ask letters []) (.list 0 reversing) .nothing

def state : Action Unit := do
  let p ← State.run (← Action.ask addTen []) (.int 5) (.bool false)
  write "state from 5: " (← Run.run p (.list 0 []) .nothing)

def choice : Action Unit := do
  let all ← Run.run (← Action.ask difference []) (.list 0 [Choice.allChoices]) .nothing
  write "every difference: " all
  let greatest ← Run.run (← Action.ask difference []) (.list 0 [Choice.pickMax]) .nothing
  write "largest difference: " greatest
  let triples ← Action.ask pythagorean [.int 4, .int 15]
  let first ← Run.run triples (.list 0 [Choice.backtrack]) .nothing
  write "first triple in [4, 15]: " first

def scheduler : Action Unit := do
  let left ← Action.ask slow [.text "left", .float 0 2]
  let right ← Action.ask slow [.text "right", .float 0 1]
  let race ← Program.tupleAll [← Suspension.par left right, Suspension.now]
  match ← Run.runScheduled race (.list 0 [← printing]) .nothing .nothing with
  | .outcome _ (.ok _ v) _ => write "par result: " v
  | .outcome _ (.err _ (.failure f)) _ => .fail f
  | _ => .fault .badType

def unhandled : Action Unit := do
  match ← Run.runCaught (.bare "frobnicate" []) (.list 0 [← printing]) .nothing with
  | .outcome _ (.err _ e) _ => write "unhandled: " e
  | _ => .fault .badType

/-- Runs a demonstration by name. -/
def run (name : Value) : Action Value := do
  match name with
  | .text "output_demo" => output
  | .text "state_demo" => state
  | .text "choice_demo" => choice
  | .text "scheduler_demo" => scheduler
  | .text "unhandled_demo" => unhandled
  | .text "main" => do
    output
    state
    choice
    scheduler
    unhandled
  | .text name => Action.lacking name
  | _ => .fault .badType
  return .nothing

end AlgebraicEffects.Demonstration
