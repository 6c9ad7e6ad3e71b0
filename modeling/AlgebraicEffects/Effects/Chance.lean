import AlgebraicEffects.Handler.Basic
import AlgebraicEffects.Random.Seed

/-!
Chance: the effect `random`, answered a double of `[0, 1)` from a generator of the handler's own.
-/

set_option autoImplicit false

namespace AlgebraicEffects.Chance

def randomName : String := "random"

/-- The operation that draws a number. -/
def random : Value := .bare randomName []

/-- The integer that a seed stands for; without a seed the generator starts at zero. -/
def seedOf : Value → Action Int
  | .nothing => return 0
  | .bool b => return if b then 1 else 0
  | .int n => return n
  | .float _ x => return Seed.ofFloat x
  | .text s => return Seed.ofBytes s.toUTF8.toList
  | .bytes bs => return Seed.ofBytes bs
  | _ => .fault .badType

/-- A handler with a fresh generator. -/
def handler (seed : Value) : Action Value := do
  let twister := Twister.ofSeed (← seedOf seed)
  let address ← .read fun s =>
    .write (fun s => { s with twisters := s.twisters.push twister }) (.done s.twisters.size)
  return Handler.ofFunctions [(randomName, .draw address)] none

/-- The next number of a generator, which moves on. -/
def draw (address : Nat) : Action Float :=
  .read fun s =>
    match s.twisters[address]? with
    | some t =>
      let (x, t) := t.nextUnit
      .write (fun s => { s with twisters := s.twisters.setIfInBounds address t }) (.done x)
    | none => .fault .badType

def drawBody (address : Nat) (call : Arguments Value) : Action Value :=
  Action.takeOne "resume" call fun resume => do Action.ask resume [.float 0 (← draw address)]

end AlgebraicEffects.Chance
