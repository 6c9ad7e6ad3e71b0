import AlgebraicEffects.Dispatch
import AlgebraicEffects.Script.Datum

/-!
Sessions: steps that share their global variables and whatever they have made.

A step evaluates an expression. It reports its value or its failure, and what happened meanwhile; a
step that fails does not stop the next one.
-/

set_option autoImplicit false

namespace AlgebraicEffects

inductive Step where
  | evaluate (e : Expr)
  /-- Also binds the value to a global variable. -/
  | define (x : String) (e : Expr)

/-- The step that a written script denotes. -/
def Step.ofDatum? : Datum → Option Step
  | .list [.atom (.text "def!"), x, e] => do some (.define (← x.name?) (← e.expr?))
  | d => Step.evaluate <$> d.expr?

/-- What a step reports. -/
structure Report where
  result : Except Snapshot Snapshot
  notes : List Snapshot
  output : String
  records : List Record

/-- What a step does. -/
def Step.action : Step → Action Value
  | .evaluate e => do (← e.eval []).reported
  | .define x e => do
    let v ← e.eval []
    assignGlobal x v
    v.reported

namespace Session

/-- More steps of the machine than any session takes. -/
def fuel : Nat := 1000000000000

/-- Runs one step on a store. -/
def runStep (step : Step) (s : Store) : Report × Store :=
  match Action.run Value.apply fuel step.action [] s with
  | some (ending, s) =>
    let result := match ending with
      | .ok v => .ok (s.show v)
      | .error f => .error (s.show (.failure f))
    (⟨result, s.notes.reverse, s.output, s.records.reverse⟩, s.cleared)
  | none => (⟨.error (s.show (.failure (.fault .runtime))), [], "", []⟩, s.cleared)

/-- Runs steps one after the other. -/
def runFrom : List Step → Store → List Report
  | [], _ => []
  | step :: steps, s =>
    let (report, s) := runStep step s
    report :: runFrom steps s

def run (steps : List Step) : List Report := runFrom steps .empty

end Session

end AlgebraicEffects
