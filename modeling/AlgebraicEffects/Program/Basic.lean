import AlgebraicEffects.Value.Sequence

/-!
Programs as trees.

A program is a leaf with a finished value or an operation with a continuation. Grafting puts a tree
in the place of every leaf: at an operation nothing is performed, and only the continuation is
composed. A value that is no program counts as the leaf that carries it.
-/

set_option autoImplicit false

namespace AlgebraicEffects.Program

/-- A program stands for itself, any other value for its leaf. -/
def lift (v : Value) : Value := if v.isProgram then v else .leaf 0 v

/-- Grafts `next` onto every leaf of a program. -/
def graft (program next : Value) : Action Value :=
  if next.isCallable then
    match program with
    | .operation _ name params resume =>
      .done (.operation 0 name params (.arrowOf (.grafted resume next)))
    | .leaf _ v => lift <$> Action.ask next [v]
    | v => lift <$> Action.ask next [v]
  else .fail .binderNotCallable

/-- The continuation of a graft: the tree below the answer, grafted in turn. -/
def graftedBody (resume next : Value) (arguments : Arguments Value) : Action Value :=
  Action.takeOne "answer" arguments fun answer => do graft (← Action.ask resume [answer]) next

/-- Maps a function over the values at the leaves; what it gives is carried and never performed. -/
def map (program mapper : Value) : Action Value :=
  if mapper.isCallable then graft program (.arrowOf (.mapped mapper))
  else .fail .mapperNotCallable

def mappedBody (f : Value) (arguments : Arguments Value) : Action Value :=
  Action.takeOne "value" arguments fun v => do return .leaf 0 (← Action.ask f [v])

/-- The leaf itself, as a function. -/
def leafBody (arguments : Arguments Value) : Action Value :=
  Action.takeOne "value" arguments fun v => return .leaf 0 v

/-- The function that answers one value. -/
def constantBody (v : Value) (arguments : Arguments Value) : Action Value :=
  Action.takeOne "_" arguments fun _ => return v

/-- The subtree that follows an operation once it is answered. -/
def continueWith (resume answer : Value) : Action Value :=
  lift <$> Action.ask resume [answer]

/-- An operation from any values: the name has to be a text, the continuation callable and the
parameters a sequence other than a single text. -/
def operation (name params resume : Value) : Action Value :=
  match name with
  | .text n =>
    if resume.isCallable then
      match params with
      | .text _ | .bytes _ => .fail .paramsText
      | ps => do return .operation 0 n (← ps.items) resume
    else .fail .resumeNotCallable
  | v => .fail (.effectNameNotText v.typeName)

end AlgebraicEffects.Program
