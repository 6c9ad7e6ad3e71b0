import AlgebraicEffects.Replay.Build

/-!
Arrows from arguments to programs.

An arrow wraps a callable so that every call gives a program. Arrows can be given some of their
arguments early, mapped over their results and chained with what follows. What an arrow is built
over need not be an arrow itself: it is only called when the arrow is.
-/

set_option autoImplicit false

namespace AlgebraicEffects

/-- Adds keywords; one that was there keeps its place and takes the new value. -/
def mergeKeywords (early late : List (String × Value)) : List (String × Value) :=
  early.map (fun (n, v) => (n, (late.lookup n).getD v)) ++
    late.filter fun (n, _) => !early.any (·.1 == n)

mutual

/-- The callable under a value, if there is one: that of an arrow, without the arguments given
early. A bound callable has that of the callable it binds. -/
def Value.callable? : Value → Option Value
  | .arrow _ a => a.callable?
  | .function _ f => f.callable?
  | _ => none

def Arrow.callable? : Arrow → Option Value
  | .plain f => some f
  | .generated tag source => some (.function tag (.programFactory source))
  | .partially base _ _ => base.callable?

def Function.callable? : Function → Option Value
  | .boundTo f _ => f.callable?
  | _ => none

end

namespace Arrow

/-- The keyword that no arrow takes, because it names the arrow itself. -/
def reserved : String := "self"

/-- Calls an arrow: arguments given early come first, keywords given late win. -/
def apply (a : Arrow) (call : Arguments Value) : Action Value :=
  if call.keywords.any (·.1 == reserved) then .fault .badType
  else
    match a with
    | .plain f => Program.lift <$> Action.invoke f call
    | .generated tag source =>
      Program.lift <$> Action.invoke (.function tag (.programFactory source)) call
    | .partially base early keywords =>
      Action.invoke base ⟨early ++ call.positional, mergeKeywords keywords call.keywords⟩

/-- An arrow over any value. -/
def ofCallable (f : Value) : Value := .arrow 0 (.plain f)

/-- An arrow whose calls run a generator by replay. -/
def ofGenerator (source : Value) : Value := .arrow 0 (.generated 0 source)

/-- Any value with some of its arguments given early. -/
def partialApply (base : Value) (arguments : List Value) (keywords : List (String × Value)) :
    Value := .arrow 0 (.partially base arguments keywords)

/-- An arrow with further arguments given early; it has to have been given some before. -/
def furtherApply (a : Value) (arguments : List Value) (keywords : List (String × Value)) :
    Action Value :=
  match a with
  | .arrow _ (.partially base early known) =>
    return partialApply base (early ++ arguments) (mergeKeywords known keywords)
  | _ => Action.lacking "_pre_args"

/-- An arrow whose function is made from another one's callable. -/
def built (base : Value) (f : Function) : Action Value :=
  match base.callable? with
  | some _ => return ofCallable (.arrowOf f)
  | none => Action.lacking "func"

/-- The arrow followed by a binder. -/
def chain (base binder : Value) : Action Value :=
  if binder.isCallable then built base (.chained base binder) else .fail .binderNotCallable

/-- The arrow with a function mapped over what it carries. -/
def fmap (base mapper : Value) : Action Value :=
  if mapper.isCallable then built base (.fmapped base mapper) else .fail .mapperNotCallable

def programFactoryBody (source : Value) (call : Arguments Value) : Action Value :=
  Replay.build source (.tuple 0 call.positional) call.keywords (.tuple 0 [])

end Arrow

end AlgebraicEffects
