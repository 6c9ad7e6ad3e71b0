import AlgebraicEffects.Value.Basic

/-!
The names that callables show.

A callable may show a name and a qualified name, which also says where it was defined. A script
chooses the name of the functions it makes; a function of the library has the name and the place
under which the interface lists it. What is built over another callable takes over the names that
the other one shows (`Function.naming`), and an arrow shows the names of what it wraps.
-/

set_option autoImplicit false

namespace AlgebraicEffects

structure Naming where
  name : Option String
  qualified : Option String

namespace Naming

/-- No name at all. -/
def nameless : Naming := ⟨none, none⟩

/-- A name that is also the qualified one. -/
def plain (name : String) : Naming := ⟨some name, some name⟩

/-- The name of a function that is made inside others, the outermost first. -/
def inside (path : List String) (name : String) : Naming :=
  ⟨some name, some (".<locals>.".intercalate (path ++ [name]))⟩

/-- The first naming, completed by the second. -/
def orElse (a b : Naming) : Naming := ⟨a.name <|> b.name, a.qualified <|> b.qualified⟩

end Naming

/-- The name of a function without one. -/
def anonymous : String := "<lambda>"

/-- The naming of the function that runs the generators of an arrow. -/
def Naming.programFactory : Naming := .inside ["DoYieldFunction.__init__"] "program_factory"

/-- The naming of the function that maps over what an arrow carries. -/
def Naming.mapped : Naming := .inside ["KleisliProgram.fmap"] "mapped"

/-- The naming of the function that goes on after an arrow. -/
def Naming.composed : Naming := .inside ["KleisliProgram.and_then_k"] "composed"

/-- The name of a function that belongs to a kind of value. -/
def Method.name : Method → String
  | .leaf => "pure"
  | .leafOf => "of"
  | .lift => "lift"
  | .collectAll => "collect_all"
  | .traverse => "traverse"
  | .listOf => "list"
  | .tupleOf => "tuple"
  | .map => "map"
  | .flatMap => "flat_map"
  | .andThen | .chain => "and_then_k"
  | .shiftInto | .shiftArrow => "__rshift__"
  | .continueWith => "continue_with"
  | .partially | .furtherPartially => "partial"
  | .fmap => "fmap"
  | .boundTo => "__get__"
  | .handles => "handles"
  | .extend | .extendList => "extend"
  | .evaluate => "evaluate"
  | .isOk => "is_ok"
  | .isErr => "is_err"
  | .unwrap | .unwrapOutcome => "unwrap"
  | .callLater | .callLaterOnLoop => "call_later"
  | .callSoon | .callSoonOnLoop => "call_soon"
  | .time | .timeOfLoop => "time"
  | .step => "step"
  | .drain => "run"
  | .isEmpty => "is_empty"
  | .peekTime => "peek_time"
  | .values => "values"
  | .keyAt => "key"
  | .valueAt => "value"

/-- The kind of value that a function belongs to. -/
def Method.owner : Method → String
  | .leaf | .leafOf | .lift | .collectAll | .traverse | .listOf | .tupleOf | .map | .flatMap
  | .andThen | .shiftInto => "ProgramBase"
  | .continueWith => "Operation"
  | .partially | .chain | .shiftArrow | .fmap | .boundTo => "KleisliProgram"
  | .furtherPartially => "PartiallyAppliedKleisliProgram"
  | .handles | .extend | .evaluate => "Handler"
  | .isOk | .isErr | .unwrap => "Result"
  | .unwrapOutcome => "RunResult"
  | .callLater | .callSoon | .time | .step | .drain | .isEmpty | .peekTime => "Scheduler"
  | .callLaterOnLoop | .callSoonOnLoop | .timeOfLoop => "AsyncioHost"
  | .values => "dict"
  | .extendList => "list"
  | .keyAt | .valueAt => "frozendict"

/-- The functions that are built into containers. Bound to one, they show no function. -/
def Method.isBuiltIn : Method → Bool
  | .values | .extendList => true
  | _ => false

def Method.naming (m : Method) : Naming := ⟨some m.name, some (m.owner ++ "." ++ m.name)⟩

/-- The naming that a function has by itself. Functions that no script can get hold of go without a
place. -/
def Function.ownNaming : Function → Naming
  | .closure name _ _ _ | .generatorBody name _ _ _ => .plain name
  | .method m => m.naming
  | .binder _ => ⟨some "__get__", some "function.__get__"⟩
  | .leaf => .plain "Pure"
  | .asTuple => .plain "tuple"
  | .standardOutput => .plain "print"
  | .stack _ => .nameless
  | .grafted _ _ => .inside ["bind"] anonymous
  | .programFactory _ => .programFactory
  | .fmapped _ _ => .mapped
  | .chained _ _ => .composed
  | .rememberedResume _ _ _ => .inside ["_replay_safe", "factory"] "resume"
  | .under _ _ _ => .inside ["Handler.evaluate"] "continuation"
  | .emitTo _ => .inside ["print_handler"] "print_"
  | .reemit => .inside ["reverse_print_handler"] "print_"
  | .gather true => .inside ["writer_handler"] "log"
  | .gather false => .inside ["collect_print_handler"] "print_"
  | .paired true => .inside ["writer_handler"] anonymous
  | .paired false => .inside ["collect_print_handler"] anonymous
  | .logAt _ => .inside ["logger_handler"] "log"
  | .readAll _ _ => .inside ["reader_handler"] "read"
  | .askFor _ => .inside ["reader_handler"] "ask"
  | .draw _ => .inside ["random_handler"] "random_"
  | .tryBoth => .plain "_backtrack_decide"
  | .extremum _ => .inside ["_combine_both"] "decide"
  | .enumerate => .plain "_all_decide"
  | .getState => .inside ["state_handler"] "get"
  | .getAt _ => .inside ["state_handler", "get"] anonymous
  | .putState => .inside ["state_handler"] "put"
  | .putAt _ _ => .inside ["state_handler", "put"] anonymous
  | .finishState _ => .inside ["state_handler"] anonymous
  | .finishAt _ _ => .inside ["state_handler", anonymous] anonymous
  | .waitStart _ => .inside ["Wait"] anonymous
  | .exitStart => .inside ["Exit"] anonymous
  | .forkStart => .plain "_fork"
  | .allocateCells => .plain "_allocate_cells"
  | .suspendOn _ => .inside ["suspend_handler"] "suspend"
  | .nowOf _ => .inside ["suspend_handler"] "now"
  | .resumeChecked _ => .inside ["suspend_handler", "suspend"] "resume_checked"
  | _ => .plain anonymous

mutual

/-- The names that a value shows. -/
def Value.naming : Value → Naming
  | .function _ f => f.naming
  | .arrow _ a => a.naming
  | .generator _ name => .plain name
  | _ => .nameless

/-- A function that is bound to its first argument shows the names of the function, and one that is
built over another completes the names of that one. -/
def Function.naming : Function → Naming
  | .boundTo f _ => f.naming
  | .programFactory source => source.naming.orElse .programFactory
  | .fmapped base _ => base.namingUnder.orElse .mapped
  | .chained base _ => base.namingUnder.orElse .composed
  | .remembering _ implementation _ _ => implementation.naming
  | f => f.ownNaming

/-- The names that an arrow shows: those of what it wraps. Arguments given early leave no place. -/
def Arrow.naming : Arrow → Naming
  | .plain f => f.namingWrapped
  | .generated _ source => source.naming
  | .partially base _ _ => ⟨base.naming.name <|> some "<partial>", none⟩

/-- The names of the callable under an arrow. -/
def Value.namingUnder : Value → Naming
  | .function _ f => f.namingUnder
  | .arrow _ a => a.namingUnder
  | _ => .nameless

def Function.namingUnder : Function → Naming
  | .boundTo f _ => f.namingUnder
  | _ => .nameless

def Arrow.namingUnder : Arrow → Naming
  | .plain f => f.naming
  | .generated _ source => source.naming.orElse .programFactory
  | .partially base _ _ => base.namingUnder

/-- The names of what a value was built over, or its own. -/
def Value.namingWrapped : Value → Naming
  | .function _ f => f.namingWrapped
  | .arrow _ a => a.naming
  | .generator _ name => .plain name
  | _ => .nameless

def Function.namingWrapped : Function → Naming
  | .boundTo f _ => f.namingWrapped
  | .programFactory source => source.naming
  | .fmapped base _ | .chained base _ => base.namingUnder
  | f => f.ownNaming

end

end AlgebraicEffects
