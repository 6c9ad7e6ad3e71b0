/-!
The forms of the script language.

A form is one call into the library, or one of the few primitives that scripts have of their own.
Several spellings may name one form.
-/

set_option autoImplicit false

namespace AlgebraicEffects

/-- What scripts have of their own: values, calls, comparison and arithmetic, and ways to look at
programs. -/
inductive Primitive where
  | call | attributeOf | method | note | list | tuple | range | append | length | index | text
  | quoted | typeName | concat | integerSqrt | add | sub | mul | floorDiv | floorMod | equal | less
  | atMost | greater | not | chain | isInstance | recursionUnchanged | earlierTask | boundTo
  | demonstration | trace | explore
  deriving DecidableEq, Repr

/-- What makes and evaluates programs, arrows, handlers and results. -/
inductive CoreForm where
  -- programs
  | leaf | operation | graft | lift | apply | collectAll | sequence | traverse | listOf | tupleOf
  -- generators and arrows
  | generated | build | arrow
  -- handlers
  | handler | handlerOf | handle | compose | applyHandlers
  -- runners and their results
  | run | runCaught | runScheduled | runOnLoop | preset | ensureHandled | outcome | ok | err
  | agenda
  -- failures
  | unhandledEffect | replayDivergence | noResult | stepLimit | missingKey
  deriving DecidableEq, Repr

/-- What makes the operations of the effects, and their handlers. -/
inductive EffectForm where
  -- operations
  | print | log | read | ask | random | decide | fail | choose | chooseIn | guard | get | put
  | modify | suspend | wait | exit | fork | now | par | notAvailable
  -- handlers
  | printHandler | reversePrintHandler | collectPrintHandler | writerHandler | loggerHandler
  | readerHandler | randomHandler | stateHandler | runState | suspendHandler | firstSolution
  | backtrack | pickMax | pickMin | allChoices
  deriving DecidableEq, Repr

inductive Form where
  | primitive (p : Primitive)
  | core (c : CoreForm)
  | effect (e : EffectForm)
  deriving DecidableEq, Repr

/-- Every spelling of every primitive. -/
def Primitive.spellings : List (String × Primitive) :=
  [("call", .call), ("attr", .attributeOf), ("method", .method), ("note", .note), ("list", .list),
   ("tuple", .tuple), ("range", .range), ("append", .append), ("len", .length), ("idx", .index),
   ("str", .text), ("repr", .quoted), ("type", .typeName), ("concat", .concat),
   ("isqrt", .integerSqrt), ("+", .add), ("-", .sub), ("*", .mul), ("//", .floorDiv),
   ("%", .floorMod), ("==", .equal), ("<", .less), ("<=", .atMost), (">", .greater), ("not", .not),
   (">>", .chain), ("isa", .isInstance), ("recursion_unchanged", .recursionUnchanged),
   ("task_lt", .earlierTask), ("bind_self", .boundTo), ("example", .demonstration),
   ("trace", .trace), ("explore", .explore)]

/-- Every spelling of every core form. -/
def CoreForm.spellings : List (String × CoreForm) :=
  [("pure", .leaf), ("Pure", .leaf), ("Program.pure", .leaf), ("Program.of", .leaf),
   ("operation", .operation), ("Operation", .operation), ("bind", .graft), ("Program.lift", .lift),
   ("apply", .apply), ("collect_all", .collectAll), ("Program.collect_all", .collectAll),
   ("sequence", .sequence), ("Program.traverse", .traverse), ("Program.list", .listOf),
   ("Program.tuple", .tupleOf), ("do", .generated), ("build_program", .build),
   ("KleisliProgram", .arrow), ("handler", .handler), ("Handler", .handlerOf), ("handle", .handle),
   ("compose", .compose), ("apply_handlers", .applyHandlers), ("run", .run),
   ("sync_run", .runCaught), ("run_scheduled", .runScheduled), ("async_run", .runOnLoop),
   ("handlers_preset", .preset), ("ensure_handled", .ensureHandled), ("RunResult", .outcome),
   ("Ok", .ok), ("Err", .err), ("Scheduler", .agenda), ("UnhandledEffectError", .unhandledEffect),
   ("ReplayDivergenceError", .replayDivergence), ("NoResultError", .noResult),
   ("SchedulerStepLimitError", .stepLimit), ("MissingEnvKeyError", .missingKey)]

/-- Every spelling of every form that belongs to an effect. -/
def EffectForm.spellings : List (String × EffectForm) :=
  [("Print", .print), ("Log", .log), ("Tell", .log), ("Read", .read), ("Ask", .ask),
   ("Random", .random), ("Decide", .decide), ("Fail", .fail), ("choose", .choose),
   ("choose_in", .chooseIn), ("guard", .guard), ("Get", .get), ("Put", .put), ("Modify", .modify),
   ("Suspend", .suspend), ("Wait", .wait), ("Exit", .exit), ("Fork", .fork), ("Now", .now),
   ("par", .par), ("NOT_AVAILABLE", .notAvailable), ("print_handler", .printHandler),
   ("reverse_print_handler", .reversePrintHandler),
   ("collect_print_handler", .collectPrintHandler), ("writer_handler", .writerHandler),
   ("logger_handler", .loggerHandler), ("reader_handler", .readerHandler),
   ("random_handler", .randomHandler), ("state_handler", .stateHandler), ("run_state", .runState),
   ("suspend_handler", .suspendHandler), ("first_solution", .firstSolution),
   ("backtrack", .backtrack), ("pick_max", .pickMax), ("pick_min", .pickMin),
   ("all_choices", .allChoices)]

/-- The form that a name spells. -/
def Form.ofSpelling? (name : String) : Option Form :=
  (Primitive.spellings.lookup name).map .primitive <|>
    (CoreForm.spellings.lookup name).map .core <|>
      (EffectForm.spellings.lookup name).map .effect

end AlgebraicEffects
