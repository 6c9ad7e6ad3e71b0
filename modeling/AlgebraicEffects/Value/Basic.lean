import AlgebraicEffects.Failure.Kind
import AlgebraicEffects.Number.Basic
import AlgebraicEffects.Script.Expr
import AlgebraicEffects.Signature

/-!
Values.

A program is a value: a leaf that carries a finished value, or an operation that names an effect,
its parameters and the continuation from the answer to the rest of the tree. Continuations, effect
implementations and leaf transforms are functions, and functions are values too, so values,
functions, arrows and failures are defined together.

Functions are first-order descriptions: each constructor of `Function` is one arrow of the library
together with what it captured. What an arrow does when it is called is said once, in `Dispatch`.

Values that can be told apart although they look alike carry a tag: doubles, containers, programs,
functions, arrows, handlers and results. A tag other than zero is an identity, and whatever has one
has parts that have theirs. What the library makes by itself has the tag zero; it gets an identity
when a script first sees it (`Value.tagged`). A failure gets its tag when it becomes a value, and
some functions and handlers exist once and have a tag from the start.
-/

set_option autoImplicit false

namespace AlgebraicEffects

/-- The functions that belong to a kind of value. Each takes the value as its first argument, but
for those of programs that make a program from anything. -/
inductive Method where
  -- programs from anything
  | leaf | leafOf | lift | collectAll | traverse | listOf | tupleOf
  -- programs
  | map | flatMap | andThen | shiftInto | continueWith
  -- arrows
  | partially | furtherPartially | chain | shiftArrow | fmap | boundTo
  -- handlers
  | handles | extend | evaluate
  -- results and outcomes
  | isOk | isErr | unwrap | unwrapOutcome
  -- agendas
  | callLater | callSoon | time | step | drain | isEmpty | peekTime
  -- event loops
  | callLaterOnLoop | callSoonOnLoop | timeOfLoop
  -- dictionaries
  | values | keyAt | valueAt
  -- lists
  | extendList
  deriving DecidableEq, Repr

mutual

inductive Value where
  | nothing
  | bool (b : Bool)
  | int (n : Int)
  | float (tag : Nat) (x : Float)
  | text (s : String)
  | bytes (bs : List UInt8)
  /-- A list as it was made; the store knows what has been written into it since. -/
  | list (tag : Nat) (items : List Value)
  | tuple (tag : Nat) (items : List Value)
  | names (tag : Nat) (members : List String)
  /-- A dictionary as it was made; the store knows what has been written into it since. -/
  | dict (tag : Nat) (entries : List (Value × Value))
  | frozen (tag : Nat) (entries : List (Value × Value))
  /-- The values of a dictionary, without their keys. -/
  | view (tag : Nat) (items : List Value)
  | leaf (tag : Nat) (value : Value)
  | operation (tag : Nat) (name : String) (params : List Value) (resume : Value)
  | function (tag : Nat) (f : Function)
  | arrow (tag : Nat) (a : Arrow)
  | handler (tag : Nat) (table : List (String × Value)) (atLeaf : Option Value)
  | ok (tag : Nat) (value : Value)
  | err (tag : Nat) (error : Value)
  | outcome (tag : Nat) (result values : Value)
  | failure (f : Failure)
  | generator (address : Nat) (name : String)
  | agenda (address : Nat)
  | loopHost (address : Nat)
  | notAvailable

/-- The arrows of the library. Each constructor is one function; its fields are what it captured. -/
inductive Function where
  -- scripts
  | closure (name : String) (params : Params) (body : Expr) (scope : List (String × Value))
  | generatorBody (name : String) (params : Params) (body : List Stmt)
      (scope : List (String × Value))
  | proceeding (address : Nat) (scope : List (String × Value)) (frames : List Frame)
  | exhausting (address : Nat) (collected : List Value)
  | pairing (address : Nat) (entries : List (Value × Value))
  | drawing (address : Nat) (collected : List Value)
  | growing (list : Value) (address : Nat)
  -- functions of kinds of values
  | method (m : Method)
  /-- A callable whose first argument is given. -/
  | boundTo (f receiver : Value)
  /-- Gives the first argument of a function. -/
  | binder (f : Value)
  -- programs
  | leaf
  | grafted (resume next : Value)
  | mapped (f : Value)
  | constant (v : Value)
  | collecting (pending collected : List Value)
  | lastOf
  | asTuple
  | applying (arguments : List Value)
  | spreading (f : Value)
  | traversing (address : Nat) (f : Value) (collected : List Value)
  | tracing (answers records : List Value)
  | exploring (answers depth : Value)
  | exploringDrawn (address : Nat) (name : String) (resume depth : Value)
      (collected : List Value)
  -- replay
  | replaying (factory arguments : Value) (keywords : List (String × Value)) (history : Value)
  | feeding (source : Nat) (name : String) (address : Nat) (current factory arguments : Value)
      (keywords : List (String × Value))
  | programFactory (source : Value)
  | fmapped (base mapper : Value)
  | chained (base binder : Value)
  | remembering (memo : Nat) (implementation : Value) (params : List Value) (continuation : Value)
  | rememberedResume (memo recording : Nat) (continuation : Value)
  -- handlers
  | under (table : List (String × Value)) (atLeaf : Option Value) (resume : Value)
  | stack (handlers : List Value)
  | handling (address : Nat)
  -- output and log
  | standardOutput
  | emitTo (sink : Value)
  | reemit
  | reemitted (message : Value)
  | gather (logged : Bool)
  | gathered (message : Value)
  | paired (logged : Bool)
  | logAt (level : String)
  -- environment and chance
  | readAll (tag : Nat) (environment : List (Value × Value))
  | askFor (environment : List (Value × Value))
  | draw (address : Nat)
  -- choice
  | chosen (first second : Value)
  | chosenIn (low high : Value)
  | tryBoth
  | fallBack (resume : Value)
  | extremum (greatest : Bool)
  | extremumSecond (greatest : Bool) (resume : Value)
  | extremumOf (greatest : Bool) (first : Value)
  | enumerate
  | enumerateSecond (resume : Value)
  | appended (front : Value)
  | noSolutions
  | singleton
  | failToNothing
  -- state
  | modifying (f : Value)
  | getState
  | getAt (resume : Value)
  | putState
  | putAt (value resume : Value)
  | finishState (paired : Bool)
  | finishAt (paired : Bool) (value : Value)
  -- suspension
  | waitStart (delay : Value)
  | exitStart
  | forkStart
  | allocateCells
  | parStart (left right : Value)
  | parForked (left right cells : Value)
  | parSettle (index : Nat) (cells : Value)
  | suspendOn (host : Value)
  | nowOf (host : Value)
  | resumeChecked (resume : Value)
  -- runners
  | recordIn (address : Nat)
  | draining (address executed : Nat)
  | turning (address : Nat)

/-- Arrows from arguments to programs, which compose. -/
inductive Arrow where
  | plain (f : Value)
  /-- Runs the generators of `source` by replay; `tag` is the identity of the function that does. -/
  | generated (tag : Nat) (source : Value)
  | partially (base : Value) (arguments : List Value) (keywords : List (String × Value))

/-- What a suspended generator body still has to do, innermost first. -/
inductive Frame where
  | block (stmts : List Stmt)
  /-- The items from a position on of the container with this tag, or of what has none. -/
  | each (x : String) (tag position : Nat) (items : List Value) (body : List Stmt)
  | drawn (x : String) (address : Nat) (body : List Stmt)
  | loop (condition : Expr) (body : List Stmt)
  | guarded (x : String) (recovery : List Stmt)

/-- Failures, by their cause. A message that shows values is fixed when the failure is made. -/
inductive Failure where
  /-- Raised by a script. -/
  | raised (kind : Kind) (argument : Value)
  | unhandledEffect (message : String) (name params : Value)
  | replayDivergence (message : String) (functionName expected consumed : Value)
  | noResult
  | stepLimit (message : String) (maxSteps : Value)
  | missingKey (message : String) (key : Value)
  /-- A generator has returned this value. -/
  | exhausted (value : Value)
  | generatorRaisedStop
  | mapperNotCallable
  | binderNotCallable
  | effectNameNotText (typeName : String)
  | resumeNotCallable
  | paramsText
  | tableNameNotText (typeName : String)
  | implementationNotCallable (name : String)
  | leafTransformNotCallable
  | leafTransformTwice
  | leafTransformWithHandler
  | recursionLimitNotPositive
  | noErrorOnSuccess
  | maxStepsNegative
  | delayNegative (shown : String)
  | waitNegative (shown : String)
  | sinkNotCallable
  | startNotCallable
  /-- Nothing has an attribute of this name where one was asked for. -/
  | noAttribute (name : String)
  /-- A fault without a text of its own. -/
  | fault (kind : Kind)
  /-- A failure that has become a value. -/
  | caught (tag : Nat) (f : Failure)

end

/-- All functions that belong to kinds of values. -/
def Method.all : List Method :=
  [.leaf, .leafOf, .lift, .collectAll, .traverse, .listOf, .tupleOf, .map, .flatMap, .andThen,
   .shiftInto, .continueWith, .partially, .furtherPartially, .chain, .shiftArrow, .fmap, .boundTo,
   .handles, .extend, .evaluate, .isOk, .isErr, .unwrap, .unwrapOutcome, .callLater, .callSoon,
   .time, .step, .drain, .isEmpty, .peekTime, .callLaterOnLoop, .callSoonOnLoop, .timeOfLoop,
   .values, .keyAt, .valueAt, .extendList]

/-- The identity of a function that exists once; the others have none until they are seen. The tags
from 13 to 16 belong to the search strategies. -/
def Function.standingTag : Function → Nat
  | .leaf => 1
  | .standardOutput => 2
  | .asTuple => 3
  | .tryBoth => 4
  | .extremum true => 5
  | .extremum false => 6
  | .enumerate => 7
  | .noSolutions => 8
  | .singleton => 9
  | .failToNothing => 10
  | .forkStart => 11
  | .allocateCells => 12
  | .method m => 17 + Method.all.idxOf m
  | _ => 0

/-- The least tag that nothing has from the start. -/
def firstTag : Nat := 17 + Method.all.length

/-- Local variables, the most recent binding first. -/
abbrev Scope := List (String × Value)

namespace Value

def ofLiteral : Literal → Value
  | .nothing => .nothing
  | .bool b => .bool b
  | .int n => .int n
  | .float x => .float 0 x
  | .text s => .text s
  | .bytes bs => .bytes bs

/-- A number as a value; only a double has an identity. -/
def ofNumber (tag : Nat) : Number → Value
  | .int n => .int n
  | .float x => .float tag x

/-- The identity of a number; only a double has one. -/
def numberTag : Value → Nat
  | .float tag _ => tag
  | _ => 0

/-- Truth values are numbers: false is zero and true is one. -/
def number? : Value → Option Number
  | .bool b => some (.int (if b then 1 else 0))
  | .int n => some (.int n)
  | .float _ x => some (.float x)
  | _ => none

/-- A function of the library. One that exists only once has its identity from the start. -/
def arrowOf (f : Function) : Value := .function f.standingTag f

/-- An operation whose continuation is the leaf, so that it evaluates to its own answer. -/
def bare (name : String) (params : List Value) : Value :=
  .operation 0 name params (arrowOf .leaf)

end Value

end AlgebraicEffects
