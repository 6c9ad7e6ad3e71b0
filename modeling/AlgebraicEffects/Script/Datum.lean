import AlgebraicEffects.Script.Expr

/-!
The written form of scripts.

A written script is a tree of atoms and lists, with a group of named parts where keywords are given.
Reading gives the list its meaning by its first item: a special form, or else a form of the library.
Nothing here evaluates anything.
-/

set_option autoImplicit false

namespace AlgebraicEffects

inductive Datum where
  | atom (l : Literal)
  | list (items : List Datum)
  | keywords (entries : List (String × Datum))

namespace Datum

/-- A name. -/
def name? : Datum → Option String
  | .atom (.text s) => some s
  | _ => none

/-- A name, or nothing. -/
def optionalName? : Datum → Option (Option String)
  | .atom .nothing => some none
  | d => d.name?.map some

/-- The mark of a parameter that collects further arguments. -/
def restMark : Char := '*'

/-- Parameters: names, of which the last may be marked as collecting the rest. -/
def paramsOf? : List Datum → Option Params
  | [] => some ⟨[], none⟩
  | [d] => do
    let x ← d.name?
    match x.toList with
    | c :: cs => if c = restMark then some ⟨[], some (String.ofList cs)⟩ else some ⟨[x], none⟩
    | [] => some ⟨[x], none⟩
  | d :: ds => do
    let params ← paramsOf? ds
    some { params with names := (← d.name?) :: params.names }

def params? : Datum → Option Params
  | .list ds => paramsOf? ds
  | _ => none

mutual

/-- The expression that a written script denotes. -/
def expr? : Datum → Option Expr
  | .atom l => some (.literal l)
  | .list (head :: arguments) => do exprOf? (← head.name?) arguments
  | _ => none

/-- The expression that begins with this name. -/
def exprOf? (head : String) (arguments : List Datum) : Option Expr :=
  match head, arguments with
  | "$", [x] => do some (.variable (← x.name?))
  | "fn", [ps, body] => do some (.function "fn" (← ps.params?) (← body.expr?))
  | "def", [name, ps, body] => do some (.function (← name.name?) (← ps.params?) (← body.expr?))
  | "gen", [name, ps, .list body] => do
    some (.generator (← name.name?) (← ps.params?) (← block? body))
  | "let", [x, value, body] => do some (.bind (← x.name?) (← value.expr?) (← body.expr?))
  | "if", [condition, yes, no] => do
    some (.branch (← condition.expr?) (← yes.expr?) (← no.expr?))
  | "and", [first, second] => do some (.both (← first.expr?) (← second.expr?))
  | "or", [first, second] => do some (.either (← first.expr?) (← second.expr?))
  | "begin", es => do some (.block (← exprs? es))
  | "global", [x, value] => do some (.assign (← x.name?) (← value.expr?))
  | "dict", es => do some (.dict (← entries? es))
  | "raise", [kind, message] => do some (.raise (← kind.expr?) (← message.expr?))
  | "try", [e, x, recovery] => do
    some (.attempt (← e.expr?) (← x.name?) (← recovery.expr?))
  | head, arguments => do
    let f ← Form.ofSpelling? head
    let (positional, byName) ← arguments? arguments
    some (.form f positional byName)

def exprs? : List Datum → Option (List Expr)
  | [] => some []
  | d :: ds => do some ((← d.expr?) :: (← exprs? ds))

/-- Entries written as lists of a key and a value. -/
def entries? : List Datum → Option (List (Expr × Expr))
  | [] => some []
  | .list [k, v] :: ds => do some ((← k.expr?, ← v.expr?) :: (← entries? ds))
  | _ => none

/-- Arguments by position, followed by a group of keywords if there are any. -/
def arguments? : List Datum → Option (List Expr × List (String × Expr))
  | [] => some ([], [])
  | [.keywords es] => do some ([], ← named? es)
  | d :: ds => do
    let e ← d.expr?
    let (positional, byName) ← arguments? ds
    some (e :: positional, byName)

def named? : List (String × Datum) → Option (List (String × Expr))
  | [] => some []
  | (name, d) :: es => do some ((name, ← d.expr?) :: (← named? es))

/-- The statement that a written script denotes. -/
def stmt? : Datum → Option Stmt
  | .list [.atom (.text "yield"), x, e] => do some (.yield (← x.optionalName?) (← e.expr?))
  | .list [.atom (.text "set"), x, e] => do some (.set (← x.name?) (← e.expr?))
  | .list [.atom (.text "ex"), e] => do some (.run (← e.expr?))
  | .list [.atom (.text "return"), e] => do some (.finish (← e.expr?))
  | .list [.atom (.text "if"), condition, .list yes, .list no] => do
    some (.branch (← condition.expr?) (← block? yes) (← block? no))
  | .list [.atom (.text "for"), x, items, .list body] => do
    some (.each (← x.name?) (← items.expr?) (← block? body))
  | .list [.atom (.text "while"), condition, .list body] => do
    some (.loop (← condition.expr?) (← block? body))
  | .list [.atom (.text "try"), .list body, x, .list recovery] => do
    some (.attempt (← block? body) (← x.name?) (← block? recovery))
  | _ => none

def block? : List Datum → Option (List Stmt)
  | [] => some []
  | d :: ds => do some ((← d.stmt?) :: (← block? ds))

end

end Datum

end AlgebraicEffects
