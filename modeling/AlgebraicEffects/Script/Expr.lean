import AlgebraicEffects.Script.Form

/-!
Scripts: expressions and generator statements.

An expression denotes a value; a generator body is a block of statements, of which `yield` alone
suspends it. Both are plain data, so a function value carries its body and the scope it was made in.
-/

set_option autoImplicit false

namespace AlgebraicEffects

inductive Literal where
  | nothing
  | bool (b : Bool)
  | int (n : Int)
  | float (x : Float)
  | text (s : String)
  | bytes (bs : List UInt8)

/-- Parameters of a scripted function; `rest` collects further positional arguments. -/
structure Params where
  names : List String
  rest : Option String

mutual

inductive Expr where
  | literal (l : Literal)
  | variable (x : String)
  | function (name : String) (params : Params) (body : Expr)
  | generator (name : String) (params : Params) (body : List Stmt)
  | bind (x : String) (value body : Expr)
  | branch (condition yes no : Expr)
  | both (first second : Expr)
  | either (first second : Expr)
  | block (es : List Expr)
  | assign (x : String) (value : Expr)
  | dict (entries : List (Expr × Expr))
  | raise (kind message : Expr)
  | attempt (e : Expr) (x : String) (recovery : Expr)
  | form (f : Form) (arguments : List Expr) (keywords : List (String × Expr))

inductive Stmt where
  | yield (x : Option String) (e : Expr)
  | set (x : String) (e : Expr)
  | run (e : Expr)
  | finish (e : Expr)
  | branch (condition : Expr) (yes no : List Stmt)
  | each (x : String) (items : Expr) (body : List Stmt)
  | loop (condition : Expr) (body : List Stmt)
  | attempt (body : List Stmt) (x : String) (recovery : List Stmt)

end

end AlgebraicEffects
