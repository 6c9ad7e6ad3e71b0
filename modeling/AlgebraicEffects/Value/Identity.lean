import AlgebraicEffects.Value.Nature

/-!
Identities.

What the library makes by itself has no identity. It gets one when a script first sees it, together
with everything in it that the script can reach, so that it stays one object from then on: `tagged`
gives out tags in order and leaves what has an identity as it is. What a function has captured is
out of reach, and keeps what it is.
-/

set_option autoImplicit false

namespace AlgebraicEffects

/-- Whether a value has its identity. There is one empty tuple and one empty frozen dictionary, and
what has no tag is told apart by what it is. -/
def Value.isIdentified : Value → Bool
  | .float tag _ | .list tag _ | .names tag _ | .dict tag _ | .leaf tag _ => tag != 0
  | .operation tag _ _ _ | .function tag _ | .arrow tag _ | .handler tag _ _ => tag != 0
  | .view tag _ => tag != 0
  | .ok tag _ | .err tag _ | .outcome tag _ _ => tag != 0
  | .tuple tag items => tag != 0 || items.isEmpty
  | .frozen tag entries => tag != 0 || entries.isEmpty
  | .failure f => f.tag != 0
  | _ => true

/-- A computation that gives out tags, each greater than the one before. -/
abbrev Tagging := StateM Nat

def newTag : Tagging Nat := modifyGet fun n => (n, n + 1)

mutual

/-- The value with an identity, for itself and for each of its parts, if it has none yet. The tag
after that of an operation belongs to the tuple of its parameters. -/
def Value.tagged : Value → Tagging Value
  | .float 0 x => return .float (← newTag) x
  | .list 0 items => do return .list (← newTag) (← taggedItems [] items)
  | .tuple 0 [] => return .tuple 0 []
  | .tuple 0 (v :: vs) => do return .tuple (← newTag) (← taggedItems [← v.tagged] vs)
  | .names 0 members => return .names (← newTag) members
  | .dict 0 entries => do return .dict (← newTag) (← taggedEntries [] entries)
  | .view 0 items => do return .view (← newTag) (← taggedItems [] items)
  | .frozen 0 entries => do return .frozen (← newTag) (← taggedEntries [] entries)
  | .leaf 0 v => do return .leaf (← newTag) (← v.tagged)
  | .operation 0 name params resume => do
    let tag ← newTag
    let _ ← newTag
    return .operation tag name (← taggedItems [] params) (← resume.tagged)
  | .function 0 f => do return .function (← newTag) (← f.tagged)
  | .arrow 0 a => do return .arrow (← newTag) (← a.tagged)
  | .handler 0 table atLeaf => do
    let tag ← newTag
    let table ← taggedTable [] table
    match atLeaf with
    | none => return .handler tag table none
    | some f => return .handler tag table (some (← f.tagged))
  | .ok 0 v => do return .ok (← newTag) (← v.tagged)
  | .err 0 v => do return .err (← newTag) (← v.tagged)
  | .outcome 0 r vs => do return .outcome (← newTag) (← r.tagged) (← vs.tagged)
  | .failure (.caught tag f) => return .failure (.caught tag f)
  | .failure f => do return .failure (.caught (← newTag) (← f.tagged))
  | v => return v

def taggedItems (done : List Value) : List Value → Tagging (List Value)
  | [] => return done.reverse
  | v :: vs => do taggedItems ((← v.tagged) :: done) vs

def taggedEntries (done : List (Value × Value)) :
    List (Value × Value) → Tagging (List (Value × Value))
  | [] => return done.reverse
  | (k, v) :: es => do taggedEntries ((← k.tagged, ← v.tagged) :: done) es

def taggedTable (done : List (String × Value)) :
    List (String × Value) → Tagging (List (String × Value))
  | [] => return done.reverse
  | (name, v) :: es => do taggedTable ((name, ← v.tagged) :: done) es

/-- What a bound function and a stack show of what they are made from can be reached. -/
def Function.tagged : Function → Tagging Function
  | .boundTo f receiver => do return .boundTo (← f.tagged) (← receiver.tagged)
  | .binder f => do return .binder (← f.tagged)
  | .stack handlers => do return .stack (← taggedItems [] handlers)
  | f => return f

def Arrow.tagged : Arrow → Tagging Arrow
  | .plain f => do return .plain (← f.tagged)
  | .generated 0 source => do return .generated (← newTag) (← source.tagged)
  | .generated tag source => return .generated tag source
  | .partially base arguments keywords => do
    return .partially (← base.tagged) (← taggedItems [] arguments) (← taggedTable [] keywords)

/-- The failure with an identity for each value that it was made from. -/
def Failure.tagged : Failure → Tagging Failure
  | .raised kind argument => do return .raised kind (← argument.tagged)
  | .unhandledEffect message name params => do
    return .unhandledEffect message (← name.tagged) (← params.tagged)
  | .replayDivergence message functionName expected consumed => do
    return .replayDivergence message (← functionName.tagged) (← expected.tagged)
      (← consumed.tagged)
  | .stepLimit message maxSteps => do return .stepLimit message (← maxSteps.tagged)
  | .missingKey message key => do return .missingKey message (← key.tagged)
  | .exhausted v => do return .exhausted (← v.tagged)
  | f => return f

end

namespace Arguments

/-- Whether every argument of a call has its identity. -/
def areIdentified (call : Arguments Value) : Bool :=
  call.positional.all Value.isIdentified && call.keywords.all fun (_, v) => v.isIdentified

/-- The arguments of a call, each with an identity. -/
def tagged (call : Arguments Value) : Tagging (Arguments Value) := do
  return ⟨← taggedItems [] call.positional, ← taggedTable [] call.keywords⟩

end Arguments

end AlgebraicEffects
