/-!
Signatures and the binding of arguments to them.

An argument list has a positional part and a keyword part. Binding fills the parameters from the
left with the positional arguments, then the rest by name, then by default; it fails when a
parameter is left without an argument or gets two, and when an argument is left without a parameter.
-/

set_option autoImplicit false

namespace AlgebraicEffects

/-- The arguments of one call; keywords keep the order in which they were given. -/
structure Arguments (α : Type) where
  positional : List α
  keywords : List (String × α)

namespace Arguments

variable {α : Type}

/-- Positional arguments only. -/
def of (values : List α) : Arguments α := ⟨values, []⟩

end Arguments

structure Parameter (α : Type) where
  name : String
  default : Option α

/-- What a function accepts. -/
structure Signature (α : Type) where
  /-- Parameters that no keyword reaches. -/
  unnamed : List (Parameter α)
  /-- Parameters filled by position or by keyword. -/
  parameters : List (Parameter α)
  /-- Whether further positional arguments are accepted. -/
  acceptsRest : Bool
  /-- Parameters filled by keyword only. -/
  keywordOnly : List (Parameter α)
  /-- Whether further keywords are accepted. -/
  acceptsExtra : Bool

/-- Arguments sorted by the signature: one value for every parameter, in the order of the signature.
-/
structure Bound (α : Type) where
  values : List α
  rest : List α
  extra : List (String × α)

namespace Signature

variable {α : Type}

/-- Required parameters, filled by position or by keyword. -/
def required (names : List String) : Signature α :=
  ⟨[], names.map fun n => ⟨n, none⟩, false, [], false⟩

/-- Required parameters followed by optional ones. -/
def optional (names : List String) (defaults : List (String × α)) : Signature α :=
  ⟨[], names.map (fun n => ⟨n, none⟩) ++ defaults.map fun (n, d) => ⟨n, some d⟩, false, [], false⟩

/-- The same signature with parameters that only keywords fill. -/
def withKeywords (s : Signature α) (defaults : List (String × α)) : Signature α :=
  { s with keywordOnly := s.keywordOnly ++ defaults.map fun (n, d) => ⟨n, some d⟩ }

/-- The same signature with any number of further positional arguments. -/
def withRest (s : Signature α) : Signature α := { s with acceptsRest := true }

/-- Any arguments at all. -/
def anything : Signature α := ⟨[], [], true, [], true⟩

/-- Removes the first keyword of this name and answers its value. -/
def takeKeyword (name : String) : List (String × α) → Option (α × List (String × α))
  | [] => none
  | (n, v) :: ks =>
    if n = name then some (v, ks)
    else (takeKeyword name ks).map fun (w, rest) => (w, (n, v) :: rest)

/-- Fills one run of parameters. `named` says whether keywords reach them. -/
def fill (named : Bool) : List (Parameter α) → List α → List (String × α) →
    Option (List α × List α × List (String × α))
  | [], values, keywords => some ([], values, keywords)
  | p :: ps, v :: values, keywords =>
    if named && keywords.any (·.1 == p.name) then none
    else (fill named ps values keywords).map fun (vs, r, ks) => (v :: vs, r, ks)
  | p :: ps, [], keywords =>
    match if named then takeKeyword p.name keywords else none with
    | some (v, keywords) => (fill named ps [] keywords).map fun (vs, r, ks) => (v :: vs, r, ks)
    | none =>
      match p.default with
      | some v => (fill named ps [] keywords).map fun (vs, r, ks) => (v :: vs, r, ks)
      | none => none

def bind? (s : Signature α) (arguments : Arguments α) : Option (Bound α) := do
  let (unnamed, values, keywords) ← fill false s.unnamed arguments.positional arguments.keywords
  let (named, rest, keywords) ← fill true s.parameters values keywords
  let (keywordOnly, _, extra) ← fill true s.keywordOnly [] keywords
  guard (s.acceptsRest || rest.isEmpty)
  guard (s.acceptsExtra || extra.isEmpty)
  pure ⟨unnamed ++ named ++ keywordOnly, rest, extra⟩

/-- Filling gives every parameter of the run one value. -/
theorem length_of_fill {named : Bool} {ps : List (Parameter α)} {values : List α}
    {keywords : List (String × α)} {r : List α × List α × List (String × α)}
    (h : fill named ps values keywords = some r) : r.1.length = ps.length := by
  induction ps generalizing values keywords r with
  | nil => simp only [fill, Option.some.injEq] at h; subst h; rfl
  | cons p ps ih =>
    cases values with
    | nil =>
      simp only [fill] at h
      split at h
      · obtain ⟨s, hs, rfl⟩ := Option.map_eq_some_iff.1 h
        simp [ih hs]
      · split at h
        · obtain ⟨s, hs, rfl⟩ := Option.map_eq_some_iff.1 h
          simp [ih hs]
        · simp at h
    | cons v values =>
      simp only [fill] at h
      split at h
      · simp at h
      · obtain ⟨s, hs, rfl⟩ := Option.map_eq_some_iff.1 h
        simp [ih hs]

end Signature

end AlgebraicEffects
