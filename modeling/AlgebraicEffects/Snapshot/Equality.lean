import AlgebraicEffects.Snapshot

/-!
Identity and equality of what values show.

Numbers are equal when they are the same number, whatever their type; containers, leaves, results,
handlers and agendas when their contents are; arrows when they are of one kind and over equal
callables. Functions, operations and failures are equal only to themselves. What is not a number is
not equal to itself, but contents are compared as the same object first.
-/

set_option autoImplicit false

namespace AlgebraicEffects

/-- Whether two snapshots show one object. There is one empty tuple and one empty frozen dictionary,
and values without a tag are one object when they are the same. -/
def Snapshot.isSame : Snapshot → Snapshot → Bool
  | .nothing, .nothing => true
  | .bool a, .bool b => a == b
  | .int m, .int n => m == n
  | .float s x, .float t y => s == t && x.toBits == y.toBits
  | .text s, .text t => s == t
  | .bytes s, .bytes t => s == t
  | .tuple _ [], .tuple _ [] => true
  | .frozen _ [], .frozen _ [] => true
  | .list s _, .list t _ => s != 0 && s == t
  | .tuple s _, .tuple t _ => s != 0 && s == t
  | .names s _, .names t _ => s != 0 && s == t
  | .dict s _, .dict t _ => s != 0 && s == t
  | .frozen s _, .frozen t _ => s != 0 && s == t
  | .view s _, .view t _ => s != 0 && s == t
  | .leaf s _, .leaf t _ => s != 0 && s == t
  | .operation s _ _, .operation t _ _ => s != 0 && s == t
  | .function s _, .function t _ => s != 0 && s == t
  | .boundTo s _ _ _, .boundTo t _ _ _ => s != 0 && s == t
  | .binder s _, .binder t _ => s != 0 && s == t
  | .stack s _, .stack t _ => s != 0 && s == t
  | .arrow s _ _ _, .arrow t _ _ _ => s != 0 && s == t
  | .handler s _ _, .handler t _ _ => s != 0 && s == t
  | .ok s _, .ok t _ => s != 0 && s == t
  | .err s _, .err t _ => s != 0 && s == t
  | .outcome s _ _, .outcome t _ _ => s != 0 && s == t
  | .failure s _ _ _ _, .failure t _ _ _ _ => s != 0 && s == t
  | .generator a, .generator b => a == b
  | .agenda a _ _ _ _ _ _ _, .agenda b _ _ _ _ _ _ _ => a == b
  | .loopHost a, .loopHost b => a == b
  | .notAvailable, .notAvailable => true
  | _, _ => false

/-- Whether two lists show the same objects. -/
def sameItems : List Snapshot → List Snapshot → Bool
  | [], [] => true
  | x :: xs, y :: ys => x.isSame y && sameItems xs ys
  | _, _ => false

mutual

def Snapshot.equal : Snapshot → Snapshot → Bool
  | .nothing, .nothing => true
  | .text s, .text t => s == t
  | .bytes s, .bytes t => s == t
  | .list _ xs, .list _ ys => equalItems xs ys
  | .tuple _ xs, .tuple _ ys => equalItems xs ys
  | .names _ xs, .names _ ys => xs == ys
  | .dict _ xs, .dict _ ys => xs.length == ys.length && equalEntries xs ys
  | .dict _ xs, .frozen _ ys => xs.length == ys.length && equalEntries xs ys
  | .frozen _ xs, .dict _ ys => xs.length == ys.length && equalEntries xs ys
  | .frozen _ xs, .frozen _ ys => xs.length == ys.length && equalEntries xs ys
  | .view s _, .view t _ => s != 0 && s == t
  | .leaf _ x, .leaf _ y => x.isSame y || x.equal y
  | .operation s _ _, .operation t _ _ => s != 0 && s == t
  | .function s _, .function t _ => s != 0 && s == t
  | .boundTo _ _ f x, .boundTo _ _ g y => x.isSame y && (f.isSame g || f.equal g)
  | .binder _ f, .binder _ g => f.isSame g
  | .stack _ xs, .stack _ ys => equalItems xs ys
  | .arrow _ a _ (some f), .arrow _ b _ (some g) => a == b && (f.isSame g || f.equal g)
  | .handler _ xs x, .handler _ ys y =>
    xs.length == ys.length && equalTables xs ys && (x.isSame y || x.equal y)
  | .ok _ x, .ok _ y => x.isSame y || x.equal y
  | .err _ x, .err _ y => x.isSame y || x.equal y
  | .outcome _ x xs, .outcome _ y ys => (x.isSame y || x.equal y) && (xs.isSame ys || xs.equal ys)
  | .failure s _ _ _ _, .failure t _ _ _ _ => s != 0 && s == t
  | .generator a, .generator b => a == b
  | .agenda a s l ts _ c n t, .agenda b s' l' ts' _ c' n' t' =>
    a == b ||
      (s.isSame s' || s.equal s') && (l.isSame l' || l.equal l') && equalItems ts ts' &&
        c == c' && n == n' && (t.isSame t' || t.equal t')
  | .loopHost a, .loopHost b => a == b
  | .notAvailable, .notAvailable => true
  | x, y =>
    match x.number?, y.number? with
    | some m, some n => m.equal n
    | _, _ => false

/-- Items are compared one by one, as the same object first. -/
def equalItems : List Snapshot → List Snapshot → Bool
  | [], [] => true
  | x :: xs, y :: ys => (x.isSame y || x.equal y) && equalItems xs ys
  | _, _ => false

/-- Every entry of the first list has an equal one in the second. -/
def equalEntries : List (Snapshot × Snapshot) → List (Snapshot × Snapshot) → Bool
  | [], _ => true
  | (k, v) :: es, ys =>
    (ys.any fun (l, w) => (k.isSame l || k.equal l) && (v.isSame w || v.equal w)) &&
      equalEntries es ys

def equalTables : List (String × Snapshot) → List (String × Snapshot) → Bool
  | [], _ => true
  | (k, v) :: es, ys =>
    (ys.any fun (l, w) => k == l && (v.isSame w || v.equal w)) && equalTables es ys

end

namespace Snapshot

/-- The test by which contents and keys are compared: one object, or equal. -/
def alike (x y : Snapshot) : Bool := x.isSame y || x.equal y

/-- One object, or equal and of one type. -/
def agrees (x y : Snapshot) : Bool := x.isSame y || x.typeName == y.typeName && x.equal y

end Snapshot

end AlgebraicEffects
