import SchemeTyping.OrdMap

/-!
# Disjoint classes of keys

Keys fall into disjoint classes, and every class has a value.  The classes are trees of cells: the
value of a class stands in its root, and a look-up links the cells on its way directly to the root.
Two classes are merged by rank, and on a tie the first root stays a root.

A key can be added again.  It then starts anew in a cell of its own, and the cell that it had before
stays where it is, because other keys may be linked to it.  Such a cell belongs to no key any more,
and a forest with a link to one cannot be copied.

The operations are in a monad that keeps the forest when one of them fails, since a failing
operation may already have shortened a path.  `Forest.value?` reads a value without changing
anything.
-/

set_option autoImplicit false

namespace SchemeTyping

/-- A member of a class.  The value counts at the root only. -/
structure Cell (ν : Type) where
  value : ν
  rank : Nat
  parent : Option Nat
  deriving Repr, Inhabited

/-- Classes of keys with a value for each class. -/
structure Forest (κ ν : Type) where
  cells : Array (Cell ν)
  /-- The cell that a key stands in. -/
  index : OrdMap κ Nat
  deriving Repr

namespace Forest

variable {κ ν : Type}

instance : EmptyCollection (Forest κ ν) := ⟨⟨#[], ∅⟩⟩

instance : Inhabited (Forest κ ν) := ⟨∅⟩

/-- The parent of a cell. -/
def parent? (cells : Array (Cell ν)) (i : Nat) : Option Nat := (cells[i]?).bind (·.parent)

/-- Goes up at most `steps` links. -/
def climb (cells : Array (Cell ν)) : (steps i : Nat) → Nat
  | 0, i => i
  | steps + 1, i =>
    match parent? cells i with
    | none => i
    | some j => climb cells steps j

/-- The root above a cell.  Ranks grow along the links, so no chain is longer than the number of
cells. -/
def root (f : Forest κ ν) (i : Nat) : Nat := climb f.cells f.cells.size i

/-- Links the cells from `i` on directly to `root`, following at most `steps` links. -/
def shorten (root : Nat) : (steps i : Nat) → Array (Cell ν) → Array (Cell ν)
  | 0, _, cells => cells
  | steps + 1, i, cells =>
    match parent? cells i with
    | none => cells
    | some j =>
      if j = root then cells
      else shorten root steps j (cells.modify i fun c ↦ { c with parent := some root })

/-- How many keys there are. -/
def size (f : Forest κ ν) : Nat := f.index.size

/-- The keys in order of their first insertion. -/
def keys (f : Forest κ ν) : List κ := f.index.keys

/-- The values of the classes whose root belongs to a key, in the order of these keys. -/
def values (f : Forest κ ν) : List ν :=
  f.index.values.filterMap fun i ↦
    (f.cells[i]?).bind fun c ↦ if c.parent.isNone then some c.value else none

/-- Whether every link leads to a cell that belongs to a key. -/
def isClosed (f : Forest κ ν) : Bool :=
  f.index.values.all fun i ↦ (parent? f.cells i).all fun j ↦ f.index.values.contains j

/-- An independent copy, if the forest can be copied. -/
def copy? (f : Forest κ ν) : Option (Forest κ ν) := if f.isClosed then some f else none

variable [DecidableEq κ]

/-- Whether a key is there. -/
def contains (f : Forest κ ν) (k : κ) : Bool := f.index.contains k

/-- The value of the class of a key. -/
def value? (f : Forest κ ν) (k : κ) : Option ν :=
  (f.index.get? k).bind fun i ↦ (f.cells[f.root i]?).map (·.value)

/-- Puts a key into a class of its own. -/
def add (f : Forest κ ν) (k : κ) (v : ν) : Forest κ ν :=
  ⟨f.cells.push ⟨v, 0, none⟩, f.index.insert k f.cells.size⟩

/-- Operations that fail with the key that is missing and keep the forest even then. -/
abbrev Op (κ ν α : Type) := ExceptT κ (StateM (Forest κ ν)) α

/-- The root above the cell of a key; the cells on the way get linked to it. -/
def find (k : κ) : Op κ ν Nat := do
  let f ← get
  match f.index.get? k with
  | none => throw k
  | some i =>
    let r := f.root i
    set { f with cells := shorten r f.cells.size i f.cells }
    return r

/-- The value of the class of a key, nothing for a key that is not there. -/
def look (k : κ) : Op κ ν (Option ν) := do
  if (← get).contains k then
    let r ← find k
    return ((← get).cells[r]?).map (·.value)
  else return none

/-- Whether two keys are in one class. -/
def same (k k' : κ) : Op κ ν Bool := do
  let r ← find k
  let r' ← find k'
  return r = r'

/-- Replaces the value of the class of a key. -/
def setValue (k : κ) (v : ν) : Op κ ν Unit := do
  let r ← find k
  modify fun f ↦ { f with cells := f.cells.modify r fun c ↦ { c with value := v } }

/-- The cells after linking one root to another, which gets the value. -/
def link (cells : Array (Cell ν)) (below above : Nat) (tie : Bool) (v : ν) : Array (Cell ν) :=
  (cells.modify below fun c ↦ { c with parent := some above }).modify above fun c ↦
    { c with value := v, rank := if tie then c.rank + 1 else c.rank }

/-- Merges the cells of two different roots. -/
def merge (combine : ν → ν → ν) (cells : Array (Cell ν)) (r r' : Nat) : Array (Cell ν) :=
  match cells[r]?, cells[r']? with
  | some c, some c' =>
    let v := combine c.value c'.value
    if c.rank < c'.rank then link cells r r' false v
    else link cells r' r (c.rank == c'.rank) v
  | _, _ => cells

/-- Merges the classes of two keys.  The new value is made of the values of the first and of the
second class. -/
def union (combine : ν → ν → ν) (k k' : κ) : Op κ ν Unit := do
  let r ← find k
  let r' ← find k'
  if r = r' then return
  modify fun f ↦ { f with cells := merge combine f.cells r r' }

end Forest

end SchemeTyping
