/-!
# Names for type variables

The names are `a` to `z`, then `a1` to `z1`, and so on.  `Names.fresh` takes the first one from the
place reached so far that is not to be avoided, and from then on avoids it too.
-/

set_option autoImplicit false

namespace SchemeTyping

/-- The name at an index: a letter, followed by the round when it is not the first. -/
def letterName (index : Nat) : String :=
  let letter := String.singleton (Char.ofNat ('a'.toNat + index % 26))
  if index / 26 = 0 then letter else letter ++ toString (index / 26)

/-- A supply of names. -/
structure Names where
  /-- The index to go on from. -/
  next : Nat
  /-- Names that must not be given out. -/
  avoid : List String
  deriving Repr, Inhabited

namespace Names

/-- A supply that avoids the given names. -/
def avoiding (names : List String) : Names := ⟨0, names⟩

/-- The first index from `next` on whose name is not avoided, looking at `tries` of them. -/
def firstFree (avoid : List String) : (tries next : Nat) → Nat
  | 0, next => next
  | tries + 1, next =>
    if avoid.contains (letterName next) then firstFree avoid tries (next + 1) else next

/-- A new name and the supply without it.  One more try than there are names to avoid is enough,
because different indices have different names. -/
def fresh (names : Names) : String × Names :=
  let index := firstFree names.avoid (names.avoid.length + 1) names.next
  let name := letterName index
  (name, ⟨index + 1, name :: names.avoid⟩)

/-- The next `count` names. -/
def take : Nat → Names → List String
  | 0, _ => []
  | count + 1, names => names.fresh.1 :: take count names.fresh.2

end Names

end SchemeTyping
