import SchemeTyping.Tree.Basic
import SchemeTyping.Ty.Subst

/-!
# Environments and caches

An environment gives types to names.  A cache gives types to places of a revision of a tree: an edit
that makes a new revision leaves the old entries out of reach.
-/

set_option autoImplicit false

namespace SchemeTyping

/-- The types of names. -/
abbrev Env := OrdMap String Ty

namespace Env

/-- The type variables free in some type of an environment. -/
def freeVars (env : Env) : List String := env.values.flatMap Ty.freeVars

/-- Applies a substitution to every type of an environment. -/
def subst (σ : Subst) (env : Env) : Env := env.mapValues (Ty.subst σ)

end Env

/-- A place in a revision of a tree. -/
structure CacheKey where
  tree : Nat
  revision : Nat
  path : Path
  deriving DecidableEq, Repr, Inhabited

/-- The types found at places. -/
abbrev Cache := OrdMap CacheKey Ty

/-- The key of a path in a tree as it is now. -/
def Tree.key (t : Tree) (path : Path) : CacheKey := ⟨t.number, t.revision, path⟩

end SchemeTyping
