import SchemeTyping.Environment

/-!
# The built-in procedures

The types of the procedures that every program may use.
-/

set_option autoImplicit false

namespace SchemeTyping.Prelude

open Ty

/-- A function of any number of arguments of one type, but at least `min` when that is given. -/
def repeated (min : Option Int) (argument result : Ty) : Ty :=
  .variadic min none [argument, result]

def a : Ty := .var "a"

def b : Ty := .var "b"

/-- The built-in procedures in order of declaration. -/
def declarations : List (String × Ty) :=
  [("+", repeated none number number),
   ("*", repeated none number number),
   ("-", repeated (some 1) number number),
   ("/", repeated (some 1) number number),
   ("=", repeated (some 1) number boolean),
   ("<", repeated (some 1) number boolean),
   (">", repeated (some 1) number boolean),
   ("<=", repeated (some 1) number boolean),
   (">=", repeated (some 1) number boolean),
   ("quotient", function [integer, integer, integer]),
   ("remainder", function [integer, integer, integer]),
   ("abs", function [number, number]),
   ("random", function [number]),
   ("not", function [boolean, boolean]),
   ("number?", function [any, boolean]),
   ("integer?", function [any, boolean]),
   ("string?", function [any, boolean]),
   ("boolean?", function [any, boolean]),
   ("procedure?", function [any, boolean]),
   ("null?", function [any, boolean]),
   ("string-append", repeated none string string),
   ("string-length", function [string, integer]),
   ("number->string", function [number, string]),
   ("string->number", function [string, number]),
   ("cons", .all ["a"] (function [a, list a, list a])),
   ("car", .all ["a"] (function [list a, a])),
   ("cdr", .all ["a"] (function [list a, list a])),
   ("list", .all ["a"] (repeated none a (list a))),
   ("length", .all ["a"] (function [list a, integer])),
   ("append", .all ["a"] (function [list a, list a, list a])),
   ("map", .all ["a", "b"] (function [function [a, b], list a, list b])),
   ("filter", .all ["a"] (function [function [a, boolean], list a, list a])),
   ("foldl", .all ["a", "b"] (function [function [a, b, b], b, list a, b])),
   ("display", function [any, empty])]

/-- The environment of the built-in procedures. -/
def env : Env := .ofList declarations

end SchemeTyping.Prelude
