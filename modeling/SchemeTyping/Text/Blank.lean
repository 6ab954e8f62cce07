/-!
# Blanks

Two classes of blank character.  `isBlank` is the white space of Unicode together with the four
information separators: such a character ends a word.  `isSkipped` is the small class of blanks
that a reader may pass over between two words; `isBlank_of_isSkipped` says that it is a subclass,
and the blanks outside it cannot stand between words at all.
-/

set_option autoImplicit false

namespace SchemeTyping.Text

/-- The blanks that may be passed over: space, tab, form feed, carriage return and newline. -/
def isSkipped (c : Char) : Bool :=
  c == ' ' || c == '\t' || c == '\x0c' || c == '\r' || c == '\n'

/-- The code points of white space, the information separators `1c` to `1f` among them. -/
def blankRanges : List (Nat × Nat) :=
  [(0x09, 0x0d), (0x1c, 0x20), (0x85, 0x85), (0xa0, 0xa0), (0x1680, 0x1680), (0x2000, 0x200a),
   (0x2028, 0x2029), (0x202f, 0x202f), (0x205f, 0x205f), (0x3000, 0x3000)]

/-- Whether `n` lies in one of the closed ranges. -/
def inRanges (n : Nat) (ranges : List (Nat × Nat)) : Bool :=
  ranges.any fun r ↦ r.1 ≤ n && n ≤ r.2

/-- A character that ends a word because it is white space. -/
def isBlank (c : Char) : Bool := inRanges c.toNat blankRanges

theorem isBlank_of_isSkipped {c : Char} (h : isSkipped c = true) : isBlank c = true := by
  simp only [isSkipped, Bool.or_eq_true, beq_iff_eq] at h
  rcases h with (((h | h) | h) | h) | h <;> subst h <;> decide

end SchemeTyping.Text
