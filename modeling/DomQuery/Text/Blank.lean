/-!
# Blank characters

This file holds the Unicode property `White_Space` and the operations on text that
depend on it alone: trimming a text, splitting it into words, and cutting off its first
word.  Everything works on lists of characters, so that each operation is one of the
standard list operations applied to `isBlank`.
-/

namespace DomQuery.Text

/-- The characters with the Unicode property `White_Space`. -/
def isBlank (c : Char) : Bool :=
  let code := c.toNat
  (0x9 ≤ code && code ≤ 0xd) || code == 0x20 || code == 0x85 || code == 0xa0 ||
    code == 0x1680 || (0x2000 ≤ code && code ≤ 0x200a) || code == 0x2028 ||
    code == 0x2029 || code == 0x202f || code == 0x205f || code == 0x3000

/-- The text without the blank characters at its beginning. -/
def trimStart (text : List Char) : List Char :=
  text.dropWhile isBlank

/-- The text without the blank characters at its end. -/
def trimEnd (text : List Char) : List Char :=
  (text.reverse.dropWhile isBlank).reverse

/-- The text without the blank characters at either end. -/
def trim (text : List Char) : List Char :=
  trimEnd (trimStart text)

/-- The maximal runs of characters that are not blank, in order. -/
def words (text : List Char) : List (List Char) :=
  (text.splitOnP isBlank).filter fun word => !word.isEmpty

/-- The text before its first blank character, and the text after that character (nothing
when no character is blank). -/
def cutAtBlank (text : List Char) : List Char × List Char :=
  (text.takeWhile fun c => !isBlank c, (text.dropWhile fun c => !isBlank c).drop 1)

/-- Every character that is white space in the narrow sense is blank. -/
theorem isBlank_of_isWhitespace {c : Char} (h : c.isWhitespace = true) : isBlank c = true := by
  simp only [Char.isWhitespace, Bool.or_eq_true, decide_eq_true_eq] at h
  rcases h with ((rfl | rfl) | rfl) | rfl <;> decide

end DomQuery.Text
