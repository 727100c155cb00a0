/-!
# Occurrence of a text in another

`occursIn` decides whether the characters of one text stand next to each other, and in the
same order, somewhere in another.
-/

namespace DomQuery.Text

/-- Whether the first text occurs in the second. -/
def occursIn (part : List Char) : List Char → Bool
  | [] => part.isEmpty
  | c :: rest => part.isPrefixOf (c :: rest) || occursIn part rest

/-- A text occurs in another when the other is the text with something before and after it. -/
theorem occursIn_iff {part text : List Char} : occursIn part text = true ↔ part <:+: text := by
  induction text with
  | nil => simp [occursIn]
  | cons c rest ih => simp [occursIn, ih, List.infix_cons_iff]

end DomQuery.Text
