import Std.Data.HashMap

/-!
# Remembered results

A table of results of a function on texts.  Every entry of the table is the result for its
text, which is part of the type, so asking through the table gives the same answer as calling
the function.  Entries are never changed or removed.
-/

namespace DomQuery

/-- A table of results of the function. -/
structure Memo {β : Type} (f : String → β) where
  entries : Std.HashMap String β := ∅
  /-- Every entry is the result for its text. -/
  eq_of_getElem? : ∀ text value, entries[text]? = some value → value = f text := by simp

namespace Memo

variable {β : Type} {f : String → β}

/-- The number of texts with a remembered result. -/
def size (memo : Memo f) : Nat :=
  memo.entries.size

/-- The table with the result for one more text. -/
def insert (memo : Memo f) (text : String) : Memo f where
  entries := memo.entries.insert text (f text)
  eq_of_getElem? other value h := by
    rw [Std.HashMap.getElem?_insert] at h
    split at h
    · next heq =>
        have : text = other := by simpa using heq
        subst this
        exact (Option.some.inj h).symm
    · exact memo.eq_of_getElem? other value h

/-- The result for the text, remembered or computed now, and the table that remembers it. -/
def get (memo : Memo f) (text : String) : β × Memo f :=
  match memo.entries[text]? with
  | some value => (value, memo)
  | none => (f text, memo.insert text)

/-- Asking through the table gives the result of the function. -/
@[simp]
theorem get_fst (memo : Memo f) (text : String) : (memo.get text).1 = f text := by
  unfold get
  split
  · next value h => exact memo.eq_of_getElem? text value h
  · rfl

end Memo

end DomQuery
