import DomQuery.Proofs.Arena.Lookup

/-!
# The number of values in an arena

An arena keeps the number of its values beside its slots.  Whatever the chain of vacant slots
looks like, every operation changes this number by as much as it changes the number of occupied
slots: storing a value occupies one slot more, removing one vacates a slot, and replacing a value
does neither.  So the two numbers stay equal (`IsCounted`), and removing values one after the
other takes away exactly as many as there are (`IsCounted.size_foldl_erase`).
-/

namespace DomQuery

/-- Whether the slot holds a value. -/
def Slot.isOccupied {α : Type} : Slot α → Bool
  | .occupied _ _ => true
  | .vacant _ _ => false

namespace Arena

variable {α : Type} {arena : Arena α}

/-- The number kept beside the slots, and the number of occupied slots. -/
def tally (arena : Arena α) : Nat × Nat :=
  (arena.size, arena.slots.countP Slot.isOccupied)

/-- The number kept beside the slots is the number of occupied slots. -/
def IsCounted (arena : Arena α) : Prop :=
  arena.tally.1 = arena.tally.2

/-! ### Slots -/

/-- Writing a slot takes what the slot was off the number of occupied slots, and adds what it
becomes. -/
theorem countP_setIfInBounds {slots : Array (Slot α)} {index : Nat} {old : Slot α}
    (hold : slots[index]? = some old) (new : Slot α) :
    (slots.setIfInBounds index new).countP Slot.isOccupied + old.isOccupied.toNat =
      slots.countP Slot.isOccupied + new.isOccupied.toNat := by
  obtain ⟨hindex, rfl⟩ := Array.getElem?_eq_some_iff.mp hold
  rw [Array.setIfInBounds, dif_pos hindex, Array.countP_set]
  have hpos : slots[index].isOccupied = true → 0 < slots.countP Slot.isOccupied := fun hoccupied =>
    Array.countP_pos_iff.mpr ⟨_, Array.getElem_mem hindex, hoccupied⟩
  cases hoccupied : slots[index].isOccupied with
  | false => cases new.isOccupied <;> simp
  | true =>
      have := hpos hoccupied
      cases new.isOccupied <;> simp <;> omega

theorem tally_setIfInBounds {index : Nat} {old new : Slot α}
    (hold : arena.slots[index]? = some old) (hsame : new.isOccupied = old.isOccupied) :
    ({ arena with slots := arena.slots.setIfInBounds index new } : Arena α).tally =
      arena.tally := by
  have hcount := countP_setIfInBounds hold new
  rw [hsame, Nat.add_right_cancel_iff] at hcount
  rw [tally, tally, hcount]

/-! ### Operations -/

/-- Replacing a value leaves both numbers as they are. -/
@[simp] theorem tally_modify (arena : Arena α) (handle : Handle) (f : α → α) :
    (arena.modify handle f).tally = arena.tally := by
  unfold modify
  split
  · next value hvalue => exact tally_setIfInBounds ((arena.get?_eq_some_iff).mp hvalue) rfl
  · rfl

theorem erase_of_none {handle : Handle} (h : arena.get? handle = none) :
    arena.erase handle = arena := by
  rw [erase, remove, h]

namespace IsCounted

theorem empty : (Arena.empty : Arena α).IsCounted := rfl

theorem allocate (h : arena.IsCounted) (value : α) : (arena.allocate value).2.IsCounted := by
  unfold IsCounted tally at h ⊢
  obtain ⟨index, generation, next, hslot, heq⟩ | heq := arena.allocate_cases value
  · have hcount := countP_setIfInBounds hslot (.occupied generation value)
    simp only [Slot.isOccupied, Bool.toNat_false, Bool.toNat_true, Nat.add_zero] at hcount
    rw [heq]
    dsimp only at h ⊢
    rw [h, hcount]
  · rw [heq]
    dsimp only at h ⊢
    rw [h, Array.countP_push, Slot.isOccupied, if_pos rfl]

/-- Removing a value takes one off both numbers. -/
theorem erase_of_contains (h : arena.IsCounted) {handle : Handle}
    (hlive : arena.contains handle = true) :
    (arena.erase handle).IsCounted ∧ (arena.erase handle).size + 1 = arena.size := by
  obtain ⟨value, hvalue⟩ := (arena.contains_iff handle).mp hlive
  have hslot := arena.get?_eq_some_iff.mp hvalue
  have hcount := countP_setIfInBounds hslot (.vacant (handle.generation + 1) arena.freeHead)
  simp only [Slot.isOccupied, Bool.toNat_false, Bool.toNat_true, Nat.add_zero] at hcount
  unfold IsCounted tally at h ⊢
  rw [erase, remove, hvalue]
  dsimp only at h ⊢
  omega

theorem erase (h : arena.IsCounted) (handle : Handle) : (arena.erase handle).IsCounted := by
  cases hget : arena.get? handle with
  | none => rwa [erase_of_none hget]
  | some value => exact (h.erase_of_contains (by simp [hget])).1

theorem foldl_erase (h : arena.IsCounted) (gone : List Handle) :
    (gone.foldl Arena.erase arena).IsCounted := by
  induction gone generalizing arena with
  | nil => exact h
  | cons handle rest ih => exact ih (h.erase handle)

/-- Removing values one after the other takes away as many as there are. -/
theorem size_foldl_erase (h : arena.IsCounted) {gone : List Handle} (hnodup : gone.Nodup)
    (hlive : ∀ handle ∈ gone, arena.contains handle = true) :
    (gone.foldl Arena.erase arena).size + gone.length = arena.size := by
  induction gone generalizing arena with
  | nil => rfl
  | cons handle rest ih =>
      obtain ⟨hnotin, hrest⟩ := List.nodup_cons.mp hnodup
      obtain ⟨hcounted, hsize⟩ := h.erase_of_contains (hlive handle (by simp))
      have hstill : ∀ other ∈ rest, (arena.erase handle).contains other = true := by
        intro other hmem
        have hne : other ≠ handle := fun heq => hnotin (heq ▸ hmem)
        rw [contains, arena.get?_erase, if_neg hne]
        exact hlive other (by simp [hmem])
      have hfold := ih hcounted hrest hstill
      rw [List.foldl_cons, List.length_cons]
      omega

end IsCounted

end Arena

end DomQuery
