import DomQuery.Arena.Basic
import Mathlib.Data.List.Nodup
import Mathlib.Data.Finset.Card

/-!
# What the handles of an arena resolve to

Every operation of an arena is described by what it does to `Arena.get?`: a new value shows up
under one handle that did not resolve before, a modified value changes under its own handle,
and an erased one is gone under its own handle.  Nothing else changes, whatever state the slots
and the chain of vacant slots are in.

The handles that resolve have different slots, so there are at most as many of them as slots
(`length_le_of_nodup`).
-/

namespace DomQuery.Arena

variable {α : Type} (arena : Arena α)

@[simp] theorem get?_empty (handle : Handle) : (empty : Arena α).get? handle = none := by
  simp [get?, empty]

@[simp] theorem contains_iff (handle : Handle) :
    arena.contains handle = true ↔ ∃ value, arena.get? handle = some value := by
  simp [contains, Option.isSome_iff_exists]

theorem get?_eq_some_iff {handle : Handle} {value : α} :
    arena.get? handle = some value ↔
      arena.slots[handle.index]? = some (.occupied handle.generation value) := by
  unfold get?
  split
  · next generation stored hslot =>
      simp only [hslot, Option.ite_none_right_eq_some, Option.some.injEq, Slot.occupied.injEq]
  · next hslot =>
      constructor
      · intro h
        exact absurd h (by simp)
      · intro h
        exact absurd h (hslot _ _)

theorem index_lt_of_get? {handle : Handle} {value : α} (h : arena.get? handle = some value) :
    handle.index < arena.slots.size := by
  rw [get?_eq_some_iff] at h
  exact (Array.getElem?_eq_some_iff.mp h).choose

/-- Two handles of one slot that both resolve are equal. -/
theorem eq_of_index_eq {first second : Handle} {value other : α}
    (hfirst : arena.get? first = some value) (hsecond : arena.get? second = some other)
    (hindex : first.index = second.index) : first = second := by
  rw [get?_eq_some_iff] at hfirst hsecond
  rw [hindex, hsecond] at hfirst
  simp only [Option.some.injEq, Slot.occupied.injEq] at hfirst
  cases first
  cases second
  simp_all

/-- Different handles that resolve have different slots, so there are not more of them than
slots. -/
theorem length_le_of_nodup {handles : List Handle} (hnodup : handles.Nodup)
    (hlive : ∀ handle ∈ handles, arena.contains handle = true) :
    handles.length ≤ arena.slots.size := by
  have hindices : (handles.map Handle.index).Nodup := by
    refine hnodup.map_on fun first hfirst second hsecond hindex => ?_
    obtain ⟨value, hvalue⟩ := (arena.contains_iff first).mp (hlive first hfirst)
    obtain ⟨other, hother⟩ := (arena.contains_iff second).mp (hlive second hsecond)
    exact arena.eq_of_index_eq hvalue hother hindex
  have hrange : handles.map Handle.index ⊆ List.range arena.slots.size := by
    intro index hmem
    obtain ⟨handle, hhandle, rfl⟩ := List.mem_map.mp hmem
    obtain ⟨value, hvalue⟩ := (arena.contains_iff handle).mp (hlive handle hhandle)
    exact List.mem_range.mpr (arena.index_lt_of_get? hvalue)
  calc handles.length = (handles.map Handle.index).length := (List.length_map _).symm
    _ ≤ (List.range arena.slots.size).length := (hindices.subperm hrange).length_le
    _ = arena.slots.size := List.length_range

/-- Every handle that resolves is listed. -/
theorem mem_toList {handle : Handle} {value : α} (h : arena.get? handle = some value) :
    (handle, value) ∈ arena.toList := by
  rw [get?_eq_some_iff, ← Array.getElem?_toList] at h
  refine List.mem_filterMap.mpr ⟨(.occupied handle.generation value, handle.index), ?_, rfl⟩
  exact List.mem_zipIdx_iff_getElem?.mpr h

/-- Different handles that resolve are not more than the values stored. -/
theorem length_le_toList_of_nodup {handles : List Handle} (hnodup : handles.Nodup)
    (hlive : ∀ handle ∈ handles, arena.contains handle = true) :
    handles.length ≤ arena.toList.length := by
  have hlisted : handles ⊆ arena.toList.map Prod.fst := by
    intro handle hmem
    obtain ⟨value, hvalue⟩ := (arena.contains_iff handle).mp (hlive handle hmem)
    exact List.mem_map.mpr ⟨(handle, value), arena.mem_toList hvalue, rfl⟩
  calc handles.length ≤ (arena.toList.map Prod.fst).length := (hnodup.subperm hlisted).length_le
    _ = arena.toList.length := List.length_map _

/-! ### Operations -/

/-- The value that a slot yields to a handle of the generation. -/
def read (generation : UInt32) : Slot α → Option α
  | .occupied stamp value => if stamp = generation then some value else none
  | .vacant _ _ => none

theorem get?_eq_bind (handle : Handle) :
    arena.get? handle = arena.slots[handle.index]?.bind (read handle.generation) := by
  unfold get?
  split
  · next hslot => simp [hslot, read]
  · next hslot =>
      cases hfound : arena.slots[handle.index]? with
      | none => rfl
      | some slot =>
          cases slot with
          | occupied generation value => exact absurd hfound (hslot _ _)
          | vacant generation nextFree => rfl

/-- A slot that is written yields its new content, and the other slots yield what they did. -/
theorem get?_setIfInBounds {index : Nat} (hindex : index < arena.slots.size) (slot : Slot α)
    (freeHead : Option Nat) (size : Nat) (handle : Handle) :
    (⟨arena.slots.setIfInBounds index slot, freeHead, size⟩ : Arena α).get? handle =
      if handle.index = index then read handle.generation slot else arena.get? handle := by
  rw [get?_eq_bind, get?_eq_bind]
  by_cases heq : handle.index = index
  · simp [heq, hindex]
  · simp [heq, Array.getElem?_setIfInBounds_ne (Ne.symm heq)]

theorem get?_push (value : α) (freeHead : Option Nat) (size : Nat) (handle : Handle) :
    (⟨arena.slots.push (.occupied 0 value), freeHead, size⟩ : Arena α).get? handle =
      if handle = ⟨arena.slots.size, 0⟩ then some value else arena.get? handle := by
  obtain ⟨index, generation⟩ := handle
  rw [get?_eq_bind, get?_eq_bind]
  simp only [Array.getElem?_push, Handle.mk.injEq]
  by_cases heq : index = arena.slots.size
  · by_cases hgeneration : generation = 0 <;> simp [heq, hgeneration, read, eq_comm]
  · simp [heq]

/-- Storing a value either fills a vacant slot or adds a slot. -/
theorem allocate_cases (value : α) :
    (∃ index generation next, arena.slots[index]? = some (.vacant generation next) ∧
      arena.allocate value = (⟨index, generation⟩,
        ⟨arena.slots.setIfInBounds index (.occupied generation value), next, arena.size + 1⟩)) ∨
    arena.allocate value = (⟨arena.slots.size, 0⟩,
      ⟨arena.slots.push (.occupied 0 value), arena.freeHead, arena.size + 1⟩) := by
  unfold allocate
  split
  · exact Or.inr rfl
  · next index _ =>
      split
      · next generation next hslot => exact Or.inl ⟨index, generation, next, hslot, rfl⟩
      · exact Or.inr rfl

/-- The new value resolves under its handle, and all other handles resolve as before. -/
theorem get?_allocate (value : α) (handle : Handle) :
    (arena.allocate value).2.get? handle =
      if handle = (arena.allocate value).1 then some value else arena.get? handle := by
  obtain ⟨index, generation, next, hslot, heq⟩ | heq := arena.allocate_cases value
  · have hindex : index < arena.slots.size := (Array.getElem?_eq_some_iff.mp hslot).choose
    rw [heq, arena.get?_setIfInBounds hindex]
    obtain ⟨slot, stamp⟩ := handle
    by_cases hsame : slot = index
    · subst hsame
      by_cases hgeneration : generation = stamp
      · simp [read, hgeneration]
      · simp [read, hgeneration, Ne.symm hgeneration, get?_eq_bind, hslot]
    · simp [hsame]
  · rw [heq]
    exact arena.get?_push value _ _ handle

/-- The handle of a new value did not resolve before. -/
theorem get?_allocate_fst (value : α) : arena.get? (arena.allocate value).1 = none := by
  obtain ⟨index, generation, next, hslot, heq⟩ | heq := arena.allocate_cases value
  · simp [heq, get?_eq_bind, hslot, read]
  · simp [heq, get?_eq_bind]

/-- A handle of the same slot as one that resolves does not resolve itself, unless it is the
same handle. -/
theorem get?_eq_none_of_index_eq {target handle : Handle} {value : α}
    (hvalue : arena.get? target = some value) (hindex : handle.index = target.index)
    (hne : handle ≠ target) : arena.get? handle = none := by
  cases hget : arena.get? handle with
  | none => rfl
  | some other => exact absurd (arena.eq_of_index_eq hget hvalue hindex) hne

theorem get?_modify (target : Handle) (f : α → α) (handle : Handle) :
    (arena.modify target f).get? handle =
      if handle = target then (arena.get? target).map f else arena.get? handle := by
  unfold modify
  split
  · next value hvalue =>
      rw [arena.get?_setIfInBounds (arena.index_lt_of_get? hvalue)]
      by_cases heq : handle = target
      · simp [heq, read, hvalue]
      · by_cases hindex : handle.index = target.index
        · have hgeneration : target.generation ≠ handle.generation := by
            intro h
            exact heq (by cases handle; cases target; simp_all)
          rw [arena.get?_eq_none_of_index_eq hvalue hindex heq]
          simp [read, heq, hindex, hgeneration]
        · simp [heq, hindex]
  · next hvalue =>
      by_cases heq : handle = target
      · simp [heq, hvalue]
      · simp [heq]

theorem modify_of_none {arena : Arena α} {handle : Handle} (h : arena.get? handle = none)
    (f : α → α) : arena.modify handle f = arena := by
  simp [modify, h]

/-- A value that is its own image is left as it is. -/
theorem modify_of_fixed {arena : Arena α} {handle : Handle} {value : α}
    (hvalue : arena.get? handle = some value) {f : α → α} (hf : f value = value) :
    arena.modify handle f = arena := by
  obtain ⟨hbound, hslot⟩ := Array.getElem?_eq_some_iff.mp (arena.get?_eq_some_iff.mp hvalue)
  rw [modify, hvalue]
  dsimp only
  rw [hf, ← hslot, Array.setIfInBounds, dif_pos hbound, Array.set_getElem_self]

/-- An erased handle does not resolve any more, and all other handles resolve as before. -/
theorem get?_erase (target handle : Handle) :
    (arena.erase target).get? handle = if handle = target then none else arena.get? handle := by
  unfold erase remove
  split
  · next value hvalue =>
      rw [arena.get?_setIfInBounds (arena.index_lt_of_get? hvalue)]
      by_cases heq : handle = target
      · simp [heq, read]
      · by_cases hindex : handle.index = target.index
        · rw [arena.get?_eq_none_of_index_eq hvalue hindex heq]
          simp [read, heq]
        · simp [heq, hindex]
  · next hvalue =>
      by_cases heq : handle = target
      · simp [heq, hvalue]
      · simp [heq]

theorem get?_foldl_erase (targets : List Handle) (handle : Handle) :
    (targets.foldl erase arena).get? handle =
      if handle ∈ targets then none else arena.get? handle := by
  induction targets generalizing arena with
  | nil => simp
  | cons target rest ih =>
      rw [List.foldl_cons, ih, get?_erase]
      by_cases hrest : handle ∈ rest
      · simp [hrest]
      · by_cases htarget : handle = target <;> simp [hrest, htarget]

end DomQuery.Arena
