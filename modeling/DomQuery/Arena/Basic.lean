/-!
# Generational arena

An arena keeps values in numbered slots and hands out a handle for each value stored.  A
slot is used again after its value has been removed, so a handle also carries the
*generation* of its slot: removing a value moves the slot to its next generation, and a
handle resolves only while its generation is the current one.  Generations are 32-bit words
and wrap around.

Every operation accepts every handle.  A handle that does not resolve, because its value was
removed or because it was never handed out, reads as `none` and changes nothing.

The vacant slots are threaded into a chain, from the one freed last to the one freed first:
the arena names its beginning, and every vacant slot names the next.
-/

namespace DomQuery

/-- A slot number together with the generation of the slot at the time of allocation. -/
structure Handle where
  index : Nat
  generation : UInt32
  deriving DecidableEq, Repr

/-- A slot either holds a value, or is vacant and remembers the generation that its next
value will get and the vacant slot to be used after it. -/
inductive Slot (α : Type) where
  | occupied (generation : UInt32) (value : α)
  | vacant (generation : UInt32) (nextFree : Option Nat)

/-- The value in a slot with its handle, given the number of the slot. -/
def Slot.entry? {α : Type} (slot : Slot α) (index : Nat) : Option (Handle × α) :=
  match slot with
  | .occupied generation value => some (⟨index, generation⟩, value)
  | .vacant _ _ => none

/-- Slots, the vacant slot to be used next, and the number of values stored. -/
structure Arena (α : Type) where
  slots : Array (Slot α) := #[]
  freeHead : Option Nat := none
  size : Nat := 0

namespace Arena

variable {α : Type}

/-- The arena without slots. -/
def empty : Arena α := {}

/-- Stores a value in the most recently freed slot, or in a new slot when none is vacant, and
returns its handle. -/
def allocate (arena : Arena α) (value : α) : Handle × Arena α :=
  let fresh : Handle × Arena α :=
    (⟨arena.slots.size, 0⟩,
      { arena with slots := arena.slots.push (.occupied 0 value), size := arena.size + 1 })
  match arena.freeHead with
  | none => fresh
  | some index =>
      match arena.slots[index]? with
      | some (.vacant generation nextFree) =>
          (⟨index, generation⟩,
            { slots := arena.slots.setIfInBounds index (.occupied generation value)
              freeHead := nextFree
              size := arena.size + 1 })
      | _ => fresh

/-- The value that the handle resolves to. -/
def get? (arena : Arena α) (handle : Handle) : Option α :=
  match arena.slots[handle.index]? with
  | some (.occupied generation value) =>
      if generation = handle.generation then some value else none
  | _ => none

/-- Whether the handle resolves to a value. -/
def contains (arena : Arena α) (handle : Handle) : Bool :=
  (arena.get? handle).isSome

/-- Replaces the value that the handle resolves to by its image. -/
def modify (arena : Arena α) (handle : Handle) (f : α → α) : Arena α :=
  match arena.get? handle with
  | some value =>
      let slot := Slot.occupied handle.generation (f value)
      { arena with slots := arena.slots.setIfInBounds handle.index slot }
  | none => arena

/-- Removes and returns the value that the handle resolves to; its slot becomes the first to
be used again. -/
def remove (arena : Arena α) (handle : Handle) : Option α × Arena α :=
  match arena.get? handle with
  | some value =>
      (some value,
        { slots := arena.slots.setIfInBounds handle.index
            (.vacant (handle.generation + 1) arena.freeHead)
          freeHead := some handle.index
          size := arena.size - 1 })
  | none => (none, arena)

/-- The arena after removing the value that the handle resolves to. -/
def erase (arena : Arena α) (handle : Handle) : Arena α :=
  (arena.remove handle).2

/-- Whether no value is stored. -/
def isEmpty (arena : Arena α) : Bool :=
  arena.size == 0

/-- The values stored, with their handles, in the order of their slots. -/
def toList (arena : Arena α) : List (Handle × α) :=
  arena.slots.toList.zipIdx.filterMap fun (slot, index) => slot.entry? index

end Arena

end DomQuery
