import DomQuery.Proofs.Arena.Lookup
import Mathlib.Algebra.Group.Nat.Defs

/-!
# The history of an arena

An arena that starts empty is told by what was done to it.  Every operation leaves one event
behind, and the events say what each handle resolves to: to the value that the handle was given
to, with the edits made through it since, as long as the slot of the handle has not been freed
(`get?_ofOperations`).  At most one allocation can be the one that a handle stands for, although
a handle may be given out more than once.

The generation of a slot counts how often the slot was freed, in a word of 32 bits
(`generation_ofOperations`).  Two allocations therefore return the same handle exactly when they
use the same slot and a multiple of `2 ^ 32` removals lies between them.  Slots are numbered
without a bound here, so nothing is assumed about their number.
-/

namespace DomQuery

/-- The generation of the value in the slot, or of its next value. -/
def Slot.generation {α : Type} : Slot α → UInt32
  | .occupied generation _ => generation
  | .vacant generation _ => generation

namespace Arena

variable {α : Type} {arena after : Arena α}

/-! ### Operations and events -/

/-- One operation on an arena.  It may be given any handle. -/
inductive Operation (α : Type) where
  | allocate (value : α)
  | modify (handle : Handle) (f : α → α)
  | remove (handle : Handle)

/-- What an operation did. -/
inductive Event (α : Type) where
  /-- The value was stored, and the handle returned for it. -/
  | stored (handle : Handle) (value : α)
  /-- The value of the handle was replaced by its image. -/
  | edited (handle : Handle) (f : α → α)
  /-- The value of the handle was removed and returned. -/
  | freed (handle : Handle) (value : α)
  /-- The handle did not resolve. -/
  | refused (handle : Handle)

namespace Event

/-- The handle that the operation returned or was given. -/
def handle : Event α → Handle
  | stored handle _ => handle
  | edited handle _ => handle
  | freed handle _ => handle
  | refused handle => handle

/-- Whether a value was removed from the slot. -/
def frees (slot : Nat) : Event α → Bool
  | freed handle _ => handle.index == slot
  | _ => false

/-- What the event does to the value of the handle. -/
def edit (handle : Handle) (value : α) : Event α → α
  | edited target f => if target = handle then f value else value
  | _ => value

end Event

/-- Carries out the operation: what it did, and the arena after it. -/
def perform (arena : Arena α) : Operation α → Event α × Arena α
  | .allocate value => (.stored (arena.allocate value).1 value, (arena.allocate value).2)
  | .modify handle f =>
      (if arena.contains handle then .edited handle f else .refused handle,
        arena.modify handle f)
  | .remove handle =>
      (match (arena.remove handle).1 with
        | some value => .freed handle value
        | none => .refused handle,
        (arena.remove handle).2)

/-- The event can happen to the arena, and leaves the other arena behind. -/
inductive Happens (arena : Arena α) : Event α → Arena α → Prop where
  | stored (value : α) :
      Happens arena (.stored (arena.allocate value).1 value) (arena.allocate value).2
  | edited {handle : Handle} {value : α} (f : α → α) : arena.get? handle = some value →
      Happens arena (.edited handle f) (arena.modify handle f)
  | freed {handle : Handle} {value : α} : arena.get? handle = some value →
      Happens arena (.freed handle value) (arena.erase handle)
  | refused {handle : Handle} : arena.get? handle = none →
      Happens arena (.refused handle) arena

theorem remove_fst (arena : Arena α) (handle : Handle) :
    (arena.remove handle).1 = arena.get? handle := by
  unfold remove
  split <;> simp_all

theorem remove_snd_of_none {handle : Handle} (h : arena.get? handle = none) :
    (arena.remove handle).2 = arena := by
  simp [remove, h]

theorem happens_perform (arena : Arena α) (operation : Operation α) :
    arena.Happens (arena.perform operation).1 (arena.perform operation).2 := by
  cases operation with
  | allocate value => exact .stored value
  | modify handle f =>
      cases h : arena.get? handle with
      | none =>
          simp only [perform, contains, h, modify_of_none h]
          exact .refused h
      | some value =>
          simp only [perform, contains, h]
          exact .edited f h
  | remove handle =>
      cases h : arena.get? handle with
      | none =>
          simp only [perform, remove_fst, h, remove_snd_of_none h]
          exact .refused h
      | some value =>
          simp only [perform, remove_fst, h]
          exact .freed h

namespace Happens

variable {event : Event α}

/-- What a handle resolves to after an event: to the value stored under it, or to what it
resolved to before, edited, unless its slot was freed. -/
theorem get?_iff (h : arena.Happens event after) (handle : Handle) (value : α) :
    after.get? handle = some value ↔ event = .stored handle value ∨
      ∃ old, arena.get? handle = some old ∧ event.frees handle.index = false ∧
        event.edit handle old = value := by
  cases h with
  | stored fresh =>
      rw [get?_allocate]
      by_cases heq : handle = (arena.allocate fresh).1
      · simp [heq, get?_allocate_fst]
      · simp [heq, Ne.symm heq, Event.frees, Event.edit]
  | @edited target old f htarget =>
      rw [get?_modify]
      by_cases heq : handle = target
      · simp [heq, htarget, Event.frees, Event.edit]
      · simp [heq, Ne.symm heq, Event.frees, Event.edit]
  | @freed target old htarget =>
      rw [get?_erase]
      by_cases heq : handle = target
      · simp [heq, Event.frees]
      · by_cases hindex : handle.index = target.index
        · simp [heq, arena.get?_eq_none_of_index_eq htarget hindex heq]
        · simp [heq, Ne.symm hindex, Event.frees, Event.edit]
  | refused htarget => simp [Event.frees, Event.edit]

/-- An event does not change what other handles resolve to. -/
theorem get?_of_ne (h : arena.Happens event after) {handle : Handle} (hne : event.handle ≠ handle) :
    after.get? handle = arena.get? handle := by
  cases h with
  | stored value => exact (arena.get?_allocate value handle).trans (if_neg (Ne.symm hne))
  | edited f _ => exact (arena.get?_modify _ f handle).trans (if_neg (Ne.symm hne))
  | freed _ => exact (arena.get?_erase _ handle).trans (if_neg (Ne.symm hne))
  | refused _ => rfl

end Happens

/-! ### Histories -/

/-- An arena with the events that led to it, in their order. -/
structure History (α : Type) where
  arena : Arena α := empty
  events : List (Event α) := []

namespace History

/-- The history with one more operation. -/
def step (past : History α) (operation : Operation α) : History α where
  arena := (past.arena.perform operation).2
  events := past.events ++ [(past.arena.perform operation).1]

/-- The history of the operations, beginning with the empty arena. -/
def ofOperations (operations : List (Operation α)) : History α :=
  operations.foldl step {}

theorem ofOperations_concat (operations : List (Operation α)) (operation : Operation α) :
    ofOperations (operations ++ [operation]) = (ofOperations operations).step operation := by
  rw [ofOperations, List.foldl_concat, ofOperations]

/-- Every event of a history happened to the arena of the events before it. -/
theorem exists_of_events_eq {operations : List (Operation α)} {event : Event α}
    {earlier later : List (Event α)}
    (hevents : (ofOperations operations).events = earlier ++ event :: later) :
    ∃ before after, (ofOperations before).events = earlier ∧
      (ofOperations before).arena.Happens event after := by
  induction operations using List.reverseRecOn generalizing later with
  | nil => exact absurd hevents (by simp [ofOperations])
  | append_singleton before operation ih =>
      rw [ofOperations_concat, step] at hevents
      rcases List.eq_nil_or_concat' later with rfl | ⟨rest, last, rfl⟩
      · obtain ⟨hearlier, hevent⟩ := List.append_inj' hevents rfl
        rw [← List.singleton_inj.mp hevent]
        exact ⟨before, _, hearlier, happens_perform _ operation⟩
      · rw [← List.cons_append, ← List.append_assoc] at hevents
        exact ih (List.append_inj' hevents rfl).1

end History

/-! ### What the handles resolve to -/

/-- The value after the edits made through the handle. -/
def editedBy (handle : Handle) (events : List (Event α)) (value : α) : α :=
  events.foldl (fun value event => event.edit handle value) value

/-- Behind the events `earlier`, the handle was returned for the value, and its slot was not
freed in the events `later` that followed. -/
structure Lasts (events earlier later : List (Event α)) (handle : Handle) (value : α) : Prop where
  events_eq : events = earlier ++ .stored handle value :: later
  kept : ∀ event ∈ later, event.frees handle.index = false

/-- The events give the handle the value: a value was stored under the handle and its slot not
freed since, and the edits since then made it what it is. -/
def Holds (events : List (Event α)) (handle : Handle) (value : α) : Prop :=
  ∃ earlier later stored, Lasts events earlier later handle stored ∧
    editedBy handle later stored = value

/-- What the events give a handle after one more event. -/
theorem holds_concat_iff {events : List (Event α)} {event : Event α} {handle : Handle}
    {value : α} :
    Holds (events ++ [event]) handle value ↔ event = .stored handle value ∨
      ∃ old, Holds events handle old ∧ event.frees handle.index = false ∧
        event.edit handle old = value := by
  constructor
  · rintro ⟨earlier, later, stored, ⟨hevents, hkept⟩, hvalue⟩
    rcases List.eq_nil_or_concat' later with rfl | ⟨rest, last, rfl⟩
    · obtain ⟨-, hevent⟩ := List.append_inj' hevents rfl
      rw [List.singleton_inj.mp hevent, ← hvalue]
      exact Or.inl rfl
    · rw [← List.cons_append, ← List.append_assoc] at hevents
      obtain ⟨hrest, hlast⟩ := List.append_inj' hevents rfl
      rw [editedBy, List.foldl_concat] at hvalue
      rw [List.singleton_inj.mp hlast]
      refine Or.inr ⟨editedBy handle rest stored, ⟨earlier, rest, stored, ⟨hrest, ?_⟩, rfl⟩,
        hkept last (by simp), hvalue⟩
      exact fun other hmem => hkept other (List.mem_append_left _ hmem)
  · rintro (rfl | ⟨old, ⟨earlier, later, stored, ⟨rfl, hkept⟩, rfl⟩, hfrees, rfl⟩)
    · exact ⟨events, [], value, ⟨rfl, by simp⟩, rfl⟩
    · refine ⟨earlier, later ++ [event], stored, ⟨by simp, ?_⟩, ?_⟩
      · intro other hmem
        rcases List.mem_append.mp hmem with hlater | hlast
        · exact hkept other hlater
        · rwa [List.mem_singleton.mp hlast]
      · rw [editedBy, List.foldl_concat, editedBy]

/-- A handle resolves to what the events give it. -/
theorem get?_ofOperations (operations : List (Operation α)) (handle : Handle) (value : α) :
    (History.ofOperations operations).arena.get? handle = some value ↔
      Holds (History.ofOperations operations).events handle value := by
  induction operations using List.reverseRecOn generalizing value with
  | nil =>
      have hempty : ¬ Holds ([] : List (Event α)) handle value := by
        rintro ⟨earlier, later, stored, ⟨hevents, -⟩, -⟩
        exact absurd hevents (by simp)
      simpa [History.ofOperations] using hempty
  | append_singleton before operation ih =>
      rw [History.ofOperations_concat]
      have hafter := (happens_perform (History.ofOperations before).arena operation).get?_iff
        handle value
      simp only [ih] at hafter
      exact hafter.trans holds_concat_iff.symm

/-- A new value never goes into the slot of a value that is still stored. -/
theorem index_allocate_ne {handle : Handle} {value : α} (hvalue : arena.get? handle = some value)
    (fresh : α) : handle.index ≠ (arena.allocate fresh).1.index := by
  intro hindex
  rw [get?_eq_some_iff] at hvalue
  obtain ⟨index, generation, next, hslot, heq⟩ | heq := arena.allocate_cases fresh
  · rw [hindex, heq, hslot] at hvalue
    exact absurd hvalue (by simp)
  · rw [hindex, heq] at hvalue
    exact absurd hvalue (by simp)

/-- Between two values in one slot, the slot was freed. -/
theorem exists_frees_between {operations : List (Operation α)}
    {earlier between later : List (Event α)} {first second : Handle} {value other : α}
    (hevents : (History.ofOperations operations).events =
      earlier ++ .stored first value :: between ++ .stored second other :: later)
    (hindex : first.index = second.index) :
    ∃ event ∈ between, event.frees first.index = true := by
  obtain ⟨before, after, hbefore, hhappens⟩ := History.exists_of_events_eq hevents
  by_contra hnone
  push Not at hnone
  have hholds : Holds (History.ofOperations before).events first (editedBy first between value) :=
    ⟨earlier, between, value, ⟨hbefore, fun event hmem => by simpa using hnone event hmem⟩, rfl⟩
  cases hhappens with
  | stored => exact index_allocate_ne ((get?_ofOperations before first _).mpr hholds) other hindex

/-- As long as a value lasts, no value is stored in its slot. -/
theorem Lasts.stored_not_mem {operations : List (Operation α)} {handle second : Handle}
    {value : α} {earlier later : List (Event α)}
    (h : Lasts (History.ofOperations operations).events earlier later handle value)
    (hindex : handle.index = second.index) (other : α) : .stored second other ∉ later := by
  intro hmem
  obtain ⟨between, rest, rfl⟩ := List.append_of_mem hmem
  obtain ⟨event, hbetween, hfrees⟩ := exists_frees_between
    (show _ = earlier ++ .stored handle value :: between ++ .stored second other :: rest by
      simpa using h.events_eq) hindex
  have hkept := h.kept event (List.mem_append_left _ hbetween)
  rw [hfrees] at hkept
  exact absurd hkept (by simp)

theorem Lasts.eq_nil_of_append {operations : List (Operation α)} {handle : Handle}
    {value other : α} {earlier between later later' : List (Event α)}
    (h : Lasts (History.ofOperations operations).events earlier later handle value)
    (h' : Lasts (History.ofOperations operations).events (earlier ++ between) later' handle other) :
    between = [] := by
  cases between with
  | nil => rfl
  | cons event between =>
      have hsplit := h.events_eq.symm.trans h'.events_eq
      rw [List.append_assoc, List.append_cancel_left_eq, List.cons_append] at hsplit
      obtain ⟨-, hlater⟩ := List.cons.inj hsplit
      exact absurd (by simp [hlater]) (h.stored_not_mem (Eq.refl handle.index) other)

/-- At most one allocation is the one that a handle stands for. -/
theorem Lasts.earlier_eq {operations : List (Operation α)} {handle : Handle} {value other : α}
    {earlier later earlier' later' : List (Event α)}
    (h : Lasts (History.ofOperations operations).events earlier later handle value)
    (h' : Lasts (History.ofOperations operations).events earlier' later' handle other) :
    earlier = earlier' := by
  have hsplit := h.events_eq.symm.trans h'.events_eq
  rcases List.append_eq_append_iff.mp hsplit with ⟨between, rfl, -⟩ | ⟨between, rfl, -⟩
  · rw [h.eq_nil_of_append h', List.append_nil]
  · rw [h'.eq_nil_of_append h, List.append_nil]

/-! ### Generations -/

/-- The generation of a slot.  A slot that has not been used is in its first generation. -/
def generation (arena : Arena α) (slot : Nat) : UInt32 :=
  ((arena.slots[slot]?).map Slot.generation).getD 0

theorem generation_setIfInBounds {index : Nat} (hindex : index < arena.slots.size)
    (slot : Slot α) (freeHead : Option Nat) (size other : Nat) :
    (⟨arena.slots.setIfInBounds index slot, freeHead, size⟩ : Arena α).generation other =
      if other = index then slot.generation else arena.generation other := by
  by_cases heq : other = index
  · simp [generation, heq, hindex]
  · simp [generation, heq, Array.getElem?_setIfInBounds_ne (Ne.symm heq)]

theorem generation_allocate_fst (arena : Arena α) (value : α) :
    (arena.allocate value).1.generation = arena.generation (arena.allocate value).1.index := by
  obtain ⟨index, stamp, next, hslot, heq⟩ | heq := arena.allocate_cases value
  · simp [heq, generation, hslot, Slot.generation]
  · simp [heq, generation]

theorem generation_allocate (arena : Arena α) (value : α) (slot : Nat) :
    (arena.allocate value).2.generation slot = arena.generation slot := by
  obtain ⟨index, stamp, next, hslot, heq⟩ | heq := arena.allocate_cases value
  · rw [heq, generation_setIfInBounds (Array.getElem?_eq_some_iff.mp hslot).choose]
    by_cases hindex : slot = index
    · simp [hindex, generation, hslot, Slot.generation]
    · simp [hindex]
  · simp only [heq, generation, Array.getElem?_push]
    by_cases hindex : slot = arena.slots.size
    · simp [hindex, Slot.generation]
    · simp [hindex]

theorem generation_of_get? {handle : Handle} {value : α} (h : arena.get? handle = some value) :
    arena.generation handle.index = handle.generation := by
  simp [generation, (arena.get?_eq_some_iff).mp h, Slot.generation]

/-- An event that frees a slot moves it to its next generation, and no other event changes the
generation of a slot. -/
theorem Happens.generation_eq {event : Event α} (h : arena.Happens event after) (slot : Nat) :
    after.generation slot = arena.generation slot + if event.frees slot then 1 else 0 := by
  cases h with
  | stored value => simp [generation_allocate, Event.frees]
  | @edited handle value f hvalue =>
      have hbound := arena.index_lt_of_get? hvalue
      simp only [modify, hvalue, generation_setIfInBounds hbound, Event.frees]
      by_cases heq : slot = handle.index
      · simp [heq, generation_of_get? hvalue, Slot.generation]
      · simp [heq]
  | @freed handle value hvalue =>
      have hbound := arena.index_lt_of_get? hvalue
      simp only [erase, remove, hvalue, generation_setIfInBounds hbound, Event.frees]
      by_cases heq : slot = handle.index
      · simp [heq, generation_of_get? hvalue, Slot.generation]
      · simp [heq, Ne.symm heq]
  | refused _ => simp [Event.frees]

/-- The generation of a slot is the number of times that it was freed, as a word. -/
theorem generation_ofOperations (operations : List (Operation α)) (slot : Nat) :
    (History.ofOperations operations).arena.generation slot =
      UInt32.ofNat ((History.ofOperations operations).events.countP (Event.frees slot)) := by
  induction operations using List.reverseRecOn with
  | nil => rfl
  | append_singleton before operation ih =>
      rw [History.ofOperations_concat, History.step,
        (happens_perform _ operation).generation_eq, ih, List.countP_append, UInt32.ofNat_add]
      cases h : Event.frees slot ((History.ofOperations before).arena.perform operation).1 <;>
        simp [h]

theorem ofNat_add_eq_iff (count more : Nat) :
    UInt32.ofNat (count + more) = UInt32.ofNat count ↔ 2 ^ 32 ∣ more := by
  rw [← UInt32.toNat_inj, UInt32.toNat_ofNat', UInt32.toNat_ofNat']
  omega

/-- A handle carries the number of times that its slot had been freed, as a word. -/
theorem generation_of_events_eq {operations : List (Operation α)} {handle : Handle} {value : α}
    {earlier later : List (Event α)}
    (hevents : (History.ofOperations operations).events =
      earlier ++ .stored handle value :: later) :
    handle.generation = UInt32.ofNat (earlier.countP (Event.frees handle.index)) := by
  obtain ⟨before, after, rfl, hhappens⟩ := History.exists_of_events_eq hevents
  cases hhappens with
  | stored => rw [generation_allocate_fst, generation_ofOperations]

/-- Two allocations return the same handle when they use the same slot and it was freed a
multiple of `2 ^ 32` times between them. -/
theorem eq_iff_dvd_countP {operations : List (Operation α)}
    {earlier between later : List (Event α)} {first second : Handle} {value other : α}
    (hevents : (History.ofOperations operations).events =
      earlier ++ .stored first value :: between ++ .stored second other :: later) :
    first = second ↔ first.index = second.index ∧
      2 ^ 32 ∣ between.countP (Event.frees first.index) := by
  have hfirst : first.generation = UInt32.ofNat (earlier.countP (Event.frees first.index)) :=
    generation_of_events_eq (hevents.trans (List.append_assoc _ _ _))
  have hsecond := generation_of_events_eq hevents
  rw [← ofNat_add_eq_iff (earlier.countP (Event.frees first.index)), ← hfirst]
  rw [List.countP_append, List.countP_cons_of_neg (by simp [Event.frees])] at hsecond
  constructor
  · rintro rfl
    exact ⟨rfl, hsecond.symm⟩
  · rintro ⟨hindex, hgeneration⟩
    rw [← hindex, hgeneration] at hsecond
    cases first
    cases second
    simp_all

/-- A handle is not returned again before its slot was freed `2 ^ 32` times. -/
theorem le_countP_of_stored_again {operations : List (Operation α)}
    {earlier between later : List (Event α)} {handle : Handle} {value other : α}
    (hevents : (History.ofOperations operations).events =
      earlier ++ .stored handle value :: between ++ .stored handle other :: later) :
    2 ^ 32 ≤ between.countP (Event.frees handle.index) := by
  have hdvd := ((eq_iff_dvd_countP hevents).mp rfl).2
  exact Nat.le_of_dvd (List.countP_pos_iff.mpr (exists_frees_between hevents rfl)) hdvd

/-! ### The table of allocations -/

/-- The arena is a table of its allocations. -/
structure History.IsTable (history : History α) : Prop where
  /-- A handle resolves to the value that it was returned for and that was not removed since,
  with the edits made through the handle. -/
  get?_eq_some_iff : ∀ handle value, history.arena.get? handle = some value ↔
    ∃ earlier later stored, Lasts history.events earlier later handle stored ∧
      editedBy handle later stored = value
  /-- At most one allocation is the one that a handle stands for. -/
  earlier_eq : ∀ {handle value other earlier later earlier' later'},
    Lasts history.events earlier later handle value →
    Lasts history.events earlier' later' handle other → earlier = earlier'
  /-- An operation on a handle does not change what other handles resolve to. -/
  get?_of_ne : ∀ operation handle, (history.arena.perform operation).1.handle ≠ handle →
    (history.arena.perform operation).2.get? handle = history.arena.get? handle
  /-- What is removed and returned is the value that the handle resolves to. -/
  remove_eq : ∀ handle, (history.arena.remove handle).1 = history.arena.get? handle
  /-- Where there is nothing to remove, nothing changes. -/
  remove_of_none : ∀ handle, history.arena.get? handle = none →
    (history.arena.remove handle).2 = history.arena
  /-- Two allocations return the same handle when they use the same slot and it was freed a
  multiple of `2 ^ 32` times between them. -/
  stored_eq_iff : ∀ {first second value other earlier between later}, history.events =
      earlier ++ .stored first value :: between ++ .stored second other :: later →
    (first = second ↔
      first.index = second.index ∧ 2 ^ 32 ∣ between.countP (Event.frees first.index))
  /-- A handle is not returned again before its slot was freed `2 ^ 32` times. -/
  le_of_stored_again : ∀ {handle value other earlier between later}, history.events =
      earlier ++ .stored handle value :: between ++ .stored handle other :: later →
    2 ^ 32 ≤ between.countP (Event.frees handle.index)

/-- **Every history of an arena is a table of its allocations.** -/
theorem isTable_ofOperations (operations : List (Operation α)) :
    (History.ofOperations operations).IsTable where
  get?_eq_some_iff := get?_ofOperations operations
  earlier_eq := Lasts.earlier_eq
  get?_of_ne operation _ hne := (happens_perform _ operation).get?_of_ne hne
  remove_eq handle := remove_fst _ handle
  remove_of_none _ := remove_snd_of_none
  stored_eq_iff := eq_iff_dvd_countP
  le_of_stored_again := le_countP_of_stored_again

end Arena

end DomQuery
