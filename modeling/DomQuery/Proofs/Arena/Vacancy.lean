import DomQuery.Proofs.Arena.History
import DomQuery.Proofs.Arena.Size
import Mathlib.Order.Bounds.Basic

/-!
# The vacant slots of an arena

The arena names the vacant slot to be used next, and every vacant slot names the one after it.
Nothing but the links themselves says that this chain ends, that it passes no slot twice, or that
it passes every vacant slot, and a link that is wrong would hand out a slot in use or lose one.

`Threads` says that a list is this chain, and every event changes the list at its front alone
(`Happens.threads`): storing a value takes the first slot off, and removing one puts its slot in
front.  Hence the slots of the chain stand in the order in which they were freed, the last one
first, and a value goes into a new slot only when no slot is vacant.  So there are as many slots as
there were values at the time when there were most of them (`History.isTidy_ofOperations`).

Slots are numbered without a bound here, so nothing is assumed about their number.
-/

namespace DomQuery.Arena

variable {α : Type} {arena after : Arena α} {slots : Array (Slot α)} {free rest : List Nat}
  {index : Nat}

/-! ### The values listed -/

theorem mem_toList_iff (arena : Arena α) (handle : Handle) (value : α) :
    (handle, value) ∈ arena.toList ↔ arena.get? handle = some value := by
  constructor
  · intro h
    obtain ⟨⟨slot, index⟩, hmem, hentry⟩ := List.mem_filterMap.mp h
    have hslot := List.mem_zipIdx_iff_getElem?.mp hmem
    cases slot with
    | vacant generation next => exact absurd hentry (by simp [Slot.entry?])
    | occupied generation stored =>
        cases hentry
        rw [get?_eq_some_iff, ← Array.getElem?_toList]
        exact hslot
  · exact arena.mem_toList

/-- The values are listed in the order of their slots. -/
theorem pairwise_toList (arena : Arena α) :
    arena.toList.Pairwise fun first second => first.1.index < second.1.index := by
  have hnumbers : arena.slots.toList.zipIdx.Pairwise fun first second => first.2 < second.2 := by
    rw [← List.pairwise_map (f := Prod.snd) (R := (· < ·)), List.zipIdx_map_snd]
    exact List.pairwise_lt_range'
  have hindex : ∀ {slot : Slot α} {number : Nat} {entry : Handle × α},
      slot.entry? number = some entry → entry.1.index = number := by
    intro slot number entry hentry
    cases slot with
    | vacant generation next => exact absurd hentry (by simp [Slot.entry?])
    | occupied generation value =>
        cases hentry
        rfl
  refine hnumbers.filterMap _ fun first second hlt entry hentry other hother => ?_
  rw [hindex hentry, hindex hother]
  exact hlt

/-- The slot holds no value. -/
def IsVacant (arena : Arena α) (index : Nat) : Prop :=
  ∃ generation next, arena.slots[index]? = some (.vacant generation next)

/-- The links of vacant slots lead from the start along the listed slots, and end behind them. -/
inductive Chain (slots : Array (Slot α)) : Option Nat → List Nat → Prop where
  | nil : Chain slots none []
  | cons {index : Nat} {generation : UInt32} {next : Option Nat} {rest : List Nat} :
      slots[index]? = some (.vacant generation next) → Chain slots next rest →
      Chain slots (some index) (index :: rest)

/-- A chain is told by the slots that it passes. -/
theorem Chain.congr {start : Option Nat} (h : Chain slots start free) {other : Array (Slot α)}
    (hsame : ∀ index ∈ free, other[index]? = slots[index]?) : Chain other start free := by
  induction h with
  | nil => exact .nil
  | cons hslot _ ih =>
      refine .cons ((hsame _ (by simp)).trans hslot) (ih fun index hindex => ?_)
      exact hsame index (by simp [hindex])

/-- A slot that the chain does not pass can be written. -/
theorem Chain.setIfInBounds {start : Option Nat} (h : Chain slots start free)
    (hindex : index ∉ free) (slot : Slot α) : Chain (slots.setIfInBounds index slot) start free := by
  refine h.congr fun other hother => ?_
  have hne : index ≠ other := fun heq => hindex (heq ▸ hother)
  exact Array.getElem?_setIfInBounds_ne hne

/-- The list is the chain of the vacant slots: it passes each of them once, and no other slot. -/
structure Threads (arena : Arena α) (free : List Nat) : Prop where
  chain : Chain arena.slots arena.freeHead free
  nodup : free.Nodup
  mem_iff : ∀ index, index ∈ free ↔ arena.IsVacant index

theorem not_isVacant_of_get? {handle : Handle} {value : α}
    (h : arena.get? handle = some value) : ¬ arena.IsVacant handle.index := by
  rintro ⟨generation, next, hslot⟩
  rw [get?_eq_some_iff, hslot] at h
  exact absurd h (by simp)

theorem Threads.not_mem (h : arena.Threads free) {handle : Handle} {value : α}
    (hvalue : arena.get? handle = some value) : handle.index ∉ free :=
  mt (h.mem_iff handle.index).mp (not_isVacant_of_get? hvalue)

theorem isVacant_setIfInBounds (hindex : index < arena.slots.size) (slot : Slot α)
    (freeHead : Option Nat) (size other : Nat) :
    (⟨arena.slots.setIfInBounds index slot, freeHead, size⟩ : Arena α).IsVacant other ↔
      if other = index then slot.isOccupied = false else arena.IsVacant other := by
  unfold IsVacant
  by_cases heq : other = index
  · subst heq
    cases slot <;> simp [hindex, Slot.isOccupied]
  · simp [heq, Array.getElem?_setIfInBounds_ne (Ne.symm heq)]

theorem isVacant_push (value : α) (freeHead : Option Nat) (size other : Nat) :
    (⟨arena.slots.push (.occupied 0 value), freeHead, size⟩ : Arena α).IsVacant other ↔
      arena.IsVacant other := by
  unfold IsVacant
  simp only [Array.getElem?_push]
  by_cases heq : other = arena.slots.size <;> simp [heq]

/-! ### What an event does to the chain -/

namespace Threads

theorem empty : (Arena.empty : Arena α).Threads [] where
  chain := .nil
  nodup := List.nodup_nil
  mem_iff index := by simp [IsVacant, Arena.empty]

/-- Without a vacant slot, a value goes into a new one. -/
theorem allocate_of_nil (h : arena.Threads []) (value : α) :
    arena.allocate value = (⟨arena.slots.size, 0⟩,
      ⟨arena.slots.push (.occupied 0 value), arena.freeHead, arena.size + 1⟩) := by
  have hhead : arena.freeHead = none := by
    cases hchain : arena.freeHead with
    | none => rfl
    | some index =>
        have := h.chain
        rw [hchain] at this
        cases this
  rw [allocate, hhead]

/-- The first slot of the chain is used next, and the chain goes on behind it. -/
theorem allocate_of_cons (h : arena.Threads (index :: rest)) (value : α) :
    ∃ generation next, arena.slots[index]? = some (.vacant generation next) ∧
      Chain arena.slots next rest ∧
      arena.allocate value = (⟨index, generation⟩,
        ⟨arena.slots.setIfInBounds index (.occupied generation value), next, arena.size + 1⟩) := by
  obtain ⟨hchain, -, -⟩ := h
  generalize hhead : arena.freeHead = start at hchain
  cases hchain with
  | @cons _ generation next _ hslot hrest =>
      refine ⟨generation, next, hslot, hrest, ?_⟩
      rw [allocate, hhead]
      dsimp only
      rw [hslot]

theorem allocate (h : arena.Threads free) (value : α) :
    (arena.allocate value).2.Threads free.tail := by
  cases free with
  | nil =>
      rw [h.allocate_of_nil]
      refine ⟨?_, List.nodup_nil, fun index => ?_⟩
      · exact h.chain.congr (by simp)
      · rw [isVacant_push]
        exact h.mem_iff index
  | cons index rest =>
      obtain ⟨generation, next, hslot, hrest, heq⟩ := h.allocate_of_cons value
      obtain ⟨hnotin, hnodup⟩ := List.nodup_cons.mp h.nodup
      have hbound : index < arena.slots.size := (Array.getElem?_eq_some_iff.mp hslot).choose
      rw [heq, List.tail_cons]
      refine ⟨hrest.setIfInBounds hnotin _, hnodup, fun other => ?_⟩
      rw [isVacant_setIfInBounds hbound, ← h.mem_iff]
      by_cases hother : other = index
      · simp [hother, hnotin, Slot.isOccupied]
      · simp [hother]

theorem modify (h : arena.Threads free) (handle : Handle) (f : α → α) :
    (arena.modify handle f).Threads free := by
  cases hvalue : arena.get? handle with
  | none => rwa [modify_of_none hvalue]
  | some value =>
      have hnotin := h.not_mem hvalue
      simp only [Arena.modify, hvalue]
      refine ⟨h.chain.setIfInBounds hnotin _, h.nodup, fun other => ?_⟩
      rw [isVacant_setIfInBounds (arena.index_lt_of_get? hvalue), ← h.mem_iff]
      by_cases hother : other = handle.index
      · simp [hother, hnotin, Slot.isOccupied]
      · simp [hother]

/-- The slot of a removed value is put in front. -/
theorem erase (h : arena.Threads free) {handle : Handle} {value : α}
    (hvalue : arena.get? handle = some value) :
    (arena.erase handle).Threads (handle.index :: free) := by
  have hbound := arena.index_lt_of_get? hvalue
  have hnotin := h.not_mem hvalue
  simp only [Arena.erase, remove, hvalue]
  refine ⟨.cons (Array.getElem?_setIfInBounds_self_of_lt hbound) (h.chain.setIfInBounds hnotin _),
    List.nodup_cons.mpr ⟨hnotin, h.nodup⟩, fun other => ?_⟩
  rw [isVacant_setIfInBounds hbound, List.mem_cons, h.mem_iff]
  by_cases hother : other = handle.index
  · simp [hother, Slot.isOccupied]
  · simp [hother]

end Threads

/-- The chain after the event. -/
def Event.rethread (free : List Nat) : Event α → List Nat
  | stored _ _ => free.tail
  | edited _ _ => free
  | freed handle _ => handle.index :: free
  | refused _ => free

theorem Happens.threads {event : Event α} (h : arena.Happens event after)
    (hfree : arena.Threads free) : after.Threads (event.rethread free) := by
  cases h with
  | stored value => exact hfree.allocate value
  | edited f _ => exact hfree.modify _ f
  | freed hvalue => exact hfree.erase hvalue
  | refused _ => exact hfree

theorem Happens.isCounted {event : Event α} (h : arena.Happens event after)
    (hcounted : arena.IsCounted) : after.IsCounted := by
  cases h with
  | stored value => exact hcounted.allocate value
  | edited f _ =>
      rw [IsCounted, tally_modify]
      exact hcounted
  | freed _ => exact hcounted.erase _
  | refused _ => exact hcounted

/-! ### The number of slots -/

theorem size_slots_modify (arena : Arena α) (handle : Handle) (f : α → α) :
    (arena.modify handle f).slots.size = arena.slots.size := by
  unfold modify
  split <;> simp

theorem size_slots_erase (arena : Arena α) (handle : Handle) :
    (arena.erase handle).slots.size = arena.slots.size := by
  unfold erase remove
  split <;> simp

theorem size_modify (arena : Arena α) (handle : Handle) (f : α → α) :
    (arena.modify handle f).size = arena.size :=
  congrArg Prod.fst (tally_modify arena handle f)

/-- The slots are those in use and those in the chain. -/
theorem Happens.size_slots {event : Event α} (h : arena.Happens event after)
    (hfree : arena.Threads free) (hcounted : arena.IsCounted)
    (hslots : arena.slots.size = arena.size + free.length) :
    after.slots.size = after.size + (event.rethread free).length := by
  cases h with
  | stored value =>
      cases free with
      | nil =>
          rw [hfree.allocate_of_nil, Array.size_push, hslots]
          rfl
      | cons index rest =>
          obtain ⟨generation, next, -, -, heq⟩ := hfree.allocate_of_cons value
          rw [List.length_cons] at hslots
          rw [heq, Array.size_setIfInBounds, hslots, Event.rethread, List.tail_cons]
          dsimp only
          omega
  | edited f _ => rwa [size_slots_modify, size_modify]
  | @freed handle value hvalue =>
      have hsize := (hcounted.erase_of_contains (by simp [hvalue] : arena.contains handle = true)).2
      rw [size_slots_erase, hslots, ← hsize, Event.rethread, List.length_cons]
      omega
  | refused _ => exact hslots

/-- How many events there were when the slot was last freed, or `0` if it never was. -/
def freedAt (events : List (Event α)) (slot : Nat) : Nat :=
  events.length - events.reverse.findIdx (Event.frees slot)

theorem freedAt_concat (events : List (Event α)) (event : Event α) (slot : Nat) :
    freedAt (events ++ [event]) slot =
      if event.frees slot then events.length + 1 else freedAt events slot := by
  rw [freedAt, List.reverse_append, List.reverse_singleton, List.singleton_append,
    List.findIdx_cons, List.length_append, List.length_singleton]
  cases event.frees slot <;> simp [freedAt]

theorem freedAt_le (events : List (Event α)) (slot : Nat) : freedAt events slot ≤ events.length :=
  Nat.sub_le _ _

/-- The slots are listed with the one freed last first. -/
def LastFreedFirst (events : List (Event α)) (free : List Nat) : Prop :=
  free.Pairwise fun first second => freedAt events second < freedAt events first

theorem LastFreedFirst.concat {events : List (Event α)} (h : LastFreedFirst events free)
    {event : Event α} (hkept : ∀ slot ∈ free, event.frees slot = false) :
    LastFreedFirst (events ++ [event]) free := by
  refine h.imp_of_mem fun {first second} hfirst hsecond hlt => ?_
  rw [freedAt_concat, freedAt_concat, hkept first hfirst, hkept second hsecond]
  exact hlt

theorem Happens.lastFreedFirst {event : Event α} (h : arena.Happens event after)
    (hfree : arena.Threads free) {events : List (Event α)} (hlast : LastFreedFirst events free) :
    LastFreedFirst (events ++ [event]) (event.rethread free) := by
  cases h with
  | stored value => exact (hlast.concat fun _ _ => rfl).sublist (List.tail_sublist free)
  | edited f _ => exact hlast.concat fun _ _ => rfl
  | @freed handle value hvalue =>
      have hnotin := hfree.not_mem hvalue
      have hkept : ∀ slot ∈ free, (Event.freed handle value).frees slot = false := by
        intro slot hslot
        rw [Event.frees, beq_eq_false_iff_ne]
        rintro rfl
        exact hnotin hslot
      refine List.pairwise_cons.mpr ⟨fun slot hslot => ?_, hlast.concat hkept⟩
      rw [freedAt_concat, freedAt_concat, hkept slot hslot, Event.frees, beq_self_eq_true]
      exact Nat.lt_succ_of_le (freedAt_le events slot)
  | refused _ => exact hlast.concat fun _ _ => rfl

/-! ### Histories -/

namespace History

variable {history : History α}

/-- The list is the chain of the vacant slots, in the order in which they were freed, and together
with the slots in use these are all slots. -/
structure Keeps (history : History α) (free : List Nat) : Prop where
  threads : history.arena.Threads free
  counted : history.arena.IsCounted
  slots_eq : history.arena.slots.size = history.arena.size + free.length
  lastFreedFirst : LastFreedFirst history.events free

theorem Keeps.step (h : history.Keeps free) (operation : Operation α) :
    ∃ free', (history.step operation).Keeps free' := by
  have hhappens := happens_perform history.arena operation
  exact ⟨_, hhappens.threads h.threads, hhappens.isCounted h.counted,
    hhappens.size_slots h.threads h.counted h.slots_eq,
    hhappens.lastFreedFirst h.threads h.lastFreedFirst⟩

/-- A value goes into the vacant slot that was freed last. -/
theorem Keeps.allocate (h : history.Keeps free) (value : α) (hne : free ≠ []) :
    history.arena.IsVacant (history.arena.allocate value).1.index ∧
      ∀ other, history.arena.IsVacant other → other ≠ (history.arena.allocate value).1.index →
        freedAt history.events other <
          freedAt history.events (history.arena.allocate value).1.index := by
  cases free with
  | nil => exact absurd rfl hne
  | cons index rest =>
      obtain ⟨generation, next, hslot, -, heq⟩ := h.threads.allocate_of_cons value
      rw [heq]
      refine ⟨⟨generation, next, hslot⟩, fun other hother hdiffers => ?_⟩
      have hmem := (h.threads.mem_iff other).mpr hother
      exact (List.pairwise_cons.mp h.lastFreedFirst).1 other
        ((List.mem_cons.mp hmem).resolve_left hdiffers)

/-- Of two slots that were freed, the second is used first. -/
example :
    let freed := (ofOperations [.allocate 'a', .allocate 'b', .allocate 'c', .remove ⟨0, 0⟩,
      .remove ⟨1, 0⟩]).arena
    ((freed.allocate 'd').1, ((freed.allocate 'd').2.allocate 'e').1) = (⟨1, 1⟩, ⟨0, 1⟩) := by
  decide +kernel

end History

end DomQuery.Arena
